import Posonly.Files.Lookup
import Posonly.Proofs.Path

/-!
# Where paths lead

In a tree whose nodes lie in directories, an absolute path leads to the place it spells, as far as
no link is in its way (`locate_absolute`). A path without needless components leads to the place it
spells or nowhere (`locate_target`), and a path whose last name no link has leads to a place with
this name (`locate_name`).
-/

open List Posonly.Path

namespace Posonly

/-- A name that a path can hold. -/
structure Spelled (n : Text) : Prop extends IsName n where
  noZero : 0 ∉ n
  paired : n.Paired

instance (n : Text) : Decidable (Spelled n) :=
  decidable_of_iff (IsName n ∧ 0 ∉ n ∧ n.Paired)
    ⟨fun ⟨h₁, h₂, h₃⟩ => ⟨h₁, h₂, h₃⟩, fun h => ⟨h.1, h.2, h.3⟩⟩

namespace FileTree

/-- A tree whose nodes have proper names and lie in directories. -/
structure WellFormed (t : FileTree) : Prop where
  spelled {place : Place} {node : FileNode} :
    t.get? place = some node → ∀ n ∈ place, Spelled n ∧ pathBytes n ≤ longestName
  parent {place : Place} {n : Text} {node : FileNode} :
    t.get? (place ++ [n]) = some node → t.get? place = some .directory

/-- Directories lie in directories. -/
def Nested (t : FileTree) : Prop :=
  ∀ place n, t.get? (place ++ [n]) = some .directory → t.get? place = some .directory

/-- Nothing on the way to a place is a link. -/
def NoLink (t : FileTree) (place : Place) : Prop :=
  ∀ q, q <+: place → ∀ target, t.get? q ≠ some (.link target)

/-- What stands in one tree still stands in another, where only the bytes of files may differ. -/
structure Steady (t t' : FileTree) : Prop where
  file {q : Place} {bytes : Bytes} : t.get? q = some (.file bytes) →
    ∃ bytes', t'.get? q = some (.file bytes')
  other {q : Place} {node : FileNode} : t.get? q = some node → (∀ bytes, node ≠ .file bytes) →
    t'.get? q = some node

theorem Steady.refl (t : FileTree) : t.Steady t where
  file h := ⟨_, h⟩
  other h _ := h

variable {t : FileTree} {place q : Place} {node : FileNode}

theorem forall_mem_concat {α : Type} {p : α → Prop} {l : List α} {a : α}
    (hl : ∀ b ∈ l, p b) (ha : p a) : ∀ b ∈ l ++ [a], p b :=
  forall_mem_append.mpr ⟨hl, forall_mem_singleton.mpr ha⟩

/-! ## Nodes of a tree -/

@[simp] theorem get?_nil (t : FileTree) : t.get? [] = some .directory := rfl

theorem find?_filter_ne (nodes : List (Place × FileNode)) (place q : Place) :
    (nodes.filter fun e => e.1 != place).find? (fun e => e.1 == q) =
      if q = place then none else nodes.find? fun e => e.1 == q := by
  split
  · rename_i heq
    rw [find?_eq_none]
    intro e he
    rw [heq]
    simpa using (mem_filter.mp he).2
  · rename_i hne
    simp only [find?_filter]
    congr 1
    funext e
    by_cases heq : e.1 = q
    · simp [heq, hne]
    · simp [heq]

theorem get?_erase (hplace : place ≠ []) (q : Place) :
    (t.erase place).get? q = if q = place then none else t.get? q := by
  by_cases hq : q = []
  · rw [hq, get?_nil, get?_nil, if_neg hplace.symm]
  · have hempty : ¬ q.isEmpty = true := by simpa using hq
    rw [get?, if_neg hempty, erase, find?_filter_ne, get?, if_neg hempty]
    split <;> rfl

theorem get?_put (hplace : place ≠ []) (q : Place) :
    (t.put place node).get? q = if q = place then some node else t.get? q := by
  by_cases hq : q = []
  · rw [hq, get?_nil, get?_nil, if_neg hplace.symm]
  · have hempty : ¬ q.isEmpty = true := by simpa using hq
    rw [get?, if_neg hempty, put, find?_append, find?_filter_ne, get?, if_neg hempty]
    split
    · rename_i heq
      simp [heq]
    · rename_i hne
      simp [Ne.symm hne]

theorem exists_mem_nodes (hnode : t.get? place = some node) (hne : place ≠ []) :
    ∃ entry ∈ t.nodes, entry.1 = place := by
  rw [get?, if_neg (by simpa using hne), Option.map_eq_some_iff] at hnode
  obtain ⟨entry, hfound, _⟩ := hnode
  exact ⟨entry, mem_of_find?_eq_some hfound, by simpa using find?_some hfound⟩

theorem wellFormed_of_nodes (h : ∀ entry ∈ t.nodes,
    (∀ n ∈ entry.1, Spelled n ∧ pathBytes n ≤ longestName) ∧
      t.get? entry.1.dropLast = some .directory) : t.WellFormed := by
  constructor
  · intro place node hnode n hn
    obtain ⟨entry, hmem, rfl⟩ := exists_mem_nodes hnode (ne_nil_of_mem hn)
    exact (h entry hmem).1 n hn
  · intro place n node hnode
    obtain ⟨entry, hmem, heq⟩ := exists_mem_nodes hnode (by simp)
    have hparent := (h entry hmem).2
    rwa [heq, dropLast_concat] at hparent

/-- **Above whatever stands in a tree stand directories.** -/
theorem WellFormed.directory_above (h : t.WellFormed) (hnode : t.get? place = some node)
    (hq : q <+: place) (hne : q ≠ place) : t.get? q = some .directory := by
  obtain ⟨rest, rfl⟩ := hq
  induction rest using List.reverseRecOn generalizing node with
  | nil => exact absurd (append_nil q).symm hne
  | append_singleton rest n ih =>
    rw [← append_assoc] at hnode
    have hparent := h.parent hnode
    by_cases hnil : rest = []
    · rwa [hnil, append_nil] at hparent
    · exact ih hparent (by simpa using Ne.symm hnil)

theorem WellFormed.nested (h : t.WellFormed) : t.Nested := fun _ _ hnode => h.parent hnode

theorem WellFormed.noLink (h : t.WellFormed) (hnode : t.get? place = some node)
    (hlink : ∀ target, node ≠ .link target) : t.NoLink place := by
  intro q hq target hq'
  by_cases heq : q = place
  · rw [heq, hnode] at hq'
    exact hlink target (Option.some.inj hq')
  · rw [h.directory_above hnode hq heq] at hq'
    cases hq'

/-! ## One name -/

/-- A name that leads down. -/
structure Downward (name : Text) : Prop where
  nonblank : (name.isEmpty || name == [dot]) = false
  notUp : (name == up) = false
  short : pathBytes name ≤ longestName

section

variable {followLast : Bool} {name : Text} {rest : List Text} {next : Place}

theorem Downward.of_isName (h : IsName name) (hshort : pathBytes name ≤ longestName) :
    Downward name :=
  ⟨by simp [h.nonempty, h.notDot], by simp [h.notUp], hshort⟩

theorem Downward.isName (h : Downward name) (hslash : slash ∉ name) : IsName name where
  nonempty heq := by simpa [heq] using h.nonblank
  notDot heq := by simpa [heq] using h.nonblank
  notUp heq := by simpa [heq] using h.notUp
  noSlash := hslash

theorem downward_cases (name : Text) : (name.isEmpty || name == [dot]) = true ∨
      (name.isEmpty || name == [dot]) = false ∧ ((name == up) = true ∨
        (name == up) = false ∧ longestName < pathBytes name) ∨ Downward name := by
  by_cases hblank : (name.isEmpty || name == [dot]) = true
  · exact .inl hblank
  rw [Bool.not_eq_true] at hblank
  by_cases hup : (name == up) = true
  · exact .inr (.inl ⟨hblank, .inl hup⟩)
  rw [Bool.not_eq_true] at hup
  by_cases hlong : longestName < pathBytes name
  · exact .inr (.inl ⟨hblank, .inr ⟨hup, hlong⟩⟩)
  · exact .inr (.inr ⟨hblank, hup, Nat.not_lt.mp hlong⟩)

theorem walk_blank (hdir : t.get? place = some .directory)
    (hblank : (name.isEmpty || name == [dot]) = true) :
    t.walk followLast place (name :: rest) = t.walk followLast place rest := by
  rw [FileTree.walk, hdir]
  dsimp only
  rw [if_pos hblank]

theorem walk_up (hdir : t.get? place = some .directory)
    (hblank : (name.isEmpty || name == [dot]) = false) (hup : (name == up) = true) :
    t.walk followLast place (name :: rest) = t.walk followLast place.dropLast rest := by
  rw [FileTree.walk, hdir]
  dsimp only
  rw [hblank, if_neg (by simp), if_pos hup]

theorem walk_long (hdir : t.get? place = some .directory)
    (hblank : (name.isEmpty || name == [dot]) = false) (hup : (name == up) = false)
    (hlong : longestName < pathBytes name) :
    t.walk followLast place (name :: rest) = .error .nameTooLong := by
  rw [FileTree.walk, hdir]
  dsimp only
  rw [hblank, if_neg (by simp), hup, if_neg (by simp), if_pos hlong]

section

variable (hdir : t.get? place = some .directory) (hname : Downward name)

include hdir hname

theorem walk_missing (hnone : t.get? (place ++ [name]) = none) (hrest : rest ≠ []) :
    t.walk followLast place (name :: rest) = .error .noEntry := by
  rw [FileTree.walk, hdir]
  dsimp only
  rw [hname.nonblank, if_neg (by simp), hname.notUp, if_neg (by simp),
    if_neg (Nat.not_lt.mpr hname.short), hnone]
  dsimp only
  rw [if_neg (by simpa using hrest)]

theorem walk_link {target : Text} (hlink : t.get? (place ++ [name]) = some (.link target))
    (hrest : rest ≠ [] ∨ followLast = true) :
    t.walk followLast place (name :: rest) =
      .ok (.sentOn (if isAbsolute target then [] else place)
        (components target ++ rest)) := by
  rw [FileTree.walk, hdir]
  dsimp only
  rw [hname.nonblank, if_neg (by simp), hname.notUp, if_neg (by simp),
    if_neg (Nat.not_lt.mpr hname.short), hlink]
  dsimp only
  rw [if_neg]
  rintro hend
  rw [Bool.and_eq_true, List.isEmpty_iff, Bool.not_eq_true'] at hend
  rcases hrest with hrest | hrest
  · exact hrest hend.1
  · rw [hrest] at hend
    cases hend.2

theorem walk_last
    (hlink : followLast = true → ∀ target, t.get? (place ++ [name]) ≠ some (.link target)) :
    t.walk followLast place [name] =
      .ok (.arrived ⟨place ++ [name], t.get? (place ++ [name])⟩) := by
  rw [FileTree.walk, hdir]
  dsimp only
  rw [hname.nonblank, if_neg (by simp), hname.notUp, if_neg (by simp),
    if_neg (Nat.not_lt.mpr hname.short)]
  cases hnode : t.get? (place ++ [name]) with
  | none => rfl
  | some node =>
    cases node with
    | file bytes | directory => dsimp only; rw [FileTree.walk, hnode]
    | link target =>
      cases followLast with
      | true => exact absurd hnode (hlink rfl target)
      | false => rfl

theorem walk_through {node : FileNode} (hnode : t.get? (place ++ [name]) = some node)
    (hlink : ∀ target, node ≠ .link target) :
    t.walk followLast place (name :: rest) = t.walk followLast (place ++ [name]) rest := by
  rw [FileTree.walk, hdir]
  dsimp only
  rw [hname.nonblank, if_neg (by simp), hname.notUp, if_neg (by simp),
    if_neg (Nat.not_lt.mpr hname.short), hnode]
  cases node with
  | file bytes | directory => rfl
  | link target => exact absurd rfl (hlink target)

end

theorem walk_closed (hdir : t.get? place ≠ some .directory) :
    t.walk followLast place (name :: rest) =
      .error (if t.get? place = none then .noEntry else .notDirectory) := by
  rw [FileTree.walk]
  cases hnode : t.get? place with
  | none => rfl
  | some node =>
    cases node with
    | file bytes => rfl
    | directory => exact absurd hnode hdir
    | link target => rfl

/-- A name leads on from a directory without a link: it is blank, leads up or is that of a
directory. -/
inductive Passes (t : FileTree) (place : Place) (name : Text) : Place → Prop where
  | blank (h : (name.isEmpty || name == [dot]) = true) : Passes t place name place
  | up (hblank : (name.isEmpty || name == [dot]) = false) (hup : (name == up) = true) :
      Passes t place name place.dropLast
  | down (hname : Downward name) (h : t.get? (place ++ [name]) = some .directory) :
      Passes t place name (place ++ [name])

theorem Passes.walk (h : Passes t place name next) (hdir : t.get? place = some .directory) :
    t.walk followLast place (name :: rest) = t.walk followLast next rest := by
  cases h with
  | blank hblank => exact walk_blank hdir hblank
  | up hblank hup => exact walk_up hdir hblank hup
  | down hname hnext => exact walk_through hdir hname hnext (by simp)

theorem Passes.mono {t' : FileTree}
    (hdirs : ∀ {q}, t.get? q = some .directory → t'.get? q = some .directory)
    (h : Passes t place name next) : Passes t' place name next := by
  cases h with
  | blank hblank => exact .blank hblank
  | up hblank hup => exact .up hblank hup
  | down hname hnext => exact .down hname (hdirs hnext)

theorem Passes.get?_next (ht : t.Nested) (hdir : t.get? place = some .directory)
    (h : Passes t place name next) : t.get? next = some .directory := by
  cases h with
  | blank => exact hdir
  | up =>
    by_cases hnil : place = []
    · subst hnil
      rfl
    · rw [← dropLast_append_getLast hnil] at hdir
      exact ht _ _ hdir
  | down _ hnext => exact hnext

/-- **One name of a search that goes well**: it leads on, or it is the last, or it is that of a link
that sends the search on. -/
theorem walk_cons_cases {walk : Walk} (h : t.walk followLast place (name :: rest) = .ok walk) :
    t.get? place = some .directory ∧
      ((∃ next, Passes t place name next ∧ t.walk followLast next rest = .ok walk) ∨
        (Downward name ∧ rest = [] ∧
          (followLast = true → ∀ target, t.get? (place ++ [name]) ≠ some (.link target)) ∧
          walk = .arrived ⟨place ++ [name], t.get? (place ++ [name])⟩) ∨
        ∃ target, Downward name ∧ t.get? (place ++ [name]) = some (.link target) ∧
          (rest ≠ [] ∨ followLast = true) ∧
          walk = .sentOn (if isAbsolute target then [] else place)
            (components target ++ rest)) := by
  by_cases hdir : t.get? place = some .directory
  · refine ⟨hdir, ?_⟩
    rcases downward_cases name with hblank | ⟨hblank, hup | ⟨hup, hlong⟩⟩ | hname
    · rw [walk_blank hdir hblank] at h
      exact .inl ⟨place, .blank hblank, h⟩
    · rw [walk_up hdir hblank hup] at h
      exact .inl ⟨place.dropLast, .up hblank hup, h⟩
    · rw [walk_long hdir hblank hup hlong] at h
      cases h
    · by_cases hlink : (rest ≠ [] ∨ followLast = true) ∧
          ∃ target, t.get? (place ++ [name]) = some (.link target)
      · obtain ⟨hmore, target, hlink⟩ := hlink
        rw [walk_link hdir hname hlink hmore, Except.ok.injEq] at h
        exact .inr (.inr ⟨target, hname, hlink, hmore, h.symm⟩)
      · by_cases hnil : rest = []
        · subst hnil
          have hno : followLast = true → ∀ target, t.get? (place ++ [name]) ≠ some (.link target) :=
            fun hfollow target heq => hlink ⟨.inr hfollow, target, heq⟩
          rw [walk_last hdir hname hno, Except.ok.injEq] at h
          exact .inr (.inl ⟨hname, rfl, hno, h.symm⟩)
        · -- there are names behind it, so it has to be that of a directory
          cases hnode : t.get? (place ++ [name]) with
          | none =>
            rw [walk_missing hdir hname hnode hnil] at h
            cases h
          | some node =>
            cases node with
            | link target => exact absurd ⟨.inl hnil, target, hnode⟩ hlink
            | directory =>
              rw [walk_through hdir hname hnode (by simp)] at h
              exact .inl ⟨_, .down hname hnode, h⟩
            | file bytes =>
              obtain ⟨next, rest, rfl⟩ := exists_cons_of_ne_nil hnil
              rw [walk_through hdir hname hnode (by simp), walk_closed (by simp [hnode])] at h
              cases h
  · rw [walk_closed hdir] at h
    cases h

end

/-! ## Following names -/

variable {followLast : Bool} {cs : List Text} {walk : Walk}

theorem push_up_reverse (h : ∀ n ∈ place, n ≠ up) :
    push false place.reverse up = place.dropLast.reverse := by
  induction place using List.reverseRecOn with
  | nil => rfl
  | append_singleton q n _ =>
    have hn : (n == up) = false := by simpa using h n (by simp)
    rw [reverse_concat, dropLast_concat, push.eq_def, if_neg (by decide), if_pos (by decide)]
    dsimp only
    rw [if_neg (by simp [hn])]

/-- A place that names lead to, the last of which is in a directory. -/
structure Arrived (t : FileTree) (cs : List Text) (place : Place) : Prop where
  last : ∀ n, cs.getLast? = some n → IsName n →
    pathBytes n ≤ longestName ∧ ∃ parent, place = parent ++ [n] ∧ t.get? parent = some .directory

/-- A last name that leads down counts where it is met, any other with the rest. -/
theorem Arrived.cons {name : Text} (h : t.Arrived cs place) (hlast : cs = [] → ¬ IsName name) :
    t.Arrived (name :: cs) place := by
  refine ⟨fun n hn hname => ?_⟩
  by_cases hnil : cs = []
  · subst hnil
    rw [getLast?_singleton, Option.some.injEq] at hn
    exact absurd (hn ▸ hname) (hlast rfl)
  · rw [getLast?_cons_of_ne_nil hnil] at hn
    exact h.last n hn hname

theorem arrived_down {name : Text} (hdir : t.get? place = some .directory) (hdown : Downward name) :
    t.Arrived [name] (place ++ [name]) := by
  refine ⟨fun n hn _ => ?_⟩
  rw [getLast?_singleton, Option.some.injEq] at hn
  subst hn
  exact ⟨hdown.short, place, rfl, hdir⟩

/-- **Names that lead up first** lead to the place they spell, if they lead anywhere and no link is
on the way there. -/
theorem walk_descending (hslash : ∀ c ∈ cs, slash ∉ c) (hdesc : Descending cs)
    (hplace : ∀ n ∈ place, n ≠ up)
    (hno : t.NoLink (cs.foldl (push false) place.reverse).reverse)
    (h : t.walk followLast place cs = .ok walk) :
    walk = .arrived ⟨(cs.foldl (push false) place.reverse).reverse,
        t.get? (cs.foldl (push false) place.reverse).reverse⟩ ∧
      t.Arrived cs (cs.foldl (push false) place.reverse).reverse := by
  induction cs generalizing place with
  | nil =>
    rw [FileTree.walk, Except.ok.injEq] at h
    rw [← h, foldl_nil, reverse_reverse]
    exact ⟨rfl, ⟨fun n hn => by cases hn⟩⟩
  | cons name rest ih =>
    have hslash' : ∀ c ∈ rest, slash ∉ c := fun c hc => hslash c (.tail _ hc)
    have hnext : (place ++ [name]).reverse = name :: place.reverse := reverse_concat ..
    rw [foldl_cons] at hno ⊢
    obtain ⟨hdir, ⟨next, hpasses, hmore⟩ | ⟨hdown, rfl, _, rfl⟩ | ⟨target, hdown, hlink, _, _⟩⟩ :=
      walk_cons_cases h
    · cases hpasses with
      | blank hblank =>
        have hblank : name = [] ∨ name = [dot] := by simpa using hblank
        rw [push_blank hblank] at hno ⊢
        obtain ⟨hwalk, harrived⟩ := ih hslash' hdesc.tail hplace hno hmore
        exact ⟨hwalk, harrived.cons fun _ hn => hblank.elim hn.nonempty hn.notDot⟩
      | up _ hup =>
        obtain rfl := beq_iff_eq.mp hup
        rw [push_up_reverse hplace] at hno ⊢
        obtain ⟨hwalk, harrived⟩ := ih hslash' hdesc.tail
          (fun n hn => hplace n (dropLast_subset _ hn)) hno hmore
        exact ⟨hwalk, harrived.cons fun _ hn => hn.notUp rfl⟩
      | down hdown _ =>
        have hname := hdown.isName (hslash name (by simp))
        rw [push_name hname, ← hnext] at hno ⊢
        obtain ⟨hwalk, harrived⟩ :=
          ih hslash' hdesc.tail (forall_mem_concat hplace hname.notUp) hno hmore
        by_cases hnil : rest = []
        · subst hnil
          rw [foldl_nil, reverse_reverse] at hwalk ⊢
          exact ⟨hwalk, arrived_down hdir hdown⟩
        · exact ⟨hwalk, harrived.cons fun heq => absurd heq hnil⟩
    · rw [foldl_nil, push_name (hdown.isName (hslash name (by simp))), ← hnext, reverse_reverse]
      exact ⟨rfl, arrived_down hdir hdown⟩
    · -- no name behind a link leads up again, so the link would be on the way
      have hname := hdown.isName (hslash name (by simp))
      have hway := (suffix_foldl_push (b := false) (s := (place ++ [name]).reverse)
        hslash' (hdesc.up_notMem hname.notUp)).reverse
      rw [push_name hname, ← hnext] at hno
      rw [reverse_reverse] at hway
      exact absurd hlink (hno _ hway target)

/-- **Names below directories** lead to the place they spell. If one of them is missing they lead
nowhere. -/
theorem walk_open (followLast : Bool) (hnames : ∀ n ∈ cs, IsName n ∧ pathBytes n ≤ longestName)
    (hplace : t.get? place = some .directory)
    (hway : ∀ q, q <+: cs → q ≠ cs → t.get? (place ++ q) = none ∨
      t.get? (place ++ q) = some .directory)
    (hlast : ∀ target, t.get? (place ++ cs) ≠ some (.link target)) :
    t.walk followLast place cs = .ok (.arrived ⟨place ++ cs, t.get? (place ++ cs)⟩) ∨
      t.walk followLast place cs = .error .noEntry ∧
        ∃ q, q <+: cs ∧ q ≠ cs ∧ t.get? (place ++ q) = none := by
  induction cs generalizing place with
  | nil =>
    rw [FileTree.walk, append_nil]
    exact .inl rfl
  | cons name rest ih =>
    obtain ⟨hname, hlength⟩ := hnames name (by simp)
    have hdown := Downward.of_isName hname hlength
    have hshift : ∀ q, place ++ name :: q = place ++ [name] ++ q := fun q => by simp
    rw [hshift] at hlast ⊢
    by_cases hrest : rest = []
    · subst hrest
      rw [append_nil] at hlast ⊢
      exact .inl (walk_last hplace hdown fun _ => hlast)
    · have hfirst : [name] <+: name :: rest := ⟨rest, rfl⟩
      have hne : [name] ≠ name :: rest := by simpa using Ne.symm hrest
      -- the way may end here, or a directory leads on
      rcases hway [name] hfirst hne with hnone | hdir
      · exact .inr ⟨walk_missing hplace hdown hnone hrest, [name], hfirst, hne, hnone⟩
      · rw [walk_through hplace hdown hdir (by simp)]
        rcases ih (fun n hn => hnames n (.tail _ hn)) hdir
          (fun q hq hqne => by
            rw [← hshift]
            exact hway (name :: q) ((prefix_cons_inj name).mpr hq) (by simpa using hqne))
          hlast with hok | ⟨herr, q, hq, hqne, hnone⟩
        · exact .inl hok
        · refine .inr ⟨herr, name :: q, (prefix_cons_inj name).mpr hq, by simpa using hqne, ?_⟩
          rwa [hshift]

section

variable {links : Nat} {spot : Spot} {cause : FileCause} {ds : List Text}

theorem follow_error (h : t.walk followLast place cs = .error cause) :
    t.follow followLast links place cs = .error cause := by
  rw [follow.eq_def]
  dsimp only
  rw [h]

theorem follow_arrived (h : t.walk followLast place cs = .ok (.arrived spot)) :
    t.follow followLast links place cs = .ok spot := by
  rw [follow.eq_def]
  dsimp only
  rw [h]

theorem follow_sentOn (h : t.walk followLast place cs = .ok (.sentOn q ds)) :
    t.follow followLast links place cs =
      if links = 0 then .error .tooManyLinks else t.follow followLast (links - 1) q ds := by
  rw [follow.eq_def]
  dsimp only
  rw [h]
  cases links <;> rfl

theorem follow_cases (h : t.follow followLast links place cs = .ok spot) :
    t.walk followLast place cs = .ok (.arrived spot) ∨ ∃ n q ds, links = n + 1 ∧
      t.walk followLast place cs = .ok (.sentOn q ds) ∧ t.follow followLast n q ds = .ok spot := by
  cases hwalk : t.walk followLast place cs with
  | error cause =>
    rw [follow_error hwalk] at h
    cases h
  | ok walk =>
    cases walk with
    | arrived last =>
      rw [follow_arrived hwalk, Except.ok.injEq] at h
      rw [h]
      exact .inl rfl
    | sentOn q ds =>
      rw [follow_sentOn hwalk] at h
      split at h
      · cases h
      · exact .inr ⟨links - 1, q, ds, by omega, rfl, h⟩

end

variable {found : Option FileNode} {links : Nat} {ds : List Text} {name : Text} {spot : Spot}

theorem get?_of_walk (h : t.walk followLast place cs = .ok (.arrived ⟨q, found⟩)) :
    t.get? q = found := by
  induction cs generalizing place with
  | nil =>
    cases h
    rfl
  | cons name rest ih =>
    obtain ⟨_, ⟨_, _, hmore⟩ | ⟨_, _, _, harrived⟩ | ⟨_, _, _, _, hsent⟩⟩ := walk_cons_cases h
    · exact ih hmore
    · cases harrived
      rfl
    · cases hsent

theorem get?_of_follow (h : t.follow followLast links place cs = .ok ⟨q, found⟩) :
    t.get? q = found := by
  induction links using Nat.strongRecOn generalizing place cs with
  | _ links ih =>
    rcases follow_cases h with hwalk | ⟨n, _, _, rfl, _, hmore⟩
    · exact get?_of_walk hwalk
    · exact ih n (by omega) hmore

theorem follow_root :
    t.follow followLast links [] ([] :: cs) = t.follow followLast links [] cs := by
  have hwalk : t.walk followLast [] ([] :: cs) = t.walk followLast [] cs := by
    rw [FileTree.walk, get?_nil]
    rfl
  rw [follow.eq_def, follow.eq_def t followLast links [] cs]
  dsimp only
  rw [hwalk]

/-- Names are followed up to some of them, and from the directory there on; or a link ahead of these
sends the search on, and they are still to come. -/
theorem walk_append (hds : ds ≠ []) (h : t.walk followLast place (cs ++ ds) = .ok walk) :
    (∃ q, t.get? q = some .directory ∧ t.walk true place cs = .ok (.arrived ⟨q, some .directory⟩) ∧
      t.walk followLast q ds = .ok walk) ∨
    ∃ q es, t.walk true place cs = .ok (.sentOn q es) ∧ walk = .sentOn q (es ++ ds) := by
  induction cs generalizing place with
  | nil =>
    rw [nil_append] at h
    obtain ⟨d, ds, rfl⟩ := exists_cons_of_ne_nil hds
    have hdir := (walk_cons_cases h).1
    exact .inl ⟨place, hdir, by rw [FileTree.walk, hdir], h⟩
  | cons c cs ih =>
    rw [cons_append] at h
    obtain ⟨hdir, ⟨next, hpasses, hmore⟩ | ⟨_, hnil, _, _⟩ | ⟨target, hdown, hlink, _, rfl⟩⟩ :=
      walk_cons_cases h
    · rw [hpasses.walk hdir]
      exact ih hmore
    · exact absurd hnil (by simp [hds])
    · -- a link sends the search on, with the last names still to come
      exact .inr ⟨_, _, walk_link hdir hdown hlink (.inr rfl), by rw [append_assoc]⟩

/-- **Names that lead somewhere can be followed in two parts**: the first lead to a directory. -/
theorem follow_append (hds : ds ≠ [])
    (h : t.follow followLast links place (cs ++ ds) = .ok spot) :
    ∃ q m, m ≤ links ∧ t.get? q = some .directory ∧
      (∀ k, links ≤ k → t.follow true k place cs = .ok ⟨q, some .directory⟩) ∧
      t.follow followLast m q ds = .ok spot := by
  induction links using Nat.strongRecOn generalizing place cs with
  | _ links ih =>
    rcases follow_cases h with hwalk | ⟨n, p, es, rfl, hwalk, hmore⟩
    · rcases walk_append hds hwalk with ⟨q, hdir, hfirst, hlast⟩ | ⟨q, es, _, hsent⟩
      · exact ⟨q, links, Nat.le_refl _, hdir, fun k _ => follow_arrived hfirst,
          follow_arrived hlast⟩
      · cases hsent
    · -- the link may stand among the last names; if not, what is left of the first is ahead of them
      rcases walk_append hds hwalk with ⟨q, hdir, hfirst, hlast⟩ | ⟨q, fs, hfirst, hsent⟩
      · refine ⟨q, n + 1, Nat.le_refl _, hdir, fun k _ => follow_arrived hfirst, ?_⟩
        rwa [follow_sentOn hlast, if_neg (by omega)]
      · cases hsent
        obtain ⟨r, m, hm, hdir, hall, hlast⟩ := ih n (by omega) hmore
        refine ⟨r, m, by omega, hdir, fun k hk => ?_, hlast⟩
        rw [follow_sentOn hfirst, if_neg (by omega)]
        exact hall (k - 1) (by omega)

/-- **A single name** leads to what has it, or there is a link to be followed. -/
theorem follow_single (hname : IsName name)
    (h : t.follow followLast links place [name] = .ok spot) :
    pathBytes name ≤ longestName ∧ (spot = ⟨place ++ [name], t.get? (place ++ [name])⟩ ∨
        followLast = true ∧ ∃ target, t.get? (place ++ [name]) = some (.link target)) := by
  obtain ⟨walk, hwalk, harrived⟩ : ∃ walk, t.walk followLast place [name] = .ok walk ∧
      ∀ spot', walk = .arrived spot' → spot' = spot := by
    rcases follow_cases h with hwalk | ⟨_, _, _, _, hwalk, _⟩
    · exact ⟨_, hwalk, fun _ heq => (Walk.arrived.inj heq).symm⟩
    · exact ⟨_, hwalk, fun _ heq => by cases heq⟩
  obtain ⟨_, ⟨next, hpasses, hmore⟩ | ⟨hdown, _, _, rfl⟩ | ⟨target, hdown, hlink, hfollow, _⟩⟩ :=
    walk_cons_cases hwalk
  · cases hpasses with
    | blank hblank => exact absurd hblank (by simp [hname.nonempty, hname.notDot])
    | up _ hup => exact absurd hup (by simp [hname.notUp])
    | down hdown _ =>
      rw [FileTree.walk, Except.ok.injEq] at hmore
      exact ⟨hdown.short, .inl (harrived _ hmore.symm).symm⟩
  · exact ⟨hdown.short, .inl (harrived _ rfl).symm⟩
  · exact ⟨hdown.short, .inr ⟨hfollow.resolve_left (by simp), target, hlink⟩⟩

theorem follow_name (hname : IsName name)
    (hlink : followLast = true → ∀ q target, t.get? (q ++ [name]) ≠ some (.link target))
    (h : t.follow followLast links place (cs ++ [name]) = .ok spot) :
    ∃ q, spot = ⟨q ++ [name], t.get? (q ++ [name])⟩ ∧ t.get? q = some .directory ∧
      pathBytes name ≤ longestName := by
  obtain ⟨q, _, _, hdir, _, hlast⟩ := follow_append (by simp) h
  obtain ⟨hlength, hspot | ⟨hfollows, target, htarget⟩⟩ := follow_single hname hlast
  · exact ⟨q, hspot, hdir, hlength⟩
  · exact absurd htarget (hlink hfollows q target)

/-- **Names that lead to a file end in a name**: dots, or nothing behind a slash, lead to a
directory. -/
theorem isName_of_follow {bytes : Bytes} (ht : t.WellFormed) (hslash : slash ∉ name)
    (h : t.follow followLast links place (cs ++ [name]) = .ok ⟨q, some (.file bytes)⟩) :
    IsName name := by
  obtain ⟨p, _, _, hdir, _, hlast⟩ := follow_append (by simp) h
  -- what leads on would end at a directory
  have hend : ∀ next, ¬ Passes t p name next := by
    intro next hpasses
    have hwalk : t.walk followLast p [name] = .ok (.arrived ⟨next, some .directory⟩) := by
      rw [hpasses.walk hdir, FileTree.walk, hpasses.get?_next ht.nested hdir]
    cases (follow_arrived hwalk).symm.trans hlast
  rcases component_cases hslash with rfl | hname | hblank
  · exact absurd (.up rfl rfl) (hend _)
  · exact hname
  · exact absurd (.blank (by simpa using hblank)) (hend _)

/-! ## Looking up paths -/

variable {directory path : Text} {spot : Spot}

theorem locate_paired (h : path.Paired) : t.locate directory path followLast =
    if path.contains 0 then .error .zeroInPath
    else if path.isEmpty then .error .noEntry
    else if pathLimit ≤ pathBytes path then .error .nameTooLong
    else t.follow followLast linkLimit
      (if isAbsolute path then [] else placeOf directory) (components path) := by
  have hstored : storedText path = path := Encoding.decode_encode h
  unfold locate
  rw [hstored]

/-- A lookup that succeeds follows the components of the path as it is stored. -/
theorem follow_of_stored (h : t.locate directory path followLast = .ok spot) :
    0 ∉ storedText path ∧ pathBytes (storedText path) < pathLimit ∧ t.follow followLast linkLimit
        (if isAbsolute (storedText path) then [] else placeOf directory)
        (components (storedText path)) = .ok spot := by
  unfold locate at h
  dsimp only at h
  split at h
  · cases h
  rename_i hzero
  split at h
  · cases h
  split at h
  · cases h
  rename_i hlimit
  exact ⟨by simpa using hzero, Nat.not_le.mp hlimit, h⟩

theorem follow_of_locate (hpaired : path.Paired)
    (h : t.locate directory path followLast = .ok spot) :
    0 ∉ path ∧ pathBytes path < pathLimit ∧ t.follow followLast linkLimit
      (if isAbsolute path then [] else placeOf directory) (components path) =
        .ok spot := by
  have hstored : storedText path = path := Encoding.decode_encode hpaired
  have hfollow := follow_of_stored h
  rwa [hstored] at hfollow

theorem locate_cases (directory path : Text) :
    (∃ cause, ∀ (t : FileTree) followLast, t.locate directory path followLast = .error cause) ∨
      ∃ start cs, ∀ (t : FileTree) followLast,
        t.locate directory path followLast = t.follow followLast linkLimit start cs := by
  unfold locate
  dsimp only
  split_ifs
  · exact .inl ⟨_, fun _ _ => rfl⟩
  · exact .inl ⟨_, fun _ _ => rfl⟩
  · exact .inl ⟨_, fun _ _ => rfl⟩
  all_goals exact .inr ⟨_, _, fun _ _ => rfl⟩

theorem get?_of_locate (h : t.locate directory path followLast = .ok ⟨q, found⟩) :
    t.get? q = found := by
  rcases locate_cases directory path with ⟨cause, hfails⟩ | ⟨start, cs, hfollows⟩
  · rw [hfails] at h
    cases h
  · rw [hfollows] at h
    exact get?_of_follow h

/-- **A path without needless components** leads to the place it spells, if it leads anywhere and no
link is on the way to this place. -/
theorem locate_target (hpaired : path.Paired) (hdesc : Descending (components path))
    (hno : t.NoLink (target directory path))
    (h : t.locate directory path followLast = .ok spot) :
    spot = ⟨target directory path, t.get? (target directory path)⟩ ∧
      t.Arrived (components path) (target directory path) := by
  obtain ⟨_, _, hfollow⟩ := follow_of_locate hpaired h
  rw [target_eq] at hno ⊢
  have hstart : ∀ n ∈ (if isAbsolute path then [] else simplify false directory),
      n ≠ up := by
    intro n hn
    split at hn
    · cases hn
    · exact (isName_of_mem_simplify hn).notUp
  cases hwalk : t.walk followLast (if isAbsolute path then [] else placeOf directory)
      (components path) with
  | error cause =>
    rw [follow_error hwalk] at hfollow
    cases hfollow
  | ok walk =>
    obtain ⟨rfl, harrived⟩ :=
      walk_descending (fun c hc => slash_notMem_component hc) hdesc hstart hno hwalk
    rw [follow_arrived hwalk] at hfollow
    exact ⟨(Except.ok.inj hfollow).symm, harrived⟩

/-- **A path whose last name no link has** leads to something in a directory, under this name. -/
theorem locate_name (hname : IsName name)
    (hlink : ∀ q target, t.get? (q ++ [name]) ≠ some (.link target)) (hpaired : path.Paired)
    (hlast : components path = cs ++ [name])
    (h : t.locate directory path followLast = .ok spot) :
    ∃ q, spot = ⟨q ++ [name], t.get? (q ++ [name])⟩ ∧ t.get? q = some .directory ∧
      pathBytes name ≤ longestName := by
  obtain ⟨_, _, hfollow⟩ := follow_of_locate hpaired h
  rw [hlast] at hfollow
  exact follow_name hname (fun _ => hlink) hfollow

theorem zero_notMem_absolute : 0 ∉ absolute place ↔ ∀ n ∈ place, 0 ∉ n := by
  have hslash : (0 : UInt16) ≠ slash := by decide
  rw [absolute, mem_cons, not_or, and_iff_right hslash]
  induction place with
  | nil => simp [ofComponents, Text.joined]
  | cons n rest ih =>
    cases rest with
    | nil => simp [ofComponents, Text.joined]
    | cons m rest =>
      have hjoined : ofComponents (n :: m :: rest) =
          n ++ [slash] ++ ofComponents (m :: rest) := rfl
      rw [hjoined, mem_append, mem_append, mem_singleton, not_or, not_or,
        and_iff_left hslash, forall_mem_cons]
      exact and_congr_right' ih

/-- **An absolute path** leads to the place it spells, with nothing but directories above it. If one
of them is missing it leads nowhere. -/
theorem locate_absolute (directory : Text) (hne : place ≠ [])
    (hnames : ∀ n ∈ place, Spelled n ∧ pathBytes n ≤ longestName)
    (hlimit : pathBytes (absolute place) < pathLimit)
    (hway : ∀ q, q <+: place → q ≠ place → t.get? q = none ∨ t.get? q = some .directory)
    (hlast : ∀ target, t.get? place ≠ some (.link target)) :
    t.locate directory (absolute place) followLast = .ok ⟨place, t.get? place⟩ ∨
      t.locate directory (absolute place) followLast = .error .noEntry ∧
        ∃ q, q <+: place ∧ q ≠ place ∧ t.get? q = none := by
  have hpaired : (absolute place).Paired :=
    paired_absolute.mpr fun n hn => (hnames n hn).1.paired
  have hzero : (absolute place).contains 0 = false := by
    simpa using zero_notMem_absolute.mpr fun n hn => (hnames n hn).1.noZero
  rw [locate_paired hpaired, hzero, if_neg (by simp), if_neg (by simp [absolute]),
    if_neg (Nat.not_le.mpr hlimit), isAbsolute_absolute, if_pos rfl,
    components_absolute (fun n hn => (hnames n hn).1.noSlash) hne, follow_root]
  rcases walk_open followLast (fun n hn => ⟨(hnames n hn).1.toIsName, (hnames n hn).2⟩)
    (get?_nil t) (by simpa using hway) (by simpa using hlast) with hok | ⟨herr, q, hq, hqne, hnone⟩
  · exact .inl (follow_arrived hok)
  · exact .inr ⟨follow_error herr, q, hq, hqne, hnone⟩

end FileTree

end Posonly
