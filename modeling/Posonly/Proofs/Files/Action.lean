import Posonly.Files.Memory
import Posonly.Proofs.Files.Lookup

/-!
# What actions do to a tree

For each action there is one lemma that says everything it can do. The actions of tasks have little
in common but what they leave alone, which is said once for all of them (`Change`): a tree stays
well formed, its directories and links stay, and its files stay files.
-/

open List Posonly.Path

namespace Posonly.FileTree

variable {t t' : FileTree} {directory path : Text} {place q : Place}

/-! ## Single actions -/

@[simp] theorem settled_snd (request : Text) (paths : List Text) (r : Option FileCause × FileTree) :
    (settled request paths r).2 = r.2 := by
  rcases r with ⟨_ | _, _⟩ <;> rfl

variable {bytes : Bytes} {followLast : Bool} {node : FileNode} {source : Text} {names : List Text}
  {spot : Spot}

theorem settled_ok {request : Text} {paths : List Text} {r : Option FileCause × FileTree}
    (h : (settled request paths r).1 = .ok bytes) : r.1 = none := by
  rcases r with ⟨_ | _, _⟩
  · rfl
  · cases h

theorem locateNode_ok (h : t.locateNode directory path followLast = .ok (place, node)) :
    t.locate directory path followLast = .ok ⟨place, some node⟩ := by
  unfold locateNode at h
  cases hspot : t.locate directory path followLast with
  | error cause =>
    rw [hspot] at h
    cases h
  | ok spot =>
    rw [hspot] at h
    obtain ⟨p, _ | n⟩ := spot
    · cases h
    · cases h
      rfl

theorem locateNode_of_locate (h : t.locate directory path followLast = .ok ⟨place, some node⟩) :
    t.locateNode directory path followLast = .ok (place, node) := by
  unfold locateNode
  rw [h]
  rfl

/-- **A path is read** exactly if it leads to a file, links followed. -/
theorem read_eq_ok_iff : t.read directory path = .ok bytes ↔
    ∃ q, t.locate directory path true = .ok ⟨q, some (.file bytes)⟩ := by
  constructor
  · intro h
    unfold read at h
    split at h
    · rename_i hnode
      cases h
      exact ⟨_, locateNode_ok hnode⟩
    · cases h
    · cases h
  · rintro ⟨q, hq⟩
    rw [read, locateNode_of_locate hq]

theorem locateTarget_ok (h : t.locateTarget directory path = .ok (place, bytes)) :
    ∃ node, t.locate directory path true = .ok ⟨place, node⟩ ∧
      (node = some (.file bytes) ∨ node = none ∧ bytes = []) := by
  unfold locateTarget at h
  cases hspot : t.locate directory path true with
  | error cause =>
    rw [hspot] at h
    cases h
  | ok spot =>
    rw [hspot] at h
    obtain ⟨p, _ | _ | _ | _⟩ := spot <;> cases h
    · exact ⟨_, rfl, .inr ⟨rfl, rfl⟩⟩
    · exact ⟨_, rfl, .inl rfl⟩

/-- A place that a file can be written to. -/
def Open (t : FileTree) (q : Place) : Prop :=
  t.get? q = none ∨ ∃ bytes, t.get? q = some (.file bytes)

/-- The root is a directory. -/
theorem Open.ne_nil (h : t.Open place) : place ≠ [] := by
  rintro rfl
  simp [Open] at h

theorem ne_nil_of_file (h : t.get? place = some (.file bytes)) : place ≠ [] :=
  Open.ne_nil (.inr ⟨bytes, h⟩)

theorem open_of_locateTarget (h : t.locateTarget directory path = .ok (place, bytes)) :
    t.Open place := by
  obtain ⟨node, hlocate, hnode⟩ := locateTarget_ok h
  rw [Open, get?_of_locate hlocate]
  exact hnode.symm.imp And.left fun hfile => ⟨_, hfile⟩

theorem locateTarget_of_locate
    (h : t.locate directory path true = .ok ⟨place, some (.file bytes)⟩) :
    t.locateTarget directory path = .ok (place, bytes) := by
  unfold locateTarget
  rw [h]
  rfl

theorem modify_cases (t : FileTree) (directory path : Text) (f : Bytes → Bytes) :
    ((t.modify directory path f).1 ≠ none ∧ (t.modify directory path f).2 = t) ∨
      ∃ place bytes, t.locateTarget directory path = .ok (place, bytes) ∧
        t.modify directory path f = (none, t.put place (.file (f bytes))) := by
  unfold modify
  cases htarget : t.locateTarget directory path with
  | error cause => exact .inl ⟨by simp, rfl⟩
  | ok found => exact .inr ⟨found.1, found.2, rfl, rfl⟩

theorem copy_cases {source : Text} (target : Text)
    (hfile : ∀ place node, t.locateNode directory source true = .ok (place, node) →
      ∃ bytes, node = .file bytes) :
    ((t.copy directory source target).1 ≠ none ∧ (t.copy directory source target).2 = t) ∨
      ∃ origin bytes place old, t.locateNode directory source true = .ok (origin, .file bytes) ∧
        t.locateTarget directory target = .ok (place, old) ∧
        t.copy directory source target =
          (none, if origin = place then t else t.put place (.file bytes)) := by
  unfold copy
  split
  · exact .inl ⟨by simp, rfl⟩
  · cases hsource : t.locateNode directory source true with
    | error cause => exact .inl ⟨by simp, rfl⟩
    | ok found =>
      obtain ⟨origin, node⟩ := found
      obtain ⟨bytes, rfl⟩ := hfile origin node hsource
      cases htarget : t.locateTarget directory target with
      | error cause => exact .inl ⟨by simp, rfl⟩
      | ok found =>
        refine .inr ⟨origin, bytes, found.1, found.2, rfl, rfl, ?_⟩
        by_cases heq : origin = found.1 <;> simp [heq]

theorem copy_ok {target : Text} (h : t.copy directory source target = (none, t')) :
    ∃ origin bytes place old, t.locateNode directory source true = .ok (origin, .file bytes) ∧
      t.locateTarget directory target = .ok (place, old) ∧
      t' = if origin = place then t else t.put place (.file bytes) := by
  have hfile : ∀ place node, t.locateNode directory source true = .ok (place, node) →
      ∃ bytes, node = .file bytes := by
    intro place node hnode
    cases node with
    | file bytes => exact ⟨bytes, rfl⟩
    | _ =>
      unfold copy at h
      rw [hnode] at h
      split at h
      · cases h
      · cases htarget : t.locateTarget directory target with
        | error cause =>
          rw [htarget] at h
          cases h
        | ok found =>
          rw [htarget] at h
          dsimp only at h
          split at h <;> cases h
  rcases copy_cases target hfile with
    ⟨hfails, _⟩ | ⟨origin, bytes, place, old, hsource, htarget, hcopy⟩
  · rw [h] at hfails
    exact absurd rfl hfails
  · rw [h, Prod.mk.injEq] at hcopy
    exact ⟨origin, bytes, place, old, hsource, htarget, hcopy.2⟩

theorem rename_cases (t : FileTree) (directory source target : Text) :
    (t.rename directory source target).2 = t ∨
      ∃ origin node place old, t.locateNode directory source false = .ok (origin, node) ∧
        t.locate directory target false = .ok ⟨place, old⟩ ∧ old ≠ some .directory ∧
        (t.rename directory source target).2 = (t.erase origin).put place node := by
  unfold rename
  cases hsource : t.locateNode directory source false with
  | error cause => exact .inl rfl
  | ok found =>
    obtain ⟨origin, node⟩ := found
    cases htarget : t.locate directory target false with
    | error cause => exact .inl rfl
    | ok spot =>
      obtain ⟨place, old⟩ := spot
      by_cases hdir : old = some .directory
      · subst hdir
        exact .inl rfl
      · refine .inr ⟨origin, node, place, old, rfl, rfl, hdir, ?_⟩
        rcases old with _ | _ | _ | _
        · rfl
        · rfl
        · exact absurd rfl hdir
        · rfl

theorem remove_cases (t : FileTree) (directory path : Text) : (t.remove directory path).2 = t ∨
      ∃ place node, t.locateNode directory path false = .ok (place, node) ∧
        node ≠ .directory ∧ (t.remove directory path).2 = t.erase place := by
  unfold remove
  cases hnode : t.locateNode directory path false with
  | error cause => cases cause <;> exact .inl rfl
  | ok found =>
    obtain ⟨place, node⟩ := found
    cases node with
    | directory => exact .inl rfl
    | file bytes | link target => exact .inr ⟨place, _, rfl, by simp, rfl⟩

/-- **An action that fails changes nothing**, unless it makes directories or copies. -/
theorem perform_error {action : FileAction} {e : FileError}
    (h : t.perform directory action = (.error e, t'))
    (hmake : ∀ path, action ≠ .makeDirectories path)
    (hcopy : ∀ source target, action ≠ .copy source target) :
    t' = t := by
  -- it is enough that what the action asks for changes nothing when it fails
  have hsettled : ∀ {request paths} {r : Option FileCause × FileTree}, (r.1 ≠ none → r.2 = t) →
      settled request paths r = (.error e, t') → t' = t := by
    intro request paths r hr hsettled
    rcases r with ⟨_ | cause, u⟩
    · cases hsettled
    · exact (congrArg Prod.snd hsettled).symm.trans (hr (by simp))
  cases action with
  | read path | check path => exact (congrArg Prod.snd h).symm
  | makeDirectories path => exact absurd rfl (hmake path)
  | copy source target => exact absurd rfl (hcopy source target)
  | append path bytes | write path bytes =>
    refine hsettled (fun hfails => ?_) h
    rcases modify_cases t directory path _ with ⟨_, hsame⟩ | ⟨_, _, _, hmodify⟩
    · exact hsame
    · exact absurd (congrArg Prod.fst hmodify) hfails
  | rename source target =>
    refine hsettled (fun hfails => ?_) h
    unfold rename at hfails ⊢
    split at hfails
    · rfl
    · rfl
    · rfl
    · exact absurd rfl hfails
  | remove path =>
    refine hsettled (fun hfails => ?_) h
    unfold remove at hfails ⊢
    split at hfails
    · rfl
    · exact absurd rfl hfails
    · exact absurd rfl hfails
    · rfl

/-! ## Making directories -/

/-- A name from a place is that of a directory, or of a link that leads to one. -/
inductive Enters (t : FileTree) (place : Place) (name : Text) : Place → Prop where
  | directory (h : t.get? (place ++ [name]) = some .directory) :
      Enters t place name (place ++ [name])
  | link (target : Text) (q : Place) (hlink : t.get? (place ++ [name]) = some (.link target))
      (h : t.follow true linkLimit place [name] = .ok ⟨q, some .directory⟩) : Enters t place name q

section

variable {name : Text} {rest names : List Text}

theorem Enters.get? (h : Enters t place name q) : t.get? q = some .directory := by
  cases h with
  | directory h => exact h
  | link _ _ _ h => exact get?_of_follow h

theorem makeAlong_enters (hshort : pathBytes name ≤ longestName) (h : Enters t place name q) :
    t.makeAlong place (name :: rest) = t.makeAlong q rest := by
  cases h with
  | directory h => rw [makeAlong, if_neg (Nat.not_lt.mpr hshort), h]
  | link _ _ hlink h => rw [makeAlong, if_neg (Nat.not_lt.mpr hshort), hlink, h]

/-- **One of several directories**: it cannot be made, it is made, or it is there. -/
theorem makeAlong_cases (t : FileTree) (place : Place) (name : Text) (rest : List Text) :
    (∃ cause, t.makeAlong place (name :: rest) = (some cause, t)) ∨ pathBytes name ≤ longestName ∧
      ((t.get? (place ++ [name]) = none ∧ t.makeAlong place (name :: rest) =
          (t.put (place ++ [name]) .directory).makeAlong (place ++ [name]) rest) ∨
        ∃ q, Enters t place name q) := by
  by_cases hlong : longestName < pathBytes name
  · exact .inl ⟨_, by rw [makeAlong, if_pos hlong]⟩
  rw [makeAlong, if_neg hlong]
  have hshort := Nat.not_lt.mp hlong
  cases hnode : t.get? (place ++ [name]) with
  | none => exact .inr ⟨hshort, .inl ⟨rfl, rfl⟩⟩
  | some node =>
    cases node with
    | directory => exact .inr ⟨hshort, .inr ⟨_, .directory hnode⟩⟩
    | file bytes => exact .inl ⟨_, rfl⟩
    | link target =>
      dsimp only
      split
      · rename_i q hfound
        exact .inr ⟨hshort, .inr ⟨q, .link target q hnode hfound⟩⟩
      · exact .inl ⟨_, rfl⟩
      · exact .inl ⟨_, rfl⟩
      · exact .inl ⟨_, rfl⟩
      · exact .inl ⟨_, rfl⟩

theorem makeAlong_directory (h : t.get? q = some .directory) :
    (t.makeAlong place names).2.get? q = some .directory := by
  induction names generalizing t place with
  | nil => exact h
  | cons name rest ih =>
    rcases makeAlong_cases t place name rest with
      ⟨cause, hstuck⟩ | ⟨hshort, ⟨_, hmade⟩ | ⟨p, henters⟩⟩
    · rwa [hstuck]
    · rw [hmade]
      refine ih ?_
      rw [get?_put (by simp)]
      split
      · rfl
      · exact h
    · rw [makeAlong_enters hshort henters]
      exact ih h

end

/-- **What making directories does** where nothing but directories is in the way: it adds some that
were missing. -/
theorem makeAlong_open {names : List Text} (hplace : t.get? place = some .directory)
    (hway : ∀ r, r <+: names → t.get? (place ++ r) = none ∨ t.get? (place ++ r) = some .directory)
    (q : Place) :
    (t.makeAlong place names).2.get? q = t.get? q ∨
      ∃ r, r <+: names ∧ q = place ++ r ∧ t.get? q = none ∧
        ∀ r', r' <+: r → (t.makeAlong place names).2.get? (place ++ r') = some .directory := by
  induction names generalizing t place with
  | nil => exact .inl rfl
  | cons name rest ih =>
    have hshift : ∀ r, place ++ name :: r = place ++ [name] ++ r := fun r => by simp
    rcases makeAlong_cases t place name rest with ⟨cause, hstuck⟩ | ⟨hshort, _⟩
    · rw [hstuck]
      exact .inl rfl
    · -- the next directory is there, or it is made
      obtain ⟨t₁, hmake, hnext, hothers⟩ : ∃ t₁ : FileTree,
          t.makeAlong place (name :: rest) = t₁.makeAlong (place ++ [name]) rest ∧
            t₁.get? (place ++ [name]) = some .directory ∧
            ∀ q, q ≠ place ++ [name] → t₁.get? q = t.get? q := by
        rcases hway [name] ⟨rest, rfl⟩ with hnone | hdir
        · rw [makeAlong, if_neg (Nat.not_lt.mpr hshort), hnone]
          refine ⟨_, rfl, ?_, fun q hq => ?_⟩
          · rw [get?_put (by simp), if_pos rfl]
          · rw [get?_put (by simp), if_neg hq]
        · exact ⟨t, makeAlong_enters hshort (.directory hdir), hdir, fun _ _ => rfl⟩
      have hway' : ∀ r, r <+: rest → t₁.get? (place ++ [name] ++ r) = none ∨
          t₁.get? (place ++ [name] ++ r) = some .directory := by
        intro r hr
        by_cases hnil : r = []
        · rw [hnil, append_nil]
          exact .inr hnext
        · rw [hothers _ (by simpa using hnil), ← hshift]
          exact hway (name :: r) ((prefix_cons_inj name).mpr hr)
      have hparent : (t.makeAlong place (name :: rest)).2.get? place = some .directory :=
        makeAlong_directory hplace
      have hchild : (t.makeAlong place (name :: rest)).2.get? (place ++ [name]) =
          some .directory := by
        rw [hmake]
        exact makeAlong_directory hnext
      by_cases hq : q = place ++ [name]
      · subst hq
        rcases hway [name] ⟨rest, rfl⟩ with hnone | hdir
        · refine .inr ⟨[name], ⟨rest, rfl⟩, rfl, hnone, fun r' hr' => ?_⟩
          rcases r' with _ | ⟨m, r'⟩
          · rwa [append_nil]
          · obtain ⟨rfl, hmore⟩ := cons_prefix_cons.mp hr'
            rwa [prefix_nil.mp hmore]
        · exact .inl (hchild.trans hdir.symm)
      · rcases ih hnext hway' with hsame | ⟨r, hr, rfl, hmissing, hdirs⟩
        · exact .inl (by rw [hmake, hsame, hothers q hq])
        · rw [hothers _ hq] at hmissing
          refine .inr ⟨name :: r, (prefix_cons_inj name).mpr hr, (hshift r).symm, hmissing, ?_⟩
          intro r' hr'
          rcases r' with _ | ⟨m, r'⟩
          · rwa [append_nil]
          · obtain ⟨rfl, hmore⟩ := cons_prefix_cons.mp hr'
            rw [hshift, hmake]
            exact hdirs r' hmore

theorem makeAlong_cons {name : Text} {rest : List Text} (hname : IsName name)
    (h : t.follow true linkLimit place [name] = .ok ⟨q, some .directory⟩) :
    t.makeAlong place (name :: rest) = t.makeAlong q rest := by
  obtain ⟨hlength, hspot | ⟨_, target, hlink⟩⟩ := follow_single hname h
  · rw [Spot.mk.injEq] at hspot
    rw [hspot.1]
    exact makeAlong_enters hlength (.directory hspot.2.symm)
  · exact makeAlong_enters hlength (.link target q hlink h)

theorem makeAlong_follow {links : Nat} {ds : List Text} (hnames : ∀ n ∈ names, IsName n)
    (hds : ds ≠ []) (hlinks : links ≤ linkLimit)
    (h : t.follow followLast links place (names ++ ds) = .ok spot) :
    t.makeAlong place names = (none, t) := by
  induction names generalizing place links with
  | nil => rfl
  | cons name rest ih =>
    -- the first name leads to a directory, and the others are followed from there
    rw [cons_append, ← singleton_append] at h
    obtain ⟨q, m, hm, _, hfirst, hmore⟩ := follow_append (by simp [hds]) h
    rw [makeAlong_cons (hnames name (by simp)) (hfirst linkLimit hlinks)]
    exact ih (fun n hn => hnames n (.tail _ hn)) (Nat.le_trans hm hlinks) hmore

theorem placeOf_absolute (h : ∀ n ∈ place, IsName n) : placeOf (absolute place) = place :=
  simplify_absolute h

theorem placeOf_resolve (base path : Text) :
    placeOf (resolve base path) = target base path :=
  placeOf_absolute fun _ hn => isName_of_mem_target hn

theorem makeDirectories_eq (t : FileTree) (directory : Text) (hnames : ∀ n ∈ place, Spelled n) :
    t.makeDirectories directory (absolute place) =
      if pathLimit ≤ pathBytes (absolute place) then (some .nameTooLong, t)
      else t.makeAlong [] place := by
  have hstored : storedText (absolute place) = absolute place :=
    Encoding.decode_encode (paired_absolute.mpr fun n hn => (hnames n hn).paired)
  have hzero : (absolute place).contains 0 = false := by
    simpa using zero_notMem_absolute.mpr fun n hn => (hnames n hn).noZero
  have htarget : target directory (absolute place) = place :=
    simplify_absolute fun n hn => (hnames n hn).toIsName
  unfold makeDirectories
  rw [hstored]
  dsimp only
  rw [hzero, if_neg (by simp), placeOf_resolve, htarget]

theorem makeDirectories_absolute (directory : Text) (hnames : ∀ n ∈ place, Spelled n) :
    (t.makeDirectories directory (absolute place)).2 = t ∧
        pathLimit ≤ pathBytes (absolute place) ∨
      t.makeDirectories directory (absolute place) = t.makeAlong [] place := by
  rw [makeDirectories_eq t directory hnames]
  split
  · rename_i hlimit
    exact .inl ⟨rfl, hlimit⟩
  · exact .inr rfl

theorem WellFormed.locate_file (ht : t.WellFormed) (hfile : t.get? place = some (.file bytes))
    (hshort : pathBytes (absolute place) < pathLimit) (directory : Text) :
    t.locate directory (absolute place) true = .ok ⟨place, some (.file bytes)⟩ := by
  rcases t.locate_absolute directory (ne_nil_of_file hfile) (ht.spelled hfile) hshort
    (fun q hq hne => .inr (ht.directory_above hfile hq hne)) (by simp [hfile]) with
    hfound | ⟨_, q, hq, hne, hnone⟩
  · rw [hfound, hfile]
  · rw [ht.directory_above hfile hq hne] at hnone
    cases hnone

theorem pathBytes_absolute_parent (parent : Place) (n : Text)
    (h : pathBytes (absolute (parent ++ [n])) < pathLimit) :
    pathBytes (absolute parent) < pathLimit := by
  by_cases hnil : parent = []
  · subst hnil
    decide
  · rw [absolute, ofComponents_concat, if_neg hnil, ← cons_append, pathBytes,
      Encoding.encode, Encoding.scheme] at h
    dsimp only at h
    rw [Text.codePoints_append_cons _ (by decide), flatMap_append, length_append] at h
    exact Nat.lt_of_le_of_lt (Nat.le_add_right _ _) h

theorem makeDirectories_dirname {directory : Text} (hnames : ∀ n ∈ place, Spelled n)
    (hne : place ≠ []) (h : t.locate directory (absolute place) followLast = .ok spot) :
    t.makeDirectories directory (dirname (absolute place)) = (none, t) := by
  obtain ⟨parent, n, rfl⟩ : ∃ parent n, place = parent ++ [n] :=
    ⟨_, _, (dropLast_append_getLast hne).symm⟩
  have hparent : ∀ m ∈ parent, Spelled m := fun m hm => hnames m (mem_append_left _ hm)
  have hpaired : (absolute (parent ++ [n])).Paired :=
    paired_absolute.mpr fun m hm => (hnames m hm).paired
  obtain ⟨_, hshort, hfollow⟩ := follow_of_locate hpaired h
  rw [dirname_absolute (fun m hm => (hparent m hm).toIsName) (hnames n (by simp)).toIsName]
  -- the lookup has gone through the directory, so it is short enough and there
  rcases makeDirectories_absolute (t := t) directory hparent with ⟨_, hlong⟩ | hmake
  · exact absurd (pathBytes_absolute_parent parent n hshort) (Nat.not_lt.mpr hlong)
  · rw [isAbsolute_absolute, if_pos rfl,
      components_absolute (fun m hm => (hnames m hm).noSlash) hne, follow_root] at hfollow
    rw [hmake]
    exact makeAlong_follow (fun m hm => (hparent m hm).toIsName) (by simp) (Nat.le_refl _) hfollow

/-! ## Changes -/

/-- How an action may leave what stands at a place: as it was; as a new directory on the way to a
place; as a temporary file that comes or goes; or as a file that was written there. -/
inductive Change (way : Place) (temporary : Text → Prop) (written : Place → Prop)
    (t t' : FileTree) (q : Place) : Prop where
  | same (h : t'.get? q = t.get? q)
  | opened (hq : q <+: way) (hnone : t.get? q = none)
      (hdirs : ∀ r, r <+: q → t'.get? r = some .directory)
  | gone (parent : Place) (n : Text) (hq : q = parent ++ [n]) (hn : temporary n)
      (hnone : t'.get? q = none)
  | filed (parent : Place) (n : Text) (bytes : Bytes) (hq : q = parent ++ [n])
      (hn : temporary n ∨ written q) (hparent : t.get? parent = some .directory)
      (hspelled : Spelled n ∧ pathBytes n ≤ longestName)
      (hold : ∀ node, t.get? q = some node → ∃ old, node = .file old)
      (hfile : t'.get? q = some (.file bytes))

namespace Change

variable {way : Place} {temporary : Text → Prop} {written : Place → Prop} {node : FileNode}

theorem file (h : Change way temporary written t t' q) {bytes : Bytes}
    (hq : t.get? q = some (.file bytes)) (hname : ∀ parent n, q = parent ++ [n] → ¬ temporary n) :
    ∃ bytes', t'.get? q = some (.file bytes') ∧ (bytes' = bytes ∨ written q) := by
  cases h with
  | same h => exact ⟨bytes, h.trans hq, .inl rfl⟩
  | opened _ hnone _ =>
    rw [hq] at hnone
    cases hnone
  | gone parent n hplace hn _ => exact absurd hn (hname parent n hplace)
  | filed parent n bytes' hplace hn _ _ _ hfile =>
    exact ⟨bytes', hfile, .inr (hn.resolve_left (hname parent n hplace))⟩

/-- A link or a new directory on the way is all that can stand there and be no file. -/
theorem noFile (h : Change way temporary written t t' q) (hq : t'.get? q = some node)
    (hnode : ∀ bytes, node ≠ .file bytes) :
    t.get? q = some node ∨ q <+: way ∧ t.get? q = none ∧ node = .directory := by
  cases h with
  | same h => exact .inl (h.symm.trans hq)
  | opened hway hnone hdirs =>
    have hdir := hdirs q (prefix_refl q)
    rw [hq, Option.some.injEq] at hdir
    exact .inr ⟨hway, hnone, hdir⟩
  | gone parent n _ _ hnone =>
    rw [hq] at hnone
    cases hnone
  | filed parent n bytes _ _ _ _ _ hfile =>
    rw [hq, Option.some.injEq] at hfile
    exact absurd hfile (hnode bytes)

theorem of_eq (h : t' = t) : Change way temporary written t t' q := .same (by rw [h])

variable {parent : Place} {n : Text} {bytes : Bytes}

theorem of_put (hn : temporary n ∨ written (parent ++ [n]))
    (hparent : t.get? parent = some .directory) (hspelled : Spelled n ∧ pathBytes n ≤ longestName)
    (hold : ∀ node, t.get? (parent ++ [n]) = some node → ∃ old, node = .file old) :
    Change way temporary written t (t.put (parent ++ [n]) (.file bytes)) q := by
  by_cases hq : q = parent ++ [n]
  · subst hq
    exact .filed parent n bytes rfl hn hparent hspelled hold
      (by rw [get?_put (by simp), if_pos rfl])
  · exact .same (by rw [get?_put (by simp), if_neg hq])

theorem of_erase (hn : temporary n) :
    Change way temporary written t (t.erase (parent ++ [n])) q := by
  by_cases hq : q = parent ++ [n]
  · subst hq
    exact .gone parent n rfl hn (by rw [get?_erase (by simp), if_pos rfl])
  · exact .same (by rw [get?_erase (by simp), if_neg hq])

/-- What is no file stays, unless it has the name of a temporary file. -/
theorem other (h : Change way temporary written t t' q) (hq : t.get? q = some node)
    (hnode : ∀ bytes, node ≠ .file bytes) (hname : ∀ parent n, q = parent ++ [n] → ¬ temporary n) :
    t'.get? q = some node := by
  cases h with
  | same h => exact h.trans hq
  | opened _ hnone _ =>
    rw [hq] at hnone
    cases hnone
  | gone parent n hplace hn _ => exact absurd hn (hname parent n hplace)
  | filed parent n bytes _ _ _ _ hold _ =>
    obtain ⟨old, hfile⟩ := hold _ hq
    exact absurd hfile (hnode old)

variable (hchange : ∀ q, Change way temporary written t t' q)
  (hplain : ∀ parent n node, temporary n → t.get? (parent ++ [n]) = some node →
    ∃ bytes, node = .file bytes)

include hchange hplain

theorem keeps_directory (hq : t.get? q = some .directory) : t'.get? q = some .directory := by
  refine (hchange q).other hq (by simp) fun parent n hplace hn => ?_
  subst hplace
  obtain ⟨bytes, hfile⟩ := hplain parent n _ hn hq
  cases hfile

theorem wellFormed (ht : t.WellFormed) (hway : ∀ n ∈ way, Spelled n ∧ pathBytes n ≤ longestName) :
    t'.WellFormed where
  spelled {place node} hnode n hn := by
    cases hchange place with
    | same h => exact ht.spelled (h.symm.trans hnode) n hn
    | opened hplace _ _ => exact hway n (hplace.subset hn)
    | gone parent m hplace _ hnone =>
      rw [hnode] at hnone
      cases hnone
    | filed parent m bytes hplace _ hparent hspelled _ _ =>
      rw [hplace] at hn
      rcases mem_append.mp hn with hn | hn
      · exact ht.spelled hparent n hn
      · rwa [mem_singleton.mp hn]
  parent {place n node} hnode := by
    cases hchange (place ++ [n]) with
    | same h => exact keeps_directory hchange hplain (ht.parent (h.symm.trans hnode))
    | opened _ _ hdirs => exact hdirs place (prefix_append ..)
    | gone parent m _ _ hnone =>
      rw [hnode] at hnone
      cases hnone
    | filed parent m bytes hplace _ hparent _ _ _ =>
      obtain ⟨rfl, _⟩ := append_inj' hplace rfl
      exact keeps_directory hchange hplain hparent

end Change

end Posonly.FileTree

/-! ## Actions on a world -/

namespace Posonly.World

theorem perform_of_faults {w : World} (hfaults : w.faults = []) (directory : Text)
    (action : FileAction) :
    w.perform directory action = ((w.tree.perform directory action).1,
      { w with tree := (w.tree.perform directory action).2 }) := by
  unfold perform
  rw [hfaults]
  rfl

theorem perform_supplied (w : World) (directory : Text) (action : FileAction) :
    (w.perform directory action).2.supplied = w.supplied := by
  unfold perform
  split <;> rfl

theorem perform_faults (w : World) (directory : Text) (action : FileAction) :
    (w.perform directory action).2.faults <:+ w.faults := by
  unfold perform
  split
  · exact drop_suffix 1 w.faults
  · exact drop_suffix 1 w.faults

end Posonly.World

namespace Posonly

/-- What can come of an action: what it does to the tree, or a failure from outside. A failure
leaves the tree as it is, but a failed write may leave any bytes. -/
inductive FileTree.Yields (t : FileTree) (directory : Text) (action : FileAction) :
    FileReply → FileTree → Prop where
  | done : Yields t directory action (t.perform directory action).1 (t.perform directory action).2
  | failed (e : FileError) : Yields t directory action (.error e) t
  | torn (e : FileError) (path : Text) (bytes more : Bytes) (hwrite : action = .write path bytes) :
      Yields t directory action (.error e) (t.modify directory path fun _ => more).2

theorem FileTree.Yields.perform_eq {t t' : FileTree} {directory : Text} {action : FileAction}
    {bytes : Bytes} (h : t.Yields directory action (.ok bytes) t') :
    t.perform directory action = (.ok bytes, t') := by
  generalize hreply : (Except.ok bytes : FileReply) = reply at h
  cases h with
  | done => rfl
  | failed e | torn e _ _ _ _ => cases hreply

theorem World.perform_yields (w : World) (directory : Text) (action : FileAction) :
    w.tree.Yields directory action (w.perform directory action).1
      (w.perform directory action).2.tree := by
  unfold World.perform
  split
  · rename_i f _
    dsimp only
    unfold World.afterFault
    split
    · rename_i path bytes more _
      exact .torn f.error path bytes more rfl
    · exact .failed f.error
  · exact .done

end Posonly
