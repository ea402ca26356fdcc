import Posonly.Proofs.Files.Action

/-!
# Lookups in trees that are alike

Two trees may hold different bytes, and one of them files that the other one does not have, or a
file where the other one has a link to one. A path does not show that as long as none of its names,
nor of the links on its way, is the name of a file that only one tree has: it leads to the same
place in both, or fails in both for the same cause, unless it leads over a link that is a file in
the other tree (`locate_alike`).
-/

open List Option

namespace Posonly

/-- What a node is, whatever the bytes of a file are. -/
def FileNode.shape : FileNode → FileNode
  | .file _ => .file []
  | .directory => .directory
  | .link target => .link target

/-- Where a path leads, in a tree that may hold something else there. -/
def Spot.on (t : FileTree) (spot : Spot) : Spot := ⟨spot.place, t.get? spot.place⟩

/-- How far names lead, in a tree that may hold something else there. -/
def Walk.on (t : FileTree) : Walk → Walk
  | .arrived spot => .arrived (spot.on t)
  | .sentOn place names => .sentOn place names

namespace FileTree

/-- What stands at a place, whatever the bytes of a file are. -/
def shape? (t : FileTree) (place : Place) : Option FileNode := (t.get? place).map FileNode.shape

variable {t t' : FileTree} {place q : Place} {clean : Text → Prop} {loose : Place → Prop}
  {name : Text} {followLast : Bool} {target : Text}

theorem shape?_eq_none : t.shape? q = none ↔ t.get? q = none := by
  rw [shape?, map_eq_none_iff]

theorem shape?_eq_some {node : FileNode} (hnode : ∀ bytes, node ≠ .file bytes) :
    t.shape? q = some node ↔ t.get? q = some node := by
  have hshape : ∀ n : FileNode, n.shape = node ↔ n = node := by
    intro n
    cases n with
    | file bytes => exact iff_of_false (fun h => hnode _ h.symm) fun h => hnode _ h.symm
    | directory | link _ => exact Iff.rfl
  simp [shape?, hshape]

theorem shape?_eq_directory : t.shape? q = some .directory ↔ t.get? q = some .directory :=
  shape?_eq_some (by simp)

theorem shape?_eq_link :
    t.shape? q = some (.link target) ↔ t.get? q = some (.link target) :=
  shape?_eq_some (by simp)

theorem shape?_eq_file : t.shape? q = some (.file []) ↔ ∃ bytes, t.get? q = some (.file bytes) := by
  rw [shape?, map_eq_some_iff]
  constructor
  · rintro ⟨node, hnode, hshape⟩
    cases node with
    | file bytes => exact ⟨bytes, hnode⟩
    | link _ | directory => cases hshape
  · rintro ⟨bytes, h⟩
    exact ⟨_, h, rfl⟩

theorem map_on_locate (t : FileTree) (directory path : Text) (followLast : Bool) :
    (t.locate directory path followLast).map (Spot.on t) = t.locate directory path followLast := by
  cases hspot : t.locate directory path followLast with
  | error cause => rfl
  | ok spot =>
    obtain ⟨q, node⟩ := spot
    rw [Except.map, Spot.on, get?_of_locate hspot]

/-- Where the search goes on from that a link sends on. -/
def linkStart (x : Place) (target : Text) : Place :=
  if Path.isAbsolute target then [] else x.dropLast

/-- A link leads to a file. -/
def LinksTo (t : FileTree) (x q : Place) : Prop :=
  ∃ target links bytes, t.get? x = some (.link target) ∧
    t.follow true links (linkStart x target) (Path.components target) = .ok ⟨q, some (.file bytes)⟩

/-- **One name leads the same way in two trees** if they look the same where it stands, and what is
behind it does so too. At the end, there may be something else in one of them, but no other link
that is to be followed. -/
theorem walk_cons_rel {rest : List Text}
    {R : Except FileCause Walk → Except FileCause Walk → Prop}
    (hmap : ∀ r, R r (r.map (Walk.on t')))
    (hdirs : t'.get? place = some .directory ↔ t.get? place = some .directory)
    (hnone : t'.get? place = none ↔ t.get? place = none)
    (hnext : t.get? place = some .directory → Downward name → rest ≠ [] ∨ followLast = true →
      (rest ≠ [] → (t'.get? (place ++ [name]) = none ↔ t.get? (place ++ [name]) = none)) ∧
        ∀ target, t'.get? (place ++ [name]) = some (.link target) ↔
          t.get? (place ++ [name]) = some (.link target))
    (hrest : ∀ next, t.walk followLast place (name :: rest) = t.walk followLast next rest →
      next = place ∨ next = place.dropLast ∨ next = place ++ [name] →
        R (t.walk followLast next rest) (t'.walk followLast next rest)) :
    R (t.walk followLast place (name :: rest)) (t'.walk followLast place (name :: rest)) := by
  by_cases hdir : t.get? place = some .directory
  · -- a name is blank, leads up, is too long, or leads down; only then nodes are looked at
    have hdir' := hdirs.mpr hdir
    rcases downward_cases name with hblank | ⟨hblank, hup | ⟨hup, hlong⟩⟩ | hname
    · have hwalk : t.walk followLast place (name :: rest) = _ := walk_blank hdir hblank
      rw [walk_blank hdir' hblank, hwalk]
      exact hrest place hwalk (.inl rfl)
    · have hwalk : t.walk followLast place (name :: rest) = _ := walk_up hdir hblank hup
      rw [walk_up hdir' hblank hup, hwalk]
      exact hrest _ hwalk (.inr (.inl rfl))
    · rw [walk_long hdir hblank hup hlong, walk_long hdir' hblank hup hlong]
      exact hmap (.error _)
    · by_cases hends : rest ≠ [] ∨ followLast = true
      · obtain ⟨hsame, hlinks⟩ := hnext hdir hname hends
        cases hnode : t.get? (place ++ [name]) with
        | none =>
          by_cases hnil : rest = []
          · subst hnil
            have hno : ∀ target, t'.get? (place ++ [name]) ≠ some (.link target) := by
              intro target hlink
              rw [(hlinks target).mp hlink] at hnode
              cases hnode
            rw [walk_last hdir hname (by simp [hnode]), walk_last hdir' hname fun _ => hno]
            exact hmap (.ok (.arrived _))
          · rw [walk_missing hdir hname hnode hnil,
              walk_missing hdir' hname ((hsame hnil).mpr hnode) hnil]
            exact hmap (.error _)
        | some node =>
          by_cases hlink : ∃ target, node = .link target
          · obtain ⟨target, rfl⟩ := hlink
            rw [walk_link hdir hname hnode hends,
              walk_link hdir' hname ((hlinks target).mpr hnode) hends]
            exact hmap (.ok (.sentOn _ _))
          · have hplain : ∀ target, node ≠ .link target := fun target heq => hlink ⟨target, heq⟩
            have hno : ∀ target, t'.get? (place ++ [name]) ≠ some (.link target) := by
              intro target hlink'
              rw [(hlinks target).mp hlink', Option.some.injEq] at hnode
              exact hplain target hnode.symm
            by_cases hnil : rest = []
            · subst hnil
              rw [walk_last hdir hname (by simp [hnode, hplain]),
                walk_last hdir' hname fun _ => hno]
              exact hmap (.ok (.arrived _))
            · obtain ⟨node', hnode'⟩ := ne_none_iff_exists'.mp fun heq =>
                some_ne_none node (hnode.symm.trans ((hsame hnil).mp heq))
              have hwalk : t.walk followLast place (name :: rest) = _ :=
                walk_through hdir hname hnode hplain
              rw [walk_through hdir' hname hnode' fun target heq =>
                hno target (heq ▸ hnode'), hwalk]
              exact hrest _ hwalk (.inr (.inr rfl))
      · obtain ⟨hnil, hlast⟩ := not_or.mp hends
        rw [not_not] at hnil
        subst hnil
        rw [walk_last hdir hname fun heq => absurd heq hlast,
          walk_last hdir' hname fun heq => absurd heq hlast]
        exact hmap (.ok (.arrived _))
  · rw [walk_closed hdir, walk_closed (mt hdirs.mp hdir), if_congr hnone rfl rfl]
    exact hmap (.error _)

/-- **Two trees in which names are followed the same way** up to the next link, for whatever holds
of the names and is kept by the links. -/
theorem follow_rel {links : Nat} {cs : List Text}
    {R : Except FileCause Spot → Except FileCause Spot → Prop}
    (holds : Nat → Place → List Text → Prop) (hmap : ∀ r, R r (r.map (Spot.on t')))
    (hwalk : ∀ links place cs, holds links place cs →
      t'.walk followLast place cs = (t.walk followLast place cs).map (Walk.on t') ∨
        R (t.follow followLast links place cs) (t'.follow followLast links place cs))
    (hkept : ∀ links place cs q ds, holds (links + 1) place cs →
      t.walk followLast place cs = .ok (.sentOn q ds) → holds links q ds)
    (h : holds links place cs) :
    R (t.follow followLast links place cs) (t'.follow followLast links place cs) := by
  -- on the links that may still be followed
  induction links using Nat.strongRecOn generalizing place cs with
  | _ links ih =>
    rcases hwalk links place cs h with hsame | hrel
    · cases hfirst : t.walk followLast place cs with
      | error cause =>
        rw [hfirst] at hsame
        rw [follow_error hfirst, follow_error hsame]
        exact hmap (.error _)
      | ok walk =>
        rw [hfirst] at hsame
        cases walk with
        | arrived spot =>
          rw [follow_arrived hfirst, follow_arrived hsame]
          exact hmap (.ok spot)
        | sentOn q ds =>
          rw [follow_sentOn hfirst, follow_sentOn hsame]
          cases links with
          | zero => exact hmap (.error _)
          | succ links => exact ih links (by omega) (hkept links place cs q ds h hfirst)
    · exact hrel

theorem Passes.forall_mem {next : Place} (h : Passes t place name next)
    (hplace : ∀ n ∈ place, clean n) (hname : clean name) : ∀ n ∈ next, clean n := by
  cases h with
  | blank => exact hplace
  | up => exact fun n hn => hplace n (dropLast_subset _ hn)
  | down => exact forall_mem_concat hplace hname

theorem mem_dropLast_cons {α : Type} {a b : α} {l : List α} (h : b ∈ l.dropLast) :
    b ∈ (a :: l).dropLast := by
  rw [dropLast_cons_of_ne_nil (by rintro rfl; cases h)]
  exact mem_cons_of_mem a h

/-! ## Where names lead -/

section

variable {followLast : Bool} {links : Nat} {cs ds : List Text} {walk : Walk} {spot : Spot}
  {node : FileNode}

/-- **Names that lead somewhere** lead nowhere else, however many links are allowed. -/
theorem follow_any (h : t.follow followLast links place cs = .ok spot) (m : Nat) :
    t.follow followLast m place cs = .error .tooManyLinks ∨
      t.follow followLast m place cs = .ok spot := by
  induction links using Nat.strongRecOn generalizing place cs m with
  | _ links ih =>
    rcases follow_cases h with hwalk | ⟨n, p, es, rfl, hwalk, hmore⟩
    · exact .inr (follow_arrived hwalk)
    · rw [follow_sentOn hwalk]
      by_cases hm : m = 0
      · rw [if_pos hm]
        exact .inl rfl
      · rw [if_neg hm]
        exact ih n (by omega) hmore (m - 1)

section

variable
  (hlinks : ∀ p target, (∀ n ∈ p, clean n) → t.get? p = some (.link target) →
    ∀ c ∈ Path.components target, clean c)
  (hplace : ∀ n ∈ place, clean n) (hnames : ∀ n ∈ cs, clean n)

include hlinks hplace hnames

/-- Clean names lead to places with clean names, as long as links do. -/
theorem walk_clean (hwalk : t.walk followLast place cs = .ok walk) :
    (∀ spot, walk = .arrived spot → ∀ n ∈ spot.place, clean n) ∧
      ∀ q ds, walk = .sentOn q ds → (∀ n ∈ q, clean n) ∧ ∀ n ∈ ds, clean n := by
  induction cs generalizing place with
  | nil =>
    cases hwalk
    refine ⟨fun spot hspot => ?_, fun q ds hsent => by cases hsent⟩
    cases hspot
    exact hplace
  | cons name rest ih =>
    have hrest : ∀ n ∈ rest, clean n := fun n hn => hnames n (.tail _ hn)
    have hq := forall_mem_concat hplace (hnames name (by simp))
    obtain ⟨_, ⟨next, hpasses, hwalk⟩ | ⟨_, _, _, rfl⟩ | ⟨target, _, hlink, _, rfl⟩⟩ :=
      walk_cons_cases hwalk
    · exact ih (hpasses.forall_mem hplace (hnames name (by simp))) hrest hwalk
    · refine ⟨fun spot hspot => ?_, fun q ds hsent => by cases hsent⟩
      cases hspot
      exact hq
    · refine ⟨fun spot hspot => (by cases hspot), fun q ds hsent => ?_⟩
      cases hsent
      refine ⟨fun n hn => ?_, fun n hn => ?_⟩
      · split at hn
        · cases hn
        · exact hplace n hn
      · rcases mem_append.mp hn with hn | hn
        · exact hlinks _ target hq hlink n hn
        · exact hrest n hn

theorem follow_clean
    (h : t.follow followLast links place cs = .ok spot) : ∀ n ∈ spot.place, clean n := by
  induction links using Nat.strongRecOn generalizing place cs with
  | _ links ih =>
    rcases follow_cases h with hwalk | ⟨m, q, ds, rfl, hwalk, hmore⟩
    · exact (walk_clean hlinks hplace hnames hwalk).1 spot rfl
    · obtain ⟨hq, hds⟩ := (walk_clean hlinks hplace hnames hwalk).2 q ds rfl
      exact ih m (by omega) hq hds hmore

end

/-- Names that lead somewhere without a link are passed ahead of others. -/
theorem walk_append_arrived (h : t.walk true place cs = .ok (.arrived ⟨q, some node⟩))
    (hnode : ∀ target, node ≠ .link target) :
    t.walk followLast place (cs ++ ds) = t.walk followLast q ds := by
  induction cs generalizing place with
  | nil =>
    rw [FileTree.walk, Except.ok.injEq, Walk.arrived.injEq, Spot.mk.injEq] at h
    rw [h.1, nil_append]
  | cons name rest ih =>
    rw [cons_append]
    obtain ⟨hdir, ⟨next, hpasses, hwalk⟩ | ⟨hname, rfl, _, harrived⟩ | ⟨target, _, _, _, hsent⟩⟩ :=
      walk_cons_cases h
    · rw [hpasses.walk hdir]
      exact ih hwalk
    · rw [Walk.arrived.injEq, Spot.mk.injEq] at harrived
      rw [harrived.1, nil_append]
      exact walk_through hdir hname harrived.2.symm hnode
    · cases hsent

theorem walk_append_sentOn {es : List Text} (hds : ds ≠ [])
    (h : t.walk true place cs = .ok (.sentOn q es)) :
    t.walk followLast place (cs ++ ds) = .ok (.sentOn q (es ++ ds)) := by
  induction cs generalizing place with
  | nil => cases h
  | cons name rest ih =>
    rw [cons_append]
    obtain ⟨hdir,
      ⟨next, hpasses, hwalk⟩ | ⟨_, _, _, harrived⟩ | ⟨target, hname, hlink, _, hsent⟩⟩ :=
      walk_cons_cases h
    · rw [hpasses.walk hdir]
      exact ih hwalk
    · cases harrived
    · cases hsent
      rw [walk_link hdir hname hlink (.inl (by simp [hds])), append_assoc]

/-- **Names that lead somewhere** are followed there ahead of others, unless too many links are on
the way in all. -/
theorem follow_through (followLast : Bool) (hds : ds ≠ [])
    (h : t.follow true links place cs = .ok ⟨q, some node⟩) (hnode : ∀ target, node ≠ .link target)
    (m : Nat) :
    t.follow followLast m place (cs ++ ds) = .error .tooManyLinks ∨
      ∃ k, t.follow followLast m place (cs ++ ds) = t.follow followLast k q ds := by
  induction links using Nat.strongRecOn generalizing place cs m with
  | _ links ih =>
    rcases follow_cases h with hwalk | ⟨n, p, es, rfl, hwalk, hmore⟩
    · refine .inr ⟨m, ?_⟩
      rw [follow.eq_def, follow.eq_def t followLast m q ds]
      dsimp only
      rw [walk_append_arrived hwalk hnode]
    · rw [follow_sentOn (walk_append_sentOn hds hwalk)]
      by_cases hm : m = 0
      · rw [if_pos hm]
        exact .inl rfl
      · rw [if_neg hm]
        exact ih n (by omega) hmore (m - 1)

end

/-- A name that is a link to a file leads to it, unless too many links are on the way. -/
theorem LinksTo.follow (h : t.LinksTo (place ++ [name]) q)
    (hdir : t.get? place = some .directory) (hname : Downward name) (links : Nat) :
    t.follow true links place [name] = .error .tooManyLinks ∨
      ∃ bytes, t.follow true links place [name] = .ok ⟨q, some (.file bytes)⟩ := by
  obtain ⟨target, m, bytes, hlink, hfile⟩ := h
  rw [linkStart, dropLast_concat] at hfile
  rw [follow_sentOn (walk_link hdir hname hlink (.inr rfl)), append_nil]
  split
  · exact .inl rfl
  · exact (follow_any hfile (links - 1)).imp_right fun hleads => ⟨bytes, hleads⟩

/-! ## Trees that are alike -/

/-- A link in one tree, of those that may be replaced, where the other has a file. -/
structure Replaced (loose : Place → Prop) (t t' : FileTree) (x : Place) : Prop where
  loose : loose x
  link : ∃ target, t.get? x = some (.link target)
  file : ∃ bytes, t'.get? x = some (.file bytes)

/-- Two trees that are the same, up to the bytes of files and to some links that have been replaced,
at all places with clean names. The links there have clean names too, and what has any other name is
a file. -/
structure Alike (clean : Text → Prop) (loose : Place → Prop) (t t' : FileTree) : Prop where
  shape : ∀ p, (∀ n ∈ p, clean n) → t.shape? p = t'.shape? p ∨ Replaced loose t t' p
  links : ∀ p target, (∀ n ∈ p, clean n) → t.get? p = some (.link target) →
    ∀ c ∈ Path.components target, clean c
  plain : ∀ p n node, ¬ clean n → t.get? (p ++ [n]) = some node → ∃ bytes, node = .file bytes
  plain' : ∀ p n node, ¬ clean n → t'.get? (p ++ [n]) = some node → ∃ bytes, node = .file bytes

/-- Names that lead to a link that has been replaced: to the file in its place in the other tree. -/
def Parted (loose : Place → Prop) (t t' : FileTree) (followLast : Bool)
    (r r' : Except FileCause Walk) : Prop :=
  ∃ x target rest, Replaced loose t t' x ∧ t.get? x = some (.link target) ∧
    r = .ok (.sentOn (linkStart x target) (Path.components target ++ rest)) ∧
    r' = t'.walk followLast x rest ∧ (rest = [] → followLast = true)

/-- A lookup that leads over a link that has been replaced: to the file behind it, if the link is
the last, and to the file in its place in the other tree; or over too many links. -/
def Diverted (loose : Place → Prop) (t t' : FileTree) (followLast : Bool)
    (r r' : Except FileCause Spot) : Prop :=
  ∃ x, Replaced loose t t' x ∧ (r = .error .tooManyLinks ∨
    followLast = true ∧ r' = .ok ⟨x, t'.get? x⟩ ∧
      ∃ q bytes, t.LinksTo x q ∧ r = .ok ⟨q, some (.file bytes)⟩)

/-- Lookups in two trees that end at one place or fail for one cause, unless they are diverted. -/
def Matched (loose : Place → Prop) (t t' : FileTree) (followLast : Bool)
    (r r' : Except FileCause Spot) : Prop :=
  r' = r.map (Spot.on t') ∨ Diverted loose t t' followLast r r'

theorem Alike.weaken (h : Alike clean (fun _ => False) t t') : Alike clean loose t t' where
  __ := h
  shape p hp := (h.shape p hp).imp_right fun hreplaced => hreplaced.loose.elim

section

variable (followLast : Bool) {cs : List Text} (h : Alike clean loose t t') {bytes : Bytes}

include h

section

variable (hq : ∀ n ∈ q, clean n)

include hq

theorem Alike.directory : t'.get? q = some .directory ↔ t.get? q = some .directory := by
  rcases h.shape q hq with hsame | ⟨_, ⟨_, hlink⟩, _, hfile⟩
  · rw [← shape?_eq_directory, ← shape?_eq_directory, hsame]
  · simp [hlink, hfile]

theorem Alike.none : t'.get? q = none ↔ t.get? q = none := by
  rcases h.shape q hq with hsame | ⟨_, ⟨_, hlink⟩, _, hfile⟩
  · rw [← shape?_eq_none, ← shape?_eq_none, hsame]
  · simp [hlink, hfile]

theorem Alike.link (hkept : ¬ Replaced loose t t' q) :
    t'.get? q = some (.link target) ↔ t.get? q = some (.link target) := by
  rw [← shape?_eq_link, ← shape?_eq_link, (h.shape q hq).resolve_right hkept]

theorem Alike.file (hfile : t.get? q = some (.file bytes)) :
    ∃ bytes', t'.get? q = some (.file bytes') := by
  rcases h.shape q hq with hsame | ⟨_, _, hfile'⟩
  · rw [← shape?_eq_file, ← hsame, shape?_eq_file]
    exact ⟨bytes, hfile⟩
  · exact hfile'

theorem Alike.put {node node' : FileNode} (hne : q ≠ [])
    (hnode : node.shape = node'.shape) (hlink : ∀ target, node ≠ .link target) :
    Alike clean loose (t.put q node) (t'.put q node') where
  shape p hp := by
    by_cases hpq : p = q
    · rw [shape?, shape?, get?_put hne, get?_put hne, if_pos hpq, if_pos hpq, map_some, map_some,
        hnode]
      exact .inl rfl
    · rcases h.shape p hp with hsame | ⟨hloose, hlink', hfile⟩
      · rw [shape?, shape?, get?_put hne, get?_put hne, if_neg hpq, if_neg hpq]
        exact .inl hsame
      · refine .inr ⟨hloose, ?_, ?_⟩
        · rwa [get?_put hne, if_neg hpq]
        · rwa [get?_put hne, if_neg hpq]
  links p target hp hnext := by
    rw [get?_put hne] at hnext
    split at hnext
    · exact absurd (Option.some.inj hnext) (hlink target)
    · exact h.links p target hp hnext
  plain p n other hn hnext := by
    rw [get?_put hne, if_neg (by rintro rfl; exact hn (hq n (by simp)))] at hnext
    exact h.plain p n other hn hnext
  plain' p n other hn hnext := by
    rw [get?_put hne, if_neg (by rintro rfl; exact hn (hq n (by simp)))] at hnext
    exact h.plain' p n other hn hnext

end

/-- A change of the second tree at one place, which leaves a file there or nothing. -/
theorem Alike.change {u : FileTree} (hother : ∀ r, r ≠ q → u.get? r = t'.get? r)
    (hend : ∀ node, u.get? q = some node → ∃ bytes, node = .file bytes)
    (hq : (∀ n ∈ q, clean n) → t.shape? q = u.shape? q ∨ Replaced loose t u q) :
    Alike clean loose t u where
  shape r hr := by
    by_cases hrq : r = q
    · subst hrq
      exact hq hr
    · have hsame := hother r hrq
      rcases h.shape r hr with hshape | ⟨hloose, hlink, hfile⟩
      · rw [hshape, shape?, shape?, hsame]
        exact .inl rfl
      · exact .inr ⟨hloose, hlink, by rwa [hsame]⟩
  links := h.links
  plain := h.plain
  plain' r m node hm hnode := by
    by_cases hrq : r ++ [m] = q
    · exact hend node (hrq ▸ hnode)
    · exact h.plain' r m node hm (hother _ hrq ▸ hnode)

/-- A file may be put where a file is, or a link that may be replaced. -/
theorem Alike.put_file (hne : q ≠ [])
    (hq : (∀ n ∈ q, clean n) → t.shape? q = some (.file []) ∨
      loose q ∧ ∃ target, t.get? q = some (.link target)) :
    Alike clean loose t (t'.put q (.file bytes)) := by
  have hput : (t'.put q (.file bytes)).get? q = some (.file bytes) := by
    rw [get?_put hne, if_pos rfl]
  refine h.change (fun r hr => by rw [get?_put hne, if_neg hr]) (fun node hnode => ?_)
    fun hclean => ?_
  · exact ⟨bytes, (Option.some.inj (hput.symm.trans hnode)).symm⟩
  · rcases hq hclean with hfile | ⟨hloose, hlink⟩
    · rw [hfile, shape?, hput]
      exact .inl rfl
    · exact .inr ⟨hloose, hlink, bytes, hput⟩

theorem Alike.put_unclean {p : Place} {n : Text} (hn : ¬ clean n) :
    Alike clean loose t (t'.put (p ++ [n]) (.file bytes)) :=
  h.put_file (by simp) fun hclean => absurd (hclean n (by simp)) hn

theorem Alike.erase_unclean {p : Place} {n : Text} (hn : ¬ clean n) :
    Alike clean loose t (t'.erase (p ++ [n])) := by
  refine h.change (q := p ++ [n]) (fun r hr => by rw [get?_erase (by simp), if_neg hr])
    (fun node hnode => ?_) fun hclean => absurd (hclean n (by simp)) hn
  rw [get?_erase (by simp), if_pos rfl] at hnode
  cases hnode

theorem Alike.link_concat {name target : Text} (hplace : ∀ n ∈ place, clean n)
    (hkept : ¬ Replaced loose t t' (place ++ [name])) :
    t'.get? (place ++ [name]) = some (.link target) ↔
      t.get? (place ++ [name]) = some (.link target) := by
  by_cases hname : clean name
  · exact h.link (forall_mem_concat hplace hname) hkept
  · refine iff_of_false (fun hlink => ?_) fun hlink => ?_
    · cases (h.plain' place name _ hname hlink).choose_spec
    · cases (h.plain place name _ hname hlink).choose_spec

/-- **Names are followed the same way** in trees that are alike, up to a link that has been
replaced. Only the last of them need not be clean. -/
theorem walk_alike (hplace : cs ≠ [] → ∀ n ∈ place, clean n) (hnames : ∀ n ∈ cs.dropLast, clean n) :
    t'.walk followLast place cs = (t.walk followLast place cs).map (Walk.on t') ∨
      Parted loose t t' followLast (t.walk followLast place cs) (t'.walk followLast place cs) := by
  induction cs generalizing place with
  | nil => exact .inl rfl
  | cons name rest ih =>
    have hp := hplace (by simp)
    have hname : rest ≠ [] → clean name := fun hrest =>
      hnames name (by rw [dropLast_cons_of_ne_nil hrest]; simp)
    by_cases hover : t.get? place = some .directory ∧ Downward name ∧
        (rest ≠ [] ∨ followLast = true) ∧ Replaced loose t t' (place ++ [name])
    · obtain ⟨hdir, hdown, hends, hreplaced⟩ := hover
      obtain ⟨target, hlink⟩ := hreplaced.link
      obtain ⟨bytes, hfile⟩ := hreplaced.file
      refine .inr ⟨_, target, rest, hreplaced, hlink, ?_, ?_,
        fun hnil => hends.resolve_left (· hnil)⟩
      · rw [walk_link hdir hdown hlink hends, linkStart, dropLast_concat]
      · exact walk_through ((h.directory hp).mpr hdir) hdown hfile (by simp)
    · refine walk_cons_rel
        (R := fun r r' => r' = r.map (Walk.on t') ∨ Parted loose t t' followLast r r')
        (fun _ => .inl rfl) (h.directory hp) (h.none hp) (fun hdir hdown hends => ⟨fun hrest => ?_,
          fun _ => h.link_concat hp fun hreplaced => hover ⟨hdir, hdown, hends, hreplaced⟩⟩)
        fun next _ hnext => ih (fun hrest => ?_) fun n hn => hnames n (mem_dropLast_cons hn)
      · exact h.none (forall_mem_concat hp (hname hrest))
      · rcases hnext with rfl | rfl | rfl
        · exact hp
        · exact fun n hn => hp n (dropLast_subset _ hn)
        · exact forall_mem_concat hp (hname hrest)

/-- A link on the way sends on to names of which again all but the last are clean. -/
theorem sentOn_alike {ds : List Text} (hplace : cs ≠ [] → ∀ n ∈ place, clean n)
    (hnames : ∀ n ∈ cs.dropLast, clean n)
    (hsent : t.walk followLast place cs = .ok (.sentOn q ds)) :
    (∀ n ∈ q, clean n) ∧ ∀ n ∈ ds.dropLast, clean n := by
  induction cs generalizing place with
  | nil => cases hsent
  | cons name rest ih =>
    have hp := hplace (by simp)
    have hrest : ∀ n ∈ rest.dropLast, clean n := fun n hn => hnames n (mem_dropLast_cons hn)
    obtain ⟨_, ⟨next, hpasses, hmore⟩ | ⟨_, _, _, harrived⟩ | ⟨target, _, hlink, _, hsent⟩⟩ :=
      walk_cons_cases hsent
    · refine ih (fun hne => hpasses.forall_mem hp (hnames name ?_)) hrest hmore
      rw [dropLast_cons_of_ne_nil hne]
      simp
    · cases harrived
    · cases hsent
      -- what has a token in its name is a file, so no link is called that
      have hclean : clean name := by
        by_contra hunclean
        obtain ⟨_, hfile⟩ := h.plain place name _ hunclean hlink
        cases hfile
      have htarget := h.links _ target (forall_mem_concat hp hclean) hlink
      refine ⟨fun n hn => ?_, fun n hn => ?_⟩
      · split at hn
        · cases hn
        · exact hp n hn
      · by_cases hnil : rest = []
        · rw [hnil, append_nil] at hn
          exact htarget n (dropLast_subset _ hn)
        · rw [dropLast_append_of_ne_nil hnil] at hn
          rcases mem_append.mp hn with hn | hn
          · exact htarget n hn
          · exact hrest n hn

section

variable (hloose : ∀ x, loose x → ∃ q, t.LinksTo x q)

include hloose

omit h in
/-- Behind a link that has been replaced there is a file, and in the other tree the file is in its
place. Names behind it lead nowhere in both. -/
theorem follow_replaced (links : Nat)
    (hparted : Parted loose t t' followLast (t.walk followLast place cs)
      (t'.walk followLast place cs)) :
    Matched loose t t' followLast (t.follow followLast links place cs)
      (t'.follow followLast links place cs) := by
  obtain ⟨x, target, rest, hreplaced, hlink, hsent, hwalk, hends⟩ := hparted
  obtain ⟨q, target', m, bytes, hlink', hfile⟩ := hloose x hreplaced.loose
  obtain rfl : target' = target := by
    rwa [hlink', Option.some.injEq, FileNode.link.injEq] at hlink
  rw [follow_sentOn hsent]
  by_cases hlinks : links = 0
  · rw [if_pos hlinks]
    exact .inr ⟨x, hreplaced, .inl rfl⟩
  rw [if_neg hlinks]
  by_cases hrest : rest = []
  · -- the link is the last: one tree leads to the file behind it, the other one to the link's place
    subst hrest
    rw [append_nil]
    obtain rfl := hends rfl
    rcases follow_any hfile (links - 1) with hmany | hleads
    · exact .inr ⟨x, hreplaced, .inl hmany⟩
    · exact .inr ⟨x, hreplaced, .inr ⟨rfl, follow_arrived (hwalk.trans (by rw [FileTree.walk])), q,
        bytes, ⟨target', m, bytes, hlink', hfile⟩, hleads⟩⟩
  · rcases follow_through followLast hrest hfile (by simp) (links - 1) with hmany | ⟨k, hsame⟩
    · exact .inr ⟨x, hreplaced, .inl hmany⟩
    · obtain ⟨c, rest, rfl⟩ := exists_cons_of_ne_nil hrest
      obtain ⟨_, hfile'⟩ := hreplaced.file
      have hclosed : t.walk followLast q (c :: rest) = .error .notDirectory := by
        have hq := get?_of_follow hfile
        rw [walk_closed (by simp [hq]), if_neg (by simp [hq])]
      rw [walk_closed (by simp [hfile']), if_neg (by simp [hfile'])] at hwalk
      rw [hsame, follow_error hclosed, follow_error hwalk]
      exact .inl rfl

theorem follow_alike (links : Nat) (hplace : ∀ n ∈ place, clean n)
    (hnames : ∀ n ∈ cs.dropLast, clean n) :
    Matched loose t t' followLast (t.follow followLast links place cs)
      (t'.follow followLast links place cs) := by
  refine follow_rel (R := Matched loose t t' followLast)
    (fun _ place cs => (∀ n ∈ place, clean n) ∧ ∀ n ∈ cs.dropLast, clean n) (fun _ => .inl rfl)
    (fun links _ _ hclean => ?_) (fun _ _ _ q ds hclean hsent => ?_) ⟨hplace, hnames⟩
  · exact (walk_alike followLast h (fun _ => hclean.1) hclean.2).imp_right
      (follow_replaced followLast hloose links)
  · exact sentOn_alike followLast h (fun _ => hclean.1) hclean.2 hsent

/-- **A path leads to the same place** in trees that are alike, or fails in both for the same cause,
unless it leads over a link that has been replaced. -/
theorem locate_alike {directory path : Text} (hdirectory : ∀ n ∈ placeOf directory, clean n)
    (hnames : ∀ n ∈ (Path.components (storedText path)).dropLast, clean n) :
    Matched loose t t' followLast (t.locate directory path followLast)
      (t'.locate directory path followLast) := by
  unfold locate
  dsimp only
  split_ifs
  · exact .inl rfl
  · exact .inl rfl
  · exact .inl rfl
  · exact follow_alike followLast h hloose linkLimit (by simp) hnames
  · exact follow_alike followLast h hloose linkLimit hdirectory hnames

end

end

end FileTree

end Posonly
