import Posonly.Proofs.Files.Alike

/-!
# Actions on two trees

If the paths of an action lead to the same places in two trees, and the same stands at these places,
the action does the same to both: it fails in both for one cause, or it changes both at one place in
one way. So what an action does depends on nothing else in a tree.
-/

namespace Posonly.FileTree

/-- The bytes of the file at a place; none if there is no file. -/
def bytesAt (t : FileTree) (q : Place) : Bytes :=
  match t.get? q with
  | some (.file bytes) => bytes
  | _ => []

/-- A path leads to one place in two trees, a place of some kind, or fails in both for one cause. -/
inductive Together (directory path : Text) (followLast : Bool) (kind : Place → Prop)
    (t t' : FileTree) : Prop where
  | fails (cause : FileCause) (h : t.locate directory path followLast = .error cause)
      (h' : t'.locate directory path followLast = .error cause)
  | leads (q : Place) (hq : kind q) (h : t.locate directory path followLast = .ok ⟨q, t.get? q⟩)
      (h' : t'.locate directory path followLast = .ok ⟨q, t'.get? q⟩)

variable {t t' : FileTree} {directory path source target : Text} {followLast : Bool}
  {kind kind' : Place → Prop} {cause : FileCause}

theorem Together.of_map {r : Except FileCause Spot} (hkind : ∀ spot, r = .ok spot → kind spot.place)
    (h : t.locate directory path followLast = r.map (Spot.on t))
    (h' : t'.locate directory path followLast = r.map (Spot.on t')) :
    Together directory path followLast kind t t' := by
  cases r with
  | error cause => exact .fails cause h h'
  | ok spot => exact .leads spot.place (hkind spot rfl) h h'

theorem locateNode_fails (h : t.locate directory path followLast = .error cause) :
    t.locateNode directory path followLast = .error cause := by
  rw [locateNode, h]
  rfl

theorem locateNode_none {q : Place} (h : t.locate directory path followLast = .ok ⟨q, none⟩) :
    t.locateNode directory path followLast = .error .noEntry := by
  rw [locateNode, h]
  rfl

theorem locateTarget_fails (h : t.locate directory path true = .error cause) :
    t.locateTarget directory path = .error cause := by
  rw [locateTarget, h]
  rfl

theorem Together.locateNode (h : Together directory path followLast kind t t')
    (hsame : ∀ q, kind q → t'.get? q = t.get? q) :
    t'.locateNode directory path followLast = t.locateNode directory path followLast := by
  cases h with
  | fails cause h h' => rw [locateNode_fails h, locateNode_fails h']
  | leads q hq h h' => rw [FileTree.locateNode, FileTree.locateNode, h, h', hsame q hq]

theorem Together.locateNode_cases (h : Together directory path followLast kind t t') :
    (∃ cause, t.locateNode directory path followLast = .error cause) ∨ ∃ q node, kind q ∧
      t.get? q = some node ∧ t.locateNode directory path followLast = .ok (q, node) := by
  cases h with
  | fails cause h _ => exact .inl ⟨cause, locateNode_fails h⟩
  | leads q hq h _ =>
    cases hnode : t.get? q with
    | none => exact .inl ⟨_, locateNode_none (hnode ▸ h)⟩
    | some node => exact .inr ⟨q, node, hq, hnode, locateNode_of_locate (hnode ▸ h)⟩

section

variable (h : Together directory path true kind t t') (hsame : ∀ q, kind q → t'.get? q = t.get? q)

include h hsame

theorem read_together : t'.read directory path = t.read directory path := by
  rw [read, read, h.locateNode hsame]

theorem kind_together : t'.kind directory path = t.kind directory path := by
  rw [FileTree.kind, FileTree.kind, h.locateNode hsame]

end

theorem locateTarget_open {q : Place} (h : t.locate directory path true = .ok ⟨q, t.get? q⟩)
    (hopen : t.Open q) : t.locateTarget directory path = .ok (q, t.bytesAt q) := by
  rw [FileTree.locateTarget, h, bytesAt]
  rcases hopen with hnone | ⟨bytes, hfile⟩
  · rw [hnone]
    rfl
  · rw [hfile]
    rfl

section

variable (h : Together directory path true kind t t')
  (hsame : ∀ q, kind q → t'.get? q = t.get? q ∨ t.Open q ∧ t'.Open q)

include h hsame

/-- A path to write to is the same in two trees if the same stands where it leads, or if a file can
be written there in both. -/
theorem Together.locateTarget : (∃ cause, t.locateTarget directory path = .error cause ∧
        t'.locateTarget directory path = .error cause) ∨
      ∃ q, kind q ∧ t.Open q ∧ t.locateTarget directory path = .ok (q, t.bytesAt q) ∧
        t'.locateTarget directory path = .ok (q, t'.bytesAt q) := by
  cases h with
  | fails cause h h' => exact .inl ⟨cause, locateTarget_fails h, locateTarget_fails h'⟩
  | leads q hq h h' =>
    rcases hsame q hq with hsame | ⟨hopen, hopen'⟩
    · cases hnode : t.get? q with
      | none =>
        exact .inr ⟨q, hq, .inl hnode, locateTarget_open h (.inl hnode),
          locateTarget_open h' (.inl (hsame.trans hnode))⟩
      | some node =>
        cases node with
        | file bytes =>
          exact .inr ⟨q, hq, .inr ⟨bytes, hnode⟩, locateTarget_open h (.inr ⟨bytes, hnode⟩),
            locateTarget_open h' (.inr ⟨bytes, hsame.trans hnode⟩)⟩
        | directory =>
          refine .inl ⟨.isDirectory, ?_, ?_⟩
          · rw [FileTree.locateTarget, h, hnode]
            rfl
          · rw [FileTree.locateTarget, h', hsame, hnode]
            rfl
        | link link =>
          refine .inl ⟨.tooManyLinks, ?_, ?_⟩
          · rw [FileTree.locateTarget, h, hnode]
            rfl
          · rw [FileTree.locateTarget, h', hsame, hnode]
            rfl
    · exact .inr ⟨q, hq, hopen, locateTarget_open h hopen, locateTarget_open h' hopen'⟩

theorem modify_together (f : Bytes → Bytes) :
    (∃ cause, t.modify directory path f = (some cause, t) ∧
        t'.modify directory path f = (some cause, t')) ∨
      ∃ q, kind q ∧ t.Open q ∧
        t.modify directory path f = (none, t.put q (.file (f (t.bytesAt q)))) ∧
        t'.modify directory path f = (none, t'.put q (.file (f (t'.bytesAt q)))) := by
  unfold modify
  rcases h.locateTarget hsame with ⟨cause, h, h'⟩ | ⟨q, hq, hopen, h, h'⟩
  · rw [h, h']
    exact .inl ⟨cause, rfl, rfl⟩
  · rw [h, h']
    exact .inr ⟨q, hq, hopen, rfl, rfl⟩

end

theorem remove_together (h : Together directory path false kind t t')
    (hsame : ∀ q, kind q → t'.get? q = t.get? q) :
    (∃ result, t.remove directory path = (result, t) ∧ t'.remove directory path = (result, t')) ∨
      ∃ q, kind q ∧ t.remove directory path = (none, t.erase q) ∧
        t'.remove directory path = (none, t'.erase q) := by
  unfold remove
  rw [h.locateNode hsame]
  rcases h.locateNode_cases with ⟨cause, hfails⟩ | ⟨q, node, hq, _, hleads⟩
  · rw [hfails]
    cases cause <;> exact .inl ⟨_, rfl, rfl⟩
  · rw [hleads]
    cases node with
    | directory => exact .inl ⟨_, rfl, rfl⟩
    | file bytes | link link => exact .inr ⟨q, hq, rfl, rfl⟩

/-- **To move a file** fails in both trees, or moves the same node between the same places. -/
theorem rename_together (hsource : Together directory source false kind t t')
    (htarget : Together directory target false kind' t t')
    (hsame : ∀ q, kind q → t'.get? q = t.get? q) (hsame' : ∀ q, kind' q → t'.get? q = t.get? q) :
    (∃ cause, t.rename directory source target = (some cause, t) ∧
        t'.rename directory source target = (some cause, t')) ∨
      ∃ q p node, kind q ∧ kind' p ∧ t.get? q = some node ∧
        t.rename directory source target = (none, (t.erase q).put p node) ∧
        t'.rename directory source target = (none, (t'.erase q).put p node) := by
  unfold rename
  rw [hsource.locateNode hsame]
  rcases hsource.locateNode_cases with ⟨cause, hfails⟩ | ⟨q, node, hq, hnode, hleads⟩
  · rw [hfails]
    exact .inl ⟨cause, rfl, rfl⟩
  · rw [hleads]
    cases htarget with
    | fails cause h h' =>
      rw [h, h']
      exact .inl ⟨cause, rfl, rfl⟩
    | leads p hp h h' =>
      rw [h, h', hsame' p hp]
      -- only a directory is in the way
      by_cases hdir : t.get? p = some .directory
      · rw [hdir]
        exact .inl ⟨_, rfl, rfl⟩
      · refine .inr ⟨q, p, node, hq, hp, hnode, ?_⟩
        generalize t.get? p = old at hdir
        rcases old with _ | _ | _ | _
        · exact ⟨rfl, rfl⟩
        · exact ⟨rfl, rfl⟩
        · exact absurd rfl hdir
        · exact ⟨rfl, rfl⟩

/-- **To copy a file** fails in both trees, or puts the same bytes at the same place. -/
theorem copy_together (hsource : Together directory source true kind t t')
    (htarget : Together directory target true kind' t t')
    (hsame : ∀ q, kind q → t'.get? q = t.get? q)
    (hfile : ∀ q, kind q → ∃ bytes, t.get? q = some (.file bytes))
    (hsame' : ∀ q, kind' q → t'.get? q = t.get? q) :
    (∃ cause, t.copy directory source target = (some cause, t) ∧
        t'.copy directory source target = (some cause, t')) ∨
      ∃ p q bytes, kind p ∧ kind' q ∧ t.get? p = some (.file bytes) ∧
        t.copy directory source target = (none, if p = q then t else t.put q (.file bytes)) ∧
        t'.copy directory source target = (none, if p = q then t' else t'.put q (.file bytes)) := by
  unfold copy
  by_cases hzero : (source.contains 0 || target.contains 0) = true
  · rw [if_pos hzero, if_pos hzero]
    exact .inl ⟨_, rfl, rfl⟩
  rw [if_neg hzero, if_neg hzero, hsource.locateNode hsame]
  rcases hsource.locateNode_cases with ⟨cause, hfails⟩ | ⟨p, node, hp, hnode, hleads⟩
  · rw [hfails]
    exact .inl ⟨cause, rfl, rfl⟩
  · obtain ⟨bytes, hbytes⟩ := hfile p hp
    obtain rfl := Option.some.inj (hnode.symm.trans hbytes)
    rw [hleads]
    rcases htarget.locateTarget fun q hq => .inl (hsame' q hq) with
      ⟨cause, h, h'⟩ | ⟨q, hq, _, h, h'⟩
    · rw [h, h']
      exact .inl ⟨cause, rfl, rfl⟩
    · rw [h, h']
      refine .inr ⟨p, q, bytes, hp, hq, hnode, ?_⟩
      by_cases heq : p = q
      · simp [heq]
      · simp [heq]

end Posonly.FileTree
