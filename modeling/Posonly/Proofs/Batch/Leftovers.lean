import Posonly.Proofs.Batch.Foretold

/-!
# What a conversion leaves

A file that is converted by itself is read, stored, and replaced by a temporary file. Besides the
file there are then a copy and an entry that the archive keeps (`Keeps`), and there was a temporary
file for a while (`Spare`). What each action does to them is said here: the file is copied into the
archive (`copy_made`), the manifest that is found is the one that was there before
(`held_of_target`), the temporary file is the only one (`Whole.write`), it takes the place of the
file (`rename_over`), or it is taken away again (`Stands.remove`).
-/

open Posonly.FileTree

namespace Posonly

namespace FileTree

variable {t : FileTree} {q : Place} {directory path : Text}

/-- The bytes of the file that a path leads to; none if there is no file to read. -/
def held (t : FileTree) (directory path : Text) : Bytes :=
  match t.read directory path with
  | .ok bytes => bytes
  | .error _ => []

theorem held_of_read {bytes : Bytes} (h : t.read directory path = .ok bytes) :
    t.held directory path = bytes := by
  rw [held, h]

theorem held_eq_nil (h : ∀ bytes, t.read directory path ≠ .ok bytes) :
    t.held directory path = [] := by
  unfold held
  split
  · rename_i bytes hread
    exact absurd hread (h bytes)
  · rfl

/-- **A file is moved over another, or over a link to it.** The path of the other leads to it from
then on, and all that goes is what was moved and, if there was one, a link to the other. -/
theorem rename_over {directory source target : Text} {place : Place} {old new : Bytes} (hq : q ≠ [])
    (hsource : t.locate directory source false = .ok ⟨q, some (.file new)⟩)
    (htarget : t.locate directory target true = .ok ⟨place, some (.file old)⟩) :
    ∃ x, t.rename directory source target = (none, (t.erase q).put x (.file new)) ∧ x ≠ [] ∧
      (x = place ∨ ∃ text, t.get? x = some (.link text)) ∧
      ((t.erase q).put x (.file new)).locate directory target true = .ok ⟨x, some (.file new)⟩ ∧
      t.Lasts (fun y => t.LinksTo y place) ((t.erase q).put x (.file new)) := by
  obtain ⟨x, node, hunfollowed, hnode, hx⟩ : ∃ x node,
      t.locate directory target false = .ok ⟨x, some node⟩ ∧ node ≠ .directory ∧
        (x = place ∧ node = .file old ∨ (∃ text, node = .link text) ∧ t.LinksTo x place) := by
    rcases locate_unfollowed htarget with hsame | ⟨x, text, hlink, hto⟩
    · exact ⟨place, _, hsame, by simp, .inl ⟨rfl, rfl⟩⟩
    · exact ⟨x, _, hlink, by simp, .inr ⟨⟨text, rfl⟩, hto⟩⟩
  have hxnode : t.get? x = some node := get?_of_locate hunfollowed
  have hqnode : t.get? q = some (.file new) := get?_of_locate hsource
  have hxne : x ≠ [] := by
    rintro rfl
    rw [get?_nil, Option.some.injEq] at hxnode
    exact hnode hxnode.symm
  have hget : ∀ p, ((t.erase q).put x (.file new)).get? p =
      if p = x then some (.file new) else if p = q then none else t.get? p := by
    intro p
    rw [get?_put hxne, get?_erase hq]
  have hlasts : t.Lasts (fun y => t.LinksTo y place) ((t.erase q).put x (.file new)) := by
    refine ⟨fun {p} hp => ?_, fun {p text} hp => ?_⟩
    · rw [hget, if_neg, if_neg]
      · exact hp
      · rintro rfl
        rw [hqnode] at hp
        cases hp
      · rintro rfl
        rw [hxnode, Option.some.injEq] at hp
        exact hnode hp
    · by_cases hpx : p = x
      · subst hpx
        rw [hxnode, Option.some.injEq] at hp
        rcases hx with ⟨_, hfile⟩ | ⟨_, hto⟩
        · rw [hfile] at hp
          cases hp
        · exact .inr hto
      · rw [hget, if_neg hpx, if_neg]
        · exact .inl hp
        · rintro rfl
          rw [hqnode] at hp
          cases hp
  refine ⟨x, ?_, hxne, ?_, ?_, hlasts⟩
  · rw [rename, locateNode_of_locate hsource, hunfollowed]
    cases node with
    | directory => exact absurd rfl hnode
    | file bytes | link text => rfl
  · rcases hx with ⟨rfl, _⟩ | ⟨⟨text, rfl⟩, _⟩
    · exact .inl rfl
    · exact .inr ⟨text, hxnode⟩
  · -- a last link is not followed up to here, but now there is none
    have hleads := locate_lasting hlasts id (fun y hy => ⟨place, hy, by simp⟩) hunfollowed (by simp)
    rw [hget, if_pos rfl] at hleads
    rw [locate_steady (.refl _) (fun _ => rfl) hleads, hget, if_pos rfl]

end FileTree

namespace Scene

/-- The place of a temporary file. -/
def Spare (s : Scene) (q : Place) : Prop :=
  ∃ p n token, q = p ++ [n] ∧ s.Fresh token ∧ TemporaryName token n

/-- There is no temporary file. -/
def Cleared (s : Scene) (t : FileTree) : Prop := ∀ q node, t.get? q = some node → ¬ s.Spare q

/-- There is no temporary file but one. -/
def ClearedBut (s : Scene) (t : FileTree) (q : Place) : Prop :=
  ∀ p node, t.get? p = some node → s.Spare p → p = q

/-- A path leads to a file that a task leaves alone: neither its own file nor a temporary one. -/
structure Keeps (s : Scene) (place : Place) (t : FileTree) (path : Text)
    (q : Place) (bytes : Bytes) : Prop where
  other : q ≠ place
  lasting : ¬ s.Spare q
  leads : t.locate s.directory path true = .ok ⟨q, some (.file bytes)⟩

variable {s : Scene} {task : Task} {i : Nat} {place q : Place} {old bytes : Bytes} {t u : FileTree}
  {path token : Text} {a : Archive} {stage : Stage} {calm : Prop} {gone : Place → Prop}

/-! ## Temporary files -/

theorem Spare.ne_nil (h : s.Spare q) : q ≠ [] := by
  obtain ⟨p, n, _, rfl, _⟩ := h
  simp

theorem not_spare_of_clean (h : ∀ n ∈ q, s.Clean n) : ¬ s.Spare q := by
  rintro ⟨p, n, token, rfl, hfresh, hname⟩
  exact h n (by simp) token hfresh hname.contains

/-- What stood there from the start has no token in its name. -/
theorem Separate.not_spare (hs : s.Separate) {node : FileNode} (h : s.made.get? q = some node) :
    ¬ s.Spare q := by
  rintro ⟨p, n, token, rfl, hfresh, hname⟩
  exact hs.unknown token p n node hfresh h hname.contains

theorem Cleared.but (h : s.Cleared t) (q : Place) : s.ClearedBut t q :=
  fun p node hp hspare => absurd hspare (h p node hp)

theorem Cleared.put (h : s.Cleared t) (hne : q ≠ []) (hq : ¬ s.Spare q) (node : FileNode) :
    s.Cleared (t.put q node) := by
  intro p found hp hspare
  rw [get?_put hne] at hp
  split at hp
  · rename_i heq
    exact hq (heq ▸ hspare)
  · exact h p found hp hspare

theorem ClearedBut.put (h : s.ClearedBut t q) (hne : q ≠ []) (node : FileNode) :
    s.ClearedBut (t.put q node) q := by
  intro p found hp hspare
  rw [get?_put hne] at hp
  split at hp
  · assumption
  · exact h p found hp hspare

theorem ClearedBut.erase (h : s.ClearedBut t q) (hne : q ≠ []) : s.Cleared (t.erase q) := by
  intro p found hp hspare
  rw [get?_erase hne] at hp
  split at hp
  · cases hp
  · rename_i hother
    exact hother (h p found hp hspare)

/-! ## What is kept -/

section

variable (h : s.Keeps place t path q bytes)

include h

theorem Keeps.read : t.read s.directory path = .ok bytes :=
  read_eq_ok_iff.mpr ⟨q, h.leads⟩

/-- What is kept stays where it is if no other links go than those to the file of the task. -/
theorem Keeps.carry (hlasts : t.Lasts gone u)
    (hgone : ∀ x, gone x → t.LinksTo x place) (hsame : u.get? q = some (.file bytes)) :
    s.Keeps place u path q bytes where
  other := h.other
  lasting := h.lasting
  leads := by
    have hleads := locate_lasting hlasts id
      (fun x hx => ⟨place, hgone x hx, fun _ => h.other.symm⟩) h.leads (by simp [hsame])
    rw [hleads, hsame]

theorem Keeps.get? : t.get? q = some (.file bytes) :=
  get?_of_locate h.leads

theorem Keeps.put {p : Place} (hopen : t.Open p) (hother : q ≠ p) (new : Bytes) :
    s.Keeps place (t.put p (.file new)) path q bytes := by
  refine h.carry (grown_put_file hopen).steady.lasts (fun _ => False.elim) ?_
  rw [get?_put hopen.ne_nil, if_neg hother]
  exact h.get?

end

/-- What the archive keeps of a file: its copy, and its entry behind what the manifest held before.
-/
def Kept (s : Scene) (task : Task) (place : Place) (old : Bytes) (archived : Option ArchiveEntry)
    (t : FileTree) : Prop :=
  ∀ a, s.archive = some a → ∃ entry c m, archived = some entry ∧
    entry.file = Path.resolve task.directory task.file ∧
    s.Keeps place t (a.copyPath entry.archived) c old ∧
    s.Keeps place t a.manifest m (s.initial.tree.held s.directory a.manifest ++
      Encoding.utf8.encode entry.line)

/-- A tree that stands and has no temporary files. -/
structure Whole (s : Scene) (t : FileTree) : Prop where
  stands : s.Stands (fun _ => False) t
  cleared : s.Cleared t

theorem whole_initial (hs : s.Separate) : s.Whole s.initial.tree where
  stands := s.stands_initial
  cleared _ _ hq := hs.not_spare (making_keeps hq)

theorem whole_made (hs : s.Separate) : s.Whole s.made where
  stands := s.stands_initial.making
  cleared _ _ hq := hs.not_spare hq

section

variable (hs : s.Separate) (hfresh : s.Fresh token)

include hs hfresh

/-- **To write the temporary file** fails and changes nothing, or puts the one file there. -/
theorem Whole.write (h : s.Whole t) (f : Bytes → Bytes) :
    ((t.modify s.directory (task.temporaryPath token) f).1 ≠ none ∧
        (t.modify s.directory (task.temporaryPath token) f).2 = t) ∨
      ∃ q, t.modify s.directory (task.temporaryPath token) f = (none, t.put q (.file (f []))) ∧
        s.Spare q ∧ t.get? q = none ∧ s.ClearedBut (t.put q (.file (f []))) q ∧
        s.Stands (fun _ => False) (t.put q (.file (f []))) ∧
        (t.put q (.file (f []))).locate s.directory (task.temporaryPath token) false =
          .ok ⟨q, some (.file (f []))⟩ := by
  obtain ⟨n, hn, hname⟩ := hs.tokened_temporaryPath task hfresh
  rcases modify_cases t s.directory (task.temporaryPath token) f with
    hfails | ⟨q, before, htarget, hmodify⟩
  · exact .inl hfails
  obtain ⟨node, hlocate, hnode⟩ := locateTarget_ok htarget
  obtain ⟨p, hspot, hunknown⟩ := h.stands.locate_token hs hn hlocate
  obtain ⟨hq, hon⟩ := Spot.mk.inj hspot
  rw [← hq] at hon hunknown
  have hspare : s.Spare q := ⟨p, _, token, hq, hfresh, hname⟩
  have hne := hspare.ne_nil
  have hnone : t.get? q = none := by
    cases hfound : t.get? q with
    | none => rfl
    | some found => exact absurd hspare (h.cleared q found hfound)
  obtain rfl : before = [] := by
    rcases hnode with rfl | ⟨_, hnil⟩
    · rw [hnone] at hon
      cases hon
    · exact hnil
  have hstands : s.Stands (fun _ => False) (t.put q (.file (f []))) :=
    h.stands.put_unknown hne hunknown _
  refine .inr ⟨q, hmodify, hspare, hnone, (h.cleared.but q).put hne _, hstands, ?_⟩
  rcases FileTree.locate_unfollowed (locate_put (.inl hnone) hlocate) with
    hsame | ⟨x, text, hlink, _⟩
  · exact hsame
  · -- no link has the name of a temporary file
    obtain ⟨_, hspot, hxnone⟩ := hstands.locate_token hs hn hlink
    obtain ⟨rfl, hx⟩ := Spot.mk.inj hspot
    rw [(hstands.within.link hx.symm).resolve_right id] at hxnone
    cases hxnone

/-- **To copy a file to the archive** fails and changes nothing, or puts its bytes there. -/
theorem copy_made {archived : Text} (harchived : archived = Archive.copyName task.file token)
    (hread : s.Reads i place old) (hfile : s.files[i]? = some task.file) :
    ((s.made.copy s.directory task.file (a.copyPath archived)).1 ≠ none ∧
        (s.made.copy s.directory task.file (a.copyPath archived)).2 = s.made) ∨
      ∃ c, s.made.copy s.directory task.file (a.copyPath archived) =
          (none, s.made.put c (.file old)) ∧
        s.made.get? c = none ∧ (∃ n ∈ c, ¬ s.Clean n) ∧ s.Whole (s.made.put c (.file old)) ∧
        s.Keeps place (s.made.put c (.file old)) (a.copyPath archived) c old := by
  have hwhole := whole_made hs
  have hshaped := hs.shaped token hfresh
  have hn := hs.tokened_copyPath a task.file hfresh
  have hcopied : CopyName (fun _ => False) token (storedText (Archive.copyName task.file token)) :=
    copyName_stored hshaped task.file fun _ => False.elim
  rw [← harchived] at hn hcopied
  have hsource := locateNode_of_locate
    (hwhole.stands.locate_file hs (fun h => h) hread hfile)
  rcases copy_cases (a.copyPath archived) (fun p node hnode => by
      rw [hsource, Except.ok.injEq, Prod.mk.injEq] at hnode
      exact ⟨old, hnode.2.symm⟩) with hfails | ⟨origin, bytes, c, before, hfound, htarget, hcopy⟩
  · exact .inl hfails
  rw [hsource, Except.ok.injEq, Prod.mk.injEq, FileNode.file.injEq] at hfound
  obtain ⟨rfl, rfl⟩ := hfound
  obtain ⟨node, hlocate, _⟩ := locateTarget_ok htarget
  -- the name has a fresh token in it, so nothing stands there
  obtain ⟨p, hspot, hunknown⟩ := hwhole.stands.locate_token hs hn hlocate
  have hc : c = p ++ [storedText archived] := congrArg Spot.place hspot
  rw [← hc] at hunknown
  have hne : c ≠ [] := by simp [hc]
  have hother : place ≠ c := by
    rintro rfl
    have hmade : s.made.get? place = some (.file old) := making_keeps hread.get?
    rw [hunknown] at hmade
    cases hmade
  rw [if_neg hother] at hcopy
  -- a copy is not named as a temporary file is, whatever the tokens
  have hlasting : ¬ s.Spare c := by
    rintro ⟨p', n, token', heq, hfresh', hname⟩
    rw [hc] at heq
    rw [← (List.append_singleton_inj.mp heq).2] at hname
    exact hcopied.not_temporary hshaped (hs.shaped token' hfresh') hname
  have hunclean : ∃ n ∈ c, ¬ s.Clean n := by
    refine ⟨storedText archived, by simp [hc], fun hclean => ?_⟩
    exact hclean token hfresh (infix_storedText hshaped (harchived ▸ ⟨_, _, rfl⟩))
  refine .inr ⟨c, hcopy, hunknown, hunclean,
    ⟨hwhole.stands.put_unknown hne hunknown _, hwhole.cleared.put hne hlasting _⟩,
    hother.symm, hlasting, locate_put (.inl hunknown) hlocate⟩

theorem Stands.remove (h : s.Stands (fun _ => False) t)
    (hleft : s.Cleared t ∨ ∃ q bytes, s.ClearedBut t q ∧
      t.locate s.directory (task.temporaryPath token) false = .ok ⟨q, some (.file bytes)⟩) :
    s.Whole (t.remove s.directory (task.temporaryPath token)).2 := by
  obtain ⟨n, hn, _⟩ := hs.tokened_temporaryPath task hfresh
  have herase : ∀ {q node}, t.locate s.directory (task.temporaryPath token) false =
      .ok ⟨q, node⟩ → q ≠ [] ∧ s.Stands (fun _ => False) (t.erase q) := by
    intro q node hlocate
    obtain ⟨p, hspot, hunknown⟩ := h.locate_token hs hn hlocate
    cases hspot
    exact ⟨by simp, h.erase (by simp) (absent_of_making hunknown)⟩
  rcases hleft with hcleared | ⟨q, bytes, hbut, hleads⟩
  · rcases remove_cases t s.directory (task.temporaryPath token) with
      hsame | ⟨q, node, hnode, _, hremove⟩
    · rw [hsame]
      exact ⟨h, hcleared⟩
    · obtain ⟨hne, hstands⟩ := herase (locateNode_ok hnode)
      rw [hremove]
      exact ⟨hstands, (hcleared.but q).erase hne⟩
  · obtain ⟨hne, hstands⟩ := herase hleads
    rw [FileTree.remove, locateNode_of_locate hleads]
    exact ⟨hstands, hbut.erase hne⟩

end

/-- **The manifest that is found** when the file has been copied is the one that was there before.
-/
theorem held_of_target (hp : s.Prepared) (ha : s.archive = some a) {c m : Place} {before : Bytes}
    (hnone : s.made.get? c = none) (hc : ∃ n ∈ c, ¬ s.Clean n)
    (hwithin : (s.made.put c (.file old)).Lasts (fun _ => False) s.made)
    (htarget : (s.made.put c (.file old)).locateTarget s.directory a.manifest = .ok (m, before)) :
    (∀ n ∈ m, s.Clean n) ∧ before = s.initial.tree.held s.directory a.manifest := by
  obtain ⟨node, hlocate, hnode⟩ := locateTarget_ok htarget
  have hclean := hp.clean_manifest ha hwithin hlocate
  refine ⟨hclean, ?_⟩
  have hother : m ≠ c := by
    rintro rfl
    obtain ⟨n, hn, hnot⟩ := hc
    exact hnot (hclean n hn)
  have hopen : s.made.Open c := .inl hnone
  have hsame : s.made.get? m = node := by
    rw [← get?_of_locate hlocate, get?_put hopen.ne_nil, if_neg hother]
  rcases hnode with rfl | ⟨rfl, rfl⟩
  · -- a file that is there now was there before
    have hmade := locate_lasting hwithin id (fun _ => False.elim) hlocate (by simp [hsame])
    rw [hsame] at hmade
    exact (held_of_read (read_eq_ok_iff.mpr ⟨m, hp.read_made ha hmade⟩)).symm
  · -- a file that was there before would be there now
    refine (held_eq_nil fun bytes hread => ?_).symm
    obtain ⟨q, hq⟩ := read_eq_ok_iff.mp hread
    have hkept : s.made.get? q = some (.file bytes) := making_keeps (get?_of_locate hq)
    have hlasts : s.initial.tree.Lasts (fun _ => False) (s.made.put c (.file old)) := by
      have hgrown : FileTree.Grown s.made (s.made.put c (.file old)) := grown_put_file hopen
      exact ⟨fun hdir => hgrown.steady.other (making_keeps hdir) (by simp),
        fun hlink => .inl (hgrown.steady.other (making_keeps hlink) (by simp))⟩
    have hqc : q ≠ c := by
      rintro rfl
      rw [hnone] at hkept
      cases hkept
    have hput : (s.made.put c (.file old)).get? q = some (.file bytes) := by
      rwa [get?_put hopen.ne_nil, if_neg hqc]
    have hleads := locate_lasting hlasts id (fun _ => False.elim) hq (by simp [hput])
    rw [hlocate, hput, Except.ok.injEq, Spot.mk.injEq] at hleads
    cases hleads.2

end Scene

end Posonly
