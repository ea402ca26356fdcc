import Posonly.Proofs.Archive.Keeping

/-!
# What recovery gives back

To recover is to copy the files of the earliest entries back, one after the other. Each copy is read
before anything is copied over it, since a copy gets an entry of its own only after the entry that
it was made for. So every file gets the bytes that its copy had when recovery began
(`Kept.recover_run`).
-/

open List ExceptT StateT Posonly.FileTree Posonly.Manifest

namespace Posonly

variable {s : Setting} {called : Place → Text} {w : World} {t t' : FileTree}
  {entries : List ArchiveEntry} {e : ArchiveEntry} {place : Place} {place' : Place}

/-! ## Archives with entries -/

namespace Archive

variable {a : Archive} {p : Premises}

/-- The manifest of an archive holds some entries, or it is not there and they are none. -/
def Lists (a : Archive) (directory : Text) (t : FileTree) (entries : List ArchiveEntry) : Prop :=
  t.read directory a.manifest = .ok (content entries) ∨
    entries = [] ∧ ∃ e, t.read directory a.manifest = .error e ∧ e.cause = .noEntry

theorem perform_read_run (hfaults : w.faults = []) (path : Text) :
    StateT.run (p.host.perform (.read path)) w = (w.tree.read p.directory path, w) :=
  World.perform_of_faults hfaults p.directory (.read path)

theorem entries_run_of_read {bytes : Bytes} (hfaults : w.faults = [])
    (hread : w.tree.read p.directory a.manifest = .ok bytes) :
    StateT.run (a.entries p.host).run w =
      ((read (Encoding.utf8.decode bytes)).mapError (.manifest a.manifest), w) := by
  unfold entries
  rw [ExceptT.run_bind, ExceptT.run_lift, StateT.run_bind, StateT.run_map,
    perform_read_run hfaults, hread]
  cases hmanifest : read (Encoding.utf8.decode bytes) with
  | ok entries | error fault =>
    simp only [bind, Functor.map, hmanifest]
    rfl

theorem entries_run_of_missing {e : FileError} (hfaults : w.faults = [])
    (hread : w.tree.read p.directory a.manifest = .error e) (hcause : e.cause = .noEntry) :
    StateT.run (a.entries p.host).run w = (.ok [], w) := by
  unfold entries
  rw [ExceptT.run_bind, ExceptT.run_lift, StateT.run_bind, StateT.run_map,
    perform_read_run hfaults, hread]
  change StateT.run (if e.cause = .noEntry then pure [] else throw (.file e) :
    ExceptT ArchiveError (StateM World) _).run w = _
  rw [if_pos hcause]
  rfl

theorem entries_run_of_lists (hfaults : w.faults = []) (h : a.Lists p.directory w.tree entries) :
    StateT.run (a.entries p.host).run w = (.ok entries, w) := by
  rcases h with hread | ⟨rfl, e, hread, hcause⟩
  · rw [entries_run_of_read hfaults hread, read_content]
    rfl
  · exact entries_run_of_missing hfaults hread hcause

theorem act_run (hfaults : w.faults = []) (action : FileAction) :
    StateT.run (act p.host action).run w =
      ((w.tree.perform p.directory action).1.mapError ArchiveError.file,
        { w with tree := (w.tree.perform p.directory action).2 }) := by
  change ((w.perform p.directory action).1.mapError ArchiveError.file,
    (w.perform p.directory action).2) = _
  rw [World.perform_of_faults hfaults]

theorem restore_run_of_copy (hfaults : w.faults = [])
    (hmake : w.tree.makeDirectories p.directory (Path.dirname e.file) = (none, w.tree))
    (hcopy : w.tree.copy p.directory (a.copyPath e.archived) e.file = (none, t')) :
    StateT.run (a.restore p.host e).run w = (.ok (), { w with tree := t' }) := by
  have hmade : w.tree.perform p.directory (.makeDirectories (Path.dirname e.file)) =
      (.ok [], w.tree) := by
    rw [perform, hmake]
    rfl
  have hcopied :
      w.tree.perform p.directory (.copy (a.copyPath e.archived) e.file) = (.ok [], t') := by
    rw [perform, hcopy]
    rfl
  unfold restore
  rw [ExceptT.run_bind, StateT.run_bind, act_run hfaults, hmade]
  change StateT.run (act p.host (.copy (a.copyPath e.archived) e.file) >>=
    fun _ => pure () : ExceptT ArchiveError (StateM World) Unit).run w = _
  rw [ExceptT.run_bind, StateT.run_bind, act_run hfaults, hcopied]
  rfl

variable {m : Type → Type} [Monad m]

/-- Copies the files of some entries back, one after the other. -/
def restoreAll (a : Archive) (host : Host m) (es : List ArchiveEntry) :
    ExceptT ArchiveError m PUnit :=
  forIn es PUnit.unit fun e _ => do
    a.restore host e
    pure (ForInStep.yield PUnit.unit)

theorem restoreAll_cons {es : List ArchiveEntry} {w₁ : World}
    (h : StateT.run (a.restore p.host e).run w = (.ok (), w₁)) :
    StateT.run (a.restoreAll p.host (e :: es)).run w =
      StateT.run (a.restoreAll p.host es).run w₁ := by
  unfold restoreAll
  rw [forIn_cons, bind_assoc, ExceptT.run_bind, StateT.run_bind, h]
  rfl

/-- **To recover** is to copy the files of the earliest entries back. -/
theorem recover_run_of_entries (h : StateT.run (a.entries p.host).run w = (.ok entries, w)) :
    StateT.run (a.recover p.host).run w =
      ((StateT.run (a.restoreAll p.host (earliest entries)).run w).1.map
          fun _ => earliest entries,
        (StateT.run (a.restoreAll p.host (earliest entries)).run w).2) := by
  unfold Archive.recover
  rw [ExceptT.run_bind, StateT.run_bind, h]
  change StateT.run (a.restoreAll p.host (earliest entries) >>=
    fun _ => pure (earliest entries) : ExceptT ArchiveError (StateM World) _).run w = _
  rw [ExceptT.run_bind, StateT.run_bind]
  rcases hloop :
    StateT.run (a.restoreAll p.host (earliest entries)).run w with ⟨_ | _, _⟩ <;> rfl

end Archive

/-! ## Finding files -/

theorem read_manifest (hs : s.Ready) (hk : Kept s called w entries) :
    s.root.Lists s.directory w.tree entries := by
  have hnames : ∀ n ∈ s.manifest, Spelled n ∧ pathBytes n ≤ longestName := by
    intro n hn
    rcases mem_append.mp hn with hn | hn
    · exact hs.names n hn
    · rw [mem_singleton.mp hn]
      exact ⟨spelled_manifestName, by decide⟩
  have hway : ∀ q, q <+: s.manifest → q ≠ s.manifest →
      w.tree.get? q = none ∨ w.tree.get? q = some .directory := fun q hq hne =>
    hk.orderly.way q ((prefix_concat_iff.mp hq).resolve_left hne)
  have hlink : ∀ target, w.tree.get? s.manifest ≠ some (.link target) := by
    intro target
    rcases hk.holds with ⟨_, hnone⟩ | hfile
    · simp [hnone]
    · simp [hfile]
  unfold Archive.Lists FileTree.read FileTree.locateNode
  rw [hs.manifest_eq]
  -- a manifest that is missing lists nothing, as one that is empty does
  rcases w.tree.locate_absolute s.directory (by simp [Setting.manifest]) hnames hs.short hway
    hlink with hfound | ⟨hmissing, q, hq, hne, hnone⟩
  · rw [hfound]
    rcases hk.holds with ⟨hnil, hnone⟩ | hfile
    · rw [hnone]
      exact .inr ⟨hnil, _, rfl, rfl⟩
    · rw [hfile]
      exact .inl rfl
  · rw [hmissing]
    rcases hk.holds with ⟨hnil, _⟩ | hfile
    · exact .inr ⟨hnil, _, rfl, rfl⟩
    · rw [hk.orderly.wellFormed.directory_above hfile hq hne] at hnone
      cases hnone

theorem Kept.entries_run (hk : Kept s called w entries) (hs : s.Ready) (hfaults : w.faults = []) :
    StateT.run (s.root.entries s.host).run w = (.ok entries, w) :=
  Archive.entries_run_of_lists hfaults (read_manifest hs hk)

/-! ## Restoring one file -/

theorem Stored.ne_nil (h : Stored s called t e place) : place ≠ [] := by
  rintro rfl
  obtain ⟨bytes, hfile⟩ := h.present
  rw [get?_nil] at hfile
  cases hfile

section

variable (h : Stored s called t e place) (ht : t.WellFormed) (hsteady : s.initial.tree.Steady t)

include h ht hsteady

theorem Stored.makeDirectories :
    t.makeDirectories s.directory (Path.dirname e.file) = (none, t) := by
  obtain ⟨bytes, hfile⟩ := h.present
  have hspot := h.names.leads ht hsteady hfile
  obtain ⟨names, hpath, hne, hspelled⟩ := h.names.spelled
  rw [hpath] at hspot ⊢
  exact makeDirectories_dirname hspelled hne hspot

theorem Stored.copy {copied : Bytes} (hs : s.Ready) (hother : e.file ≠ called (s.copy e.archived))
    (hcopy : t.get? (s.copy e.archived) = some (.file copied)) :
    t.copy s.directory (s.root.copyPath e.archived) e.file =
      (none, t.put place (.file copied)) := by
  obtain ⟨bytes, hfile⟩ := h.present
  obtain ⟨names, hpath, _, hspelled⟩ := h.names.spelled
  have harchived : Spelled e.archived := (ht.spelled hcopy _ (by simp [Setting.copy])).1
  have hzero : ∀ {q : Place}, (∀ n ∈ q, Spelled n) → (Path.absolute q).contains 0 = false :=
    fun hq => by simpa using zero_notMem_absolute.mpr fun n hn => (hq n hn).noZero
  have hne : s.copy e.archived ≠ place := fun heq => hother (by rw [heq, h.file])
  have hspot := h.names.leads ht hsteady hfile
  unfold FileTree.copy
  rw [hs.copyPath_eq harchived, locateTarget_of_locate hspot, hpath, hzero hspelled,
    hzero fun n hn => (ht.spelled hcopy n hn).1,
    locateNode_of_locate (ht.locate_file hcopy h.copyShort _)]
  simp [hne]

theorem Stored.eq_place (h' : Stored s called t e place') : place = place' := by
  obtain ⟨_, hfile⟩ := h.present
  obtain ⟨_, hfile'⟩ := h'.present
  have hspot := h.names.leads ht hsteady hfile
  rw [h'.names.leads ht hsteady hfile', Except.ok.injEq, Spot.mk.injEq] at hspot
  exact hspot.1.symm

end

variable {copied old bytes : Bytes} {es : List ArchiveEntry}

theorem restore_run (hs : s.Ready) (hfaults : w.faults = []) (ht : w.tree.WellFormed)
    (hsteady : s.initial.tree.Steady w.tree) (h : Stored s called w.tree e place)
    (hother : e.file ≠ called (s.copy e.archived))
    (hcopy : w.tree.get? (s.copy e.archived) = some (.file copied)) :
    StateT.run (s.root.restore s.host e).run w =
      (.ok (), { w with tree := w.tree.put place (.file copied) }) :=
  Archive.restore_run_of_copy hfaults (h.makeDirectories ht hsteady)
    (h.copy ht hsteady hs hother hcopy)

/-! ## Restoring all files -/

/-- Entries whose files can be restored one after the other. -/
structure Restorable (s : Setting) (called : Place → Text) (t : FileTree) (es : List ArchiveEntry) :
    Prop where
  stored : ∀ e ∈ es, ∃ place, Stored s called t e place
  apart : es.Pairwise fun e f => e.file ≠ f.file
  /-- No copy is written to before it is read. -/
  order : es.Pairwise fun f e => f.file ≠ called (s.copy e.archived)
  other : ∀ e ∈ es, e.file ≠ called (s.copy e.archived)

theorem Listed.restorable (h : Listed s called t entries) :
    Restorable s called t (earliest entries) where
  stored e he := h.stored e ((earliest_sublist entries).subset he)
  apart := earliest_pairwise entries
  order := h.order.sublist (earliest_sublist entries)
  other e he := h.other e ((earliest_sublist entries).subset he)

/-- What is there once the files of some entries have been restored. -/
structure Restored (s : Setting) (called : Place → Text)
    (es : List ArchiveEntry) (t t' : FileTree) : Prop where
  files : ∀ e ∈ es, ∀ place, Stored s called t e place → t'.get? place = t.get? (s.copy e.archived)
  rest : ∀ q, (∀ e ∈ es, e.file ≠ called q) → t'.get? q = t.get? q

theorem FileTree.WellFormed.put_file (ht : t.WellFormed) (hfile : t.get? place = some (.file old)) :
    (t.put place (.file bytes)).WellFormed := by
  have hne := ne_nil_of_file hfile
  constructor
  · intro q node hnode
    rw [get?_put hne] at hnode
    split at hnode
    · rename_i heq
      exact heq ▸ ht.spelled hfile
    · exact ht.spelled hnode
  · intro q n node hnode
    rw [get?_put hne] at hnode
    have hparent : t.get? q = some .directory := by
      split at hnode
      · rename_i heq
        exact ht.parent (heq ▸ hfile)
      · exact ht.parent hnode
    rw [get?_put hne, if_neg, hparent]
    rintro rfl
    rw [hfile] at hparent
    cases hparent

theorem FileTree.Steady.put_file (h : t'.Steady t) (hfile : t.get? place = some (.file old)) :
    t'.Steady (t.put place (.file bytes)) := by
  have hne := ne_nil_of_file hfile
  constructor
  · intro q bytes' hq
    rw [get?_put hne]
    split
    · exact ⟨bytes, rfl⟩
    · exact h.file hq
  · intro q node hq hnode
    have hsame := h.other hq hnode
    rw [get?_put hne, if_neg, hsame]
    rintro rfl
    rw [hfile, Option.some.injEq] at hsame
    exact hnode old hsame.symm

theorem Stored.put {f : ArchiveEntry} (h : Stored s called t e place)
    (hf : Stored s called t f place') (hapart : e.file ≠ f.file)
    (horder : e.file ≠ called (s.copy f.archived)) :
    Stored s called (t.put place (.file bytes)) f place' ∧
      (t.put place (.file bytes)).get? (s.copy f.archived) = t.get? (s.copy f.archived) := by
  have hne := h.ne_nil
  have hplace : place' ≠ place := fun heq => hapart (by rw [h.file, hf.file, heq])
  have hcopy : s.copy f.archived ≠ place := fun heq => horder (by rw [h.file, heq])
  have hsame :
      (t.put place (.file bytes)).get? (s.copy f.archived) = t.get? (s.copy f.archived) := by
    rw [get?_put hne, if_neg hcopy]
  refine ⟨{ hf with present := ?_, copyPresent := ?_ }, hsame⟩
  · rw [get?_put hne, if_neg hplace]
    exact hf.present
  · rw [hsame]
    exact hf.copyPresent

theorem Restorable.tail (h : Restorable s called t (e :: es))
    (hstored : Stored s called t e place) : Restorable s called (t.put place (.file bytes)) es where
  stored f hf := by
    obtain ⟨place', hf'⟩ := h.stored f (mem_cons_of_mem e hf)
    exact ⟨place', (hstored.put hf' ((pairwise_cons.mp h.apart).1 f hf)
      ((pairwise_cons.mp h.order).1 f hf)).1⟩
  apart := (pairwise_cons.mp h.apart).2
  order := (pairwise_cons.mp h.order).2
  other f hf := h.other f (mem_cons_of_mem e hf)

theorem Restored.cons (ht : t.WellFormed) (hsteady : s.initial.tree.Steady t)
    (h : Restorable s called t (e :: es)) (hstored : Stored s called t e place)
    (hcopy : t.get? (s.copy e.archived) = some (.file copied))
    (hrest : Restored s called es (t.put place (.file copied)) t') :
    Restored s called (e :: es) t t' where
  files f hf place' hf' := by
    rcases mem_cons.mp hf with rfl | hf
    · obtain rfl := hstored.eq_place ht hsteady hf'
      -- the others are entries of other files, so nothing is copied over this one again
      have hlast : t'.get? place = (t.put place (.file copied)).get? place :=
        hrest.rest place fun g hg => by
          rw [← hstored.file]
          exact ((pairwise_cons.mp h.apart).1 g hg).symm
      rw [hlast, get?_put hstored.ne_nil, if_pos rfl, hcopy]
    · obtain ⟨hput, hsame⟩ := hstored.put hf' ((pairwise_cons.mp h.apart).1 f hf)
        ((pairwise_cons.mp h.order).1 f hf)
      rw [hrest.files f hf place' hput, hsame]
  rest q hq := by
    rw [hrest.rest q fun f hf => hq f (mem_cons_of_mem e hf), get?_put hstored.ne_nil, if_neg]
    rintro rfl
    exact hq e mem_cons_self hstored.file

/-- **Restoring files one after the other** gives each the bytes that its copy had at first. -/
theorem restoreAll_run (hs : s.Ready) (hfaults : w.faults = []) (ht : w.tree.WellFormed)
    (hsteady : s.initial.tree.Steady w.tree) (h : Restorable s called w.tree es) :
    ∃ t', StateT.run (s.root.restoreAll s.host es).run w =
      (.ok PUnit.unit, { w with tree := t' }) ∧ Restored s called es w.tree t' := by
  induction es generalizing w with
  | nil => exact ⟨w.tree, rfl, ⟨fun _ h => (by cases h), fun _ _ => rfl⟩⟩
  | cons e es ih =>
    obtain ⟨place, hstored⟩ := h.stored e mem_cons_self
    obtain ⟨copied, hcopy⟩ := hstored.copyPresent
    obtain ⟨old, hfile⟩ := hstored.present
    obtain ⟨t', hrun, hrestored⟩ := @ih { w with tree := w.tree.put place (.file copied) } hfaults
      (ht.put_file hfile) (hsteady.put_file hfile) (h.tail hstored)
    refine ⟨t', ?_, hrestored.cons ht hsteady h hstored hcopy⟩
    rwa [Archive.restoreAll_cons
      (restore_run hs hfaults ht hsteady hstored (h.other e mem_cons_self) hcopy)]

/-- **To recover** is to give each file the bytes that the copy of its earliest entry had. -/
theorem Kept.recover_run (hk : Kept s called w entries) (hs : s.Ready) (hfaults : w.faults = []) :
    ∃ t', StateT.run (s.root.recover s.host).run w =
        (.ok (earliest entries), { w with tree := t' }) ∧
      Restored s called (earliest entries) w.tree t' := by
  obtain ⟨t', hloop, hrestored⟩ := restoreAll_run hs hfaults hk.orderly.wellFormed
    hk.orderly.steady hk.listed.restorable
  refine ⟨t', ?_, hrestored⟩
  rw [Archive.recover_run_of_entries (hk.entries_run hs hfaults), hloop]
  rfl

/-! ## Files from the beginning -/

section

variable {bytes : Bytes} (hname : Naming s called) (hk : Kept s called w entries)
  (hrestored : Restored s called (earliest entries) w.tree t')
  (hinitial : s.initial.tree.get? place = some (.file bytes))

include hname hk hrestored hinitial

theorem Kept.restored_copy (he : e ∈ earliest entries) (hfile : e.file = called place) :
    t'.get? place = w.tree.get? (s.copy e.archived) := by
  obtain ⟨place', hstored⟩ := hk.listed.restorable.stored e he
  obtain ⟨_, hpresent⟩ := hstored.present
  obtain ⟨_, hpresent'⟩ := hk.orderly.steady.file hinitial
  have hplace : place' = place := hname.unique hk.orderly.wellFormed hk.orderly.steady hpresent
    hpresent' (hstored.file.symm.trans hfile)
  exact hrestored.files e he place (hplace ▸ hstored)

/-- A file from the beginning has its bytes again if the copies of its earliest entry have them. A
file without an entry has kept them. -/
theorem Kept.restored_original (hcopies : ∀ e ∈ earliest entries,
      e.file = called place → w.tree.get? (s.copy e.archived) = some (.file bytes)) :
    t'.get? place = some (.file bytes) := by
  by_cases hentry : ∃ e ∈ earliest entries, e.file = called place
  · obtain ⟨e, he, hfile⟩ := hentry
    rw [hk.restored_copy hname hrestored hinitial he hfile, hcopies e he hfile]
  · -- the first of its entries would be among the earliest, so the file has none
    rw [hrestored.rest place fun e he hfile => hentry ⟨e, he, hfile⟩]
    rcases hk.listed.originals place bytes hinitial with hsame | ⟨_, e, he, hfile⟩
    · exact hsame
    · have hany : (entries.any fun f => f.file == called place) = true :=
        any_eq_true.mpr ⟨e, he, beq_iff_eq.mpr hfile⟩
      rw [← any_earliest, any_eq_true] at hany
      obtain ⟨f, hf, hfile'⟩ := hany
      exact absurd ⟨f, hf, beq_iff_eq.mp hfile'⟩ hentry

end

/-! ## Without faults -/

theorem Orderly.calm (h : Orderly s w) (hs : s.Proper) : w.faults = [] := by
  have hfaults := h.faults
  rw [hs.faults] at hfaults
  exact suffix_nil.mp hfaults

end Posonly
