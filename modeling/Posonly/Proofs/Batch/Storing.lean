import Posonly.Proofs.Archive.Keeping

/-!
# One task that stores its file

A task stores a copy of its file and puts an entry into the manifest before it replaces the file.
How far it has come says what is known of the archive (`Reached`), and what its next action can do
to the tree is said once (`perform_change`).
-/

open List Posonly.FileTree Posonly.Path

namespace Posonly

/-- A task of a run that stores files, which has begun when so many supplies had been taken. -/
structure Tasked (s : Setting) (called : Place → Text) (since : Nat) (task : Task) (place : Place) :
    Prop where
  archive : task.options.archive = some s.root
  directory : task.directory = s.directory
  /-- The path that the entry gets is what the file is called. -/
  recorded : resolve s.directory task.file = called place
  names : Names s (called place) place
  last : ∃ parent, place = parent ++ [basename task.file]
  spelled : Spelled (basename task.file)
  paired : task.file.Paired
  /-- The copy has the token ahead of an extension, or behind a name without a token. -/
  named : extension task.file ≠ [] ∨ s.Known (basename task.file)
  lasting : Lasting s place
  /-- The path leads to the file as long as it is there, if it leads anywhere. -/
  leads : ∀ {t : FileTree} {bytes : Bytes} {followLast : Bool} {spot : Spot}, t.WellFormed →
    s.initial.tree.Steady t → t.get? place = some (.file bytes) →
    t.locate s.directory task.file followLast = .ok spot →
    spot = ⟨place, some (.file bytes)⟩
  /-- The file is not a copy that this run makes. -/
  old : ¬ s.Copied since (basename task.file)

/-- A file that is being replaced has an entry, and its temporary file a name with a token. -/
structure Replacing (s : Setting) (called : Place → Text) (w : World) (entries : List ArchiveEntry)
    (task : Task) (place : Place) (r : Replacement) : Prop where
  listed : ∃ e ∈ entries, e.file = called place
  temporary : ∃ i, s.initial.supplied ≤ i ∧ i < w.supplied ∧
    r.temporary = task.temporaryPath (s.token i)

/-- A copy that has been made for an entry that is still to come. -/
structure Recording (s : Setting) (called : Place → Text) (since : Nat) (w : World)
    (entries : List ArchiveEntry) (place : Place) (e : ArchiveEntry) : Prop where
  file : e.file = called place
  spelled : Spelled e.archived
  name : ∃ i, since ≤ i ∧ i < w.supplied ∧ CopyName s.Fresh (s.token i) e.archived
  short : pathBytes (absolute (s.copy e.archived)) < pathLimit
  copied : ∃ bytes, w.tree.get? (s.copy e.archived) = some (.file bytes) ∧
    ∀ original, s.initial.tree.get? place = some (.file original) →
      bytes = original ∨ ∃ f ∈ entries, f.file = called place

/-- A copy that is still to be made. -/
structure Copying (s : Setting) (since : Nat) (w : World) (archived : Text) : Prop where
  spelled : Spelled archived
  name : ∃ i, since ≤ i ∧ i < w.supplied ∧ CopyName s.Fresh (s.token i) archived
  absent : w.tree.get? (s.copy archived) = none

/-- What is known of a task by its stage. -/
def Reached (s : Setting) (called : Place → Text) (since : Nat) (w : World)
    (entries : List ArchiveEntry) (task : Task) (place : Place) : Stage → Prop
  | .archiving _ _ (.copying archived) => Copying s since w archived
  | .archiving _ _ (.recording e) => Recording s called since w entries place e
  | .checking r | .writing r | .moving r | .cleaning r _ =>
    Replacing s called w entries task place r
  | _ => True

/-- Where a task writes a file that is no temporary one. -/
inductive Writes (s : Setting) (place : Place) : Stage → Place → Prop where
  | copy (source : Text) (result : Conversion.Result) (archived : Text) :
      Writes s place (.archiving source result (.copying archived)) (s.copy archived)
  | manifest (source : Text) (result : Conversion.Result) (e : ArchiveEntry) :
      Writes s place (.archiving source result (.recording e)) s.manifest
  | file (r : Replacement) : Writes s place (.moving r) place

variable {s : Setting} {called : Place → Text} {since : Nat} {w : World}
  {entries : List ArchiveEntry} {task : Task} {place : Place} {stage : Stage} {t : FileTree}
  {archived : Text}

theorem copied_of_supplied (hstop : w.supplied ≤ s.stop)
    (h : ∃ i, since ≤ i ∧ i < w.supplied ∧ CopyName s.Fresh (s.token i) archived) :
    s.Copied since archived := by
  obtain ⟨i, hi, hlt, hname⟩ := h
  exact ⟨i, hi, Nat.lt_of_lt_of_le hlt hstop, hname⟩

/-! ## Lookups in the archive and beside the file -/

section

variable (hs : s.Ready) (ho : Orderly s w)

include hs ho

/-- **A path into the archive** leads to the place it spells, if it leads anywhere and no link is
there; and then the archive is there. -/
theorem locate_archive {n : Text} {followLast : Bool} {spot : Spot} (hn : Spelled n)
    (hlink : ∀ target, w.tree.get? (s.copy n) ≠ some (.link target))
    (hspot : w.tree.locate s.directory (absolute (s.copy n)) followLast = .ok spot) :
    spot = ⟨s.copy n, w.tree.get? (s.copy n)⟩ ∧
      w.tree.get? s.archive = some .directory ∧ pathBytes n ≤ longestName ∧
      pathBytes (absolute (s.copy n)) < pathLimit := by
  have hspelled : ∀ m ∈ s.archive ++ [n], Spelled m := by
    intro m hm
    rcases mem_append.mp hm with hm | hm
    · exact (hs.names m hm).1
    · rwa [mem_singleton.mp hm]
  have htarget : target s.directory (absolute (s.archive ++ [n])) =
      s.archive ++ [n] := simplify_absolute fun m hm => (hspelled m hm).toIsName
  have hpaired : (absolute (s.archive ++ [n])).Paired :=
    paired_absolute.mpr fun m hm => (hspelled m hm).paired
  have hcomponents :
      components (absolute (s.archive ++ [n])) = [] :: (s.archive ++ [n]) :=
    components_absolute (fun m hm => (hspelled m hm).noSlash) (by simp)
  have hdesc : Descending (components (absolute (s.archive ++ [n]))) := by
    rw [hcomponents]
    refine pairwise_cons.mpr ⟨fun m hm hup => absurd hup (hspelled m hm).notUp, ?_⟩
    exact pairwise_of_forall_mem_list fun _ _ m hm hup => absurd hup (hspelled m hm).notUp
  -- on the way to the archive there are directories or nothing, but no links
  have hno : w.tree.NoLink (s.archive ++ [n]) := by
    intro q hq target hq'
    rcases prefix_concat_iff.mp hq with rfl | hq
    · exact hlink target hq'
    · rcases ho.way q hq with hnone | hdir
      · rw [hnone] at hq'
        cases hq'
      · rw [hdir] at hq'
        cases hq'
  obtain ⟨heq, harrived⟩ := locate_target hpaired hdesc (by rwa [htarget]) hspot
  rw [htarget] at heq harrived
  rw [hcomponents] at harrived
  have hlast : ([] :: (s.archive ++ [n])).getLast? = some n := by
    rw [← cons_append, getLast?_concat]
  obtain ⟨hlength, parent, hparent, hdir⟩ := harrived.last n hlast hn.toIsName
  obtain ⟨rfl, _⟩ := append_inj' hparent rfl
  exact ⟨heq, hdir, hlength, (follow_of_locate hpaired hspot).2.1⟩

/-! ## What an action can do -/

theorem change_making (q : Place) : FileTree.Change s.archive s.Temporary (Writes s place stage)
    w.tree (w.tree.makeDirectories s.directory s.root.root).2 q := by
  rcases makeDirectories_absolute (t := w.tree) s.directory
    (fun n hn => (hs.names n hn).1) with ⟨hsame, _⟩ | hmake
  · exact .same (congrArg (fun t : FileTree => t.get? q) hsame)
  · have hway := makeAlong_open (get?_nil w.tree) ho.way q
    rw [Setting.root, hmake]
    rcases hway with hsame | ⟨r, hr, rfl, hnone, hdirs⟩
    · exact .same hsame
    · exact .opened hr hnone hdirs

theorem append_spec (hholds : Holds s w.tree entries) (more : Bytes) :
    ((w.tree.modify s.directory s.root.manifest (· ++ more)).1 ≠ none ∧
      (w.tree.modify s.directory s.root.manifest (· ++ more)).2 = w.tree) ∨
    (w.tree.modify s.directory s.root.manifest (· ++ more) =
        (none, w.tree.put s.manifest (.file (Manifest.content entries ++ more))) ∧
      w.tree.get? s.archive = some .directory) := by
  have hpath := hs.manifest_eq
  rcases modify_cases w.tree s.directory s.root.manifest (· ++ more) with
    hfailed | ⟨place, old, htarget, hmodify⟩
  · exact .inl hfailed
  · obtain ⟨node, hspot, hnode⟩ := locateTarget_ok htarget
    have hlink : ∀ link, w.tree.get? s.manifest ≠ some (.link link) := by
      intro link
      rcases hholds with ⟨_, hnone⟩ | hfile
      · rw [hnone]
        simp
      · rw [hfile]
        simp
    rw [hpath] at hspot
    obtain ⟨hfound, hdir, _, _⟩ := locate_archive hs ho spelled_manifestName hlink hspot
    have hplace : place = s.manifest ∧ node = w.tree.get? s.manifest := Spot.mk.inj hfound
    -- a manifest that is not there yet counts as empty
    have hold : old = Manifest.content entries := by
      rcases hholds with ⟨rfl, hnone⟩ | hfile
      · rw [hplace.2, hnone] at hnode
        rcases hnode with hnode | ⟨_, hnil⟩
        · cases hnode
        · rw [hnil]
          rfl
      · rw [hplace.2, hfile] at hnode
        rcases hnode with hnode | ⟨hnode, _⟩
        · rw [Option.some.injEq, FileNode.file.injEq] at hnode
          exact hnode.symm
        · cases hnode
    rw [hmodify, hplace.1, hold]
    exact .inr ⟨rfl, hdir⟩

variable (htask : Tasked s called since task place) {r : Replacement}

include htask

section

variable (hstop : w.supplied ≤ s.stop)

include hstop

/-- **The path of a temporary file** leads to a place with a name that no other file has. -/
theorem locate_temporary (hr : Replacing s called w entries task place r) :
    ∃ n, s.Temporary n ∧ Spelled n ∧ ∀ followLast spot,
      w.tree.locate s.directory r.temporary followLast = .ok spot →
        ∃ parent, spot = ⟨parent ++ [n], w.tree.get? (parent ++ [n])⟩ ∧
          w.tree.get? parent = some .directory ∧ pathBytes n ≤ longestName := by
  obtain ⟨i, hstart, hi, htemporary⟩ := hr.temporary
  have hi' : i < s.stop := Nat.lt_of_lt_of_le hi hstop
  obtain ⟨n, cs, hname, hspelled, hpaired, hcomponents⟩ :=
    temporaryPath_spec htask.spelled htask.paired (hs.tokens.shaped i hstart hi')
  have hmade : s.Temporary n := ⟨i, hstart, hi', hname⟩
  refine ⟨n, hmade, hspelled, fun followLast spot hspot => ?_⟩
  rw [htemporary] at hspot
  refine locate_name hspelled.toIsName (fun q target hlink => ?_) hpaired hcomponents hspot
  obtain ⟨_, hfile⟩ := ho.plain q n _ (.inl hmade) hlink
  cases hfile

theorem change_writing (hr : Replacing s called w entries task place r) (more : Bytes)
    (q : Place) : FileTree.Change s.archive s.Temporary (Writes s place stage) w.tree
      (w.tree.modify s.directory r.temporary fun _ => more).2 q := by
  obtain ⟨n, hn, hspelled, hlocate⟩ := locate_temporary hs ho htask hstop hr
  rcases modify_cases w.tree s.directory r.temporary fun _ => more with
    ⟨_, hsame⟩ | ⟨target, old, htarget, hmodify⟩
  · exact .of_eq hsame
  · obtain ⟨node, hspot, _⟩ := locateTarget_ok htarget
    obtain ⟨parent, hplace, hdir, hlength⟩ := hlocate true _ hspot
    rw [Spot.mk.injEq] at hplace
    rw [hmodify, hplace.1]
    exact .of_put (.inl hn) hdir ⟨hspelled, hlength⟩ fun node => ho.plain parent n node (.inl hn)

theorem change_cleaning (hr : Replacing s called w entries task place r) (q : Place) :
    FileTree.Change s.archive s.Temporary (Writes s place stage) w.tree
      (w.tree.remove s.directory r.temporary).2 q := by
  obtain ⟨n, hn, _, hlocate⟩ := locate_temporary hs ho htask hstop hr
  rcases remove_cases w.tree s.directory r.temporary with
    hsame | ⟨target, node, hnode, _, hremove⟩
  · exact .of_eq hsame
  · obtain ⟨parent, hplace, _, _⟩ := hlocate false _ (locateNode_ok hnode)
    rw [Spot.mk.injEq] at hplace
    rw [hremove, hplace.1]
    exact .of_erase hn

end

variable {bytes : Bytes} (hpresent : w.tree.get? place = some (.file bytes))

include hpresent

theorem copy_spec {archived : Text} (h : Copying s since w archived) :
    ((w.tree.copy s.directory task.file (s.root.copyPath archived)).1 ≠ none ∧
      (w.tree.copy s.directory task.file (s.root.copyPath archived)).2 = w.tree) ∨
    (w.tree.copy s.directory task.file (s.root.copyPath archived) =
        (none, w.tree.put (s.copy archived) (.file bytes)) ∧
      w.tree.get? s.archive = some .directory ∧ pathBytes archived ≤ longestName ∧
      pathBytes (absolute (s.copy archived)) < pathLimit) := by
  have hpath := hs.copyPath_eq h.spelled
  have hsource : ∀ q node, w.tree.locateNode s.directory task.file true = .ok (q, node) →
      q = place ∧ node = .file bytes := by
    intro q node hnode
    have hspot := htask.leads ho.wellFormed ho.steady hpresent (locateNode_ok hnode)
    rwa [Spot.mk.injEq, Option.some.injEq] at hspot
  rcases copy_cases (s.root.copyPath archived)
    (fun q node hnode => ⟨bytes, (hsource q node hnode).2⟩) with
    hfailed | ⟨origin, copied, target, old, hnode, htarget, hcopy⟩
  · exact .inl hfailed
  · obtain ⟨rfl, hbytes⟩ := hsource origin _ hnode
    rw [FileNode.file.injEq] at hbytes
    subst hbytes
    obtain ⟨node, hspot, _⟩ := locateTarget_ok htarget
    rw [hpath] at hspot
    have hlink : ∀ link, w.tree.get? (s.copy archived) ≠ some (.link link) := by
      intro link
      rw [h.absent]
      simp
    obtain ⟨hplace, hdir, hlength, hshort⟩ := locate_archive hs ho h.spelled hlink hspot
    rw [Spot.mk.injEq] at hplace
    -- nothing is there yet, so the file is not copied onto itself
    have hne : origin ≠ target := by
      rintro rfl
      rw [hplace.1, h.absent] at hpresent
      cases hpresent
    rw [hcopy, if_neg hne, hplace.1]
    exact .inr ⟨rfl, hdir, hlength, hshort⟩

variable (hstop : w.supplied ≤ s.stop) {action : FileAction}

include hstop

theorem change_moving (hr : Replacing s called w entries task place r) (q : Place) :
    FileTree.Change s.archive s.Temporary (Writes s place (.moving r)) w.tree
      (w.tree.rename s.directory r.temporary task.file).2 q := by
  obtain ⟨n, hn, _, hlocate⟩ := locate_temporary hs ho htask hstop hr
  rcases rename_cases w.tree s.directory r.temporary task.file with
    hsame | ⟨origin, node, target, old, hnode, htarget, _, hrename⟩
  · exact .of_eq hsame
  · obtain ⟨parent, horigin, _, _⟩ := hlocate false _ (locateNode_ok hnode)
    rw [Spot.mk.injEq] at horigin
    obtain ⟨moved, rfl⟩ := ho.plain parent n node (.inl hn) horigin.2.symm
    have hplace := htask.leads ho.wellFormed ho.steady hpresent htarget
    rw [Spot.mk.injEq] at hplace
    obtain ⟨above, hlast⟩ := htask.last
    rw [hrename, horigin.1, hplace.1]
    have hput : ((w.tree.erase (parent ++ [n])).put place (.file moved)).get? q =
        if q = place then some (.file moved) else (w.tree.erase (parent ++ [n])).get? q :=
      get?_put (by simp [hlast]) q
    -- the file gets the bytes, the temporary file goes, and the rest stays
    by_cases hq : q = place
    · subst hq
      rw [hlast] at hpresent
      refine .filed above _ moved hlast (.inr (.file r)) (ho.wellFormed.parent hpresent)
        (ho.wellFormed.spelled hpresent _ (by simp)) (fun node hold => ?_)
        (by rw [hput, if_pos rfl])
      rw [hlast, hpresent, Option.some.injEq] at hold
      exact ⟨bytes, hold.symm⟩
    · have herase : (w.tree.erase (parent ++ [n])).get? q =
          if q = parent ++ [n] then none else w.tree.get? q := get?_erase (by simp) q
      by_cases hold : q = parent ++ [n]
      · subst hold
        exact .gone parent n rfl hn (by rw [hput, if_neg hq, herase, if_pos rfl])
      · exact .same (by rw [hput, if_neg hq, herase, if_neg hold])

/-- **An action of a task** changes files only where its stage says so. -/
theorem perform_change (hholds : Holds s w.tree entries)
    (hreached : Reached s called since w entries task place stage)
    (haction : task.action? stage = some action) (q : Place) :
    FileTree.Change s.archive s.Temporary (Writes s place stage) w.tree
      (w.tree.perform s.directory action).2 q := by
  -- one case for each action; those that only look change nothing
  cases stage with
  | reading =>
    cases haction
    exact .same rfl
  | archiving source result stage =>
    rw [Task.action?, htask.archive, Option.bind_some] at haction
    cases stage with
    | making =>
      cases haction
      rw [perform, settled_snd]
      exact change_making hs ho q
    | copying archived =>
      cases haction
      rw [perform, settled_snd]
      rcases copy_spec hs ho htask hpresent hreached with ⟨_, hsame⟩ | ⟨hcopy, hdir, hlength, _⟩
      · exact .of_eq hsame
      · rw [hcopy]
        refine .of_put (.inr (.copy ..)) hdir ⟨hreached.spelled, hlength⟩ fun node hnode => ?_
        cases hreached.absent.symm.trans hnode
    | recording e =>
      cases haction
      rw [perform, settled_snd]
      rcases append_spec hs ho hholds (Encoding.utf8.encode e.line) with
        ⟨_, hsame⟩ | ⟨happend, hdir⟩
      · exact .of_eq hsame
      · rw [happend]
        refine .of_put (.inr (.manifest ..)) hdir
          ⟨spelled_manifestName, by decide⟩ fun node hnode => ?_
        rcases hholds with ⟨_, hnone⟩ | hfile
        · cases hnone.symm.trans hnode
        · exact ⟨_, (Option.some.inj (hfile.symm.trans hnode)).symm⟩
    | stored e | failed e => cases haction
  | checking r =>
    cases haction
    exact .same rfl
  | writing r =>
    cases haction
    rw [perform, settled_snd]
    exact change_writing hs ho htask hstop hreached _ q
  | moving r =>
    cases haction
    rw [perform, settled_snd]
    exact change_moving hs ho htask hpresent hstop hreached q
  | cleaning r e =>
    cases haction
    rw [perform, settled_snd]
    exact change_cleaning hs ho htask hstop hreached q
  | finished outcome => cases haction

/-- **What can come of an action of a task**, also if it fails. -/
theorem yields_change (hholds : Holds s w.tree entries)
    (hreached : Reached s called since w entries task place stage)
    (haction : task.action? stage = some action) {reply : FileReply}
    (hyields : w.tree.Yields s.directory action reply t) (q : Place) :
    FileTree.Change s.archive s.Temporary (Writes s place stage) w.tree t q := by
  cases hyields with
  | done => exact perform_change hs ho htask hpresent hstop hholds hreached haction q
  | failed e => exact .same rfl
  | torn e path bytes more hwrite =>
    -- only the temporary file is ever written to
    subst hwrite
    cases stage with
    | writing r =>
      cases haction
      exact change_writing hs ho htask hstop hreached more q
    | archiving source result stage =>
      rw [Task.action?, htask.archive, Option.bind_some] at haction
      cases stage <;> cases haction
    | _ => cases haction

end

/-! ## Where a task writes -/

namespace Writes

variable {q : Place} {bytes : Bytes}

theorem way (hq : Writes s place stage q) (ho : Orderly s w)
    (hpresent : w.tree.get? place = some (.file bytes)) : ¬ q <+: s.archive := by
  have hinside : ∀ n, ¬ s.archive ++ [n] <+: s.archive := fun n hprefix => by
    have := hprefix.length_le
    rw [length_append, length_singleton] at this
    omega
  cases hq with
  | copy _ _ archived => exact hinside archived
  | manifest _ _ e => exact hinside _
  | file r =>
    intro hprefix
    rcases ho.way place hprefix with hnone | hdir
    · rw [hnone] at hpresent
      cases hpresent
    · rw [hdir] at hpresent
      cases hpresent

/-- A task writes to no name with a token that is still to come. -/
theorem seen {parent : Place} {n : Text} (hq : Writes s place stage (parent ++ [n]))
    (hs : s.Ready) (htask : Tasked s called since task place) (hstart : s.initial.supplied ≤ since)
    (hsince : since ≤ w.supplied) (hstop : w.supplied ≤ s.stop)
    (hreached : Reached s called since w entries task place stage) : ¬ s.Copied w.supplied n := by
  generalize hplace : parent ++ [n] = q at hq
  cases hq with
  | copy _ _ archived =>
    obtain ⟨_, hn⟩ := append_singleton_inj.mp hplace
    subst hn
    -- the token in the name of the copy has been supplied, and there is only one in it
    obtain ⟨i, hi, hlt, hname⟩ := hreached.name
    rintro ⟨j, hj, hjstop, hname'⟩
    have := hs.count_unique (by omega) (Nat.lt_of_lt_of_le hlt hstop) (by omega) hjstop hname hname'
    omega
  | manifest _ _ e =>
    obtain ⟨_, hn⟩ := append_singleton_inj.mp hplace
    rintro ⟨i, hi, histop, hname⟩
    exact hname.ne_manifest (hs.tokens.shaped i (by omega) histop) hn
  | file r =>
    obtain ⟨above, hlast⟩ := htask.last
    rw [hlast] at hplace
    obtain ⟨_, hn⟩ := append_singleton_inj.mp hplace
    rintro ⟨i, hi, histop, hname⟩
    exact htask.old ⟨i, Nat.le_trans hsince hi, histop, hn ▸ hname⟩

/-- What a task writes over is the manifest, or it is its file and has an entry. -/
theorem listed (hq : Writes s place stage q)
    (hreached : Reached s called since w entries task place stage)
    (hold : w.tree.get? q = some (.file bytes)) :
    q = s.manifest ∨ q = place ∧ ∃ f ∈ entries, f.file = called q := by
  cases hq with
  | copy _ _ archived =>
    rw [hreached.absent] at hold
    cases hold
  | manifest _ _ e => exact .inl rfl
  | file r => exact .inr ⟨rfl, hreached.listed⟩

end Writes

end Posonly
