import Mathlib.Data.List.Find
import Posonly.Proofs.Program.Recovery

/-!
# Conversions that are under way at once

Any number of tasks may store files in one archive while they take turns in any order, several of
them on the same file, and while actions fail. A task that replaces a file has recorded an entry for
it before, and a copy that is taken later than that belongs to a later entry. So the copy of the
first entry has the bytes from the beginning, at every moment, and recovery brings them back
(`handleAll_keeps_originals`).

The entry of a file holds what the path of its task spells, links not followed. So for this the
spelling must lead to the file, and one file must not be given under two spellings.
-/

open List Posonly.FileTree Posonly.Path

namespace Posonly

variable {s : Setting} {called : Place → Text} {since : Nat} {w : World}
  {entries : List ArchiveEntry} {b : Batch} {task : Task} {tasks : List Task} {place : Place}
  {t : FileTree} {bytes : Bytes} {e : ArchiveEntry}

/-- The world if nothing more fails. -/
def World.calm (w : World) : World := { w with faults := [] }

theorem Kept.calm (h : Kept s called w entries) : Kept s called w.calm entries where
  orderly := { h.orderly with faults := nil_suffix }
  listed := h.listed
  holds := h.holds

/-! ## Tasks on files from the beginning -/

/-- A task that stores the file at a place before it replaces it. -/
structure Enrolled (s : Setting) (task : Task) (place : Place) : Prop where
  archive : task.options.archive = some s.root
  directory : task.directory = s.directory
  paired : task.file.Paired ∧ (resolve s.directory task.file).Paired
  /-- The path leads to the file, and no link is at its end. -/
  leads : ∃ bytes, s.initial.tree.locate s.directory task.file false =
    .ok ⟨place, some (.file bytes)⟩
  /-- What the path spells leads there too. -/
  recorded : ∃ bytes, s.initial.tree.locate s.directory
    (resolve s.directory task.file) true = .ok ⟨place, some (.file bytes)⟩

namespace Enrolled

variable (h : Enrolled s task place)

include h

/-- Whatever has changed since the beginning, the path leads where it led then. -/
theorem locate (hsteady : s.initial.tree.Steady t) (followLast : Bool) :
    t.locate s.directory task.file followLast = .ok ⟨place, t.get? place⟩ := by
  obtain ⟨bytes, hspot⟩ := h.leads
  exact locate_steady hsteady (by simp) hspot

theorem present : ∃ bytes, s.initial.tree.get? place = some (.file bytes) := by
  obtain ⟨bytes, hspot⟩ := h.leads
  rw [h.locate (.refl _), Except.ok.injEq, Spot.mk.injEq] at hspot
  exact ⟨bytes, hspot.2⟩

/-- The file has the last name of the path, and what the path spells ends in it too. -/
theorem last (hs : s.Ready) : (∃ parent, place = parent ++ [basename task.file]) ∧
    ∃ above, target s.directory task.file = above ++ [basename task.file] := by
  obtain ⟨bytes, hspot⟩ := h.leads
  obtain ⟨_, _, hfollow⟩ := follow_of_locate h.paired.1 hspot
  obtain ⟨cs, n, hcs⟩ : ∃ cs n, components task.file = cs ++ [n] :=
    ⟨_, _, (dropLast_append_getLast (Text.splitOn_ne_nil slash task.file)).symm⟩
  have hslash : slash ∉ n := slash_notMem_component (p := task.file) (by simp [hcs])
  rw [hcs] at hfollow
  have hn := isName_of_follow hs.wellFormed hslash hfollow
  obtain ⟨parent, hplace, _, _⟩ := follow_name hn (fun h => by cases h) hfollow
  rw [Spot.mk.injEq] at hplace
  rw [basename_of_components hcs hn]
  exact ⟨⟨parent, hplace.1⟩, target_of_components _ hcs hn⟩

theorem known (hs : s.Ready) : s.Known (basename task.file) := by
  obtain ⟨_, hpresent⟩ := h.present
  obtain ⟨⟨parent, hplace⟩, _⟩ := h.last hs
  exact .inr ⟨place, _, hpresent, by simp [hplace]⟩

theorem short : pathBytes (resolve s.directory task.file) < pathLimit := by
  obtain ⟨_, hspot⟩ := h.recorded
  exact (follow_of_locate h.paired.2 hspot).2.1

theorem names (hs : s.Ready) : Names s (resolve s.directory task.file) place where
  spelled := by
    obtain ⟨_, hspot⟩ := h.recorded
    obtain ⟨_, above, htarget⟩ := h.last hs
    have hzero := (follow_of_locate h.paired.2 hspot).1
    rw [resolve_eq, zero_notMem_absolute] at hzero
    have hpaired := h.paired.2
    rw [resolve_eq, paired_absolute] at hpaired
    exact ⟨_, resolve_eq .., by simp [htarget], fun n hn =>
      { toIsName := isName_of_mem_target hn, noZero := hzero n hn, paired := hpaired n hn }⟩
  leads _ hsteady hfile := by
    obtain ⟨_, hspot⟩ := h.recorded
    rw [locate_steady hsteady id hspot, hfile]

theorem tasked (hs : s.Ready)
    (hcalled : called place = resolve s.directory task.file) :
    Tasked s called s.initial.supplied task place := by
  obtain ⟨_, hpresent⟩ := h.present
  obtain ⟨⟨parent, hplace⟩, _⟩ := h.last hs
  exact
    { archive := h.archive
      directory := h.directory
      recorded := hcalled.symm
      names := hcalled ▸ h.names hs
      last := ⟨parent, hplace⟩
      spelled := (hs.wellFormed.spelled hpresent _ (by simp [hplace])).1
      paired := h.paired.1
      named := .inr (h.known hs)
      lasting := hs.lasting_of_initial hpresent
      leads := fun {t bytes' followLast spot} _ hsteady hfile hlocate => by
        rw [h.locate hsteady, hfile, Except.ok.injEq] at hlocate
        exact hlocate.symm
      old := hs.not_copied_of_known (h.known hs) }

end Enrolled

/-- Tasks that store files from the beginning. -/
structure Enlisted (s : Setting) (tasks : List Task) : Prop where
  enrolled : ∀ task ∈ tasks, ∃ place, Enrolled s task place
  /-- A file is given under one spelling only. Two would get an entry each, and the copy for the
  second may be made when the file has been replaced already. -/
  alike : ∀ task ∈ tasks, ∀ other ∈ tasks, ∀ place, Enrolled s task place → Enrolled s other place →
    resolve s.directory task.file = resolve s.directory other.file

/-! ## What the files are called -/

/-- A path leads to a place. -/
def FileTree.leadsTo (t : FileTree) (directory path : Text) (place : Place) : Bool :=
  (t.locate directory path true).toOption.map Spot.place == some place

theorem FileTree.leadsTo_of_locate {directory path : Text} {q : Place} {node : Option FileNode}
    (h : t.locate directory path true = .ok ⟨q, node⟩) :
    t.leadsTo directory path place = true ↔ q = place := by
  rw [FileTree.leadsTo, h, beq_iff_eq]
  exact Option.some_inj

/-- What entries call the file at a place: what the path of a task on it spells, or its own path if
there is no such task. -/
def Setting.spelling (s : Setting) (tasks : List Task) (place : Place) : Text :=
  ((tasks.find? fun task => s.initial.tree.leadsTo s.directory task.file place).map
    fun task => resolve s.directory task.file).getD (absolute place)

namespace Enlisted

variable (h : Enlisted s tasks)

include h

theorem spelling_cases (place : Place) : (∃ task ∈ tasks, Enrolled s task place ∧
      s.spelling tasks place = resolve s.directory task.file) ∨
    (∀ task ∈ tasks, ¬ Enrolled s task place) ∧ s.spelling tasks place = absolute place := by
  unfold Setting.spelling
  cases hfind : tasks.find? fun task => s.initial.tree.leadsTo s.directory task.file place with
  | some task =>
    have hmem := mem_of_find?_eq_some hfind
    obtain ⟨place', henrolled⟩ := h.enrolled task hmem
    have hleads := find?_some hfind
    have hplace := (leadsTo_of_locate (henrolled.locate (.refl _) true)).mp hleads
    exact .inl ⟨task, hmem, hplace ▸ henrolled, rfl⟩
  | none =>
    refine .inr ⟨fun task hmem henrolled => find?_eq_none.mp hfind task hmem ?_, rfl⟩
    exact (leadsTo_of_locate (henrolled.locate (.refl _) true)).mpr rfl

theorem spelling_eq (htask : task ∈ tasks) (henrolled : Enrolled s task place) :
    s.spelling tasks place = resolve s.directory task.file := by
  rcases h.spelling_cases place with ⟨other, hother, henrolled', heq⟩ | ⟨hnone, _⟩
  · rw [heq]
    exact h.alike other hother task htask place henrolled' henrolled
  · exact absurd henrolled (hnone task htask)

theorem locate_spelling (hs : s.Ready) (ht : t.WellFormed) (hsteady : s.initial.tree.Steady t)
    (hfile : t.get? place = some (.file bytes))
    (hshort : pathBytes (s.spelling tasks place) < pathLimit) :
    t.locate s.directory (s.spelling tasks place) true = .ok ⟨place, some (.file bytes)⟩ := by
  rcases h.spelling_cases place with ⟨task, _, henrolled, heq⟩ | ⟨_, heq⟩
  · rw [heq]
    exact (henrolled.names hs).leads ht hsteady hfile
  · rw [heq] at hshort ⊢
    exact ht.locate_file hfile hshort _

theorem spelling_long (hlong : ¬ pathBytes (s.spelling tasks place) < pathLimit) :
    s.spelling tasks place = absolute place := by
  rcases h.spelling_cases place with ⟨task, _, henrolled, heq⟩ | ⟨_, heq⟩
  · exact absurd (heq ▸ henrolled.short) hlong
  · exact heq

theorem naming (hs : s.Ready) : Naming s (s.spelling tasks) where
  unique {t p q bytes bytes'} ht hsteady hp hq heq := by
    -- a spelling that can be looked up leads to one file; all others are paths of the files
    -- themselves
    by_cases hshort : pathBytes (s.spelling tasks p) < pathLimit
    · have hspot := h.locate_spelling hs ht hsteady hp hshort
      rw [heq] at hshort hspot
      rw [h.locate_spelling hs ht hsteady hq hshort, Except.ok.injEq, Spot.mk.injEq] at hspot
      exact hspot.1.symm
    · have hlong : ¬ pathBytes (s.spelling tasks q) < pathLimit := heq ▸ hshort
      rw [h.spelling_long hshort, h.spelling_long hlong] at heq
      exact hs.naming_absolute.unique ht hsteady hp hq heq
  copies {t p bytes archived} ht hsteady hp hspelled hcopied heq := by
    -- a copy is not there at the beginning, so there is no task on it
    have hcopy : s.spelling tasks (s.copy archived) = absolute (s.copy archived) := by
      rcases h.spelling_cases (s.copy archived) with ⟨task, _, henrolled, _⟩ | ⟨_, hown⟩
      · obtain ⟨_, hinitial⟩ := henrolled.present
        exact absurd hcopied
          (hs.not_copied_of_known (.inr ⟨_, _, hinitial, by simp [Setting.copy]⟩))
      · exact hown
    rw [hcopy] at heq
    rcases h.spelling_cases p with ⟨task, _, henrolled, hp'⟩ | ⟨_, hp'⟩
    · -- what the path of a task spells ends in a name from the beginning
      rw [hp', resolve_eq] at heq
      have htarget := absolute_injective (fun n hn => isName_of_mem_target hn)
        (hs.isName_copy hspelled) heq
      obtain ⟨_, above, hlast⟩ := henrolled.last hs
      rw [hlast] at htarget
      obtain ⟨_, hname⟩ := append_singleton_inj.mp htarget
      exact absurd (hname ▸ hcopied) (hs.not_copied_of_known (henrolled.known hs))
    · rw [hp'] at heq
      exact hs.naming_absolute.copies ht hsteady hp hspelled hcopied heq

end Enlisted

/-! ## Events -/

theorem handle_going (hs : s.Ready) (hname : Naming s called)
    (h : Going s called since w entries b) (event : BatchEvent)
    (hstop : ((b.handle s.host event).run w).2.supplied ≤ s.stop) :
    ∃ entries', Going s called since ((b.handle s.host event).run w).2 entries'
      ((b.handle s.host event).run w).1 := by
  cases event with
  | act k => exact act_going hs hname h k hstop
  | settle k =>
    obtain ⟨htasks, hstages⟩ := settle_same b k
    exact ⟨entries, h.congr htasks hstages⟩
  | abort => exact ⟨entries, h.congr rfl rfl⟩

theorem handle_supplied (p : Premises) (b : Batch) (event : BatchEvent) (w : World) :
    w.supplied ≤ ((b.handle p.host event).run w).2.supplied := by
  cases event with
  | act k => exact act_supplied p b k w
  | settle k | abort => exact Nat.le_refl _

theorem handleAll_supplied (p : Premises) (b : Batch) (events : List BatchEvent) (w : World) :
    w.supplied ≤ ((b.handleAll p.host events).run w).2.supplied := by
  induction events generalizing b w with
  | nil => exact Nat.le_refl _
  | cons event events ih =>
    unfold Batch.handleAll
    rw [foldlM_cons, StateT.run_bind]
    exact Nat.le_trans (handle_supplied p b event w) (ih ..)

theorem handleAll_going (hs : s.Ready) (hname : Naming s called) (events : List BatchEvent)
    (h : Going s called since w entries b)
    (hstop : ((b.handleAll s.host events).run w).2.supplied ≤ s.stop) :
    ∃ entries', Going s called since ((b.handleAll s.host events).run w).2 entries'
      ((b.handleAll s.host events).run w).1 := by
  induction events generalizing b w entries with
  | nil => exact ⟨entries, h⟩
  | cons event events ih =>
    unfold Batch.handleAll at hstop ⊢
    rw [foldlM_cons, StateT.run_bind] at hstop ⊢
    have hle := handleAll_supplied s.premises ((b.handle s.host event).run w).1 events
      ((b.handle s.host event).run w).2
    obtain ⟨entries', hnext⟩ := handle_going hs hname h event (Nat.le_trans hle hstop)
    exact ih hnext hstop

/-! ## First entries -/

/-- No copy is a file that a task works on, so the copy of the first entry is as it was made. -/
theorem Going.first_copy (h : Going s called s.initial.supplied w entries b)
    (hinitial : s.initial.tree.get? place = some (.file bytes))
    (hfind : entries.find? (fun f => f.file == called place) = some e) :
    w.tree.get? (s.copy e.archived) = some (.file bytes) := by
  obtain ⟨_, hstored⟩ := h.kept.listed.stored e (mem_of_find?_eq_some hfind)
  obtain ⟨_, hcopy⟩ := hstored.copyPresent
  have hspelled := (h.kept.orderly.wellFormed.spelled hcopy e.archived (by simp [Setting.copy])).1
  rcases h.kept.listed.first place bytes e hinitial hfind with hsame | ⟨f, hf, hentry⟩
  · exact hsame
  · exact absurd hentry (h.noneSince f hf e.archived hspelled hstored.copyName)

theorem Kept.leadsTo_iff (hk : Kept s called w entries) (hname : Naming s called) (he : e ∈ entries)
    (hfile : w.tree.get? place = some (.file bytes)) :
    w.tree.leadsTo s.directory e.file place = true ↔ e.file = called place := by
  obtain ⟨place', hstored⟩ := hk.listed.stored e he
  obtain ⟨_, hpresent⟩ := hstored.present
  rw [leadsTo_of_locate
    (hstored.names.leads hk.orderly.wellFormed hk.orderly.steady hpresent), hstored.file]
  exact ⟨fun h => by rw [h], hname.unique hk.orderly.wellFormed hk.orderly.steady hpresent hfile⟩

/-- **The first entry is the original, whatever the order of the actions and whichever of them
fail.** After any events in a batch of tasks that store their files in one archive, a file from the
beginning has its bytes still or an entry that leads to it, the copy of the first such entry has
these bytes, and recovery gives them back to it. -/
theorem handleAll_keeps_originals (hs : s.Ready)
    (hstages : b.stages = b.tasks.map fun _ => .reading) (htasks : Enlisted s b.tasks)
    {events : List BatchEvent}
    (hrun : ((b.handleAll s.host events).run s.initial).2 = w)
    (hstop : w.supplied ≤ s.stop) :
    ∃ entries w', StateT.run (s.root.entries s.host).run w.calm = (.ok entries, w.calm) ∧
      StateT.run (s.root.recover s.host).run w.calm =
        (.ok (Manifest.earliest entries), w') ∧
      ∀ place bytes, s.initial.tree.get? place = some (.file bytes) →
        (∃ now, w.tree.get? place = some (.file now) ∧ (now = bytes ∨
          ∃ e ∈ entries, w.tree.leadsTo s.directory e.file place = true)) ∧
        (∀ e, entries.find? (fun f => w.tree.leadsTo s.directory f.file place) = some e →
          w.tree.get? (s.copy e.archived) = some (.file bytes)) ∧
        w'.tree.get? place = some (.file bytes) := by
  have hname := htasks.naming hs
  have hstart : Going s (s.spelling b.tasks) s.initial.supplied s.initial [] b := by
    refine going_of_reading hname (kept_initial hs) hstages fun task htask => ?_
    obtain ⟨place, henrolled⟩ := htasks.enrolled task htask
    obtain ⟨bytes, hpresent⟩ := henrolled.present
    exact ⟨place, bytes, henrolled.tasked hs (htasks.spelling_eq htask henrolled), hpresent⟩
  obtain ⟨entries, hgoing⟩ := handleAll_going hs hname events hstart (by rw [hrun]; exact hstop)
  rw [hrun] at hgoing
  have hk := hgoing.kept.calm
  obtain ⟨t', hrecover, hrestored⟩ := hk.recover_run hs rfl
  refine ⟨entries, _, hk.entries_run hs rfl, hrecover, fun place bytes hinitial => ?_⟩
  obtain ⟨now, hnow⟩ := hgoing.kept.orderly.steady.file hinitial
  refine ⟨⟨now, hnow, ?_⟩, fun e hfind => hgoing.first_copy hinitial ?_, ?_⟩
  · rcases hgoing.kept.listed.originals place bytes hinitial with hsame | ⟨_, e, he, hfile⟩
    · rw [hnow, Option.some.injEq, FileNode.file.injEq] at hsame
      exact .inl hsame
    · exact .inr ⟨e, he, (hgoing.kept.leadsTo_iff hname he hnow).mpr hfile⟩
  · -- the first entry that leads to the file is the first with what it is called
    rw [← hfind]
    refine List.find?_congr fun f hf => ?_
    rw [Bool.eq_iff_iff, hgoing.kept.leadsTo_iff hname hf hnow, beq_iff_eq]
  · refine hk.restored_original hname hrestored hinitial fun e he hfile => ?_
    rw [Manifest.mem_earliest, hfile] at he
    exact hgoing.first_copy hinitial he

/-! ## Two tasks on one file -/

open Program

/-- A file in a directory that a link leads to as well. The fourteenth action fails. -/
def contested : Setting :=
  { sample with
    initial :=
      { tree := ⟨[(["src"], .directory), (["lib"], .link "src"),
          (["src", "a.py"], .file markedBytes)]⟩
        faults := List.replicate 13 none ++ [some { error := ⟨.noEntry, "rename", []⟩ }] } }

theorem contested_ready : contested.Ready where
  wellFormed := wellFormed_of_nodes (by decide)
  names := sample_proper.names
  bare := by decide
  way q hq := by
    change q <+: [] ++ [CommandLine.defaultArchive] at hq
    rcases prefix_concat_iff.mp hq with rfl | hq
    · decide
    · rw [prefix_nil.mp hq]
      decide
  short := sample_proper.short
  tokens := sample_tokens (Nat.le_refl _) fun _ => length_of_known (by decide) (by decide)

/-- Two tasks on the file, both through the link. -/
def rivals : Batch :=
  Batch.start ["lib/a.py", "/./lib/a.py"]
    { values := { dismiss := some true }, archive := some sample.root, concurrency := .unlimited }
    contested.directory contested.parse false

theorem rivals_enlisted : Enlisted contested rivals.tasks := by
  have hall : ∀ file ∈ ([Text.ofString "lib/a.py", Text.ofString "/./lib/a.py"]), file.Paired ∧
      resolve contested.directory file = Text.ofString "/lib/a.py" ∧
      contested.initial.tree.locate contested.directory file false =
        .ok ⟨["src", "a.py"], some (.file markedBytes)⟩ := by
    decide
  have hspelling : Text.Paired (Text.ofString "/lib/a.py") ∧
      contested.initial.tree.locate contested.directory (Text.ofString "/lib/a.py") true =
        .ok ⟨["src", "a.py"], some (.file markedBytes)⟩ := by
    decide
  constructor
  · intro task htask
    obtain ⟨file, hfile, rfl⟩ := mem_map.mp htask
    obtain ⟨hpaired, hresolve, hleads⟩ := hall file hfile
    refine ⟨["src", "a.py"], rfl, rfl, ⟨hpaired, ?_⟩, ⟨_, hleads⟩, ?_⟩
    · rw [hresolve]
      exact hspelling.1
    · rw [hresolve]
      exact ⟨_, hspelling.2⟩
  · intro task htask other hother _ _ _
    obtain ⟨file, hfile, rfl⟩ := mem_map.mp htask
    obtain ⟨file', hfile', rfl⟩ := mem_map.mp hother
    exact (hall file hfile).2.1.trans (hall file' hfile').2.1.symm

/-- Both tasks have read the file before the first replaces it, so the second stores a copy of what
the first has written. Then it fails to move its temporary file, and takes it away. -/
def contest : List BatchEvent :=
  [.act 0, .act 1] ++ List.replicate 6 (.act 0) ++ List.replicate 7 (.act 1)

def afterContest : World :=
  ((rivals.handleAll contested.host contest).run contested.initial).2

theorem afterContest_evaluated : afterContest.supplied ≤ contested.stop ∧
    afterContest.tree.get? ["src", "a.py"] ≠ some (.file markedBytes) ∧
    ∃ entries ∈ (StateT.run (contested.root.entries contested.host).run
        afterContest.calm).1.toOption,
      entries.map ArchiveEntry.file = ["/lib/a.py", "/lib/a.py"] := by
  decide +kernel

/-- **The original of a contested file** is in the copy of the first of its two entries, and comes
back. -/
theorem handleAll_keeps_originals_contested : contested.Ready ∧
    rivals.stages = rivals.tasks.map (fun _ => .reading) ∧ Enlisted contested rivals.tasks ∧
    afterContest.supplied ≤ contested.stop ∧
    afterContest.tree.get? ["src", "a.py"] ≠ some (.file markedBytes) ∧
    ∃ (entries : List ArchiveEntry) (w' : World),
      entries.map ArchiveEntry.file = ["/lib/a.py", "/lib/a.py"] ∧
      StateT.run (contested.root.recover contested.host).run afterContest.calm =
        (.ok (Manifest.earliest entries), w') ∧
      w'.tree.get? ["src", "a.py"] = some (.file markedBytes) := by
  obtain ⟨hstop, hchanged, entries, hentries, hfiles⟩ := afterContest_evaluated
  have hinitial : contested.initial.tree.get? ["src", "a.py"] =
      some (.file markedBytes) := by decide +kernel
  have hrun : ((rivals.handleAll contested.host contest).run contested.initial).2 =
      afterContest := by rw [afterContest]
  have hstages : rivals.stages = rivals.tasks.map (fun _ => .reading) := by
    rw [rivals, Batch.start, List.map_map]
    rfl
  obtain ⟨entries', w', hentries', hrecover, hkept⟩ :=
    handleAll_keeps_originals contested_ready hstages rivals_enlisted hrun hstop
  rw [hentries'] at hentries
  cases hentries
  exact ⟨contested_ready, hstages, rivals_enlisted, hstop, hchanged, entries, w', hfiles, hrecover,
    (hkept _ _ hinitial).2.2⟩

/-! ## A path that spells another place -/

/-- A link to a directory that is not beside it. -/
def crossed : World where
  tree := ⟨[(["y"], .directory), (["y", "z"], .directory), (["x"], .link "y/z"),
    (["y", "a.py"], .file markedBytes)]⟩

/-- The world after a task whose path leads through the link and up again. -/
def afterDetour : World := (((sampleTask "x/../a.py").run sample.host).run crossed).2

/-- **The original of a file whose path spells another place** is lost: the file is replaced, but no
entry leads to it, and recovery succeeds without giving its bytes back. -/
theorem detour_loses_original :
    afterDetour.tree.get? ["y", "a.py"] ≠ crossed.tree.get? ["y", "a.py"] ∧
      (∃ entries ∈ (StateT.run (sample.root.entries sample.host).run
          afterDetour).1.toOption,
        ∀ e ∈ entries,
          afterDetour.tree.leadsTo sample.directory e.file ["y", "a.py"] = false) ∧
      (StateT.run (sample.root.recover sample.host).run afterDetour).1.isOk = true ∧
      (StateT.run (sample.root.recover sample.host).run afterDetour).2.tree.get?
        ["y", "a.py"] ≠ crossed.tree.get? ["y", "a.py"] := by
  decide +kernel

end Posonly
