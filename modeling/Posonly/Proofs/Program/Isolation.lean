import Posonly.Proofs.Program.Recovery

/-!
# Files that are converted side by side

However the tasks of a batch take turns, each of them does what it would do by itself (`Beside`),
and the pool and the hook hear of each of them once (`Heard`). So what became of the files of a
batch is what would have become of them one by one, and a file that fails changes nothing for the
others (`moveAll_isolated`).
-/

open List Posonly.Program

namespace Posonly.Scene

/-- The batch of all files. -/
def batch (s : Scene) (options : BatchOptions) (aborted : Bool) : Batch :=
  .start s.files options s.directory s.parse aborted

variable {s : Scene} {options : BatchOptions} {aborted : Bool} {hook : Batch.Hook (StateM World)}
  {lines : Task → Except TaskError FileOutcome → List Line}

theorem Under.map_file {all done : List Nat} {b : Batch} {w : World} (h : s.Under all done b w)
    (hlength : b.tasks.length = s.files.length) : b.tasks.map Task.file = s.files := by
  refine ext_getElem? fun i => ?_
  rw [getElem?_map]
  cases htask : b.tasks[i]? with
  | none => rw [getElem?_eq_none (hlength ▸ List.getElem?_eq_none_iff.mp htask)]; rfl
  | some task => exact (h.tasks i task htask).1.symm

section

variable {all : List Nat} {b : Batch} {w : World} {p₀ : Pool FileOutcome TaskError}
  {events : List (PoolEvent FileOutcome TaskError)} {before : List Line}
  (hunder : s.Under all all b w) (hheard : Heard p₀ lines before events b w)
  (hfinished : b.pool.isFinished = true)

include hunder hheard hfinished

/-- **What became of a task**: it was never started, or it has ended as it would by itself. -/
theorem ended_cases {i : Nat} {task : Task} (htask : b.tasks[i]? = some task) :
    (∃ l w', b.pool.outcomes[i]? = some .skipped ∧ i ∉ b.pool.started ∧
      s.Beside all all i task .reading w.tree l w') ∨
    ∃ outcome l w', b.pool.outcomes[i]? = some (.settled (settlementOf outcome)) ∧
      s.Beside all all i task (.finished outcome) w.tree l w' := by
  have hi : i < p₀.size := hheard.tasks ▸ (List.getElem?_eq_some_iff.mp htask).1
  obtain ⟨_, _, hbeside⟩ := hunder.beside
  rcases hheard.outcome_cases hfinished hi with ⟨hskipped, hnot⟩ | ⟨outcome, hsettled, hended⟩
  · obtain ⟨stage, hstage⟩ : ∃ stage, b.stages[i]? = some stage :=
      ⟨_, getElem?_eq_getElem (hheard.stages ▸ hi)⟩
    obtain ⟨l, w', _, hown⟩ := hbeside i task stage htask hstage
    rw [hheard.untouched i stage hstage hnot] at hown
    exact .inl ⟨l, w', hskipped, hnot, hown⟩
  · obtain ⟨stage, hstage, hfinal⟩ := Option.bind_eq_some_iff.mp hended
    obtain ⟨l, w', _, hown⟩ := hbeside i task stage htask hstage
    cases stage with
    | finished outcome' =>
      cases hfinal
      exact .inr ⟨outcome, l, w', hsettled, hown⟩
    | _ => cases hfinal

theorem summary_partitions (hsize : p₀.size = s.files.length) : b.summary.Partitions s.files := by
  have hnamed : ∀ task o, (task, .settled (.fulfilled o)) ∈ b.tasks.zip b.pool.outcomes →
      o.file = task.file := by
    intro task o hmem
    obtain ⟨i, hi⟩ := mem_iff_getElem?.mp hmem
    obtain ⟨htask, hget⟩ := getElem?_zip_eq_some.mp hi
    rcases ended_cases hunder hheard hfinished htask with
      ⟨_, _, hskipped, _, _⟩ | ⟨outcome, _, _, hsettled, hown⟩
    · cases hskipped.symm.trans hget
    · cases outcome with
      | error e => cases hsettled.symm.trans hget
      | ok o' =>
        cases hsettled.symm.trans hget
        exact hown.named _ rfl
  have hlength : b.tasks.length ≤ b.pool.outcomes.length := by
    rw [Pool.outcomes, length_map, length_range, hheard.kept.size]
    exact Nat.le_of_eq hheard.tasks
  have hparts := BatchSummary.partitions_of hnamed
  have hmap : (b.tasks.zip b.pool.outcomes).map (fun r => r.1.file) = s.files := by
    have hfirst := congrArg (List.map Task.file) (map_fst_zip hlength)
    rw [map_map] at hfirst
    exact hfirst.trans (hunder.map_file (hheard.tasks.trans hsize))
  rwa [hmap] at hparts

theorem read_of_not_done (hs : s.Proper) {file : Text}
    (h : file ∈ b.summary.skipped ∨ file ∈ b.summary.failed.map Prod.fst) :
    w.tree.read s.directory file = s.initial.tree.read s.directory file := by
  obtain ⟨task, outcome, hmem, rfl, hend⟩ := BatchSummary.mem_of h
  obtain ⟨i, hi⟩ := mem_iff_getElem?.mp hmem
  obtain ⟨htask, hget⟩ := getElem?_zip_eq_some.mp hi
  have hhas := (hunder.tasks i task htask).2
  obtain ⟨k, hat, _⟩ := hunder.beside
  rcases ended_cases hunder hheard hfinished htask with
    ⟨_, _, _, _, hown⟩ | ⟨result, _, _, hsettled, hown⟩
  · exact hown.read_kept hs hhas hat fun o ho => (by cases ho)
  · refine hown.read_kept hs hhas hat fun o ho => ?_
    cases ho
    have hgood := hsettled.symm.trans hget
    rcases hend with rfl | ⟨e, rfl⟩ <;> cases hgood

/-- **If nothing has stopped a batch**, each of its tasks has ended as it would by itself. -/
theorem outcomes_alone (hs : s.Proper) (hpos : 0 < p₀.workers.length)
    (hstop : b.pool.stopped = false) : ∃ outcomes : List (Except TaskError FileOutcome),
      b.pool.outcomes = outcomes.map (fun o => .settled (settlementOf o)) ∧
      outcomes.length = p₀.size ∧
      ∀ (i : Nat) task outcome, b.tasks[i]? = some task → outcomes[i]? = some outcome →
        ∃ w', s.alone all i task = (.finished outcome, w') ∧
          w.tree.read s.directory task.file = w'.tree.read s.directory task.file := by
  obtain ⟨outcomes, hstages, hlength, houtcomes⟩ := hheard.outcomes hfinished hpos hstop
  obtain ⟨k, hat, hbeside⟩ := hunder.beside
  refine ⟨outcomes, houtcomes, hlength, fun i task outcome htask hget => ?_⟩
  have hstage := stage_of_outcome hstages hget
  obtain ⟨_, w', _, hown⟩ := hbeside i task _ htask hstage
  exact ⟨w', hown.alone, hown.read hs (hunder.tasks i task htask).2 hat⟩

end

/-- **Files are converted side by side as one by one**, however the tasks of a batch take turns, and
whichever of their actions fail from outside. From there the batch can be brought to its end; and to
run it is one way for the tasks to take turns up to the end.

At its end every file is in one list of the summary, and each list is in the order of the files. If
nothing has stopped the batch, its summary is made of what becomes of each task that is run by
itself, from the tree at the start, with the supplies and the faults that it has met in the batch;
and each file reads as after that run. A file that was skipped or has failed reads as before the
batch. The hook has heard of each task that was started, once. -/
theorem moveAll_isolated (hs : s.Proper) (harchive : options.archive = s.archive) (aborted : Bool)
    (hhook : Tells hook lines) (moves : List BatchMove) (b : Batch) (w : World)
    (hrun : (Batch.moveAll s.host hook (s.batch options aborted) moves).run s.initial = (b, w))
    (hstop : w.supplied ≤ s.stop) :
    (∃ run, (Batch.run s.host hook s.files options aborted).run s.initial =
        (Batch.moveAll s.host hook (s.batch options aborted) run).run s.initial ∧
      ((Batch.moveAll s.host hook (s.batch options aborted) run).run
        s.initial).1.pool.isFinished = true) ∧
    (∃ more, ((Batch.moveAll s.host hook b more).run w).1.pool.isFinished = true) ∧
    (b.pool.isFinished = true →
      b.summary.Partitions s.files ∧
      (options.failFast = false → b.pool.aborted = false →
        ∃ outcomes : List (Except TaskError FileOutcome),
          b.summary = .of (b.tasks.zip (outcomes.map fun o => .settled (settlementOf o))) ∧
          outcomes.length = s.files.length ∧
          ∀ (i : Nat) task outcome, b.tasks[i]? = some task → outcomes[i]? = some outcome →
            ∃ w', s.alone (turns s.premises hook (s.batch options aborted) s.initial moves) i task =
                (.finished outcome, w') ∧
              w.tree.read s.directory task.file =
                w'.tree.read s.directory task.file) ∧
      (∀ file, file ∈ b.summary.skipped ∨ file ∈ b.summary.failed.map Prod.fst →
        w.tree.read s.directory file = s.initial.tree.read s.directory file) ∧
      ∃ order : List Nat, order.Nodup ∧ order.Perm b.pool.started ∧
        w.printed = s.initial.printed ++ order.flatMap (b.said lines)) := by
  have hstart := heard_start s.files options s.directory s.parse aborted lines
    s.initial
  rw [← batch] at hstart
  -- what the pool has heard, and what each task has done as if alone
  obtain ⟨more, hheard⟩ := hstart.moveAll s.premises hhook moves
  have hsupplied :=
    moveAll_supplied s.premises hhook.prints moves (s.batch options aborted) s.initial
  rw [hrun] at hheard hsupplied
  have hunder := (under_start hs _ options harchive aborted).moveAll hs hhook.prints
    (hsupplied ▸ hstop) moves (List.nil_append _).symm
  rw [← batch, hrun] at hunder
  refine ⟨run_moves s.premises hhook s.files options aborted s.initial,
    hheard.finishes s.premises hhook, fun hfinished => ⟨?_, fun hfast haborted => ?_, ?_, ?_⟩⟩
  · exact summary_partitions hunder hheard hfinished rfl
  · have hstopped : b.pool.stopped = false := by
      rw [Pool.stopped, haborted, hheard.kept.failFast]
      exact congrArg (fun failFast => false || failFast && _) hfast
    obtain ⟨outcomes, houtcomes, hlength, halone⟩ :=
      outcomes_alone hunder hheard hfinished hs (Pool.workers_pos ..) hstopped
    exact ⟨outcomes, by rw [Batch.summary, houtcomes], hlength, halone⟩
  · exact fun file => read_of_not_done hunder hheard hfinished hs
  · have hperm := hheard.told_perm hfinished
    exact ⟨_, hperm.nodup_iff.mpr hheard.kept.started_nodup, hperm, hheard.printed⟩

/-! ## Scenes with the sample's archive and tokens -/

/-- The scene of some files in a tree. -/
def ofSample (nodes : List (Place × FileNode)) (files : List Text) : Scene where
  premises := sample.premises
  initial := { tree := ⟨nodes⟩ }
  archive := some sample.root
  files := files
  stop := sample.stop

/-- The names in the target of a link. -/
def targetNames : FileNode → List Text
  | .link target => Path.components target
  | _ => []

/-- Every name in a tree can be given to a file, and all names are shorter than a token. -/
def Short (t : FileTree) (files : List Text) : Prop :=
  (∀ entry ∈ t.nodes, ((∀ n ∈ entry.1, Spelled n ∧ pathBytes n ≤ longestName) ∧
      t.get? entry.1.dropLast = some .directory) ∧
    ∀ n ∈ entry.1 ++ ((t.get? entry.1).map targetNames).getD [], n.length < 36) ∧
  ∀ n ∈ files.flatMap Path.components, n.length < 36

instance (t : FileTree) (files : List Text) : Decidable (Short t files) := by
  unfold Short
  infer_instance

/-- A scene with short names is prepared, since such a name holds no token. -/
theorem prepared_of_short (hpremises : s.premises = sample.premises)
    (harchive : ∀ a, s.archive = some a → a = sample.root)
    (hstop : s.stop ≤ sample.stop) (hshort : Short s.initial.tree s.files) :
    s.Prepared where
  wellFormed := FileTree.wellFormed_of_nodes fun entry hentry => (hshort.1 entry hentry).1
  tokens := by
    rw [hpremises]
    refine sample_tokens hstop fun n hn => ?_
    have hpaths : ∀ n ∈ FileTree.placeOf sample.directory ++
        Path.components sample.root.root, n.length < 36 := by
      decide
    cases hn with
    | place p node h hn =>
      obtain ⟨entry, hentry, rfl⟩ := FileTree.exists_mem_nodes h (ne_nil_of_mem hn)
      exact (hshort.1 entry hentry).2 n (mem_append_left _ hn)
    | link p target h hn =>
      cases p with
      | nil => cases h
      | cons m p =>
        obtain ⟨entry, hentry, hplace⟩ := FileTree.exists_mem_nodes h (cons_ne_nil m p)
        refine (hshort.1 entry hentry).2 n (mem_append_right _ ?_)
        rwa [hplace, h]
    | directory hn =>
      rw [hpremises] at hn
      exact hpaths n (mem_append_left _ hn)
    | archive a ha hn =>
      rw [harchive a ha] at hn
      exact hpaths n (mem_append_right _ hn)
    | file f hf hn => exact hshort.2 n (mem_flatMap.mpr ⟨f, hf, hn⟩)
  root a ha := by
    rw [harchive a ha]
    exact ⟨[], sample.root.root, by decide⟩

/-- The place that a path leads to before the batch. -/
def placeOf? (s : Scene) (file : Text) : Option Place :=
  (s.initial.tree.locate s.directory file true).toOption.map Spot.place

/-- Every file has a place of its own, which is not that of the manifest. -/
def Apart (s : Scene) : Prop :=
  (∀ i < s.files.length, ∀ j < s.files.length,
    (s.files[i]?).bind s.placeOf? = (s.files[j]?).bind s.placeOf? → i = j) ∧
  ∀ a ∈ s.archive, ∀ file ∈ s.files, s.placeOf? file ≠
    (s.made.locate s.directory a.manifest true).toOption.map Spot.place

instance (s : Scene) : Decidable s.Apart := by
  unfold Apart
  infer_instance

section

variable {file other : Text} {place : Place} {bytes bytes' : Bytes} (h : s.Apart)
  (hleads : s.Leads file place bytes)

include h hleads

theorem Apart.index_eq {i j : Nat} (hfile : s.files[i]? = some file)
    (hother : s.files[j]? = some other) (hleads' : s.Leads other place bytes') : i = j := by
  refine h.1 i (List.getElem?_eq_some_iff.mp hfile).1 j (List.getElem?_eq_some_iff.mp hother).1 ?_
  rw [hfile, hother, Option.bind_some, Option.bind_some, placeOf?, placeOf?, hleads, hleads']
  rfl

theorem Apart.manifest_ne {a : Archive} (ha : s.archive = some a) (hfile : file ∈ s.files)
    (node : Option FileNode) :
    s.made.locate s.directory a.manifest true ≠ .ok ⟨place, node⟩ := by
  intro hmanifest
  refine h.2 a ha file hfile ?_
  rw [placeOf?, hleads, hmanifest]
  rfl

end

/-! ## A file, a link to another and one that is missing -/

/-- The scene of three files, of which the second is given by a link and the last is not there. -/
def mixed : Scene :=
  .ofSample [(["a.py"], .file markedBytes), (["src"], .directory),
    (["src", "b.py"], .file markedBytes), (["src", "l.py"], .link "b.py")]
    ["a.py", "src/l.py", "gone.py"]

theorem mem_levels (s : Scene) (k : Nat) : s.level k ∈ [s.initial.tree, s.made, s.listed] := by
  rcases k with _ | _ | k
  · exact .head _
  · exact .tail _ (.head _)
  · exact .tail _ (.tail _ (.head _))

/-- The paths that the tasks of the scene use. -/
def mixedPaths : List Text :=
  sample.root.manifest :: mixed.files.flatMap fun file =>
    file :: (List.range mixed.stop).flatMap fun i =>
      [sample.root.copyPath (Archive.copyName file (mixed.token i)),
        Path.join (Path.dirname file)
          ("." ++ Path.basename file ++ "." ++ mixed.token i ++ ".tmp")]

theorem mem_mixedPaths {path : Text} (h : mixed.Uses path) : path ∈ mixedPaths := by
  have hof : ∀ file ∈ mixed.files, ∀ path, path = file ∨ (∃ token, mixed.Fresh token ∧
      (path = sample.root.copyPath (Archive.copyName file token) ∨
        path = Path.join (Path.dirname file)
          ("." ++ Path.basename file ++ "." ++ token ++ ".tmp"))) → path ∈ mixedPaths := by
    intro file hfile path hpath
    refine mem_cons_of_mem _ (mem_flatMap.mpr ⟨file, hfile, ?_⟩)
    rcases hpath with rfl | ⟨_, ⟨i, _, hi, rfl⟩, hpath⟩
    · exact mem_cons_self
    · refine mem_cons_of_mem _ (mem_flatMap.mpr ⟨i, List.mem_range.mpr hi, ?_⟩)
      rcases hpath with rfl | rfl <;> simp
  cases h with
  | file _ hfile => exact hof path hfile path (.inl rfl)
  | manifest a ha =>
    cases ha
    exact mem_cons_self
  | copy a file token ha hfile hfresh =>
    cases ha
    exact hof file hfile _ (.inr ⟨token, hfresh, .inl rfl⟩)
  | temporary task token hfile hfresh =>
    exact hof task.file hfile _ (.inr ⟨token, hfresh, .inr rfl⟩)

theorem mixed_apart : mixed.Apart := by decide

theorem mixed_proper : mixed.Proper where
  toPrepared := prepared_of_short rfl (by simp [mixed, ofSample]) (by decide) (by decide)
  files file hfile := by
    rcases mem_cons.mp hfile with rfl | hfile
    · exact .inl ⟨["a.py"], markedBytes, by rw [Leads]; decide⟩
    · rcases mem_cons.mp hfile with rfl | hfile
      · exact .inl ⟨["src", "b.py"], markedBytes, by rw [Leads]; decide⟩
      · cases mem_singleton.mp hfile
        have hmissing : ∀ t ∈ [mixed.initial.tree, mixed.made, mixed.listed],
            t.read mixed.directory "gone.py" = .error ⟨.noEntry, "open", ["gone.py"]⟩ := by
          decide
        exact .inr ⟨⟨.noEntry, "open", ["gone.py"]⟩, fun k => hmissing _ (mixed.mem_levels k)⟩
  apart i j file other place bytes bytes' hfile hother hleads hleads' :=
    mixed_apart.index_eq hleads hfile hother hleads'
  links x _ := by
    have hall : ∀ t ∈ [mixed.initial.tree, mixed.made, mixed.listed], ∀ path ∈ mixedPaths,
        ∀ followLast, t.locate mixed.directory path followLast ≠ .error .tooManyLinks := by
      decide +kernel
    refine ⟨by decide, fun path huses k => ?_⟩
    exact hall _ (mixed.mem_levels k) path (mem_mixedPaths huses)
  outside a file place bytes node ha hfile hleads := mixed_apart.manifest_ne hleads ha hfile node

def mixedOptions : BatchOptions :=
  { values := { dismiss := some true }, archive := some sample.root,
    concurrency := .limit 2 }

/-- Prints the name of each file. -/
def namer : Batch.Hook (StateM World) := fun task _ => do
  modify fun w => { w with printed := w.printed ++ [⟨.output, task.file⟩] }
  return false

/-- The first two tasks act in turn, and the second ends first. Its worker goes on with the third.
-/
def mixedMoves : List BatchMove :=
  (replicate 7 [.act 0, .act 1]).flatten ++
    [.finish 1, .resume 1, .act 2, .finish 2, .finish 0, .resume 0, .resume 1]

/-- The batch and the world after the moves. -/
def afterMixed : Batch × World :=
  (Batch.moveAll mixed.host namer (mixed.batch mixedOptions false) mixedMoves).run mixed.initial

theorem afterMixed_evaluated : afterMixed.2.supplied ≤ mixed.stop ∧
    afterMixed.1.pool.isFinished = true ∧ afterMixed.1.pool.aborted = false ∧
    afterMixed.1.summary.converted.map FileOutcome.file = ["a.py", "src/l.py"] ∧
    afterMixed.1.summary.failed.map Prod.fst = ["gone.py"] ∧
    afterMixed.2.printed.map Line.text = ["src/l.py", "gone.py", "a.py"] := by
  decide +kernel

/-- **Two files are converted side by side as one by one**, and a third, which is missing, fails
beside them. -/
theorem moveAll_isolated_mixed : mixed.Proper ∧ mixedOptions.archive = mixed.archive ∧
    Tells namer (fun task _ => [⟨.output, task.file⟩]) ∧ afterMixed.2.supplied ≤ mixed.stop ∧
    afterMixed.1.summary.converted.map FileOutcome.file = ["a.py", "src/l.py"] ∧
    afterMixed.1.summary.failed.map Prod.fst = ["gone.py"] ∧
    afterMixed.1.summary.Partitions mixed.files ∧
    ∃ outcomes : List (Except TaskError FileOutcome),
      afterMixed.1.summary =
        .of (afterMixed.1.tasks.zip (outcomes.map fun o => .settled (settlementOf o))) ∧
      outcomes.length = 3 ∧
      ∀ (i : Nat) task outcome, afterMixed.1.tasks[i]? = some task → outcomes[i]? = some outcome →
        ∃ w', mixed.alone (turns mixed.premises namer (mixed.batch mixedOptions false) mixed.initial
            mixedMoves) i task = (.finished outcome, w') ∧
          afterMixed.2.tree.read "/" task.file = w'.tree.read "/" task.file := by
  obtain ⟨hstop, hfinished, haborted, hconverted, hfailed, _⟩ := afterMixed_evaluated
  have hhook : Tells namer (fun task _ => [⟨.output, task.file⟩]) := fun _ _ _ => rfl
  obtain ⟨_, _, hend⟩ :=
    moveAll_isolated mixed_proper rfl false hhook mixedMoves afterMixed.1 afterMixed.2
    (by rw [← afterMixed]) hstop
  obtain ⟨hparts, halone, _, _⟩ := hend hfinished
  exact ⟨mixed_proper, rfl, hhook, hstop, hconverted, hfailed, hparts, halone rfl haborted⟩

/-! ## Paths over what the batch makes -/

/-- The second file is given by a path over the archive, which is yet to be made. -/
def detoured : Scene :=
  .ofSample [(["a.py"], .file markedBytes), (["b.py"], .file markedBytes)]
    ["a.py", "archive/../b.py"]

/-- The first file is given by a link. The second path leads over this link and over as many others
as can be followed. -/
def overlinked : Scene :=
  .ofSample [(["a.py"], .file markedBytes), (["l.py"], .link "a.py"), (["d"], .link ".")]
    ["l.py", (replicate 40 (Text.ofString "d/")).flatten ++ "l.py/b.py"]

/-- The batch after its tasks have been run one after the other. -/
def inTurn (s : Scene) : Batch :=
  ((Batch.run s.host namer s.files { mixedOptions with concurrency := .limit 1 }
    false).run s.initial).1

/-- Why the file system makes a task fail, if it does. -/
def cause? : Except TaskError FileOutcome → Option FileCause
  | .error (.file e) => some e.cause
  | _ => none

/-- Why a task fails that is run by itself, if it does. -/
def aloneCause? (s : Scene) (i : Nat) : Option FileCause :=
  (s.inTurn.tasks[i]?).bind fun task =>
    (((task.run s.host).run s.initial).1.outcome?).bind cause?

/-- **A path over what the batch makes or replaces** may lead elsewhere than it does by itself: over
the archive it leads to a file when the archive has been made, and over a link that has been
replaced it fails for another cause. -/
theorem made_on_the_way :
    detoured.inTurn.summary.converted.map FileOutcome.file = ["a.py", "archive/../b.py"] ∧
      detoured.aloneCause? 1 = some .noEntry ∧
    overlinked.inTurn.summary.failed.map (fun f => cause? (.error f.2)) = [some .notDirectory] ∧
      overlinked.aloneCause? 1 = some .tooManyLinks := by
  decide +kernel

end Posonly.Scene
