import Posonly.Proofs.Batch.Foretold
import Posonly.Proofs.Program.Isolation

/-!
# Dry runs

A dry run reads files and writes none, so it leaves the tree as it is (`Unwriting`). What it says of
a file is told from the bytes that the file has before the run, and so is what becomes of the file
in a run that does write (`Foretold`). The two therefore say the same of every file, although the
second changes files while others are still to be read (`dryRun_foretells`).
-/

open List

namespace Posonly

/-! ## Summaries without what was written -/

/-- A summary without what was written. -/
def BatchSummary.unwritten (s : BatchSummary) : BatchSummary :=
  { s with
    converted := s.converted.map FileOutcome.unwritten
    unchanged := s.unchanged.map FileOutcome.unwritten }

variable {p : Premises} {hook : Batch.Hook (StateM World)} {b : Batch} {w w' : World}
  {lines : Task → Except TaskError FileOutcome → List Line} {files : List Text}
  {options : BatchOptions} {t : FileTree} {faulty : Prop} {task : Task} {stage : Stage}

/-- Outcomes that differ in what was written are summed up in the same way, and no file is skipped.
-/
theorem BatchSummary.ofEnded_unwritten {tasks tasks' : List Task}
    (hfiles : tasks'.map Task.file = tasks.map Task.file)
    (outcomes : List (Except TaskError FileOutcome)) :
    ofEnded tasks' (outcomes.map (Except.map FileOutcome.unwritten)) =
        (ofEnded tasks outcomes).unwritten ∧ (ofEnded tasks outcomes).skipped = [] := by
  -- both runs have a task for each file, with other options
  induction outcomes generalizing tasks tasks' with
  | nil => simp [ofEnded, of, unwritten]
  | cons outcome outcomes ih =>
    cases tasks with
    | nil =>
      rw [map_nil, map_eq_nil_iff] at hfiles
      subst hfiles
      exact ⟨rfl, rfl⟩
    | cons task tasks =>
      cases tasks' with
      | nil => cases hfiles
      | cons task' tasks' =>
        rw [map_cons, map_cons, List.cons.injEq] at hfiles
        obtain ⟨hsame, hskipped⟩ := ih hfiles.2
        change (ofEnded tasks' _).add task' (.settled (settlementOf (outcome.map _))) =
            ((ofEnded tasks outcomes).add task (.settled (settlementOf outcome))).unwritten ∧
          ((ofEnded tasks outcomes).add task (.settled (settlementOf outcome))).skipped = []
        rw [hsame]
        cases outcome with
        | error e =>
          refine ⟨?_, hskipped⟩
          change ({ (ofEnded tasks outcomes).unwritten with
            failed := (task'.file, e) :: (ofEnded tasks outcomes).failed } : BatchSummary) = _
          rw [hfiles.1]
          rfl
        | ok o =>
          change (if o.state = .assembled then _ else _) =
              (if o.state = .assembled then _ else _ : BatchSummary).unwritten ∧
            (if o.state = .assembled then _ else _ : BatchSummary).skipped = []
          split
          · exact ⟨rfl, hskipped⟩
          · exact ⟨rfl, hskipped⟩

/-! ## Batches that write nothing -/

/-- How far a task can come that writes nothing. -/
inductive Idle (p : Premises) (t : FileTree) (faulty : Prop) (task : Task) : Stage → Prop where
  | reading : Idle p t faulty task .reading
  | told (bytes : Bytes) (h : t.read p.directory task.file = .ok bytes) :
      Idle p t faulty task (.finished (task.forecast bytes))
  | failed (e : FileError) (h : faulty) : Idle p t faulty task (Task.failed e)

/-- A batch that writes nothing, on a tree that stays as it is. -/
structure Unwriting (p : Premises) (t : FileTree) (faulty : Prop)
    (b : Batch) (w : World) : Prop where
  tree : w.tree = t
  dry : ∀ (i : Nat) task, b.tasks[i]? = some task → task.options.dryRun = true
  stages : ∀ (i : Nat) task stage, b.tasks[i]? = some task → b.stages[i]? = some stage →
    Idle p t faulty task stage

theorem Task.file_of_forecast {bytes : Bytes} {o : FileOutcome} (h : task.forecast bytes = .ok o) :
    o.file = task.file := by
  rw [forecast] at h
  split at h
  · cases h
  · cases h
    rfl

theorem Task.converted_dryRun (h : task.options.dryRun = true) (bytes : Bytes) (supply : Supply) :
    task.converted (task.options.encoding.decode bytes) supply =
      .finished (task.forecast bytes) := by
  rw [converted]
  split
  · rename_i e he
    rw [forecast, he]
  · rename_i result hresult
    rw [if_pos (.inr h), forecast, hresult]
    rfl

/-- **An action of a task that writes nothing** reads its file, whether or not it fails. -/
theorem Idle.step (hdry : task.options.dryRun = true) (h : Idle p w.tree faulty task stage)
    {action : FileAction} (haction : task.action? stage = some action)
    (hsmooth : faulty ∨ (w.perform p.directory action).1.isOk) (supply : Supply) :
    (w.perform p.directory action).2.tree = w.tree ∧
      Idle p w.tree faulty task (task.advance stage (w.perform p.directory action).1 supply) := by
  have hyields := World.perform_yields w p.directory action
  cases h with
  | reading =>
    cases haction
    generalize (w.perform p.directory (.read task.file)).1 = reply at hyields hsmooth ⊢
    generalize (w.perform p.directory (.read task.file)).2.tree = t' at hyields ⊢
    cases hyields with
    | done =>
      refine ⟨rfl, ?_⟩
      rw [FileTree.perform] at hsmooth ⊢
      cases hread : w.tree.read p.directory task.file with
      | ok bytes =>
        rw [Task.advance, Task.converted_dryRun hdry]
        exact .told bytes hread
      | error e =>
        rw [hread] at hsmooth
        exact .failed e (hsmooth.resolve_right (by simp [Except.isOk, Except.toBool]))
    | failed e =>
      exact ⟨rfl, .failed e (hsmooth.resolve_right (by simp [Except.isOk, Except.toBool]))⟩
    | torn e path bytes more hwrite => cases hwrite
  | told bytes | failed e => cases haction

namespace Unwriting

theorem start (hdry : options.dryRun = true) (directory : Text)
    (parse : Text → Tree) (aborted : Bool)
    (w : World) : Unwriting p w.tree faulty (.start files options directory parse aborted) w := by
  refine ⟨rfl, fun i task htask => ?_, fun i task stage _ hstage => ?_⟩
  · obtain ⟨_, _, rfl⟩ := task_of_start htask
    exact hdry
  · obtain rfl := reading_of_start hstage
    exact .reading

theorem move (hhook : Prints hook) (h : Unwriting p t faulty b w) (move : BatchMove)
    (hsmooth : faulty ∨ ∀ action ∈ b.action? move, (w.perform p.directory action).1.isOk) :
    Unwriting p t faulty ((b.move p.host hook move).run w).1
      ((b.move p.host hook move).run w).2 := by
  obtain ⟨rfl, hdry, hstages⟩ := h
  rcases move_cases p hhook b move w with
    ⟨_, _, halike, htasks, hsame⟩ | ⟨index, task, stage, action, rfl, hacts⟩
  · refine ⟨halike.tree, ?_, ?_⟩
    · rwa [htasks]
    · rwa [htasks, hsame]
  · obtain ⟨htree, hnext⟩ := (hstages index task stage hacts.tasked hacts.staged).step
      (hdry index task hacts.tasked) hacts.asks
      (hsmooth.imp_right fun h => h action hacts.action?) (p.supply w.supplied)
    rw [Batch.move, hacts.run]
    refine ⟨htree, hdry, fun j other stage' hother hstage' => ?_⟩
    rcases Batch.withStage_cases hstage' with ⟨rfl, rfl⟩ | ⟨_, hbefore⟩
    · obtain rfl : task = other := Option.some.inj (hacts.tasked.symm.trans hother)
      exact hnext
    · exact hstages j other stage' hother hbefore

theorem moveAll (hhook : Prints hook) (moves : List BatchMove) (h : Unwriting p t faulty b w)
    (hsmooth : faulty ∨ Smooth p hook b w moves) :
    Unwriting p t faulty ((Batch.moveAll p.host hook b moves).run w).1
      ((Batch.moveAll p.host hook b moves).run w).2 := by
  induction moves generalizing b w with
  | nil => exact h
  | cons move moves ih =>
    exact ih (h.move hhook move (hsmooth.imp_right And.left)) (hsmooth.imp_right And.right)

end Unwriting

/-! ## Two runs -/

namespace Scene

variable {s : Scene} {outcomes dryOutcomes : List (Except TaskError FileOutcome)}
  {taskOptions : TaskOptions}

/-- The task of a file. -/
def taskOf (s : Scene) (options : TaskOptions) (file : Text) : Task :=
  ⟨file, options, s.directory, s.parse⟩

theorem getElem?_tasks {tasks : List Task} {i : Nat} {file : Text}
    (htasks : tasks = s.files.map (s.taskOf taskOptions)) (hfile : s.files[i]? = some file) :
    tasks[i]? = some (s.taskOf taskOptions file) := by
  rw [htasks, getElem?_map, hfile]
  rfl

theorem map_file_taskOf (s : Scene) (taskOptions : TaskOptions) :
    (s.files.map (s.taskOf taskOptions)).map Task.file = s.files := by
  rw [map_map]
  exact List.map_id _

theorem partitions_of_forecast (hlength : outcomes.length = s.files.length)
    (h : ∀ (i : Nat) file outcome, s.files[i]? = some file → outcomes[i]? = some outcome →
      ∃ bytes, outcome = (s.taskOf taskOptions file).forecast bytes) :
    (BatchSummary.ofEnded (s.files.map (s.taskOf taskOptions)) outcomes).Partitions s.files := by
  have hlengths : (s.files.map (s.taskOf taskOptions)).length = outcomes.length := by
    rw [length_map, hlength]
  have hparts := BatchSummary.ofEnded_partitions hlengths fun i task o htask hget => by
    rw [getElem?_map, Option.map_eq_some_iff] at htask
    obtain ⟨file, hfile, rfl⟩ := htask
    obtain ⟨_, hforecast⟩ := h i file _ hfile hget
    exact Task.file_of_forecast hforecast.symm
  rwa [map_file_taskOf] at hparts

/-- **A batch that has been run to its end** has come to what its files foretold. -/
theorem ran_foretold (h : Ran s.premises hook (s.batch options false) s.initial b w)
    (hs : s.Separate) (hreads : ∀ i, i < s.files.length → ∃ place bytes, s.Reads i place bytes)
    (harchive : options.archive = s.archive) (hfast : options.failFast = false)
    (hhook : Tells hook lines) (hstop : w.supplied ≤ s.stop) :
    ∃ outcomes : List (Except TaskError FileOutcome), outcomes.length = s.files.length ∧
      b.summary = .ofEnded (s.files.map (s.taskOf options.toTaskOptions)) outcomes ∧
      ∀ (i : Nat) file outcome place bytes, s.files[i]? = some file → outcomes[i]? = some outcome →
        s.Reads i place bytes →
          outcome.map FileOutcome.unwritten =
            (s.taskOf options.toTaskOptions file).forecast bytes := by
  obtain ⟨moves, hrun, hsmooth⟩ := h.moves
  obtain ⟨outcomes, hlength, hstages, hsummary, htasks⟩ :=
    outcomes_of_finished hhook hfast hrun h.finished h.aborted
  have hsupplied := moveAll_supplied s.premises hhook.prints moves (s.batch options false) s.initial
  rw [hrun] at hsupplied
  have hforeseen :=
    (foreseen_start options harchive false).moveAll hs hreads hhook.prints moves hsmooth
    (hsupplied ▸ hstop)
  rw [← batch, hrun] at hforeseen
  refine ⟨outcomes, hlength, htasks ▸ hsummary,
    fun i file outcome place bytes hfile hget hread => ?_⟩
  have hstage := stage_of_outcome hstages hget
  have hforetold := hforeseen.stages i _ _ place bytes (getElem?_tasks htasks hfile) hstage hread
  generalize hend : Stage.finished outcome = stage at hforetold
  cases hforetold with
  | finished outcome' hsame =>
    cases hend
    exact hsame
  | _ => cases hend

/-- **A dry run that has come to its end** has read all files, and says of each what its bytes
foretell. -/
theorem ran_dry (h : Ran s.premises hook (s.batch options false) w b w')
    (htree : w.tree = s.initial.tree) (hdry : options.dryRun = true)
    (hfast : options.failFast = false) (hhook : Tells hook lines) :
    w'.tree = w.tree ∧ ∃ outcomes : List (Except TaskError FileOutcome),
      outcomes.length = s.files.length ∧
      b.summary = .ofEnded (s.files.map (s.taskOf options.toTaskOptions)) outcomes ∧
      ∀ (i : Nat) file outcome, s.files[i]? = some file → outcomes[i]? = some outcome →
        ∃ place bytes, s.Reads i place bytes ∧
          outcome = (s.taskOf options.toTaskOptions file).forecast bytes := by
  obtain ⟨moves, hrun, hsmooth⟩ := h.moves
  obtain ⟨outcomes, hlength, hstages, hsummary, htasks⟩ :=
    outcomes_of_finished hhook hfast hrun h.finished h.aborted
  have hunwriting : Unwriting s.premises w.tree False (s.batch options false) w :=
    .start hdry s.directory s.parse false w
  have hend := hunwriting.moveAll hhook.prints moves (.inr hsmooth)
  rw [hrun] at hend
  refine ⟨hend.tree, outcomes, hlength, htasks ▸ hsummary, fun i file outcome hfile hget => ?_⟩
  have hstage := stage_of_outcome hstages hget
  have hidle := hend.stages i _ _ (getElem?_tasks htasks hfile) hstage
  generalize hfinal : Stage.finished outcome = stage at hidle
  cases hidle with
  | reading => cases hfinal
  | told bytes hread =>
    cases hfinal
    rw [htree] at hread
    obtain ⟨place, hlocate⟩ := FileTree.read_eq_ok_iff.mp hread
    exact ⟨place, bytes, ⟨file, hfile, hlocate⟩, rfl⟩
  | failed e hfalse => exact hfalse.elim

/-- **The outcomes of a dry run** are those of the other run without what was written. -/
theorem outcomes_unwritten {taskOptions dryOptions : TaskOptions}
    (hlength : outcomes.length = s.files.length) (hdryLength : dryOutcomes.length = s.files.length)
    (hdry : ∀ (i : Nat) file outcome, s.files[i]? = some file → dryOutcomes[i]? = some outcome →
      ∃ place bytes, s.Reads i place bytes ∧ outcome = (s.taskOf dryOptions file).forecast bytes)
    (htold : ∀ (i : Nat) file outcome place bytes, s.files[i]? = some file →
      outcomes[i]? = some outcome → s.Reads i place bytes →
        outcome.map FileOutcome.unwritten = (s.taskOf taskOptions file).forecast bytes)
    (hsame : ∀ file bytes, (s.taskOf dryOptions file).forecast bytes =
      (s.taskOf taskOptions file).forecast bytes) :
    dryOutcomes = outcomes.map (Except.map FileOutcome.unwritten) := by
  refine ext_getElem? fun i => ?_
  rw [getElem?_map]
  cases hfile : s.files[i]? with
  | none =>
    have hi := List.getElem?_eq_none_iff.mp hfile
    rw [getElem?_eq_none (by omega), getElem?_eq_none (by omega)]
    rfl
  | some file =>
    have hi := (List.getElem?_eq_some_iff.mp hfile).1
    obtain ⟨outcome, hget⟩ : ∃ outcome, outcomes[i]? = some outcome :=
      ⟨_, getElem?_eq_getElem (hlength ▸ hi)⟩
    obtain ⟨dryOutcome, hdryGet⟩ : ∃ outcome, dryOutcomes[i]? = some outcome :=
      ⟨_, getElem?_eq_getElem (hdryLength ▸ hi)⟩
    obtain ⟨place, bytes, hread, hforecast⟩ := hdry i file dryOutcome hfile hdryGet
    rw [hget, hdryGet, Option.map_some,
      htold i file outcome place bytes hfile hget hread, hforecast, hsame]

end Scene

namespace Program

/-! ## The program -/

theorem convert_dryRun (p : Premises) {o : CommandLine.RunOptions}
    (h : o.dryRun = true) (w : World) : (StateT.run (convert p.host o) w).2.tree = w.tree := by
  rcases convert_run p o w with halike | ⟨sources, w₁, _, _, hbefore, hafter⟩
  · exact halike.tree
  · -- actions may fail here; a task that cannot read its file ends
    have htells := report_tells p o
    obtain ⟨moves, hrun, _⟩ := run_moves p htells sources.files (batchOptions p.host o) false w₁
    have hstart : Unwriting p w₁.tree True
        (.start sources.files (batchOptions p.host o) p.directory p.parse false) w₁ :=
      .start h p.directory p.parse false w₁
    have hend := hstart.moveAll htells.prints moves (.inl trivial)
    rw [← hrun] at hend
    rw [hafter.tree, hend.tree, hbefore.tree]

/-- **A dry run writes nothing and foretells the run that writes.** If the arguments ask for a dry
run, the program leaves the whole tree as it is, whatever is in it and whichever actions fail.

If no two files of a batch are the same, none is the manifest and all tokens are new, and no action
fails and nothing stops the batch, then a dry run of it and a run that writes have the same summary
up to what was written: the same files are converted, unchanged and failed, and none is skipped,
with the same source and the same edits or the same error for each. That is so however the tasks
take turns in either run, and whichever archive and concurrency the dry run has.

To run a batch is one way of bringing it to its end, and no action has failed if all files that
failed could not be converted. -/
theorem dryRun_foretells :
    (∀ (p : Premises) (args : List Text) (env : Environment)
      (o : CommandLine.RunOptions) (w : World),
      CommandLine.read args env p.directory = .ok (.run o) → o.dryRun = true →
        (StateT.run (run p.host args env) w).2.tree = w.tree) ∧
    (∀ (s : Scene) (options : BatchOptions) (archive : Option Archive) (concurrency : Concurrency)
      (hook dryHook : Batch.Hook (StateM World))
      (lines dryLines : Task → Except TaskError FileOutcome → List Line) (b d : Batch)
      (before w v : World),
      s.Separate → options.archive = s.archive → options.failFast = false →
      Tells hook lines → Tells dryHook dryLines →
      Ran s.premises hook (s.batch { options with dryRun := false } false) s.initial b w →
      w.supplied ≤ s.stop → before.tree = s.initial.tree →
      Ran s.premises dryHook (s.batch { options with dryRun := true, archive, concurrency } false)
        before d v →
      v.tree = before.tree ∧ d.summary.Partitions s.files ∧
        d.summary = b.summary.unwritten ∧ b.summary.skipped = []) ∧
    ∀ (p : Premises) (hook : Batch.Hook (StateM World))
      (lines : Task → Except TaskError FileOutcome → List Line) (files : List Text)
      (options : BatchOptions) (b : Batch) (before w : World),
      Tells hook lines → options.failFast = false →
      (Batch.run p.host hook files options false).run before = (b, w) → b.pool.aborted = false →
      (∀ failure ∈ b.summary.failed, failure.2.isConversion = true) →
      Ran p hook (.start files options p.directory p.parse false) before b w := by
  refine ⟨fun p args env o w hread hdry => ?_, ?_, ?_⟩
  · rw [run_of_read hread]
    exact convert_dryRun p hdry w
  · intro s options archive concurrency hook dryHook lines dryLines b d before w v hs harchive hfast
      hhook hdryHook hran hstop hbefore hdryRan
    obtain ⟨htree, dryOutcomes, hdryLength, hdrySummary, hdry⟩ :=
      Scene.ran_dry hdryRan hbefore rfl hfast hdryHook
    -- the dry run has read all files, so the other run can read them
    have hreads : ∀ i, i < s.files.length → ∃ place bytes, s.Reads i place bytes := by
      intro i hi
      obtain ⟨place, bytes, hread, _⟩ := hdry i _ _ (List.getElem?_eq_getElem hi)
        (List.getElem?_eq_getElem (hdryLength ▸ hi))
      exact ⟨place, bytes, hread⟩
    obtain ⟨outcomes, hlength, hsummary, htold⟩ :=
      Scene.ran_foretold hran hs hreads harchive hfast hhook hstop
    have hunwritten := Scene.outcomes_unwritten hlength hdryLength hdry htold fun _ _ => rfl
    obtain ⟨hsame, hskipped⟩ :=
      BatchSummary.ofEnded_unwritten
        ((s.map_file_taskOf _).trans (s.map_file_taskOf _).symm) outcomes
    refine ⟨htree, ?_, ?_, ?_⟩
    · rw [hdrySummary]
      exact Scene.partitions_of_forecast hdryLength fun i file outcome hfile hget =>
        let ⟨_, bytes, _, hforecast⟩ := hdry i file outcome hfile hget
        ⟨bytes, hforecast⟩
    · rw [hdrySummary, hsummary, hunwritten, hsame]
    · rw [hsummary, hskipped]
  · intro p hook lines files options b before w hhook hfast hrun haborted hfailed
    obtain ⟨moves, hmoves, hfinished⟩ := run_moves p hhook files options false before
    rw [hrun] at hmoves
    rw [← hmoves] at hfinished
    exact ran_of_failed hhook hfast hmoves.symm hfinished haborted hfailed

/-! ## A link to a file -/

def brokenSource : Text := "def (\n"

/-- The scene of four files. The second is a link, and the last cannot be parsed. -/
def linked : Scene :=
  { Scene.ofSample [(["a.py"], .file markedBytes), (["src"], .directory),
      (["src", "b.py"], .file markedBytes), (["b.py"], .link "src/b.py"),
      (["plain.py"], .file (Encoding.utf8.encode "pass\n")),
      (["broken.py"], .file (Encoding.utf8.encode brokenSource))]
      ["a.py", "b.py", "plain.py", "broken.py"] with
    premises :=
      { sample.premises with
        parse := fun t => if t = brokenSource then .node .script ⟨0, t.length⟩ [.leaf .error 4 5]
          else sample.parse t } }

theorem linked_apart : linked.Apart := by decide

theorem linked_tokens : FreshTokens linked.supply (fun n => n.length < 36)
    linked.initial.supplied linked.stop :=
  sample_tokens (Nat.le_refl _) fun _ => id

theorem linked_separate : linked.Separate where
  shaped := by
    rintro _ ⟨i, hstart, hi, rfl⟩
    exact linked_tokens.shaped i hstart hi
  unknown := by
    rintro _ place n node ⟨i, hstart, hi, rfl⟩ hnode
    have hnames : ∀ entry ∈ linked.made.nodes, ∀ n ∈ entry.1, n.length < 36 := by decide
    obtain ⟨entry, hentry, hplace⟩ := FileTree.exists_mem_nodes hnode (by simp)
    exact linked_tokens.unknown i hstart hi n (hnames entry hentry n (by rw [hplace]; simp))
  apart := by
    rintro i j place bytes bytes' ⟨file, hfile, hleads⟩ ⟨other, hother, hleads'⟩
    exact linked_apart.index_eq hleads hfile hother hleads'
  outside := by
    rintro a i place bytes node ha ⟨file, hfile, hleads⟩
    exact linked_apart.manifest_ne hleads ha (List.mem_of_getElem? hfile) node

def linkedDryOptions : BatchOptions :=
  { Scene.mixedOptions with dryRun := true, archive := none, concurrency := .limit 1 }

/-- Runs the batch of the scene. -/
def runLinked (options : BatchOptions) : Batch × World :=
  (Batch.run linked.host Scene.namer linked.files options false).run linked.initial

/-- No action fails in a run of the batch, and the file that cannot be parsed fails. -/
theorem runLinked_evaluated : (runLinked Scene.mixedOptions).2.supplied ≤ linked.stop ∧
    (runLinked Scene.mixedOptions).1.summary.converted.map FileOutcome.file = ["a.py", "b.py"] ∧
    (runLinked Scene.mixedOptions).1.summary.failed.map Prod.fst = ["broken.py"] ∧
    ∀ options ∈ [Scene.mixedOptions, linkedDryOptions], (runLinked options).1.pool.aborted = false ∧
      ∀ failure ∈ (runLinked options).1.summary.failed, failure.2.isConversion = true := by
  decide +kernel

/-- **A dry run of four files**, one of them a link and one that cannot be parsed, foretells the run
that writes. -/
theorem dryRun_foretells_linked :
    (StateT.run (run linked.host ["-q", "-d", "--dry-run", "."] []) linked.initial).2.tree =
      linked.initial.tree ∧
    linked.Separate ∧
    (runLinked Scene.mixedOptions).1.summary.converted.map FileOutcome.file = ["a.py", "b.py"] ∧
    (runLinked Scene.mixedOptions).1.summary.failed.map Prod.fst = ["broken.py"] ∧
    (runLinked linkedDryOptions).2.tree = linked.initial.tree ∧
    (runLinked linkedDryOptions).1.summary =
    (runLinked Scene.mixedOptions).1.summary.unwritten := by
  obtain ⟨hstop, hconverted, hfailed, hruns⟩ := runLinked_evaluated
  obtain ⟨hprogram, hforetells, hran⟩ := dryRun_foretells
  have hread : CommandLine.read ["-q", "-d", "--dry-run", "."] [] linked.directory =
      .ok (.run { sampleOptions with dryRun := true }) := by
    decide +kernel
  have hhook : Tells Scene.namer (fun task _ => [⟨.output, task.file⟩]) := fun _ _ _ => rfl
  have hboth : ∀ options ∈ [Scene.mixedOptions, linkedDryOptions], options.failFast = false →
      Ran linked.premises Scene.namer (linked.batch options false) linked.initial
        (runLinked options).1 (runLinked options).2 := by
    intro options hoptions hfast
    obtain ⟨haborted, hconversion⟩ := hruns options hoptions
    exact hran linked.premises Scene.namer _ linked.files options _ _ _ hhook hfast rfl haborted
      hconversion
  obtain ⟨htree, _, hsummary, _⟩ := hforetells linked Scene.mixedOptions none (.limit 1) Scene.namer
    Scene.namer _ _ _ _ linked.initial _ _ linked_separate rfl rfl hhook hhook
    (hboth Scene.mixedOptions (by simp) rfl) hstop rfl (hboth linkedDryOptions (by simp) rfl)
  exact ⟨hprogram _ _ _ _ _ hread rfl, linked_separate, hconverted, hfailed, htree, hsummary⟩

end Program

end Posonly
