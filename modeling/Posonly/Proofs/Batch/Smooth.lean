import Posonly.Proofs.Batch.Ending

/-!
# Runs in which no action fails

A run of a batch is smooth if no action fails in it (`Smooth`). One that has come to its end is
summed up by the outcomes of all its tasks (`outcomes_of_finished`). An action that fails makes its
task fail, so it can be told from the summary that none has (`ran_of_failed`).
-/

open List

namespace Posonly

/-- No action fails in some moves. -/
def Smooth (p : Premises) (hook : Batch.Hook (StateM World)) (b : Batch) (w : World) :
    List BatchMove → Prop
  | [] => True
  | move :: moves =>
    (∀ action ∈ b.action? move, (w.perform p.directory action).1.isOk) ∧
      Smooth p hook ((b.move p.host hook move).run w).1 ((b.move p.host hook move).run w).2 moves

instance Smooth.decidable (p : Premises) (hook : Batch.Hook (StateM World))
    (b : Batch) (w : World) : ∀ moves, Decidable (Smooth p hook b w moves)
  | [] => isTrue trivial
  | move :: moves =>
    have := decidable p hook ((b.move p.host hook move).run w).1
      ((b.move p.host hook move).run w).2 moves
    inferInstanceAs (Decidable (_ ∧ _))

/-- A file could not be converted. Otherwise an action failed. -/
def TaskError.isConversion : TaskError → Bool
  | .conversion _ => true
  | .file _ => false

/-- A batch has been run to its end: no action has failed, and nothing has stopped it. -/
structure Ran (p : Premises) (hook : Batch.Hook (StateM World)) (start : Batch) (before : World)
    (b : Batch) (w : World) : Prop where
  moves : ∃ moves, (Batch.moveAll p.host hook start moves).run before = (b, w) ∧
    Smooth p hook start before moves
  finished : b.pool.isFinished = true
  aborted : b.pool.aborted = false

/-- A summary of tasks that have all ended. -/
def BatchSummary.ofEnded (tasks : List Task) (outcomes : List (Except TaskError FileOutcome)) :
    BatchSummary :=
  .of (tasks.zip (outcomes.map fun o => .settled (settlementOf o)))

variable {p : Premises} {hook : Batch.Hook (StateM World)} {b : Batch} {w before : World}
  {lines : Task → Except TaskError FileOutcome → List Line} {files : List Text}
  {options : BatchOptions} {directory : Text} {parse : Text → Tree} {task : Task} {stage : Stage}
  {moves : List BatchMove} {action : FileAction}

/-! ## Summaries -/

namespace BatchSummary

variable {tasks : List Task} {outcomes : List (Except TaskError FileOutcome)} {e : TaskError}

theorem ofEnded_partitions (hlength : tasks.length = outcomes.length)
    (hnamed : ∀ (i : Nat) task o, tasks[i]? = some task → outcomes[i]? = some (.ok o) →
      o.file = task.file) : (ofEnded tasks outcomes).Partitions (tasks.map Task.file) := by
  have hzip : (tasks.zip (outcomes.map fun o => Outcome.settled (settlementOf o))).map
      (fun r => r.1.file) = tasks.map Task.file := by
    have hfirst :
        (tasks.zip (outcomes.map fun o => Outcome.settled (settlementOf o))).map Prod.fst =
        tasks := map_fst_zip (by rw [length_map, hlength])
    rw [← congrArg (List.map Task.file) hfirst, map_map]
    rfl
  rw [← hzip]
  refine partitions_of fun task o hmem => ?_
  obtain ⟨i, hi⟩ := mem_iff_getElem?.mp hmem
  obtain ⟨htask, hget⟩ := getElem?_zip_eq_some.mp hi
  rw [getElem?_map, Option.map_eq_some_iff] at hget
  obtain ⟨outcome, houtcome, hsettled⟩ := hget
  cases outcome with
  | error e => cases hsettled
  | ok o' =>
    cases hsettled
    exact hnamed i task o htask houtcome

theorem failed_add (s : BatchSummary) (task : Task) (outcome : Outcome FileOutcome TaskError) :
    s.failed ⊆ (s.add task outcome).failed := by
  unfold add
  split
  · split <;> exact List.Subset.refl _
  · exact subset_cons_self ..
  · exact List.Subset.refl _

theorem mem_failed_of {results : List (Task × Outcome FileOutcome TaskError)}
    (h : (task, .settled (.rejected e)) ∈ results) : (task.file, e) ∈ (of results).failed := by
  induction results with
  | nil => cases h
  | cons result results ih =>
    rcases mem_cons.mp h with rfl | h
    · exact mem_cons_self
    · exact failed_add _ _ _ (ih h)

theorem mem_failed_ofEnded {i : Nat} (htask : tasks[i]? = some task)
    (hget : outcomes[i]? = some (.error e)) : (task.file, e) ∈ (ofEnded tasks outcomes).failed := by
  refine mem_failed_of (mem_of_getElem? (getElem?_zip_eq_some.mpr ⟨htask, ?_⟩))
  rw [getElem?_map, hget]
  rfl

end BatchSummary

/-! ## Batches at their end -/

theorem moveAll_tasks (p : Premises) (hhook : Prints hook) (moves : List BatchMove) (b : Batch)
    (w : World) : ((Batch.moveAll p.host hook b moves).run w).1.tasks = b.tasks := by
  induction moves generalizing b w with
  | nil => rfl
  | cons move moves ih =>
    have hone : ((b.move p.host hook move).run w).1.tasks = b.tasks := by
      rcases move_cases p hhook b move w with
        ⟨_, _, _, htasks, _⟩ | ⟨index, task, stage, action, rfl, hacts⟩
      · exact htasks
      · rw [Batch.move, hacts.run]
        rfl
    exact (ih _ _).trans hone

/-- A batch that has come to its end, and that nothing has stopped, is summed up by the outcomes of
all its tasks. -/
theorem outcomes_of_finished (hhook : Tells hook lines) (hfast : options.failFast = false)
    (hrun : (Batch.moveAll p.host hook (.start files options directory parse false) moves).run
      before = (b, w)) (hfinished : b.pool.isFinished = true) (haborted : b.pool.aborted = false) :
    ∃ outcomes : List (Except TaskError FileOutcome), outcomes.length = files.length ∧
      b.stages = outcomes.map .finished ∧ b.summary = .ofEnded b.tasks outcomes ∧
      b.tasks = files.map fun file => ⟨file, options.toTaskOptions, directory, parse⟩ := by
  have hstart := heard_start files options directory parse false lines before
  obtain ⟨more, hheard⟩ := hstart.moveAll p hhook moves
  have htasks :=
    moveAll_tasks p hhook.prints moves (.start files options directory parse false) before
  rw [hrun] at hheard htasks
  have hstopped : b.pool.stopped = false := by
    rw [Pool.stopped, haborted, hheard.kept.failFast]
    exact congrArg (fun failFast => false || failFast && _) hfast
  obtain ⟨outcomes, hstages, hlength, houtcomes⟩ :=
    hheard.outcomes hfinished (Pool.workers_pos ..) hstopped
  exact ⟨outcomes, hlength, hstages, by rw [Batch.summary, houtcomes, BatchSummary.ofEnded], htasks⟩

/-! ## Actions that fail -/

/-- An action of the task has failed. -/
def Stage.faulted : Stage → Bool
  | .cleaning _ _ => true
  | .finished (.error e) => !e.isConversion
  | _ => false

/-- An action of some task has failed. -/
def Batch.Faulted (b : Batch) : Prop := ∃ stage ∈ b.stages, stage.faulted = true

theorem Task.faulted_of_error (haction : task.action? stage = some action)
    (e : FileError) (supply : Supply) : (task.advance stage (.error e) supply).faulted = true := by
  cases stage with
  | archiving source result stage =>
    rw [action?] at haction
    obtain ⟨archive, _, haction⟩ := Option.bind_eq_some_iff.mp haction
    cases stage with
    | stored entry | failed e' => cases haction
    | _ => rfl
  | finished outcome => cases haction
  | _ => rfl

theorem Task.faulted_advance (h : stage.faulted = true) (reply : FileReply) (supply : Supply) :
    (task.advance stage reply supply).faulted = true := by
  cases stage with
  | cleaning r e => cases reply <;> rfl
  | finished outcome => exact h
  | _ => cases h

namespace Batch.Faulted

/-- A task that has failed stays so, whatever else happens. -/
theorem move (hhook : Prints hook) (h : b.Faulted) (move : BatchMove) :
    ((b.move p.host hook move).run w).1.Faulted := by
  rcases move_cases p hhook b move w with
    ⟨_, _, _, _, hstages⟩ | ⟨index, task, stage, action, rfl, hacts⟩
  · rwa [Faulted, hstages]
  · rw [Batch.move, hacts.run]
    obtain ⟨other, hmem, hfaulted⟩ := h
    obtain ⟨i, hi⟩ := mem_iff_getElem?.mp hmem
    by_cases hindex : i = index
    · subst hindex
      obtain rfl : stage = other := Option.some.inj (hacts.staged.symm.trans hi)
      exact ⟨_, mem_set (List.getElem?_eq_some_iff.mp hi).1 _, Task.faulted_advance hfaulted ..⟩
    · refine ⟨other, mem_of_getElem? (i := i) ?_, hfaulted⟩
      rwa [Batch.withStage, getElem?_set_ne (Ne.symm hindex)]

theorem moveAll (hhook : Prints hook) (moves : List BatchMove) (h : b.Faulted) :
    ((Batch.moveAll p.host hook b moves).run w).1.Faulted := by
  induction moves generalizing b w with
  | nil => exact h
  | cons move moves ih => exact ih (h.move hhook move)

theorem of_error (hhook : Prints hook) {move : BatchMove}
    (haction : b.action? move = some action) (h : ¬ (w.perform p.directory action).1.isOk) :
    ((b.move p.host hook move).run w).1.Faulted := by
  rcases move_cases p hhook b move w with
    ⟨hnone, _⟩ | ⟨index, task, stage, action', rfl, hacts⟩
  · rw [hnone] at haction
    cases haction
  · obtain rfl : action' = action := Option.some.inj (hacts.action?.symm.trans haction)
    rw [Batch.move, hacts.run]
    refine ⟨_, mem_set (List.getElem?_eq_some_iff.mp hacts.staged).1 _, ?_⟩
    generalize (w.perform p.directory action').1 = reply at h ⊢
    cases reply with
    | ok bytes => exact absurd rfl h
    | error e => exact Task.faulted_of_error hacts.asks e _

end Batch.Faulted

theorem smooth_of_not_faulted (hhook : Prints hook)
    (h : ¬ ((Batch.moveAll p.host hook b moves).run w).1.Faulted) : Smooth p hook b w moves := by
  induction moves generalizing b w with
  | nil => trivial
  | cons move moves ih =>
    refine ⟨fun action haction => ?_, ih h⟩
    by_contra herror
    exact h ((Batch.Faulted.of_error hhook haction herror).moveAll hhook moves)

/-- **It can be told from the summary that no action has failed**: all files that failed could not
be converted. -/
theorem ran_of_failed (hhook : Tells hook lines) (hfast : options.failFast = false)
    (hrun : (Batch.moveAll p.host hook (.start files options directory parse false) moves).run
      before = (b, w)) (hfinished : b.pool.isFinished = true) (haborted : b.pool.aborted = false)
    (hfailed : ∀ failure ∈ b.summary.failed, failure.2.isConversion = true) :
    Ran p hook (.start files options directory parse false) before b w := by
  refine ⟨⟨moves, hrun, smooth_of_not_faulted hhook.prints ?_⟩, hfinished, haborted⟩
  obtain ⟨outcomes, hlength, hstages, hsummary, htasks⟩ :=
    outcomes_of_finished hhook hfast hrun hfinished haborted
  rw [hrun]
  -- a task that has failed by an action would be in the summary
  rintro ⟨stage, hmem, hfaulted⟩
  rw [hstages] at hmem
  obtain ⟨outcome, houtcome, rfl⟩ := mem_map.mp hmem
  obtain ⟨i, hget⟩ := mem_iff_getElem?.mp houtcome
  cases outcome with
  | ok o => cases hfaulted
  | error e =>
    have hi : i < b.tasks.length := by
      rw [htasks, length_map, ← hlength]
      exact (List.getElem?_eq_some_iff.mp hget).1
    have hin := BatchSummary.mem_failed_ofEnded (getElem?_eq_getElem hi) hget
    rw [← hsummary] at hin
    rw [Stage.faulted, hfailed _ hin] at hfaulted
    cases hfaulted

end Posonly
