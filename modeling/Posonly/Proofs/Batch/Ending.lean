import Mathlib.Data.Set.List
import Posonly.Proofs.Batch.Alone
import Posonly.Proofs.Pool.Schedule

/-!
# How batches end

The pool of a batch learns how each task has ended, and so does the hook, once for each task
(`Heard`). From wherever a batch is, it can be brought to its end (`Heard.finishes`). Then its
summary has every file in one list (`partitions_of`).
-/

open List Posonly.Pool

namespace Posonly

/-! ## Summaries -/

/-- A summary has every file in one of its lists, and each list is in the order of the files. -/
structure BatchSummary.Partitions (s : BatchSummary) (files : List Text) : Prop where
  converted : (s.converted.map FileOutcome.file).Sublist files
  unchanged : (s.unchanged.map FileOutcome.file).Sublist files
  failed : (s.failed.map Prod.fst).Sublist files
  skipped : s.skipped.Sublist files
  each : (s.converted.map FileOutcome.file ++ (s.unchanged.map FileOutcome.file ++
    (s.failed.map Prod.fst ++ s.skipped))).Perm files

namespace BatchSummary

variable {results : List (Task × Outcome FileOutcome TaskError)} {file : Text}

theorem partitions_of
    (hnamed : ∀ task o, (task, .settled (.fulfilled o)) ∈ results → o.file = task.file) :
    (of results).Partitions (results.map fun r => r.1.file) := by
  induction results with
  | nil => exact ⟨.refl _, .refl _, .refl _, .refl _, .refl _⟩
  | cons r results ih =>
    have h := ih fun task o hmem => hnamed task o (.tail _ hmem)
    obtain ⟨task, outcome⟩ := r
    change ((of results).add task outcome).Partitions (task.file :: _)
    -- whichever list gets the file, it can be moved to the front
    cases outcome with
    | skipped =>
      refine ⟨h.converted.cons _, h.unchanged.cons _, h.failed.cons _, h.skipped.cons_cons _, ?_⟩
      exact ((((perm_middle.append_left _).trans perm_middle).append_left _).trans
        perm_middle).trans (h.each.cons _)
    | settled st =>
      cases st with
      | rejected e =>
        refine ⟨h.converted.cons _, h.unchanged.cons _, h.failed.cons_cons _, h.skipped.cons _, ?_⟩
        exact ((perm_middle.append_left _).trans perm_middle).trans (h.each.cons _)
      | fulfilled o =>
        have hfile : o.file = task.file := hnamed task o (by simp)
        rw [add, ← hfile]
        split
        · exact ⟨h.converted.cons_cons _, h.unchanged.cons _, h.failed.cons _, h.skipped.cons _,
            h.each.cons _⟩
        · exact ⟨h.converted.cons _, h.unchanged.cons_cons _, h.failed.cons _, h.skipped.cons _,
            perm_middle.trans (h.each.cons _)⟩

/-- The files that were skipped or failed, by what became of their tasks. -/
theorem mem_of (h : file ∈ (of results).skipped ∨ file ∈ (of results).failed.map Prod.fst) :
    ∃ task outcome, (task, outcome) ∈ results ∧ task.file = file ∧
      (outcome = .skipped ∨ ∃ e, outcome = .settled (.rejected e)) := by
  induction results with
  | nil => simp [of] at h
  | cons r results ih =>
    have hrest : file ∈ (of results).skipped ∨ file ∈ (of results).failed.map Prod.fst →
        ∃ task outcome, (task, outcome) ∈ r :: results ∧ task.file = file ∧
          (outcome = .skipped ∨ ∃ e, outcome = .settled (.rejected e)) := by
      intro h
      obtain ⟨task, outcome, hmem, hfile, hend⟩ := ih h
      exact ⟨task, outcome, mem_cons_of_mem _ hmem, hfile, hend⟩
    obtain ⟨task, outcome⟩ := r
    change file ∈ ((of results).add task outcome).skipped ∨
      file ∈ ((of results).add task outcome).failed.map Prod.fst at h
    cases outcome with
    | skipped =>
      rcases h with h | h
      · rcases mem_cons.mp h with rfl | h
        · exact ⟨task, .skipped, by simp, rfl, .inl rfl⟩
        · exact hrest (.inl h)
      · exact hrest (.inr h)
    | settled st =>
      cases st with
      | rejected e =>
        rcases h with h | h
        · exact hrest (.inl h)
        · rcases mem_cons.mp h with rfl | h
          · exact ⟨task, _, by simp, rfl, .inr ⟨e, rfl⟩⟩
          · exact hrest (.inr h)
      | fulfilled o =>
        rw [add] at h
        split at h <;> exact hrest h

end BatchSummary

/-! ## What the pool and the hook hear -/

/-- A hook that prints some lines for each task that it hears of. -/
def Tells (hook : Batch.Hook (StateM World))
    (lines : Task → Except TaskError FileOutcome → List Line) : Prop :=
  ∀ task outcome w, ((hook task outcome).run w).2 =
    { w with printed := w.printed ++ lines task outcome }

/-- What is said of a task when it has ended. -/
def Batch.said (b : Batch) (lines : Task → Except TaskError FileOutcome → List Line) (i : Nat) :
    List Line :=
  match b.tasks[i]?, b.outcome? i with
  | some task, some outcome => lines task outcome
  | _, _ => []

/-- The tasks that have ended in some events, in the order of the events. -/
def told (events : List (PoolEvent FileOutcome TaskError)) : List Nat :=
  (events.filterMap PoolEvent.ended?).map Prod.fst

/-- A task that has come to its end, or goes on. -/
def Live (task : Task) (stage : Stage) : Prop :=
  (∃ outcome, stage = .finished outcome) ∨ ∃ action, task.action? stage = some action

variable {task : Task} {stage : Stage} {action : FileAction} {i : Nat} {β : Type}

theorem live_advance (haction : task.action? stage = some action) (reply : FileReply)
    (supply : Supply) : Live task (task.advance stage reply supply) := by
  have hleads := task.advance_leads haction reply supply
  generalize task.advance stage reply supply = next at hleads
  cases hleads with
  | failed | unwritten | written => exact .inl ⟨_, rfl⟩
  | making harchive =>
    obtain ⟨a, ha⟩ := Option.isSome_iff_exists.mp harchive
    exact .inr ⟨_, by rw [Task.action?, ha]; rfl⟩
  | copying | recording =>
    obtain ⟨a, ha, _⟩ := Option.bind_eq_some_iff.mp haction
    exact .inr ⟨_, by rw [Task.action?, ha]; rfl⟩
  | _ => exact .inr ⟨_, rfl⟩

/-- What the pool knows of the tasks, and what has been printed. -/
structure Heard (p₀ : Pool FileOutcome TaskError)
    (lines : Task → Except TaskError FileOutcome → List Line) (before : List Line)
    (events : List (PoolEvent FileOutcome TaskError)) (b : Batch) (w : World) : Prop where
  kept : Pool.Kept p₀ events b.pool
  tasks : b.tasks.length = p₀.size
  stages : b.stages.length = p₀.size
  live : ∀ (i : Nat) task stage, b.tasks[i]? = some task →
    b.stages[i]? = some stage → Live task stage
  ends : ∀ i st, .finish i st ∈ events →
    ∃ outcome, b.outcome? i = some outcome ∧ st = settlementOf outcome
  untouched : ∀ (i : Nat) stage, b.stages[i]? = some stage → i ∉ b.pool.started → stage = .reading
  printed : w.printed = before ++ (told events).flatMap (b.said lines)

variable {hook : Batch.Hook (StateM World)}
  {lines : Task → Except TaskError FileOutcome → List Line}
  {p₀ : Pool FileOutcome TaskError} {before : List Line}
  {events : List (PoolEvent FileOutcome TaskError)} {b b' : Batch} {w w' : World}
  {outcome : Except TaskError FileOutcome} {i : Nat}

theorem Tells.prints (h : Tells hook lines) : Prints hook := by
  intro task outcome w
  rw [h task outcome w]
  exact ⟨rfl, rfl, rfl⟩

theorem told_append (events more : List (PoolEvent FileOutcome TaskError)) :
    told (events ++ more) = told events ++ told more := by
  rw [told, filterMap_append, map_append, told, told]

theorem tell_said (hhook : Tells hook lines) (b : Batch) (i : Nat) (w : World) :
    ∃ b₁, (b₁ = b ∨ b₁ = b.abort) ∧
      (b.tell hook i).run w = (b₁, { w with printed := w.printed ++ b.said lines i }) := by
  unfold Batch.tell Batch.said
  cases b.tasks[i]? with
  | none => exact ⟨b, .inl rfl, by rw [append_nil]; rfl⟩
  | some task =>
    cases b.outcome? i with
    | none => exact ⟨b, .inl rfl, by rw [append_nil]; rfl⟩
    | some outcome =>
      have hsaid := hhook task outcome w
      dsimp only
      rw [StateT.run_bind]
      generalize (hook task outcome).run w = r at hsaid
      obtain ⟨stops, w'⟩ := r
      subst hsaid
      cases stops with
      | true => exact ⟨b.abort, .inr rfl, rfl⟩
      | false => exact ⟨b, .inl rfl, rfl⟩

theorem next_printed (w : World) (directory : Text) (action : FileAction) :
    (w.next directory action).printed = w.printed := by
  rw [World.next, World.perform]
  dsimp only
  split <;> rfl

namespace Heard

variable (h : Heard p₀ lines before events b w)

include h

theorem notMem_told (hrunning : b.pool.isRunning i = true) : i ∉ told events := by
  intro hi
  obtain ⟨⟨_, st⟩, hst, rfl⟩ := mem_map.mp hi
  exact (h.kept.isRunning_iff_not_ended.mp hrunning).2 st (PoolEvent.mem_ended.mp hst)

theorem withStage {task : Task} {stage : Stage} (hrunning : b.pool.isRunning i = true)
    (htask : b.tasks[i]? = some task) (hlive : Live task stage)
    (hprinted : w'.printed = w.printed) :
    Heard p₀ lines before events (b.withStage i stage) w' := by
  have hothers : ∀ j, j ≠ i → (b.withStage i stage).outcome? j = b.outcome? j := by
    intro j hj
    rw [Batch.outcome?, Batch.withStage, getElem?_set_ne hj.symm, Batch.outcome?]
  refine ⟨h.kept, h.tasks, by rw [Batch.withStage, length_set]; exact h.stages,
    fun j task' stage' htask' hstage' => ?_, fun j st hst => ?_, fun j stage' hstage' hj => ?_, ?_⟩
  · rcases Batch.withStage_cases hstage' with ⟨rfl, rfl⟩ | ⟨_, hbefore⟩
    · cases htask.symm.trans htask'
      exact hlive
    · exact h.live j task' stage' htask' hbefore
  · have hne : j ≠ i := by
      rintro rfl
      exact (h.kept.isRunning_iff_not_ended.mp hrunning).2 st hst
    rw [hothers j hne]
    exact h.ends j st hst
  · have hne : j ≠ i := by
      rintro rfl
      exact hj (h.kept.isRunning_iff_not_ended.mp hrunning).1
    rw [Batch.withStage, getElem?_set_ne hne.symm] at hstage'
    exact h.untouched j stage' hstage' hj
  · rw [hprinted, h.printed]
    congr 1
    refine flatMap_congr fun j hj => ?_
    have hne : j ≠ i := by
      rintro rfl
      exact h.notMem_told hrunning hj
    rw [Batch.said, Batch.said, hothers j hne]
    rfl

theorem resume (worker : Nat) :
    Heard p₀ lines before events { b with pool := b.pool.resume worker } w where
  kept := h.kept.resume worker
  tasks := h.tasks
  stages := h.stages
  live := h.live
  ends := h.ends
  untouched i stage hstage hi := by
    obtain ⟨new, hnew⟩ := b.pool.started_resume worker
    refine h.untouched i stage hstage fun hmem => hi ?_
    rw [hnew]
    exact mem_append_left new hmem
  printed := h.printed

theorem abort : Heard p₀ lines before (events ++ [.abort]) b.abort w where
  kept := h.kept.aborting
  tasks := h.tasks
  stages := h.stages
  live := h.live
  ends i st hst := h.ends i st (by simpa using hst)
  untouched := h.untouched
  printed := by
    have hnone : told [.abort] = [] := rfl
    rw [told_append, hnone, append_nil]
    exact h.printed

theorem finish (houtcome : b.outcome? i = some outcome)
    (hrunning : b.pool.isRunning i = true) (hprinted : w'.printed = w.printed ++ b.said lines i) :
    Heard p₀ lines before (events ++ [.finish i (settlementOf outcome)])
      { b with pool := b.pool.finish i (settlementOf outcome) } w' where
  kept := h.kept.finish hrunning _
  tasks := h.tasks
  stages := h.stages
  live := h.live
  ends j st hst := by
    rcases mem_append.mp hst with hst | hst
    · exact h.ends j st hst
    · cases mem_singleton.mp hst
      exact ⟨outcome, houtcome, rfl⟩
  untouched j stage hstage hj := by
    refine h.untouched j stage hstage fun hmem => hj ?_
    rw [Pool.finish]
    split <;> exact hmem
  printed := by
    rw [told_append, flatMap_append, hprinted, h.printed, append_assoc]
    congr 2
    exact (append_nil _).symm

/-- **A move**: the pool hears of a task that has ended when the hook does. -/
theorem move (p : Premises) (hhook : Tells hook lines) (move : BatchMove) :
    ∃ more, Heard p₀ lines before (events ++ more) ((b.move p.host hook move).run w).1
      ((b.move p.host hook move).run w).2 := by
  have hnothing : ∃ more, Heard p₀ lines before (events ++ more) b w := ⟨[], by rwa [append_nil]⟩
  cases move with
  | resume worker =>
    refine ⟨[], ?_⟩
    rw [append_nil]
    exact h.resume worker
  | abort => exact ⟨_, h.abort⟩
  | act index =>
    rw [Batch.move]
    rcases act_cases p b index w with ⟨_, _, hsame⟩ | ⟨task, stage, action, hacts⟩
    · rwa [hsame]
    · rw [hacts.run]
      exact ⟨[], by
        rw [append_nil]
        exact h.withStage hacts.running hacts.tasked (live_advance hacts.asks ..)
          (next_printed ..)⟩
  | finish index =>
    rw [Batch.move, Batch.finish]
    cases houtcome : b.outcome? index with
    | none => exact hnothing
    | some outcome =>
      dsimp only
      -- a task that does not run any more is not told of again
      by_cases hrunning : b.pool.isRunning index = true
      · rw [if_pos hrunning, StateT.run_bind]
        obtain ⟨b₁, hb₁, htell⟩ := tell_said hhook b index w
        rw [htell]
        rcases hb₁ with rfl | rfl
        · exact ⟨_, h.finish houtcome hrunning rfl⟩
        · -- the hook asks to abort, which the pool hears before the end of the task
          refine ⟨[.abort, .finish index (settlementOf outcome)], ?_⟩
          rw [← singleton_append, ← append_assoc]
          exact h.abort.finish houtcome hrunning rfl
      · rwa [if_neg hrunning]

theorem moveAll (p : Premises) (hhook : Tells hook lines) (moves : List BatchMove) :
    ∃ more, Heard p₀ lines before (events ++ more) ((Batch.moveAll p.host hook b moves).run w).1
      ((Batch.moveAll p.host hook b moves).run w).2 := by
  induction moves generalizing events b w with
  | nil => exact ⟨[], by rw [append_nil]; exact h⟩
  | cons move moves ih =>
    obtain ⟨more, hmove⟩ := h.move p hhook move
    obtain ⟨rest, hrest⟩ := ih hmove
    exact ⟨more ++ rest, by rw [← append_assoc]; exact hrest⟩

end Heard

theorem heard_start (files : List Text) (options : BatchOptions) (directory : Text)
    (parse : Text → Tree) (aborted : Bool)
    (lines : Task → Except TaskError FileOutcome → List Line) (w : World) :
    Heard (Pool.waiting options.concurrency files.length options.failFast aborted) lines
      w.printed [] (Batch.start files options directory parse aborted) w := by
  refine ⟨kept_start options.concurrency files.length options.failFast aborted, length_map ..,
    length_map .., fun i task stage _ hstage => ?_, fun i st hst => absurd hst (not_mem_nil),
    fun i stage hstage _ => reading_of_start hstage, (append_nil _).symm⟩
  obtain rfl := reading_of_start hstage
  exact .inr ⟨_, rfl⟩

/-- **What became of a file** in a batch that has come to its end: its task was never started, or it
ended and the pool knows how. -/
theorem Heard.outcome_cases (h : Heard p₀ lines before events b w)
    (hfinished : b.pool.isFinished = true) (hi : i < p₀.size) :
    b.pool.outcomes[i]? = some .skipped ∧ i ∉ b.pool.started ∨
      ∃ outcome, b.pool.outcomes[i]? = some (.settled (settlementOf outcome)) ∧
        b.outcome? i = some outcome := by
  have hget : b.pool.outcomes[i]? = some ((b.pool.settlement? i).elim .skipped .settled) :=
    getElem?_outcomes (by rw [h.kept.size]; exact hi)
  cases hst : b.pool.settlement? i with
  | none =>
    rw [hst] at hget
    refine .inl ⟨hget, fun hstarted => ?_⟩
    obtain ⟨st, hended⟩ := (h.kept.mem_started_iff hfinished).mp hstarted
    rw [(h.kept.settlement?_iff hfinished).mpr hended] at hst
    cases hst
  | some st =>
    rw [hst] at hget
    obtain ⟨outcome, houtcome, rfl⟩ := h.ends i st ((h.kept.settlement?_iff hfinished).mp hst)
    exact .inr ⟨outcome, hget, houtcome⟩

theorem stage_of_outcome {outcomes : List (Except TaskError FileOutcome)}
    (hstages : b.stages = outcomes.map .finished)
    (hget : outcomes[i]? = some outcome) : b.stages[i]? = some (.finished outcome) := by
  rw [hstages, getElem?_map, hget]
  rfl

/-- **If nothing has stopped a batch**, all of its tasks have ended, and the pool knows how. -/
theorem Heard.outcomes (h : Heard p₀ lines before events b w) (hfinished : b.pool.isFinished = true)
    (hpos : 0 < p₀.workers.length) (hstop : b.pool.stopped = false) :
    ∃ outcomes : List (Except TaskError FileOutcome),
      b.stages = outcomes.map .finished ∧ outcomes.length = p₀.size ∧
      b.pool.outcomes = outcomes.map fun o => .settled (settlementOf o) := by
  have hstarted := h.kept.started_eq_range hfinished hstop hpos
  -- all items have been started, so none was skipped
  have hsettled : ∀ i, i < p₀.size → ∃ outcome,
      b.pool.outcomes[i]? = some (.settled (settlementOf outcome)) ∧
        b.outcome? i = some outcome := by
    intro i hi
    rcases h.outcome_cases hfinished hi with ⟨_, hnot⟩ | hended
    · rw [hstarted, List.mem_range] at hnot
      exact absurd hi hnot
    · exact hended
  have hfinal : b.stages ∈ Set.range (map Stage.finished) := by
    rw [Set.range_list_map]
    intro stage hmem
    obtain ⟨i, hstage⟩ := mem_iff_getElem?.mp hmem
    obtain ⟨outcome, _, hended⟩ := hsettled i (h.stages ▸ (List.getElem?_eq_some_iff.mp hstage).1)
    rw [Batch.outcome?, hstage] at hended
    cases stage with
    | finished outcome' => exact ⟨outcome', rfl⟩
    | _ => cases hended
  obtain ⟨outcomes, houtcomes⟩ := hfinal
  have hlength : outcomes.length = p₀.size := by
    rw [← h.stages, ← houtcomes, length_map]
  refine ⟨outcomes, houtcomes.symm, hlength, ext_getElem? fun i => ?_⟩
  rw [getElem?_map]
  cases hget : outcomes[i]? with
  | none =>
    have hi := List.getElem?_eq_none_iff.mp hget
    refine getElem?_eq_none ?_
    rwa [Pool.outcomes, length_map, length_range, h.kept.size, ← hlength]
  | some outcome =>
    obtain ⟨outcome', hknown, hended⟩ :=
      hsettled i (hlength ▸ (List.getElem?_eq_some_iff.mp hget).1)
    rw [Batch.outcome?, ← houtcomes, getElem?_map, hget] at hended
    cases hended
    exact hknown

theorem Heard.told_perm (h : Heard p₀ lines before events b w)
    (hfinished : b.pool.isFinished = true) : (told events).Perm b.pool.started := by
  have hperm := h.kept.started_perm
  rw [busyOn_eq_nil hfinished, nil_append] at hperm
  exact hperm.symm

/-! ## Progress -/

/-- What the members of a list come to together. -/
def total {β : Type} (f : β → Nat) (l : List β) : Nat := l.foldr (fun x n => f x + n) 0

theorem total_append (f : β → Nat) (l l' : List β) :
    total f (l ++ l') = total f l + total f l' := by
  induction l with
  | nil => exact (Nat.zero_add _).symm
  | cons x l ih =>
    change f x + total f (l ++ l') = f x + total f l + total f l'
    rw [ih, Nat.add_assoc]

theorem total_set (f : β → Nat) {l : List β} {k : Nat} {x : β} (h : l[k]? = some x) (y : β) :
    total f (l.set k y) + f x = total f l + f y := by
  obtain ⟨before, after, rfl, hset⟩ := set_split h
  rw [hset, total_append, total_append]
  change total f before + (f y + total f after) + f x = total f before + (f x + total f after) + f y
  omega

/-- What a worker has still to do for the item that it is on, and to go on. -/
def Worker.duty : Worker α ε → Nat
  | .busy _ => 2
  | .fresh | .back _ _ => 1
  | .gone => 0

/-- What is still to be done for the items of a pool. -/
def Pool.duty (p : Pool α ε) : Nat := total Worker.duty p.workers + 2 * (p.size - p.next)

/-- How many actions the tasks of a batch can still carry out. -/
def Batch.left (b : Batch) : Nat := total (fun stage => 8 - Scene.rank stage) b.stages

/-- What is still to be done in a batch. -/
def Batch.duty (b : Batch) : Nat := b.left + b.pool.duty

namespace Pool

variable {p : Pool α ε} {k : Nat} {worker : Worker α ε}

theorem duty_take (hworker : p.workers[k]? = some worker) (h : worker.duty = 1) :
    (p.take k).duty < p.duty := by
  have hgone := total_set Worker.duty hworker .gone
  have hbusy := total_set Worker.duty hworker (.busy p.next)
  rw [h] at hgone hbusy
  dsimp only [Worker.duty] at hgone hbusy
  rw [take]
  unfold duty
  split
  · dsimp only [put]
    omega
  · split <;> dsimp only [put] <;> omega

theorem duty_resume (h : p.allows (.resume k) = true) : (p.resume k).duty < p.duty := by
  rcases p.resume_cases k with ⟨_, hidle⟩ | ⟨hw, hgoes⟩ | ⟨i, st, hw, hgoes⟩
  · cases hidle.symm.trans h
  · rw [hgoes]
    exact duty_take hw rfl
  · rw [hgoes]
    exact duty_take (p := p.note i st) hw rfl

theorem duty_finish {st : Settlement α ε} (h : p.isRunning k = true) :
    (p.finish k st).duty < p.duty := by
  obtain ⟨w, hw, hbusy⟩ := workerOn?_spec h
  have hset := total_set Worker.duty hbusy (.back k st)
  dsimp only [Worker.duty] at hset
  rw [finish, hw]
  unfold duty
  dsimp only [put]
  omega

end Pool

theorem Batch.left_withStage (hstage : b.stages[i]? = some stage)
    (haction : task.action? stage = some action) (reply : FileReply) (supply : Supply) :
    (b.withStage i (task.advance stage reply supply)).left < b.left := by
  have hrank := Scene.rank_advance haction reply supply
  have hle := Scene.rank_le (task.advance stage reply supply)
  have hsum :=
    total_set (fun stage => 8 - Scene.rank stage) hstage (task.advance stage reply supply)
  unfold left withStage
  dsimp only at hsum ⊢
  omega

/-- **An action** of a task that has not come to its end brings a batch nearer to its end. -/
theorem Batch.left_act (p : Premises) (h : b.Acts i task stage action) :
    ∃ stage', ((b.act p.host i).run w).1 = b.withStage i stage' ∧
      (b.withStage i stage').left < b.left := by
  rw [h.run]
  exact ⟨_, rfl, Batch.left_withStage h.staged h.asks _ _⟩

theorem Heard.task_of_running (h : Heard p₀ lines before events b w)
    (hrunning : b.pool.isRunning i = true) :
    ∃ task stage, b.tasks[i]? = some task ∧ b.stages[i]? = some stage ∧ Live task stage := by
  have hi : i < p₀.size := by
    have hstarted := (h.kept.isRunning_iff_not_ended.mp hrunning).1
    rw [h.kept.inOrder, List.mem_range, h.kept.size] at hstarted
    omega
  obtain ⟨task, htask⟩ : ∃ task, b.tasks[i]? = some task :=
    ⟨_, getElem?_eq_getElem (by rw [h.tasks]; exact hi)⟩
  obtain ⟨stage, hstage⟩ : ∃ stage, b.stages[i]? = some stage :=
    ⟨_, getElem?_eq_getElem (by rw [h.stages]; exact hi)⟩
  exact ⟨task, stage, htask, hstage, h.live i task stage htask hstage⟩

/-- **A batch that has not come to its end can go on**, and is nearer to the end then. -/
theorem Heard.progress (p : Premises) (hhook : Tells hook lines)
    (h : Heard p₀ lines before events b w) (hunfinished : b.pool.isFinished = false) :
    ∃ move, ((b.move p.host hook move).run w).1.duty < b.duty := by
  by_cases hpending : b.pool.isPending = true
  · obtain ⟨worker, hmem, hworker⟩ := any_eq_true.mp hpending
    obtain ⟨k, hk⟩ := mem_iff_getElem?.mp hmem
    refine ⟨.resume k, Nat.add_lt_add_left (duty_resume ?_) _⟩
    rwa [Pool.allows, hk]
  · obtain ⟨i, hrunning⟩ : ∃ i, b.pool.isRunning i = true := by
      by_contra hnone
      rw [isFinished_iff.mpr ⟨Bool.eq_false_iff.mpr hpending, fun i =>
        Bool.eq_false_iff.mpr fun hi => hnone ⟨i, hi⟩⟩] at hunfinished
      cases hunfinished
    -- a running task has its next action, or can be told of
    obtain ⟨task, stage, htask, hstage, hlive⟩ := h.task_of_running hrunning
    rcases hlive with ⟨outcome, rfl⟩ | ⟨action, haction⟩
    · refine ⟨.finish i, ?_⟩
      have houtcome : b.outcome? i = some outcome := by rw [Batch.outcome?, hstage]; rfl
      obtain ⟨b₁, hb₁, htell⟩ := tell_said hhook b i w
      rw [Batch.move, Batch.finish, houtcome]
      dsimp only
      rw [if_pos hrunning, StateT.run_bind, htell]
      rcases hb₁ with rfl | rfl
      · exact Nat.add_lt_add_left (duty_finish hrunning) _
      · exact Nat.add_lt_add_left (duty_finish (p := b.pool.abort) hrunning) _
    · obtain ⟨stage', hact, hless⟩ :=
        Batch.left_act (w := w) p ⟨hrunning, htask, hstage, haction⟩
      refine ⟨.act i, ?_⟩
      rw [Batch.move, hact]
      exact Nat.add_lt_add_right hless _

theorem Heard.finishes (p : Premises) (hhook : Tells hook lines)
    (h : Heard p₀ lines before events b w) :
    ∃ moves, ((Batch.moveAll p.host hook b moves).run w).1.pool.isFinished = true := by
  induction hduty : b.duty using Nat.strongRecOn generalizing events b w with
  | _ duty ih =>
    cases hfinished : b.pool.isFinished with
    | true => exact ⟨[], hfinished⟩
    | false =>
      obtain ⟨move, hless⟩ := h.progress p hhook hfinished
      obtain ⟨more, hmove⟩ := h.move p hhook move
      obtain ⟨moves, hmoves⟩ := ih _ (hduty ▸ hless) hmove rfl
      exact ⟨move :: moves, hmoves⟩

end Posonly
