import Posonly.Proofs.Batch.Ending

/-!
# Batches that are run to their end

A batch is run by letting its tasks take turns. What that does is a sequence of moves, which leads
to the end of the batch (`run_moves`): whoever has a turn is running and has something to do
(`Driven`), and no task has more than `Task.longest` actions.
-/

open List

namespace Posonly

variable {hook : Batch.Hook (StateM World)}
  {lines : Task → Except TaskError FileOutcome → List Line}
  {p₀ : Pool FileOutcome TaskError} {before : List Line}
  {events : List (PoolEvent FileOutcome TaskError)} {b : Batch} {w : World} {waiting : List Nat}
  {i : Nat} {outcome : Except TaskError FileOutcome}

/-- **A running task ends** and its worker goes on: the other running tasks are still running, and
so are those that have been started now. -/
theorem Pool.Kept.settle {p p₁ : Pool FileOutcome TaskError} (h : Kept p₁ events p)
    (hrunning : p.isRunning i = true) (st : Settlement FileOutcome TaskError) :
    ∃ new, (p.settle i st).started = p.started ++ new ∧ (∀ j ∈ new, j ∉ p.started) ∧ new.Nodup ∧
      ∀ j, (p.settle i st).isRunning j = true ↔ p.isRunning j = true ∧ j ≠ i ∨ j ∈ new := by
  obtain ⟨w, _, hfinish, hsettle⟩ := finish_eq hrunning st
  have hkept := h.settling hrunning st
  obtain ⟨new, hnew⟩ := (p.finish i st).started_resume w
  rw [← hsettle, hfinish] at hnew
  have hnodup := hkept.started_nodup
  rw [hnew] at hnodup
  have hapart : ∀ j ∈ new, j ∉ p.started := fun j hj hold => disjoint_of_nodup_append hnodup hold hj
  -- what has ended was started before, so it is none of the new items
  have hended : ∀ j s, .finish j s ∈ events → j ∈ p.started := by
    intro j s hs
    rw [h.started_perm.mem_iff]
    exact mem_append_right _ (mem_map.mpr ⟨_, PoolEvent.mem_ended.mpr hs, rfl⟩)
  refine ⟨new, hnew, hapart, hnodup.of_append_right, fun j => ?_⟩
  have hevents : ∀ s, .finish j s ∈ events ++ [.finish i st] ↔
      .finish j s ∈ events ∨ j = i ∧ s = st := by
    intro s
    simp
  rw [hkept.isRunning_iff_not_ended, hnew, h.isRunning_iff_not_ended]
  change j ∈ p.started ++ new ∧ _ ↔ _
  constructor
  · rintro ⟨hj, hnot⟩
    rcases mem_append.mp hj with hold | hj
    · refine .inl ⟨⟨hold, fun s hs => hnot s ((hevents s).mpr (.inl hs))⟩, ?_⟩
      rintro rfl
      exact hnot st ((hevents st).mpr (.inr ⟨rfl, rfl⟩))
    · exact .inr hj
  · rintro (⟨⟨hold, hnot⟩, hne⟩ | hj)
    · refine ⟨mem_append_left _ hold, fun s hs => ?_⟩
      rcases (hevents s).mp hs with hs | ⟨heq, _⟩
      · exact hnot s hs
      · exact hne heq
    · refine ⟨mem_append_right _ hj, fun s hs => hapart j hj ?_⟩
      rcases (hevents s).mp hs with hs | ⟨rfl, _⟩
      · exact hended j s hs
      · exact (h.isRunning_iff_not_ended.mp hrunning).1

/-- A batch whose tasks wait for their turns: those that are running, each with something to do. -/
structure Driven (waiting : List Nat) (b : Batch) : Prop where
  nodup : waiting.Nodup
  running : ∀ i, i ∈ waiting ↔ b.pool.isRunning i = true
  going : ∀ i ∈ waiting, b.outcome? i = none
  idle : b.pool.isPending = false

namespace Driven

theorem isFinished (h : Driven [] b) : b.pool.isFinished = true := by
  refine Pool.isFinished_iff.mpr ⟨h.idle, fun i => Bool.eq_false_iff.mpr fun hi => ?_⟩
  cases (h.running i).mpr hi

variable {stage : Stage}

theorem withStage (h : Driven (i :: waiting) b)
    (hgoing : (b.withStage i stage).outcome? i = none) :
    Driven (waiting ++ [i]) (b.withStage i stage) where
  nodup := (perm_append_singleton i waiting).nodup_iff.mpr h.nodup
  running j := by
    rw [(perm_append_singleton i waiting).mem_iff]
    exact h.running j
  going j hj := by
    by_cases hji : j = i
    · rwa [hji]
    · rw [Batch.outcome?, Batch.withStage, getElem?_set_ne (Ne.symm hji)]
      exact h.going j ((perm_append_singleton i waiting).mem_iff.mp hj)
  idle := h.idle

/-- A task that has ended has no more turns, and those that are started then have. -/
theorem settle (h : Driven (i :: waiting) b)
    (hheard : Heard p₀ lines before events (b.withStage i stage) w)
    (b₁ : Batch) (hb₁ : b₁ = b.withStage i stage ∨ b₁ = (b.withStage i stage).abort)
    (st : Settlement FileOutcome TaskError) :
    Driven (waiting ++ ({ b₁ with pool := b₁.pool.settle i st } : Batch).startedSince
      b₁.pool.started.length) { b₁ with pool := b₁.pool.settle i st } := by
  obtain ⟨hi, hnodup⟩ := nodup_cons.mp h.nodup
  -- that the hook asks for an abort changes nothing for the tasks under way
  obtain ⟨events', hheard'⟩ : ∃ events', Heard p₀ lines before events' b₁ w := by
    rcases hb₁ with rfl | rfl
    · exact ⟨events, hheard⟩
    · exact ⟨_, hheard.abort⟩
  have hsame : ∀ j, b₁.pool.isRunning j = b.pool.isRunning j := by
    intro j
    rcases hb₁ with rfl | rfl <;> rfl
  have hothers : ∀ j, j ≠ i → b₁.outcome? j = b.outcome? j := by
    intro j hj
    rcases hb₁ with rfl | rfl <;>
      exact congrArg (fun stage => Option.bind stage Stage.outcome?) (getElem?_set_ne (Ne.symm hj))
  have hrunning : b₁.pool.isRunning i = true := by
    rw [hsame]
    exact (h.running i).mp (by simp)
  have hidle : b₁.pool.isPending = false := by
    rcases hb₁ with rfl | rfl <;> exact h.idle
  obtain ⟨new, hnew, hapart, hdistinct, hafter⟩ := hheard'.kept.settle hrunning st
  have hsince :
      ({ b₁ with pool := b₁.pool.settle i st } : Batch).startedSince b₁.pool.started.length =
      new := by
    rw [Batch.startedSince, hnew]
    exact drop_left
  rw [hsince]
  have hold : ∀ j ∈ waiting, j ∈ b₁.pool.started := by
    intro j hj
    refine (hheard'.kept.isRunning_iff_not_ended.mp ?_).1
    rw [hsame]
    exact (h.running j).mp (mem_cons_of_mem i hj)
  refine ⟨nodup_append'.mpr ⟨hnodup, hdistinct, fun j hj hj' => hapart j hj' (hold j hj)⟩,
    fun j => ?_, fun j hj => ?_, Pool.isPending_settle hrunning hidle⟩
  · rw [hafter j, hsame, ← h.running j, mem_append, mem_cons]
    refine or_congr_left ⟨fun hj => ⟨.inr hj, ?_⟩, fun ⟨hj, hne⟩ => hj.resolve_left hne⟩
    rintro rfl
    exact hi hj
  · change b₁.outcome? j = none
    rcases mem_append.mp hj with hj | hj
    · have hne : j ≠ i := by
        rintro rfl
        exact hi hj
      rw [hothers j hne]
      exact h.going j (mem_cons_of_mem i hj)
    · rw [Batch.outcome?]
      cases hstage : b₁.stages[j]? with
      | none => rfl
      | some stage' =>
        rw [hheard'.untouched j stage' hstage (hapart j hj)]
        rfl

end Driven

theorem Driven.act (p : Premises) (h : Driven (i :: waiting) b)
    (hheard : Heard p₀ lines before events b w) :
    ∃ stage, ((b.act p.host i).run w).1 = b.withStage i stage ∧
      (b.withStage i stage).left < b.left := by
  obtain ⟨task, stage, htask, hstage, hlive⟩ := hheard.task_of_running ((h.running i).mp (by simp))
  rcases hlive with ⟨outcome, rfl⟩ | ⟨action, haction⟩
  · have hgoing := h.going i (by simp)
    rw [Batch.outcome?, hstage] at hgoing
    cases hgoing
  · exact Batch.left_act p ⟨(h.running i).mp (by simp), htask, hstage, haction⟩

theorem tell_settle (p : Premises) (hhook : Tells hook lines)
    (houtcome : b.outcome? i = some outcome) (hrunning : b.pool.isRunning i = true) :
    ∃ b₁ w₁ worker, (b₁ = b ∨ b₁ = b.abort) ∧ (b.tell hook i).run w = (b₁, w₁) ∧
      b₁.settle i = { b₁ with pool := b₁.pool.settle i (settlementOf outcome) } ∧
      (Batch.moveAll p.host hook b [.finish i, .resume worker]).run w = (b₁.settle i, w₁) := by
  obtain ⟨b₁, hb₁, htell⟩ := tell_said hhook b i w
  generalize { w with printed := w.printed ++ b.said lines i } = w₁ at htell
  have hrunning₁ : b₁.pool.isRunning i = true := by rcases hb₁ with rfl | rfl <;> exact hrunning
  have houtcome₁ : b₁.outcome? i = some outcome := by rcases hb₁ with rfl | rfl <;> exact houtcome
  obtain ⟨worker, _, _, hsettle⟩ := Pool.finish_eq hrunning₁ (settlementOf outcome)
  have hpool : b₁.settle i = { b₁ with pool := b₁.pool.settle i (settlementOf outcome) } := by
    rw [Batch.settle, houtcome₁]
    exact if_pos hrunning₁
  refine ⟨b₁, w₁, worker, hb₁, htell, hpool, ?_⟩
  have hfinish : (b.finish hook i).run w =
      ({ b₁ with pool := b₁.pool.finish i (settlementOf outcome) }, w₁) := by
    rw [Batch.finish, houtcome]
    dsimp only
    rw [if_pos hrunning, StateT.run_bind, htell]
    rfl
  change (Batch.moveAll p.host hook ((b.finish hook i).run w).1 [.resume worker]).run
    ((b.finish hook i).run w).2 = _
  rw [hfinish, hpool, hsettle]
  rfl

theorem moveAll_append (p : Premises) (moves more : List BatchMove) :
    (Batch.moveAll p.host hook b (moves ++ more)).run w =
      (Batch.moveAll p.host hook ((Batch.moveAll p.host hook b moves).run w).1 more).run
        ((Batch.moveAll p.host hook b moves).run w).2 := by
  rw [Batch.moveAll, foldlM_append]
  rfl

section

variable {p : Premises} {n : Nat} {b₁ b₂ : Batch} {w₁ w₂ : World}

theorem drive_again (hact : (b.act p.host i).run w = (b₁, w₁)) (h : b₁.outcome? i = none) :
    (Batch.drive p.host hook (n + 1) (i :: waiting) b).run w =
      (Batch.drive p.host hook n (waiting ++ [i]) b₁).run w₁ := by
  rw [Batch.drive, StateT.run_bind, hact]
  dsimp only [Bind.bind, Id]
  rw [if_pos (by rw [h]; rfl)]

theorem drive_last
    (hact : (b.act p.host i).run w = (b₁, w₁)) (h : b₁.outcome? i = some outcome)
    (htell : (b₁.tell hook i).run w₁ = (b₂, w₂)) :
    (Batch.drive p.host hook (n + 1) (i :: waiting) b).run w =
      (Batch.drive p.host hook n (waiting ++ (b₂.settle i).startedSince b₁.pool.started.length)
        (b₂.settle i)).run w₂ := by
  rw [Batch.drive, StateT.run_bind, hact]
  dsimp only [Bind.bind, Id]
  rw [if_neg (by rw [h]; exact Bool.false_ne_true)]
  change (Batch.drive p.host hook n (waiting ++
      (((b₁.tell hook i).run w₁).1.settle i).startedSince b₁.pool.started.length)
    (((b₁.tell hook i).run w₁).1.settle i)).run ((b₁.tell hook i).run w₁).2 = _
  rw [htell]

end

/-- **A batch whose tasks take turns** makes some moves, which lead to its end. -/
theorem drive_moves (p : Premises) (hhook : Tells hook lines) (n : Nat)
    (hheard : Heard p₀ lines before events b w) (h : Driven waiting b) (hleft : b.left ≤ n) :
    ∃ moves, (Batch.drive p.host hook n waiting b).run w =
      (Batch.moveAll p.host hook b moves).run w ∧
      ((Batch.moveAll p.host hook b moves).run w).1.pool.isFinished = true := by
  -- `n` bounds the actions that are left: each turn takes one off
  induction n generalizing events waiting b w with
  | zero =>
    cases waiting with
    | nil => exact ⟨[], rfl, h.isFinished⟩
    | cons i waiting =>
      obtain ⟨_, _, hless⟩ := h.act p hheard
      omega
  | succ n ih =>
    cases waiting with
    | nil => exact ⟨[], rfl, h.isFinished⟩
    | cons i waiting =>
      obtain ⟨stage, hbatch, hless⟩ := h.act p hheard
      obtain ⟨more, hmove⟩ := hheard.move p hhook (.act i)
      rw [Batch.move] at hmove
      obtain ⟨w₁, hact⟩ : ∃ w₁, (b.act p.host i).run w = (b.withStage i stage, w₁) :=
        ⟨_, Prod.ext hbatch rfl⟩
      rw [hact] at hmove
      dsimp only at hmove
      have hfirst : (Batch.moveAll p.host hook b [.act i]).run w = (b.withStage i stage, w₁) := hact
      cases houtcome : (b.withStage i stage).outcome? i with
      | none =>
        obtain ⟨moves, hmoves, hfinished⟩ := ih hmove (h.withStage houtcome) (by omega)
        refine ⟨[.act i] ++ moves, ?_, ?_⟩
        · rw [drive_again hact houtcome, hmoves, moveAll_append, hfirst]
        · rwa [moveAll_append, hfirst]
      | some outcome =>
        -- the task has ended: it is told of, settled, and makes room for others
        have hrunning : (b.withStage i stage).pool.isRunning i = true := (h.running i).mp (by simp)
        obtain ⟨b₁, w₂, worker, hb₁, htell, hpool, hmoved⟩ :=
          tell_settle (w := w₁) p hhook houtcome hrunning
        obtain ⟨_, hrest⟩ := hmove.moveAll p hhook [.finish i, .resume worker]
        rw [hmoved] at hrest
        have hdriven := h.settle hmove b₁ hb₁ (settlementOf outcome)
        rw [← hpool] at hdriven
        have hsame : (b₁.settle i).left = (b.withStage i stage).left ∧
            b₁.pool.started = (b.withStage i stage).pool.started := by
          rw [hpool]
          rcases hb₁ with rfl | rfl <;> exact ⟨rfl, rfl⟩
        obtain ⟨moves, hmoves, hfinished⟩ := ih hrest hdriven (by dsimp only; omega)
        refine ⟨[.act i] ++ ([.finish i, .resume worker] ++ moves), ?_, ?_⟩
        · rw [drive_last hact houtcome htell, ← hsame.2, hmoves, moveAll_append, hfirst,
            moveAll_append, hmoved]
        · rwa [moveAll_append, hfirst, moveAll_append, hmoved]

theorem Batch.left_start (files : List Text) (options : BatchOptions) (directory : Text)
    (parse : Text → Tree) (aborted : Bool) :
    (start files options directory parse aborted).left = Task.longest * files.length := by
  change total (fun stage => 8 - Scene.rank stage) (files.map fun _ => Stage.reading) =
    8 * files.length
  induction files with
  | nil => rfl
  | cons file files ih =>
    change 8 + total (fun stage => 8 - Scene.rank stage) (files.map fun _ => Stage.reading) =
      8 * (files.length + 1)
    rw [ih]
    omega

/-- **The run of a batch** makes some moves, which lead to its end. -/
theorem run_moves (p : Premises) (hhook : Tells hook lines)
    (files : List Text) (options : BatchOptions) (aborted : Bool) (w : World) :
    ∃ moves, (Batch.run p.host hook files options aborted).run w =
        (Batch.moveAll p.host hook (.start files options p.directory p.parse aborted) moves).run w ∧
      ((Batch.moveAll p.host hook (.start files options p.directory p.parse aborted) moves).run
        w).1.pool.isFinished = true := by
  have hheard := heard_start files options p.directory p.parse aborted lines w
  have hdriven : Driven ((Batch.start files options p.directory p.parse aborted).startedSince 0)
      (.start files options p.directory p.parse aborted) := by
    refine ⟨hheard.kept.started_nodup, fun i => ?_, fun i _ => ?_, Pool.isPending_start ..⟩
    · rw [hheard.kept.isRunning_iff_not_ended]
      exact (and_iff_left fun _ => not_mem_nil).symm
    · rw [Batch.outcome?, Batch.start, getElem?_map]
      cases files[i]? <;> rfl
  have hleft := Batch.left_start files options p.directory p.parse aborted
  exact drive_moves p hhook _ hheard hdriven (Nat.le_of_eq hleft)

end Posonly
