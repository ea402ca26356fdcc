import Mathlib.Data.List.Induction
import Mathlib.Data.List.Nodup
import Mathlib.Data.List.Perm.Subperm
import Posonly.Pool

/-!
# What a pool starts, and when

The workers of a pool share the index of the next item and whether a task has failed, and each looks
at them only when it goes on. So what is known of a pool has to be said of its workers and of what
has happened at once (`Kept`): the items that were started are those that workers are on and those
that they have taken note of, and the tasks that have ended are those that workers have come back
from and those that they have taken note of. Everything is counted from these two.

If workers go on at once, a pool keeps to its schedule after every step. If they do not, then a task
has ended for the pool only when its worker goes on. Up to that the pool is one whose task still
runs (`awaiting`), so a run with delays is a run without them as far as its workers have gone on.
-/

open List

namespace Posonly

variable {α ε : Type} {steps : List (PoolStep α ε)} {s : Settlement α ε}

/-- The item that a worker has started and not taken note of yet. -/
def Worker.item? : Worker α ε → Option Nat
  | .busy index | .back index _ => some index
  | .fresh | .gone => none

/-- The item whose task a worker waits for. -/
def Worker.busyOn? : Worker α ε → Option Nat
  | .busy index => some index
  | .fresh | .back _ _ | .gone => none

/-- What a worker has yet to take note of. -/
def Worker.returned? : Worker α ε → Option (Nat × Settlement α ε)
  | .back index s => some (index, s)
  | .fresh | .busy _ | .gone => none

/-- The task that ends in an event, and how. -/
def PoolEvent.ended? : PoolEvent α ε → Option (Nat × Settlement α ε)
  | .finish index s => some (index, s)
  | .resume _ | .abort => none

/-- What happens in a step, apart from what workers do about it. -/
def PoolStep.event : PoolStep α ε → PoolEvent α ε
  | .settle index s => .finish index s
  | .abort => .abort

theorem Worker.isBusy_iff {worker : Worker α ε} {i : Nat} :
    worker.isBusy i = true ↔ worker = .busy i := by
  cases worker <;> simp [isBusy]

theorem Worker.isGone_iff {worker : Worker α ε} :
    worker.isGone = true ↔ worker.isPending = false ∧ ∀ i, worker ≠ .busy i := by
  cases worker <;> simp [isGone, isPending]

/-- What only one value gives is there if that value is. -/
theorem mem_filterMap_of_iff {β γ : Type} {f : β → Option γ} {l : List β} {x : β} {y : γ}
    (h : ∀ z, f z = some y ↔ z = x) : y ∈ l.filterMap f ↔ x ∈ l := by
  simp [mem_filterMap, h]

theorem PoolEvent.mem_ended {events : List (PoolEvent α ε)} {i : Nat} :
    (i, s) ∈ events.filterMap PoolEvent.ended? ↔ .finish i s ∈ events :=
  mem_filterMap_of_iff fun event => by cases event <;> simp [ended?]

theorem PoolStep.event_injective : Function.Injective (event : PoolStep α ε → PoolEvent α ε) := by
  intro step step' h
  cases step <;> cases step' <;> cases h <;> rfl

theorem PoolStep.mem_event {i : Nat} :
    .finish i s ∈ steps.map PoolStep.event ↔ .settle i s ∈ steps :=
  mem_map_of_injective event_injective (a := .settle i s)

/-- **What every step hands on** holds after all of them. -/
theorem foldlM_invariant {σ τ : Type} {f : σ → τ → Option σ} {P : List τ → σ → Prop} {y z : σ}
    (hstep : ∀ done x u v, P done u → f u x = some v → P (done ++ [x]) v) {xs : List τ} (h : P [] y)
    (hrun : xs.foldlM f y = some z) : P xs z := by
  induction xs using List.reverseRecOn generalizing z with
  | nil =>
    cases hrun
    exact h
  | append_singleton done x ih =>
    rw [foldlM_append] at hrun
    obtain ⟨u, hu, hlast⟩ := Option.bind_eq_some_iff.mp hrun
    obtain ⟨v, hv, hend⟩ := Option.bind_eq_some_iff.mp ((foldlM_cons ..).symm.trans hlast)
    cases hend
    exact hstep _ _ _ _ (ih hu) hv

namespace Pool

/-! ## One worker -/

variable {β : Type}

theorem set_split {l : List β} {k : Nat} {x : β} (h : l[k]? = some x) :
    ∃ before after, l = before ++ x :: after ∧ ∀ y, l.set k y = before ++ y :: after := by
  obtain ⟨hk, rfl⟩ := List.getElem?_eq_some_iff.mp h
  refine ⟨l.take k, l.drop (k + 1), ?_, fun y => set_eq_take_append_cons_drop.trans (if_pos hk)⟩
  rw [getElem_cons_drop, take_append_drop]

theorem filterMap_set_perm {β γ : Type} (f : β → Option γ) {l : List β} {k : Nat} {x : β}
    (h : l[k]? = some x) (y : β) :
    ((f y).toList ++ l.filterMap f).Perm ((f x).toList ++ (l.set k y).filterMap f) := by
  obtain ⟨before, after, rfl, hset⟩ := set_split h
  have hone : ∀ z, (before ++ z :: after).filterMap f =
      before.filterMap f ++ ((f z).toList ++ after.filterMap f) := by
    intro z
    rw [filterMap_append, filterMap_cons]
    cases f z <;> rfl
  rw [hset, hone, hone]
  have hmove := fun z => perm_append_comm_assoc (f z).toList (before.filterMap f)
    (after.filterMap f)
  exact ((hmove x).symm.append_left _).trans
    ((perm_append_comm_assoc ..).trans ((hmove y).append_left _))

variable {p p' p₀ : Pool α ε} {events : List (PoolEvent α ε)} {event : PoolEvent α ε}
  {steps before after : List (PoolStep α ε)} {step : PoolStep α ε} {i k w : Nat}
  {s : Settlement α ε} {worker : Worker α ε} {workers : List (Worker α ε)}

theorem isRunning_iff : p.isRunning i = true ↔ .busy i ∈ p.workers := by
  simp [isRunning, Worker.isBusy_iff]

theorem workerOn?_spec (h : p.isRunning i = true) :
    ∃ w, p.workerOn? i = some w ∧ p.workers[w]? = some (.busy i) := by
  rw [isRunning, ← findIdx?_isSome, Option.isSome_iff_exists] at h
  obtain ⟨w, hw⟩ := h
  obtain ⟨hlt, hbusy, _⟩ := findIdx?_eq_some_iff_getElem.mp hw
  exact ⟨w, hw, by rw [getElem?_eq_getElem hlt, Worker.isBusy_iff.mp hbusy]⟩

/-- **When a worker goes on**, it was to begin or has come back from its task. -/
theorem resume_cases (p : Pool α ε) (w : Nat) :
    (p.resume w = p ∧ p.allows (.resume w) = false) ∨
      p.workers[w]? = some .fresh ∧ p.resume w = p.take w ∨
      ∃ i s, p.workers[w]? = some (.back i s) ∧ p.resume w = (p.note i s).take w := by
  rw [resume]
  split
  · rename_i hw
    exact .inr (.inl ⟨hw, rfl⟩)
  · rename_i i s hw
    exact .inr (.inr ⟨i, s, hw, rfl⟩)
  · rename_i hfresh hback
    refine .inl ⟨rfl, ?_⟩
    rw [allows]
    cases hw : p.workers[w]? with
    | none => rfl
    | some worker =>
      cases worker with
      | fresh => exact absurd hw hfresh
      | back i s => exact absurd hw (hback i s)
      | busy _ | gone => rfl

/-- Where a worker comes from is forgotten when it goes on. -/
theorem take_put (p : Pool α ε) (w : Nat) (worker : Worker α ε) :
    (p.put w worker).take w = p.take w := by
  simp only [take, put, set_set]
  rfl

theorem finish_eq (h : p.isRunning i = true) (s : Settlement α ε) :
    ∃ w, p.workers[w]? = some (.busy i) ∧ p.finish i s = p.put w (.back i s) ∧
      p.settle i s = (p.finish i s).resume w := by
  obtain ⟨w, hw, hbusy⟩ := workerOn?_spec h
  exact ⟨w, hbusy, by rw [finish, hw], by rw [settle, finish, hw]⟩

/-! ## What holds after any events -/

/-- What is known of a pool after some events. -/
structure Kept (p₀ : Pool α ε) (events : List (PoolEvent α ε)) (p : Pool α ε) : Prop where
  size : p.size = p₀.size
  failFast : p.failFast = p₀.failFast
  workers : p.workers.length = p₀.workers.length
  aborted : p.aborted = true ↔ p₀.aborted = true ∨ .abort ∈ events
  failed : p.failed = true ↔ ∃ i r, (i, .rejected r) ∈ p.noted
  /-- Items are started in their order. -/
  inOrder : p.started = range (min p.size p.next)
  /-- What was started is under way or taken note of. -/
  started : (p.workers.filterMap Worker.item? ++ p.noted.map Prod.fst).Perm p.started
  /-- What has ended is to be taken note of or has been. -/
  ended : (p.workers.filterMap Worker.returned? ++ p.noted).Perm (events.filterMap PoolEvent.ended?)
  /-- A worker goes for a reason. -/
  gone : .gone ∈ p.workers → p.stopped = true ∨ p.size < p.next

section

variable (concurrency : Concurrency) (size : Nat) (failFast aborted : Bool)

theorem kept_waiting :
    Kept (waiting concurrency size failFast aborted : Pool α ε) []
      (waiting concurrency size failFast aborted) where
  size := rfl
  failFast := rfl
  workers := rfl
  aborted := by simp
  failed := by simp [waiting]
  inOrder := by simp [waiting]
  started := by
    simp [waiting, filterMap_replicate, Worker.item?]
  ended := by
    simp [waiting, filterMap_replicate, Worker.returned?]
  gone := by simp [waiting, mem_replicate]

theorem workers_pos :
    0 < (waiting concurrency size failFast aborted : Pool α ε).workers.length := by
  rw [waiting, length_replicate]
  cases concurrency <;> exact Nat.lt_of_lt_of_le Nat.one_pos (Nat.le_max_left ..)

end

namespace Kept

theorem aborting (h : Kept p₀ events p) : Kept p₀ (events ++ [.abort]) p.abort where
  __ := h
  aborted := by simp [abort]
  ended := by
    rw [filterMap_append]
    exact h.ended.trans (.of_eq (append_nil _).symm)
  gone hgone := by
    rcases h.gone hgone with _ | hnext
    · exact .inl (by simp [stopped, abort])
    · exact .inr hnext

theorem gone_of_put {worker : Worker α ε} (hne : worker ≠ .gone)
    (hgone : .gone ∈ (p.put w worker).workers) : .gone ∈ p.workers := by
  rcases mem_or_eq_of_mem_set hgone with hgone | heq
  · exact hgone
  · exact absurd heq.symm hne

theorem finishing (h : Kept p₀ events p) (hw : p.workers[w]? = some (.busy i)) :
    Kept p₀ (events ++ [.finish i s]) (p.put w (.back i s)) where
  __ := h
  workers := by rw [put, length_set]; exact h.workers
  aborted := by
    rw [put, mem_append, mem_singleton]
    simpa using h.aborted
  started := by
    have hsame := filterMap_set_perm Worker.item? hw (.back i s)
    exact (((perm_append_left_iff _).mp hsame).symm.append_right _).trans h.started
  ended := by
    have hmore := filterMap_set_perm Worker.returned? hw (.back i s)
    rw [filterMap_append]
    exact (hmore.symm.append_right _).trans
      ((h.ended.append_left [(i, s)]).trans perm_append_comm)
  gone hgone := h.gone (gone_of_put (by simp) hgone)

theorem stopped_note (i : Nat) (s : Settlement α ε) (h : p.stopped = true) :
    (p.note i s).stopped = true := by
  simp only [stopped, note, Bool.or_eq_true, Bool.and_eq_true] at h ⊢
  exact h.imp_right (And.imp_right .inl)

theorem perm_moved {l l' m : List β} {x : β} (h : l.Perm (x :: l')) :
    (l' ++ (m ++ [x])).Perm (l ++ m) := by
  rw [← append_assoc]
  exact (perm_append_singleton x _).trans (h.symm.append_right m)

theorem noting (h : Kept p₀ events p) (hw : p.workers[w]? = some (.back i s)) :
    Kept p₀ events ((p.note i s).put w .fresh) where
  __ := h
  workers := by rw [put, length_set]; exact h.workers
  failed := by
    simp only [put, note, Bool.or_eq_true, h.failed, mem_append, mem_singleton,
      Prod.mk.injEq, exists_or]
    refine or_congr_right ⟨fun hrejected => ?_, ?_⟩
    · cases s with
      | fulfilled value => cases hrejected
      | rejected reason => exact ⟨i, reason, rfl, rfl⟩
    · rintro ⟨_, reason, _, rfl⟩
      rfl
  started := by
    have hless := filterMap_set_perm Worker.item? hw .fresh
    rw [put, note, map_append]
    exact (perm_moved hless).trans h.started
  ended := by
    have hless := filterMap_set_perm Worker.returned? hw .fresh
    exact (perm_moved hless).trans h.ended
  gone hgone := (h.gone (gone_of_put (by simp) hgone)).imp_left (stopped_note i s)

/-- **A worker that takes an item** starts the next one, or goes for a reason. -/
theorem taking (h : Kept p₀ events p) (hw : p.workers[w]? = some .fresh) :
    Kept p₀ events (p.take w) := by
  -- a worker that goes leaves the counts as they are
  have hidle : ∀ next, p.next ≤ next → min p.size next = min p.size p.next →
      p.stopped = true ∨ p.size < next → Kept p₀ events { p.put w .gone with next } := by
    intro next hle hmin hreason
    refine { h with workers := ?_, inOrder := ?_, started := ?_, ended := ?_, gone := ?_ }
    · rw [put, length_set]; exact h.workers
    · dsimp only [put]; rw [hmin]; exact h.inOrder
    · exact ((filterMap_set_perm Worker.item? hw .gone).symm.append_right _).trans h.started
    · exact ((filterMap_set_perm Worker.returned? hw .gone).symm.append_right _).trans h.ended
    · exact fun _ => hreason
  unfold take
  split
  · rename_i hstopped
    exact hidle p.next (Nat.le_refl _) rfl (.inl hstopped)
  split
  · rename_i hlt
    refine { h with workers := ?_, inOrder := ?_, started := ?_, ended := ?_, gone := ?_ }
    · rw [put, length_set]; exact h.workers
    · -- the item taken is the next in order
      have hstarted : p.started = range p.next := by
        rw [h.inOrder, Nat.min_eq_right (Nat.le_of_lt hlt)]
      rw [put, hstarted, Nat.min_eq_right hlt, range_succ]
    · have hmore := filterMap_set_perm Worker.item? hw (.busy p.next)
      refine (hmore.symm.append_right _).trans ?_
      exact (h.started.append_left [p.next]).trans perm_append_comm
    · exact ((filterMap_set_perm Worker.returned? hw (.busy p.next)).symm.append_right _).trans
        h.ended
    · intro hgone
      rcases h.gone (gone_of_put (by simp) hgone) with hstopped | hnext
      · exact .inl hstopped
      · omega
  · rename_i hge
    exact hidle (p.next + 1) (by omega) (by omega) (.inr (by omega))

/-- **A worker that goes on** takes note of how its task ended, if it had one, and takes an item. -/
theorem resume (h : Kept p₀ events p) (w : Nat) : Kept p₀ events (p.resume w) := by
  rcases p.resume_cases w with ⟨hsame, _⟩ | ⟨hw, hgoes⟩ | ⟨i, s, hw, hgoes⟩
  · rwa [hsame]
  · rw [hgoes]
    exact h.taking hw
  · have hfresh : ((p.note i s).put w .fresh).workers[w]? = some .fresh := by
      rw [put, getElem?_set_self]
      exact (List.getElem?_eq_some_iff.mp hw).1
    rw [hgoes, ← take_put (p.note i s) w .fresh]
    exact (h.noting hw).taking hfresh

theorem finish (h : Kept p₀ events p) (hrunning : p.isRunning i = true) (s : Settlement α ε) :
    Kept p₀ (events ++ [.finish i s]) (p.finish i s) := by
  obtain ⟨w, hw, hfinish, _⟩ := finish_eq hrunning s
  rw [hfinish]
  exact h.finishing hw

theorem settling (h : Kept p₀ events p) (hrunning : p.isRunning i = true) (s : Settlement α ε) :
    Kept p₀ (events ++ [.finish i s]) (p.settle i s) := by
  obtain ⟨w, _, _, hsettle⟩ := finish_eq hrunning s
  rw [hsettle]
  exact (h.finish hrunning s).resume w

end Kept

theorem kept_start (concurrency : Concurrency) (size : Nat) (failFast aborted : Bool) :
    Kept (waiting concurrency size failFast aborted : Pool α ε) []
      (start concurrency size failFast aborted) := by
  have hall : ∀ (ws : List Nat) (p : Pool α ε),
      Kept (waiting concurrency size failFast aborted) [] p →
      Kept (waiting concurrency size failFast aborted) [] (ws.foldl Pool.resume p) := by
    intro ws
    induction ws with
    | nil => exact fun p h => h
    | cons w ws ih => exact fun p h => ih _ (h.resume w)
  exact hall _ _ (kept_waiting concurrency size failFast aborted)

/-- **A worker that takes an item** is on it or gone after that, and nothing else changes but what
has been started and what comes next. -/
theorem take_cases (p : Pool α ε) (w : Nat) : ∃ worker next new, worker.isPending = false ∧
    p.take w = { p.put w worker with next, started := p.started ++ new } := by
  rw [take]
  split
  · exact ⟨.gone, p.next, [], rfl, by rw [append_nil]; rfl⟩
  · split
    · exact ⟨.busy p.next, _, [p.next], rfl, rfl⟩
    · exact ⟨.gone, _, [], rfl, by rw [append_nil]; rfl⟩

theorem started_resume (p : Pool α ε) (w : Nat) :
    ∃ new, (p.resume w).started = p.started ++ new := by
  have htake : ∀ q : Pool α ε, ∃ new, (q.take w).started = q.started ++ new := by
    intro q
    obtain ⟨_, _, new, _, htake⟩ := q.take_cases w
    exact ⟨new, by rw [htake]⟩
  rw [resume]
  split
  · exact htake p
  · exact htake _
  · exact ⟨[], (append_nil _).symm⟩

/-! ## Workers that can go on -/

theorem pending_of_resume (hget : (p.resume w).workers[k]? = some worker)
    (hpending : worker.isPending = true) : k ≠ w ∧ p.workers[k]? = some worker := by
  have htake : ∀ q : Pool α ε, (q.take w).workers[k]? = some worker →
      k ≠ w ∧ q.workers[k]? = some worker := by
    intro q hq
    obtain ⟨x, _, _, hidle, htake⟩ := q.take_cases w
    rw [htake, put, getElem?_set] at hq
    split at hq
    · split at hq
      · cases hq
        rw [hidle] at hpending
        cases hpending
      · cases hq
    · rename_i hne
      exact ⟨Ne.symm hne, hq⟩
  rcases p.resume_cases w with ⟨hsame, hidle⟩ | ⟨_, hgoes⟩ | ⟨i, s, _, hgoes⟩
  · rw [hsame] at hget
    refine ⟨?_, hget⟩
    rintro rfl
    rw [allows, hget, Option.any_some, hpending] at hidle
    cases hidle
  · exact htake p (hgoes ▸ hget)
  · exact htake (p.note i s) (hgoes ▸ hget)

theorem isPending_eq_false : p.isPending = false ↔
    ∀ (k : Nat) worker, p.workers[k]? = some worker → worker.isPending = false := by
  rw [isPending, any_eq_false]
  constructor
  · intro h k worker hget
    exact Bool.eq_false_iff.mpr (h worker (mem_of_getElem? hget))
  · intro h worker hmem
    obtain ⟨k, hget⟩ := mem_iff_getElem?.mp hmem
    exact Bool.eq_false_iff.mp (h k worker hget)

theorem isPending_start (concurrency : Concurrency) (size : Nat) (failFast aborted : Bool) :
    (start concurrency size failFast aborted : Pool α ε).isPending = false := by
  have hall : ∀ (ws : List Nat) (p : Pool α ε), (∀ (k : Nat) worker, p.workers[k]? = some worker →
      worker.isPending = true → k ∈ ws) → (ws.foldl resume p).isPending = false := by
    intro ws
    induction ws with
    | nil =>
      intro p h
      refine isPending_eq_false.mpr fun k worker hget => Bool.eq_false_iff.mpr fun hpending => ?_
      cases h k worker hget hpending
    | cons w ws ih =>
      intro p h
      refine ih _ fun k worker hget hpending => ?_
      obtain ⟨hne, hbefore⟩ := pending_of_resume hget hpending
      exact (mem_cons.mp (h k worker hbefore hpending)).resolve_left hne
  refine hall _ _ fun k worker hget _ => ?_
  have hlt := (List.getElem?_eq_some_iff.mp hget).1
  rw [waiting, length_replicate] at hlt
  exact mem_range.mpr hlt

theorem isPending_settle (hrunning : p.isRunning i = true) (h : p.isPending = false) :
    (p.settle i s).isPending = false := by
  obtain ⟨w, _, hfinish, hsettle⟩ := finish_eq hrunning s
  rw [hsettle, isPending_eq_false]
  intro k worker hget
  refine Bool.eq_false_iff.mpr fun hpending => ?_
  obtain ⟨hne, hbefore⟩ := pending_of_resume hget hpending
  rw [hfinish, put, getElem?_set_ne hne.symm] at hbefore
  rw [isPending_eq_false.mp h k worker hbefore] at hpending
  cases hpending

/-- **What holds after any steps.** No worker is left that could go on. -/
theorem kept_of_stepAll? (h : Kept p₀ [] p) (hidle : p.isPending = false)
    (hrun : p.stepAll? steps = some p') :
    Kept p₀ (steps.map PoolStep.event) p' ∧ p'.isPending = false := by
  refine foldlM_invariant (P := fun done (q : Pool α ε) =>
    Kept p₀ (done.map PoolStep.event) q ∧ q.isPending = false) ?_ ⟨h, hidle⟩ hrun
  intro done step q q' hq hstep
  rw [map_append]
  cases step with
  | abort =>
    cases hstep
    exact ⟨hq.1.aborting, hq.2⟩
  | settle i s =>
    rw [step?] at hstep
    split at hstep
    · rename_i hrunning
      cases hstep
      exact ⟨hq.1.settling hrunning s, isPending_settle hrunning hq.2⟩
    · cases hstep

/-! ## After a stop -/

theorem item?_perm (workers : List (Worker α ε)) : (workers.filterMap Worker.item?).Perm
      (workers.filterMap Worker.busyOn? ++ (workers.filterMap Worker.returned?).map Prod.fst) := by
  induction workers with
  | nil => exact .refl _
  | cons worker workers ih =>
    cases worker with
    | fresh => exact ih
    | busy index => exact ih.cons index
    | back index s => exact (ih.cons index).trans perm_middle.symm
    | gone => exact ih

theorem length_workers (workers : List (Worker α ε)) :
    (workers.filterMap Worker.busyOn?).length + workers.countP Worker.isGone +
      workers.countP Worker.isPending = workers.length := by
  induction workers with
  | nil => rfl
  | cons worker workers ih =>
    rw [filterMap_cons, countP_cons, countP_cons, length_cons]
    cases worker with
    | fresh | busy index | back index s | gone =>
      simp [Worker.busyOn?, Worker.isGone, Worker.isPending]; omega

theorem mem_busyOn :
    i ∈ workers.filterMap Worker.busyOn? ↔ .busy i ∈ workers :=
  mem_filterMap_of_iff fun worker => by cases worker <;> simp [Worker.busyOn?]

theorem returned?_eq_nil (h : p.isPending = false) : p.workers.filterMap Worker.returned? = [] := by
  rw [filterMap_eq_nil_iff]
  intro worker hworker
  have hidle := any_eq_false.mp h worker hworker
  cases worker with
  | back index s => exact absurd rfl hidle
  | fresh | busy _ | gone => rfl

theorem find?_key {entries : List (Nat × β)} (hkeys : (entries.map Prod.fst).Nodup)
    {x : β} : (entries.find? fun entry => entry.1 == i).map (·.2) = some x ↔ (i, x) ∈ entries := by
  induction entries with
  | nil => simp
  | cons entry entries ih =>
    obtain ⟨key, y⟩ := entry
    obtain ⟨hnew, hkeys⟩ := nodup_cons.mp hkeys
    by_cases hkey : key = i
    · subst hkey
      have habsent : (key, x) ∉ entries := fun h => hnew (mem_map.mpr ⟨_, h, rfl⟩)
      simp [habsent, eq_comm]
    · rw [find?_cons_of_neg (by simpa using hkey), ih hkeys]
      simp [Ne.symm hkey]

namespace Kept

section

variable (h : Kept p₀ events p)

include h

/-- **What was started is running or has ended**, and only one of the two. -/
theorem started_perm : p.started.Perm (p.workers.filterMap Worker.busyOn? ++
      (events.filterMap PoolEvent.ended?).map Prod.fst) := by
  refine h.started.symm.trans (((item?_perm p.workers).append_right _).trans ?_)
  rw [append_assoc, ← map_append]
  exact (h.ended.map Prod.fst).append_left _

theorem started_nodup : p.started.Nodup := by
  rw [h.inOrder]
  exact nodup_range

theorem isRunning_iff_not_ended :
    p.isRunning i = true ↔ i ∈ p.started ∧ ∀ s, .finish i s ∉ events := by
  have hnodup := h.started_perm.nodup_iff.mp h.started_nodup
  rw [isRunning_iff, ← mem_busyOn, h.started_perm.mem_iff, mem_append]
  constructor
  · intro hbusy
    refine ⟨.inl hbusy, fun s hs => ?_⟩
    have hended := mem_map_of_mem (f := Prod.fst) (PoolEvent.mem_ended.mpr hs)
    exact (nodup_append.mp hnodup).2.2 i hbusy i hended rfl
  · rintro ⟨hbusy | hended, hnone⟩
    · exact hbusy
    · obtain ⟨⟨_, s⟩, hentry, rfl⟩ := mem_map.mp hended
      exact absurd (PoolEvent.mem_ended.mp hentry) (hnone s)

theorem length_started (hstop : p.stopped = false) (hidle : p.isPending = false) :
    p.started.length =
      min p₀.size (p₀.workers.length + (events.filterMap PoolEvent.ended?).length) := by
  have hcount := length_workers p.workers
  have hpending : p.workers.countP Worker.isPending = 0 := by
    rw [countP_eq_zero]
    exact any_eq_false.mp hidle
  have hlength := h.started_perm.length_eq
  rw [length_append, length_map] at hlength
  have horder : p.started.length = min p.size p.next := by
    rw [h.inOrder, length_range]
  have hworkers := h.workers
  rw [← h.size]
  -- if a worker has gone, then because there are no items left
  by_cases hgone : .gone ∈ p.workers
  · rcases h.gone hgone with hstopped | hnext
    · rw [hstop] at hstopped; cases hstopped
    · omega
  · have hnone : p.workers.countP Worker.isGone = 0 := by
      rw [countP_eq_zero]
      intro worker hworker
      cases worker with
      | gone => exact absurd hworker hgone
      | fresh | busy _ | back _ _ => simp [Worker.isGone]
    omega

theorem noted_perm (hidle : p.isPending = false) :
    p.noted.Perm (events.filterMap PoolEvent.ended?) := by
  have hended := h.ended
  rwa [returned?_eq_nil hidle] at hended

end

end Kept

theorem isFinished_iff :
    p.isFinished = true ↔ p.isPending = false ∧ ∀ i, p.isRunning i = false := by
  rw [isFinished, all_eq_true, isPending, any_eq_false]
  constructor
  · intro hgone
    refine ⟨fun worker hworker => ?_, fun i => Bool.eq_false_iff.mpr fun hi => ?_⟩
    · rw [(Worker.isGone_iff.mp (hgone worker hworker)).1]
      simp
    · exact (Worker.isGone_iff.mp (hgone _ (isRunning_iff.mp hi))).2 i rfl
  · rintro ⟨hidle, hnone⟩ worker hworker
    refine Worker.isGone_iff.mpr ⟨Bool.eq_false_iff.mpr (hidle worker hworker), ?_⟩
    rintro i rfl
    exact Bool.eq_false_iff.mp (hnone i) (isRunning_iff.mpr hworker)

theorem busyOn_eq_nil (hfinished : p.isFinished = true) :
    p.workers.filterMap Worker.busyOn? = [] := by
  rw [eq_nil_iff_forall_not_mem]
  intro i hi
  have hnot := (isFinished_iff.mp hfinished).2 i
  rw [isRunning_iff.mpr (mem_busyOn.mp hi)] at hnot
  cases hnot

namespace Kept

section

variable (h : Kept p₀ events p) (hfinished : p.isFinished = true)

include h hfinished

theorem settlement?_iff : p.settlement? i = some s ↔ .finish i s ∈ events := by
  have hnoted := h.noted_perm (isFinished_iff.mp hfinished).1
  have hkeys : (p.noted.map Prod.fst).Nodup :=
    (nodup_append.mp (h.started.nodup_iff.mpr h.started_nodup)).2.1
  rw [settlement?, find?_key hkeys, hnoted.mem_iff, PoolEvent.mem_ended]

theorem mem_started_iff : i ∈ p.started ↔ ∃ s, .finish i s ∈ events := by
  have hnot := (isFinished_iff.mp hfinished).2 i
  constructor
  · intro hi
    by_contra hnone
    rw [h.isRunning_iff_not_ended.mpr ⟨hi, fun s hs => hnone ⟨s, hs⟩⟩] at hnot
    cases hnot
  · rintro ⟨s, hs⟩
    rw [h.started_perm.mem_iff, mem_append]
    exact .inr (mem_map.mpr ⟨_, PoolEvent.mem_ended.mpr hs, rfl⟩)

theorem started_eq_range (hstop : p.stopped = false) (hpos : 0 < p₀.workers.length) :
    p.started = range p₀.size := by
  have hlength := h.started_perm.length_eq
  rw [busyOn_eq_nil hfinished, nil_append, length_map] at hlength
  have hcount := h.length_started hstop (isFinished_iff.mp hfinished).1
  have horder : p.started.length = min p.size p.next := by
    rw [h.inOrder, length_range]
  rw [h.inOrder]
  congr 1
  omega

end

end Kept

theorem getElem?_outcomes (hi : i < p.size) :
    p.outcomes[i]? = some ((p.settlement? i).elim .skipped .settled) := by
  rw [outcomes, getElem?_map, getElem?_range hi, Option.map_some]
  cases p.settlement? i <;> rfl

/-! ## Delays -/

section

variable {limit : Rat} {size : Nat} {failFast aborted : Bool}

/-- What a pool has come to after some steps. -/
theorem kept_of_steps
    (hrun : (start (.limit limit) size failFast aborted).stepAll? steps = some p) :
    Kept (waiting (.limit limit) size failFast aborted) (steps.map PoolStep.event) p ∧
      p.isPending = false :=
  kept_of_stepAll? (kept_start ..) (isPending_start ..) hrun

/-- How a finished pool tells what became of its items. -/
theorem outcomes_of_finished
    (hrun : (start (.limit limit) size failFast aborted).stepAll? steps = some p)
    (hfinished : p.isFinished = true) : p.outcomes.length = size ∧
      ∀ i < size, (∀ s, p.outcomes[i]? = some (.settled s) ↔ .settle i s ∈ steps) ∧
        (p.outcomes[i]? = some .skipped ↔ i ∉ p.started) := by
  obtain ⟨hkept, _⟩ := kept_of_steps hrun
  have hsize : p.size = size := hkept.size
  refine ⟨by rw [outcomes, length_map, length_range, hsize], fun i hi => ?_⟩
  have houtcome : p.outcomes[i]? = some ((p.settlement? i).elim .skipped .settled) :=
    getElem?_outcomes (hsize ▸ hi)
  have hended := fun s => hkept.settlement?_iff (i := i) (s := s) hfinished
  refine ⟨fun s => ?_, ?_⟩
  · rw [houtcome, ← PoolStep.mem_event, ← hended]
    cases p.settlement? i <;> simp
  · rw [houtcome, hkept.mem_started_iff hfinished]
    simp only [← hended]
    cases p.settlement? i <;> simp

end

end Pool

end Posonly
