import Posonly.Proofs.Batch.Turns
import Posonly.Proofs.Batch.Twin

/-!
# Tasks on their own

In a batch the actions of all tasks come one after the other. Each takes the next supply, and some
fail from outside. A task has a share in them, and with the supplies and the faults of its share it
can be run by itself, from the tree that the batch has started from (`Scene.alone`). Whatever the
order of the actions is, each task is at the stage at which it would be by itself, and its file has
the same bytes (`Beside`).
-/

open List Option

namespace Posonly

/-! ## Shares -/

/-- The numbers of the actions that a task has a turn at. -/
def share (turns : List Nat) (i : Nat) : List Nat :=
  (List.range turns.length).filter fun n => turns[n]? == some i

theorem share_append (turns more : List Nat) (i : Nat) :
    ∃ rest, share (turns ++ more) i = share turns i ++ rest := by
  rw [share, length_append, range_add, filter_append]
  refine ⟨_, congrArg (· ++ _) (filter_congr fun n hn => ?_)⟩
  rw [getElem?_append_left (List.mem_range.mp hn)]

theorem share_concat (turns : List Nat) (i j : Nat) :
    share (turns ++ [j]) i = share turns i ++ if j = i then [turns.length] else [] := by
  rw [share, length_append, length_singleton, range_succ, filter_append]
  congr 1
  · refine filter_congr fun n hn => ?_
    rw [getElem?_append_left (List.mem_range.mp hn)]
  · rw [filter_singleton, getElem?_concat_length]
    by_cases h : j = i
    · simp [h]
    · rw [if_neg h, beq_false_of_ne fun heq => h (Option.some.inj heq)]
      rfl

/-- The turn that a task takes next is the next of its share. -/
theorem getElem?_share (turns rest : List Nat) (i : Nat) :
    (share (turns ++ i :: rest) i)[(share turns i).length]? = some turns.length := by
  obtain ⟨later, hlater⟩ := share_append (turns ++ [i]) rest i
  rw [append_assoc, singleton_append] at hlater
  rw [hlater, share_concat, if_pos rfl, append_assoc, getElem?_append_right (Nat.le_refl _),
    Nat.sub_self]
  rfl

theorem mem_share {turns : List Nat} {i n : Nat} : n ∈ share turns i ↔ turns[n]? = some i := by
  rw [share, mem_filter, List.mem_range, beq_iff_eq]
  exact and_iff_right_of_imp fun h => (List.getElem?_eq_some_iff.mp h).1

/-- What is handed out for some actions only. -/
def Premises.part (p : Premises) (start : Nat) (numbers : List Nat) : Premises :=
  { p with supply := fun k => p.supply (start + numbers.getD k 0) }

/-- The world for some actions only: the faults that they meet, and nothing printed. -/
def World.part (w : World) (numbers : List Nat) : World :=
  { tree := w.tree, faults := numbers.map fun n => (w.faults[n]?).join }

namespace Scene

/-- A task after so many actions by itself, with its share in some turns. -/
def aloneFor (s : Scene) (turns : List Nat) (i : Nat) (task : Task) (count : Nat) : Stage × World :=
  (task.procedure.run (s.part s.initial.supplied (share turns i)).host count .reading).run
    (s.initial.part (share turns i))

/-- A task that is run by itself, with its share in some turns. -/
def alone (s : Scene) (turns : List Nat) (i : Nat) (task : Task) : Stage × World :=
  (task.run (s.part s.initial.supplied (share turns i)).host).run
    (s.initial.part (share turns i))

/-- The tokens that a task has got in some turns. -/
def Owns (s : Scene) (turns : List Nat) (i : Nat) (token : Text) : Prop :=
  ∃ n ∈ share turns i, token = s.token (s.initial.supplied + n)

/-- The tokens that other tasks have got. -/
def Foreign (s : Scene) (turns : List Nat) (i : Nat) (token : Text) : Prop :=
  ∃ j, j ≠ i ∧ s.Owns turns j token

variable {s : Scene} {turns all done : List Nat} {i j k l : Nat} {token : Text} {task : Task}
  {stage : Stage} {t : FileTree}

theorem owns_concat : s.Owns (turns ++ [j]) i token ↔
    s.Owns turns i token ∨ j = i ∧ token = s.token (s.initial.supplied + turns.length) := by
  unfold Owns
  rw [share_concat]
  by_cases h : j = i
  · rw [if_pos h]
    simp [h, or_and_right, exists_or]
  · rw [if_neg h]
    simp [h]

theorem Owns.concat (h : s.Owns turns i token) (j : Nat) : s.Owns (turns ++ [j]) i token :=
  owns_concat.mpr (.inl h)

theorem Foreign.concat (h : s.Foreign turns i token) (j : Nat) :
    s.Foreign (turns ++ [j]) i token := by
  obtain ⟨other, hne, howns⟩ := h
  exact ⟨other, hne, howns.concat j⟩

section

variable (hs : s.Proper) (hstop : s.initial.supplied + turns.length ≤ s.stop)

include hs hstop

/-- A token is supplied in one turn only, and so to one task. -/
theorem owns_unique (h : s.Owns turns i token) (h' : s.Owns turns j token) : i = j := by
  obtain ⟨n, hn, rfl⟩ := h
  obtain ⟨m, hm, htoken⟩ := h'
  rw [mem_share] at hn hm
  have hlt := (List.getElem?_eq_some_iff.mp hn).1
  have hlt' := (List.getElem?_eq_some_iff.mp hm).1
  have heq :=
    hs.tokens.distinct _ _ (Nat.le_add_right _ n) (by omega) (Nat.le_add_right _ m) (by omega)
    htoken
  obtain rfl : n = m := by omega
  exact Option.some.inj (hn.symm.trans hm)

theorem Owns.not_foreign (h : s.Owns turns i token) : ¬ s.Foreign turns i token := by
  rintro ⟨j, hne, h'⟩
  exact hne (owns_unique hs hstop h' h)

end

/-! ## Steps -/

/-- How far a task has come, as a number. -/
def rank : Stage → Nat
  | .reading => 0
  | .archiving _ _ .making => 1
  | .archiving _ _ (.copying _) => 2
  | .archiving _ _ (.recording _) => 3
  | .archiving _ _ (.stored _) | .archiving _ _ (.failed _) | .checking _ => 4
  | .writing _ => 5
  | .moving _ => 6
  | .cleaning _ _ => 7
  | .finished _ => 8

theorem rank_le (stage : Stage) : rank stage ≤ 8 := by
  unfold rank
  split <;> omega

variable {action : FileAction} {reply : FileReply} {outcome : Except TaskError FileOutcome}

/-- **Every action brings a task nearer to its end.** -/
theorem rank_advance (haction : task.action? stage = some action) (reply : FileReply)
    (supply : Supply) : rank stage < rank (task.advance stage reply supply) := by
  have hleads := task.advance_leads haction reply supply
  generalize task.advance stage reply supply = next at hleads
  cases hleads with
  | failed =>
    cases stage with
    | archiving source result stage => cases stage <;> simp [rank]
    | finished outcome => cases haction
    | _ => simp [rank]
  | checking h => rcases h with rfl | ⟨_, _, _, rfl⟩ <;> simp [rank]
  | cleaning h => rcases h with rfl | rfl <;> simp [rank]
  | _ => simp [rank, Task.unwritten, Task.written]

theorem step_finished (p : Premises) (outcome : Except TaskError FileOutcome) (w : World) :
    (task.procedure.step p.host (.finished outcome)).run w = (.finished outcome, w) := rfl

theorem run_succ (p : Premises) (n : Nat) (stage : Stage) (w : World) :
    (task.procedure.run p.host (n + 1) stage).run w =
      (task.procedure.step p.host ((task.procedure.run p.host n stage).run w).1).run
        ((task.procedure.run p.host n stage).run w).2 := by
  induction n generalizing stage w with
  | zero => rfl
  | succ n ih => exact ih ..

theorem run_finished {p : Premises} {n m : Nat} {w w' : World}
    (h : (task.procedure.run p.host n stage).run w = (.finished outcome, w')) (hle : n ≤ m) :
    (task.procedure.run p.host m stage).run w = (.finished outcome, w') := by
  induction m, hle using Nat.le_induction with
  | base => exact h
  | succ m _ ih =>
    rw [run_succ, ih]
    rfl

theorem file_of_leads {supply : Supply} {next : Stage} {o : FileOutcome}
    (h : task.Leads supply stage next) (hnext : next = .finished (.ok o)) : o.file = task.file := by
  cases h with
  | unwritten | written =>
    cases hnext
    rfl
  | _ => cases hnext

/-! ## Side by side -/

/-- A task that has come to a stage in a batch with some turns done, and the same task by itself: it
has come to the same stage, in a world with a twin tree. Unless the task has ended well, its file
has the bytes that it had at the start. -/
structure Beside (s : Scene) (all done : List Nat) (i : Nat) (task : Task) (stage : Stage)
    (t : FileTree) (l : Nat) (w' : World) : Prop where
  run : s.aloneFor all i task (share done i).length = (stage, w')
  faults : w'.faults = (s.initial.part (share all i)).faults.drop (share done i).length
  supplied : w'.supplied = (share done i).length
  level : s.At l w'.tree
  reached : s.Reached task (s.Owns done i) l stage
  twin : s.Twin task.file (s.Foreign done i) t w'.tree
  count : (share done i).length ≤ rank stage
  named : ∀ o, stage = .finished (.ok o) → o.file = task.file
  kept : (∃ o, stage = .finished (.ok o)) ∨
    ∀ q, s.Own task.file q → t.get? q = s.initial.tree.get? q

section

variable {w w' : World} {action : FileAction} {rest : List Nat} (hs : s.Proper) (hat : s.At k t)

include hs hat

/-- **A turn of a task**: it gives the same reply and has the same supply as the action of the task
by itself. -/
theorem Beside.act (hstop : s.initial.supplied + done.length < s.stop) (htask : s.Has task)
    (h : s.Beside all done i task stage t l w') (hle : l ≤ k)
    (hall : all = done ++ i :: rest) (haction : task.action? stage = some action) (hw : w.tree = t)
    (hfaults : w.faults = s.initial.faults.drop done.length)
    (hsupplied : w.supplied = s.initial.supplied + done.length) :
    ∃ reply r moved f, s.Change task.file (s.Owns done i) r moved f ∧ r ≤ l + 1 ∧
      w.perform s.directory action = (reply, { w with tree := f t, faults := w.faults.drop 1 }) ∧
      ∃ w'', s.Beside all (done ++ [i]) i task
        (task.advance stage reply (s.supply w.supplied)) (f t) (max l r) w'' := by
  have hnumber := getElem?_share done rest i
  rw [← hall] at hnumber
  have hcount : (share (done ++ [i]) i).length = (share done i).length + 1 := by
    rw [share_concat, if_pos rfl, length_append, length_singleton]
  have hfault : w'.faults.head?.join = w.faults.head?.join := by
    rw [hfaults, head?_drop, h.faults, head?_drop, World.part, getElem?_map, hnumber]
    rfl
  obtain ⟨reply, u, u', hreply, hreply', r, moved, f, hchange, hr, rfl, rfl, hmoved, hnext⟩ :=
    perform_together hs htask hat h.level hle h.twin
      (fun token hown => hown.not_foreign hs (by omega)) h.reached haction hw rfl hfault
  have hsupply : (s.part s.initial.supplied (share all i)).supply w'.supplied =
      s.supply w.supplied := by
    rw [h.supplied, hsupplied, Premises.part]
    dsimp only
    rw [getD_eq_getElem?_getD, hnumber]
    rfl
  have hfresh : s.Fresh (s.supply w.supplied).token :=
    ⟨w.supplied, by omega, by omega, rfl⟩
  refine ⟨reply, r, moved, f, hchange, hr, hreply,
    { w' with faults := w'.faults.drop 1, tree := f w'.tree, supplied := w'.supplied + 1 },
    ?_, ?_, ?_, ?_, ?_, ?_, ?_, ?_, ?_⟩
  · rw [hcount, aloneFor, run_succ, ← aloneFor, h.run,
      step_acts task.procedure (s.part s.initial.supplied (share all i)) haction, World.next,
      ← hsupply]
    dsimp only [Premises.part]
    rw [hreply']
    rfl
  · rw [hcount, h.faults, drop_drop]
  · rw [hcount, h.supplied]
  · exact hchange.at_level hs h.level htask.file hr
  · refine (hnext _ hfresh).mono (fun token htoken => owns_concat.mpr ?_) (Nat.le_refl _)
    refine htoken.imp_right fun heq => ⟨rfl, ?_⟩
    rw [heq, hsupplied]
    rfl
  · exact (Twin.change hs hchange hat htask.file h.level h.twin).mono fun token hf => hf.concat i
  · rw [hcount]
    have := h.count
    have := rank_advance haction reply (s.supply w.supplied)
    omega
  · exact fun o ho => file_of_leads (task.advance_leads haction _ _) ho
  · cases hmove : moved with
    | true =>
      -- only the file that has been moved there has other bytes
      obtain ⟨⟨r, rfl⟩, rfl⟩ := hmoved hmove
      exact .inl ⟨_, rfl⟩
    | false =>
      rcases h.kept with ⟨o, rfl⟩ | hkept
      · cases haction
      · refine .inr fun q hown => ?_
        rw [hchange.keeps hs hat htask.file hmove hown]
        exact hkept q hown

/-- A turn of another task leaves a task beside its run by itself. -/
theorem Beside.frame {other : Task} {r : Nat} {moved : Bool} {f : FileTree → FileTree}
    (hchange : s.Change task.file (s.Owns done i) r moved f) (hne : j ≠ i)
    (hfile : s.files[i]? = some task.file) (hother : s.files[j]? = some other.file)
    (h : s.Beside all done j other stage t l w') :
    s.Beside all (done ++ [i]) j other stage (f t) l w' := by
  have hcount : (share (done ++ [i]) j).length = (share done j).length := by
    rw [share_concat, if_neg hne.symm, append_nil]
  have hapart : ∀ q, s.Own other.file q → ¬ s.Own task.file q := fun q hown hown' =>
    hne (hs.own_unique hother hfile hown hown')
  have hmem := mem_of_getElem? hother
  refine ⟨by rw [hcount]; exact h.run, by rw [hcount]; exact h.faults,
    by rw [hcount]; exact h.supplied, h.level,
    h.reached.mono (fun token hown => hown.concat i) (Nat.le_refl l), ?_,
    by rw [hcount]; exact h.count, h.named, h.kept.imp_right fun hkept q hown => ?_⟩
  · refine Twin.frame hs hchange hat hmem hapart (fun token hown => ?_)
      (h.twin.mono fun token hf => hf.concat i)
    exact ⟨i, hne.symm, hown.concat i⟩
  · rcases hchange.at_file hs hat hmem hown with hsame | ⟨_, hown', _⟩
    · rw [hsame]
      exact hkept q hown
    · exact absurd hown' (hapart q hown)

end

/-- A task that has ended has done so in its run by itself, with the same outcome. -/
theorem Beside.alone {w' : World} (h : s.Beside all done i task (.finished outcome) t l w') :
    s.alone all i task = (.finished outcome, w') :=
  run_finished h.run h.count

section

variable {w' : World} (hs : s.Proper) (htask : s.Has task) (hat : s.At k t)
  (h : s.Beside all done i task stage t l w')

include hs htask hat h

theorem Beside.read : t.read s.directory task.file =
    w'.tree.read s.directory task.file := by
  rcases hs.files _ htask.file with ⟨place, bytes, hleads⟩ | ⟨e, hread⟩
  · refine (FileTree.read_together
      (hat.together_file hs h.level htask.file hleads h.twin.file) fun q hq => ?_).symm
    exact h.twin.file q hq.1
  · rw [hat.read_fails hs htask.file (hread k), h.level.read_fails hs htask.file (hread l)]

/-- **A file whose task does not end well** reads as it did at the start. -/
theorem Beside.read_kept (hbad : ∀ o, stage ≠ .finished (.ok o)) :
    t.read s.directory task.file = s.initial.tree.read s.directory task.file := by
  obtain ⟨k₀, hinitial⟩ := hs.at_initial
  rcases hs.files _ htask.file with ⟨place, bytes, hleads⟩ | ⟨e, hread⟩
  · rcases h.kept with ⟨o, hgood⟩ | hkept
    · exact absurd hgood (hbad o)
    · exact FileTree.read_together (hinitial.together_file hs hat htask.file hleads hkept)
        fun q hq => hkept q hq.1
  · rw [hat.read_fails hs htask.file (hread k), hinitial.read_fails hs htask.file (hread k₀)]

end

end Scene

/-! ## Batches -/

/-- The tasks that act in some moves, one for each action. -/
def turns (p : Premises) (hook : Batch.Hook (StateM World)) (b : Batch) (w : World) :
    List BatchMove → List Nat
  | [] => []
  | move :: moves =>
    (b.actor? move).toList ++
      turns p hook ((b.move p.host hook move).run w).1 ((b.move p.host hook move).run w).2 moves

variable {s : Scene} {all done rest : List Nat} {b b' : Batch} {w w' : World} {p : Premises}
  {hook : Batch.Hook (StateM World)}

/-- A batch that is under way, with some of its turns done. -/
structure Scene.Under (s : Scene) (all done : List Nat) (b : Batch) (w : World) : Prop where
  tasks : ∀ (i : Nat) task, b.tasks[i]? = some task → s.files[i]? = some task.file ∧ s.Has task
  length : b.stages.length = b.tasks.length
  supplied : w.supplied = s.initial.supplied + done.length
  faults : w.faults = s.initial.faults.drop done.length
  beside : ∃ k, s.At k w.tree ∧ ∀ (i : Nat) task stage, b.tasks[i]? = some task →
    b.stages[i]? = some stage → ∃ l w', l ≤ k ∧ s.Beside all done i task stage w.tree l w'

namespace Scene.Under

theorem alike (h : s.Under all done b w) (hw : w.Alike w') (htasks : b'.tasks = b.tasks)
    (hstages : b'.stages = b.stages) : s.Under all done b' w' where
  tasks := by rw [htasks]; exact h.tasks
  length := by rw [htasks, hstages]; exact h.length
  supplied := by rw [hw.supplied]; exact h.supplied
  faults := by rw [hw.faults]; exact h.faults
  beside := by rw [htasks, hstages, hw.tree]; exact h.beside

/-- One move: a turn of one task and the frame of the others, or nothing that counts. -/
theorem move (hs : s.Proper) (hhook : Prints hook)
    (hstop : s.initial.supplied + all.length ≤ s.stop)
    (h : s.Under all done b w) (move : BatchMove)
    (hall : all = done ++ (b.actor? move).toList ++ rest) :
    s.Under all (done ++ (b.actor? move).toList) ((b.move s.host hook move).run w).1
      ((b.move s.host hook move).run w).2 := by
  rcases move_cases s.premises hhook b move w with
    ⟨_, hnone, halike, htasks, hstages⟩ | ⟨index, task, stage, action, rfl, hacts⟩
  · rw [hnone, toList_none, append_nil]
    exact h.alike halike htasks hstages
  · obtain ⟨hfile, hhas⟩ := h.tasks index task hacts.tasked
    obtain ⟨k, hat, hbeside⟩ := h.beside
    obtain ⟨l, w', hle, hown⟩ := hbeside index task stage hacts.tasked hacts.staged
    rw [hacts.actor?, toList_some, append_assoc, singleton_append] at hall
    have hlength : done.length < all.length := by rw [hall]; simp
    obtain ⟨reply, r, moved, f, hchange, hr, hperform, w'', hnext⟩ :=
      hown.act hs hat (by omega) hhas hle hall hacts.asks rfl h.faults h.supplied
    rw [hacts.actor?, toList_some, Batch.move, hacts.run s.premises, World.next, hperform]
    refine ⟨h.tasks, ?_, ?_, ?_, max k r, hchange.at_level hs hat hhas.file (by omega), ?_⟩
    · rw [Batch.withStage, length_set]
      exact h.length
    · dsimp only
      rw [h.supplied, length_append, length_singleton, Nat.add_assoc]
    · dsimp only
      rw [h.faults, drop_drop, length_append, length_singleton]
    · intro j other stage' hother hstage'
      -- the task itself takes its turn alone, the others do not notice
      rcases Batch.withStage_cases hstage' with ⟨rfl, rfl⟩ | ⟨hj, hbefore⟩
      · obtain rfl : task = other := Option.some.inj (hacts.tasked.symm.trans hother)
        exact ⟨max l r, w'', by omega, hnext⟩
      · obtain ⟨l', v, hle', hv⟩ := hbeside j other stage' hother hbefore
        exact ⟨l', v, Nat.le_trans hle' (Nat.le_max_left ..),
          hv.frame hs hat hchange hj hfile (h.tasks j other hother).1⟩

theorem moveAll (hs : s.Proper) (hhook : Prints hook)
    (hstop : s.initial.supplied + all.length ≤ s.stop)
    (moves : List BatchMove) (h : s.Under all done b w)
    (hall : all = done ++ turns s.premises hook b w moves) :
    s.Under all all ((Batch.moveAll s.host hook b moves).run w).1
      ((Batch.moveAll s.host hook b moves).run w).2 := by
  induction moves generalizing done b w with
  | nil =>
    rw [turns, append_nil] at hall
    subst hall
    exact h
  | cons move moves ih =>
    rw [turns, ← append_assoc] at hall
    exact ih (h.move hs hhook hstop move hall) hall

end Scene.Under

/-- A run takes one supply for each of its turns. -/
theorem moveAll_supplied (p : Premises) (hhook : Prints hook) (moves : List BatchMove) (b : Batch)
    (w : World) : ((Batch.moveAll p.host hook b moves).run w).2.supplied =
      w.supplied + (turns p hook b w moves).length := by
  induction moves generalizing b w with
  | nil => rfl
  | cons move moves ih =>
    have hone : ((b.move p.host hook move).run w).2.supplied =
        w.supplied + (b.actor? move).toList.length := by
      rcases move_cases p hhook b move w with
        ⟨_, hnone, halike, _, _⟩ | ⟨index, task, stage, action, rfl, hacts⟩
      · rw [hnone, halike.supplied]
        rfl
      · rw [hacts.actor?, Batch.move, hacts.run]
        rfl
    have hrest := ih ((b.move p.host hook move).run w).1 ((b.move p.host hook move).run w).2
    rw [hone] at hrest
    rwa [turns, length_append, ← Nat.add_assoc]

theorem Scene.under_start (hs : s.Proper) (all : List Nat) (options : BatchOptions)
    (harchive : options.archive = s.archive) (aborted : Bool) :
    s.Under all [] (Batch.start s.files options s.directory s.parse aborted)
      s.initial := by
  obtain ⟨k, hat⟩ := hs.at_initial
  refine ⟨fun i task htask => ?_, by simp [Batch.start], rfl, rfl, k, hat,
    fun i task stage htask hstage => ?_⟩
  · obtain ⟨file, hfile, rfl⟩ := task_of_start htask
    exact ⟨hfile, mem_of_getElem? hfile, harchive, rfl⟩
  obtain rfl := reading_of_start hstage
  exact ⟨k, s.initial.part (share all i), Nat.le_refl k, rfl, rfl, rfl, hat, .reading,
    ⟨fun _ _ => rfl, fun _ _ _ _ _ => rfl⟩, Nat.le_refl 0, fun o ho => (by cases ho),
    .inr fun _ _ => rfl⟩

end Posonly
