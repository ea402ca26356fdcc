import Posonly.Proofs.Batch.Archiving
import Posonly.Proofs.Files.Discovery

/-!
# Tasks that take turns

A batch runs by turns, and whoever hears of a task that has ended may print. Neither the order of
the turns nor what is printed matters to the archive: it is kept by every turn (`act_going`), from
the start of a batch on (`start_going`).
-/

open List Posonly.Path

namespace Posonly

/-- Two worlds that differ in what has been printed only. -/
structure World.Alike (w w' : World) : Prop where
  tree : w'.tree = w.tree
  faults : w'.faults = w.faults
  supplied : w'.supplied = w.supplied

variable {s : Setting} {called : Place → Text} {since : Nat} {w w' : World}
  {entries : List ArchiveEntry} {b b' : Batch} {task : Task} {place : Place} {stage : Stage}
  {t : FileTree}

theorem World.Alike.refl (w : World) : w.Alike w := ⟨rfl, rfl, rfl⟩

theorem World.Alike.trans {w₁ w₂ w₃ : World} (h : w₁.Alike w₂) (h' : w₂.Alike w₃) : w₁.Alike w₃ :=
  ⟨h'.tree.trans h.tree, h'.faults.trans h.faults, h'.supplied.trans h.supplied⟩

theorem World.Alike.eq (h : w.Alike w') : w' = { w with printed := w'.printed } := by
  obtain ⟨htree, hfaults, hsupplied⟩ := h
  cases w'
  subst htree hfaults hsupplied
  rfl

/-! ## Printing -/

/-- An action on the world that only prints. -/
def OnlyPrints {α : Type} (x : StateM World α) : Prop :=
  ∀ w : World, w.Alike (StateT.run x w).2

namespace OnlyPrints

variable {α β : Type}

theorem pure (a : α) : OnlyPrints (pure a) := World.Alike.refl

theorem bind {x : StateM World α} {f : α → StateM World β} (hx : OnlyPrints x)
    (hf : ∀ a, OnlyPrints (f a)) : OnlyPrints (x >>= f) := fun w => (hx w).trans (hf _ _)

end OnlyPrints

theorem Kept.alike (h : Kept s called w entries) (hw : w.Alike w') : Kept s called w' entries := by
  rw [hw.eq]
  exact ⟨{ h.orderly with }, h.listed, h.holds⟩

theorem Reached.alike (h : Reached s called since w entries task place stage) (hw : w.Alike w') :
    Reached s called since w' entries task place stage := by
  rw [hw.eq]
  cases stage with
  | archiving source result stage =>
    cases stage with
    | copying archived => exact { h with }
    | recording e => exact { h with }
    | making | stored e | failed e => trivial
  | checking r | writing r | moving r | cleaning r e => exact ⟨h.listed, h.temporary⟩
  | reading | finished outcome => trivial

theorem Going.alike (h : Going s called since w entries b) (hw : w.Alike w') :
    Going s called since w' entries b where
  kept := h.kept.alike hw
  start := h.start
  begun := by rw [hw.supplied]; exact h.begun
  noneSince := h.noneSince
  length := h.length
  reached k task stage htask hstage := by
    obtain ⟨place, bytes, htasked, hpresent, hreached⟩ := h.reached k task stage htask hstage
    exact ⟨place, bytes, htasked, by rw [hw.tree]; exact hpresent, hreached.alike hw⟩
  apart := h.apart

/-! ## Turns -/

/-- The world once an action has been carried out and a supply taken. -/
def World.next (w : World) (directory : Text) (action : FileAction) : World :=
  { (w.perform directory action).2 with supplied := w.supplied + 1 }

theorem acted_next (p : Premises) (w : World) (action : FileAction) :
    Acted p w action (w.perform p.directory action).1 (w.next p.directory action) :=
  ⟨w.perform_yields p.directory action, w.perform_faults p.directory action, rfl⟩

section

variable {σ : Type} (procedure : Procedure σ) (p : Premises) {x : σ}

theorem step_idle (h : procedure.action? x = none) (w : World) :
    (procedure.step p.host x).run w = (x, w) := by
  unfold Procedure.step
  rw [h]
  rfl

theorem step_acts {action : FileAction} (h : procedure.action? x = some action) (w : World) :
    (procedure.step p.host x).run w =
      (procedure.advance x (w.perform p.directory action).1 (p.supply w.supplied),
        w.next p.directory action) := by
  unfold Procedure.step
  rw [h, World.next, ← w.perform_supplied p.directory action]
  rfl

end

/-- The task that acts in a move, if one does. -/
def Batch.actor? (b : Batch) : BatchMove → Option Nat
  | .act index =>
    if b.pool.isRunning index ∧
        ((b.tasks[index]?).bind fun task => (b.stages[index]?).bind task.action?).isSome then
      some index
    else none
  | _ => none

/-- The action that is carried out in a move, if one is. -/
def Batch.action? (b : Batch) : BatchMove → Option FileAction
  | .act index =>
    if b.pool.isRunning index then
      (b.tasks[index]?).bind fun task => (b.stages[index]?).bind task.action?
    else none
  | _ => none

/-- A running task of a batch asks for an action. -/
structure Batch.Acts (b : Batch) (k : Nat) (task : Task) (stage : Stage) (action : FileAction) :
    Prop where
  running : b.pool.isRunning k = true
  tasked : b.tasks[k]? = some task
  staged : b.stages[k]? = some stage
  asks : task.action? stage = some action

namespace Batch.Acts

variable {k : Nat} {action : FileAction} (h : b.Acts k task stage action)

include h

theorem actor? : b.actor? (.act k) = some k := by
  simp [Batch.actor?, h.running, h.tasked, h.staged, h.asks]

theorem action? : b.action? (.act k) = some action := by
  simp [Batch.action?, h.running, h.tasked, h.staged, h.asks]

theorem run (p : Premises) (w : World) : (b.act p.host k).run w =
    (b.withStage k (task.advance stage (w.perform p.directory action).1 (p.supply w.supplied)),
      w.next p.directory action) := by
  simp only [act, h.tasked, h.staged, h.running, if_true]
  rw [StateT.run_bind, step_acts task.procedure p h.asks]
  rfl

end Batch.Acts

/-- **What an action of a batch does**: nothing, or a running task gets what it asks for. -/
theorem act_cases (p : Premises) (b : Batch) (k : Nat) (w : World) :
    b.action? (.act k) = none ∧ b.actor? (.act k) = none ∧ (b.act p.host k).run w = (b, w) ∨
      ∃ task stage action, b.Acts k task stage action := by
  unfold Batch.act Batch.actor? Batch.action?
  cases htask : b.tasks[k]? with
  | none => exact .inl ⟨by simp [htask], by simp [htask], rfl⟩
  | some task =>
    cases hstage : b.stages[k]? with
    | none => exact .inl ⟨by simp [hstage], by simp [hstage], rfl⟩
    | some stage =>
      dsimp only
      by_cases hrunning : b.pool.isRunning k = true
      · cases haction : task.action? stage with
        | none =>
          refine .inl ⟨by simp [htask, hstage, haction], by simp [htask, hstage, haction], ?_⟩
          obtain ⟨hk, rfl⟩ := List.getElem?_eq_some_iff.mp hstage
          rw [if_pos hrunning, StateT.run_bind, step_idle task.procedure p haction]
          exact congrArg (fun stages => ({ b with stages }, w)) (set_getElem_self hk)
        | some action => exact .inr ⟨task, stage, action, hrunning, htask, hstage, haction⟩
      · refine .inl ⟨by simp [hrunning], by simp [hrunning], ?_⟩
        rw [if_neg hrunning]
        rfl

theorem act_going (hs : s.Ready) (hname : Naming s called) (h : Going s called since w entries b)
    (k : Nat) (hstop : ((b.act s.host k).run w).2.supplied ≤ s.stop) :
    ∃ entries', Going s called since ((b.act s.host k).run w).2 entries'
      ((b.act s.host k).run w).1 := by
  rcases act_cases s.premises b k w with ⟨_, _, hidle⟩ | ⟨task, stage, action, hacts⟩
  · rw [hidle]
    exact ⟨entries, h⟩
  · rw [hacts.run s.premises] at hstop ⊢
    exact h.step hs hname hstop hacts.tasked hacts.staged hacts.asks (acted_next ..)

theorem act_supplied (p : Premises) (b : Batch) (k : Nat) (w : World) :
    w.supplied ≤ ((b.act p.host k).run w).2.supplied := by
  rcases act_cases p b k w with ⟨_, _, hidle⟩ | ⟨task, stage, action, hacts⟩
  · rw [hidle]
  · rw [hacts.run]
    exact Nat.le_succ _

/-- Whoever hears of tasks that have ended only prints. -/
def Prints (hook : Batch.Hook (StateM World)) : Prop :=
  ∀ task outcome, OnlyPrints (hook task outcome)

variable {hook : Batch.Hook (StateM World)}

theorem tell_run (hhook : Prints hook) (b : Batch) (k : Nat) (w : World) :
    w.Alike ((b.tell hook k).run w).2 ∧ ((b.tell hook k).run w).1.tasks = b.tasks ∧
      ((b.tell hook k).run w).1.stages = b.stages := by
  unfold Batch.tell
  split
  · rename_i task outcome _ _
    have halike := hhook task outcome w
    rw [StateT.run_bind]
    generalize (hook task outcome).run w = r at halike
    obtain ⟨stops, w'⟩ := r
    cases stops with
    | true | false => exact ⟨halike, rfl, rfl⟩
  · exact ⟨.refl w, rfl, rfl⟩

/-- **What a move of a batch does**: it carries out an action, or it leaves the tree and the stages
as they are. -/
theorem move_cases (p : Premises) (hhook : Prints hook) (b : Batch) (move : BatchMove) (w : World) :
    (b.action? move = none ∧ b.actor? move = none ∧ w.Alike ((b.move p.host hook move).run w).2 ∧
      ((b.move p.host hook move).run w).1.tasks = b.tasks ∧
      ((b.move p.host hook move).run w).1.stages = b.stages) ∨
      ∃ k task stage action, move = .act k ∧ b.Acts k task stage action := by
  cases move with
  | act k =>
    rcases act_cases p b k w with ⟨hnone, hidle, hsame⟩ | ⟨task, stage, action, hacts⟩
    · rw [Batch.move, hsame]
      exact .inl ⟨hnone, hidle, .refl w, rfl, rfl⟩
    · exact .inr ⟨k, task, stage, action, rfl, hacts⟩
  | resume worker | abort => exact .inl ⟨rfl, rfl, .refl w, rfl, rfl⟩
  | finish k =>
    refine .inl ⟨rfl, rfl, ?_⟩
    rw [Batch.move, Batch.finish]
    split
    · split
      · exact tell_run hhook b k w
      · exact ⟨.refl w, rfl, rfl⟩
    · exact ⟨.refl w, rfl, rfl⟩

theorem settle_same (b : Batch) (k : Nat) :
    (b.settle k).tasks = b.tasks ∧ (b.settle k).stages = b.stages := by
  unfold Batch.settle
  split
  · split <;> exact ⟨rfl, rfl⟩
  · exact ⟨rfl, rfl⟩

/-! ## The start of a batch -/

section

variable {files : List Text} {options : BatchOptions} {directory : Text} {parse : Text → Tree}
  {aborted : Bool} {k : Nat}

theorem task_of_start
    (h : (Batch.start files options directory parse aborted).tasks[k]? = some task) :
    ∃ file, files[k]? = some file ∧ ⟨file, options.toTaskOptions, directory, parse⟩ = task := by
  rwa [Batch.start, getElem?_map, Option.map_eq_some_iff] at h

theorem reading_of_start
    (h : (Batch.start files options directory parse aborted).stages[k]? = some stage) :
    stage = .reading := by
  rw [Batch.start, getElem?_map, Option.map_eq_some_iff] at h
  obtain ⟨_, _, rfl⟩ := h
  rfl

end

/-- A path that a batch can be given: the name of a source, in its shortest form, whose spelling
leads to a file. -/
structure Convertible (s : Setting) (t : FileTree) (file : Text) : Prop extends Searched file where
  present : ∃ bytes, t.get? (target s.directory file) = some (.file bytes)
  short : pathBytes (absolute (target s.directory file)) < pathLimit

/-- Copies that are still to come are for no entry, since entries are for files that are there. -/
theorem noneSince_supplied (hname : Naming s called) (hk : Kept s called w entries) :
    NoneSince s called w.supplied entries := by
  intro f hf archived hspelled hcopied heq
  obtain ⟨place, hstored⟩ := hk.listed.stored f hf
  obtain ⟨bytes, hpresent⟩ := hstored.present
  have hplace := hname.copies hk.orderly.wellFormed hk.orderly.steady hpresent hspelled
    (hcopied.mono hk.orderly.supplied) (hstored.file.symm.trans heq)
  rw [hplace, Setting.copy, hk.orderly.unseen _ _ hcopied] at hpresent
  cases hpresent

theorem going_of_reading (hname : Naming s called) (hk : Kept s called w entries)
    (hstages : b.stages = b.tasks.map fun _ => .reading)
    (htasks : ∀ task ∈ b.tasks, ∃ place bytes, Tasked s called w.supplied task place ∧
      w.tree.get? place = some (.file bytes)) : Going s called w.supplied w entries b := by
  have hreading : ∀ (k : Nat) stage, b.stages[k]? = some stage → stage = .reading := by
    intro k stage hstage
    rw [hstages] at hstage
    obtain ⟨_, _, rfl⟩ := mem_map.mp (mem_of_getElem? hstage)
    rfl
  refine ⟨hk, hk.orderly.supplied, Nat.le_refl _, noneSince_supplied hname hk, ?_, ?_, ?_⟩
  · rw [hstages, length_map]
  · intro k task stage htask hstage
    obtain ⟨place, bytes, htasked, hpresent⟩ := htasks task (mem_of_getElem? htask)
    rw [hreading k stage hstage]
    exact ⟨place, bytes, htasked, hpresent, trivial⟩
  · intro k l stage stage' archived hk _ hcopying _
    rw [hreading k stage hk] at hcopying
    cases hcopying

namespace Convertible

variable {file : Text} (h : Convertible s t file)

include h

theorem last : ∃ parent, target s.directory file = parent ++ [basename file] := by
  obtain ⟨path, hpath⟩ := h.normal
  have hsource := h.source
  rw [hpath] at hsource ⊢
  exact target_of_isSource s.directory hsource

theorem paired (ht : t.WellFormed) : file.Paired := by
  obtain ⟨path, hpath⟩ := h.normal
  obtain ⟨bytes, hpresent⟩ := h.present
  rw [paired_iff_components]
  intro c hc
  rcases component_cases (slash_notMem_component hc) with rfl | hname | hblank
  · decide
  · have hmem : c ∈ target s.directory file := by
      refine mem_target ?_ hname hc
      rw [hpath]
      exact descending_normalize path
    exact (ht.spelled hpresent c hmem).1.paired
  · rcases hblank with rfl | rfl <;> decide

/-- The path leads to the place it spells wherever a file is there, if it leads anywhere. -/
theorem leads (hpaired : file.Paired) {t' : FileTree} {bytes : Bytes}
    {followLast : Bool} {spot : Spot} (ht : t'.WellFormed)
    (hpresent : t'.get? (target s.directory file) = some (.file bytes))
    (hspot : t'.locate s.directory file followLast = .ok spot) :
    spot = ⟨target s.directory file, some (.file bytes)⟩ := by
  obtain ⟨path, hpath⟩ := h.normal
  have hdesc : Descending (components file) := by
    rw [hpath]
    exact descending_normalize path
  have hfound := (FileTree.locate_target hpaired hdesc (ht.noLink hpresent (by simp)) hspot).1
  rwa [hpresent] at hfound

end Convertible

theorem Convertible.tasked (h : Convertible s w.tree task.file) (ho : Orderly s w)
    (harchive : task.options.archive = some s.root)
    (hdirectory : task.directory = s.directory) :
    Tasked s absolute w.supplied task (target s.directory task.file) := by
  obtain ⟨bytes, hpresent⟩ := h.present
  obtain ⟨parent, htarget⟩ := h.last
  have hpaired := h.paired ho.wellFormed
  exact
    { archive := harchive
      directory := hdirectory
      recorded := rfl
      names := names_absolute ho.wellFormed hpresent h.short
      last := ⟨parent, htarget⟩
      spelled := (ho.wellFormed.spelled hpresent _ (by simp [htarget])).1
      paired := hpaired
      named := by
        obtain ⟨_, e, _, hext, _⟩ := extension_of_isSource h.source
        exact .inl (by simp [hext])
      lasting := htarget ▸ lasting_of_sourceName (sourceName_basename h.source)
      leads := fun ht _ hfile hspot => h.leads hpaired ht hfile hspot
      old := fun hcopied => by
        -- the file is there, and no copy with a token that is still to come is
        rw [htarget, ho.unseen _ _ hcopied] at hpresent
        cases hpresent }

theorem start_going (hs : s.Ready) (hk : Kept s absolute w entries) {files : List Text}
    {options : BatchOptions} (harchive : options.archive = some s.root) (parse : Text → Tree)
    (aborted : Bool) (hfiles : ∀ file ∈ files, Convertible s w.tree file) :
    Going s absolute w.supplied w entries
      (Batch.start files options s.directory parse aborted) := by
  refine going_of_reading hs.naming_absolute hk ?_ ?_
  · rw [Batch.start, map_map]
    rfl
  · intro task htask
    obtain ⟨file, hfile, rfl⟩ := mem_map.mp htask
    obtain ⟨bytes, hpresent⟩ := (hfiles file hfile).present
    exact ⟨_, bytes, (hfiles file hfile).tasked hk.orderly harchive rfl, hpresent⟩

end Posonly
