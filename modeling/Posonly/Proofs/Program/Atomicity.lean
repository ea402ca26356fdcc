import Posonly.Proofs.Batch.Halfway
import Posonly.Proofs.Program.Isolation

/-!
# A file is converted as a whole or not at all

A file that is converted by itself has at every moment the bytes that it had, or all of those that
it is converted to. Which action fails does not matter, nor what a broken write leaves in the
temporary file. If the conversion ends with an error, the file has the bytes that it had and no
temporary file is left. If it ends well, the archive has a copy of them, and an entry.
-/

open Posonly.Program

namespace Posonly

namespace Task

/-- The scene of a file that is converted by itself. -/
def scene (task : Task) (p : Premises) (w : World) : Scene where
  premises := p
  initial := w
  archive := task.options.archive
  files := [task.file]
  stop := w.supplied + longest

/-- The file is outside of the archive: the manifest that is there, or is made, is another file. -/
def Outside (task : Task) (p : Premises) (w : World) : Prop :=
  ∀ a place bytes node, task.options.archive = some a →
    w.tree.locate p.directory task.file true = .ok ⟨place, some (.file bytes)⟩ →
    (task.scene p w).made.locate p.directory a.manifest true ≠ .ok ⟨place, node⟩

/-- When the temporary file is to be taken away, this does not fail from outside. -/
def CleansUp (task : Task) (p : Premises) (w : World) : Prop :=
  ∀ n r e w', task.after p w n = (.cleaning r e, w') → w'.faults.head?.join = none

/-- A file has been replaced by what its bytes are converted to. If there is an archive, it has a
copy of these bytes, and an entry at the end of the manifest, which is read back if the manifest was
one. -/
structure Replaces (task : Task) (p : Premises) (before after : FileTree)
    (archived : Option ArchiveEntry) (old : Bytes) (result : Conversion.Result) : Prop where
  read : before.read p.directory task.file = .ok old
  converts : Scene.Converts task old (task.options.encoding.decode old) result
  written : after.read p.directory task.file = .ok (task.options.encoding.encode result.text)
  kept : ∀ a, task.options.archive = some a → ∃ entry manifest, archived = some entry ∧
    entry.file = Path.resolve task.directory task.file ∧
    after.read p.directory (a.copyPath entry.archived) = .ok old ∧
    after.read p.directory a.manifest = .ok manifest ∧
    manifest = before.held p.directory a.manifest ++ Encoding.utf8.encode entry.line ∧
    ∀ earlier, before.held p.directory a.manifest = Manifest.content earlier →
      Manifest.read (Encoding.utf8.decode manifest) = .ok (earlier ++ [entry])

variable {task : Task} {p : Premises} {w : World}

theorem separate (hp : (task.scene p w).Prepared) (houtside : task.Outside p w) :
    (task.scene p w).Separate where
  shaped _ := hp.isToken
  unknown _ _ _ _ hfresh hnode := hp.unknown hfresh hnode
  apart i j place bytes bytes' hi hj := by
    obtain ⟨_, hfile, _⟩ := hi
    obtain ⟨_, hfile', _⟩ := hj
    have hlt : i < 1 := (List.getElem?_eq_some_iff.mp hfile).1
    have hlt' : j < 1 := (List.getElem?_eq_some_iff.mp hfile').1
    omega
  outside a i place bytes node ha hread := by
    obtain ⟨file, hfile, hlocate⟩ := hread
    rw [scene, List.getElem?_singleton] at hfile
    split at hfile
    · cases hfile
      exact houtside a place bytes node ha hlocate
    · cases hfile

theorem after_unread (hread : ∀ bytes, w.tree.read p.directory task.file ≠ .ok bytes) (n : Nat) :
    (task.after p w n).2.tree = w.tree ∧
      (n ≠ 0 → ∃ e, (task.after p w n).1 = .finished (.error e)) := by
  induction n with
  | zero => exact ⟨rfl, fun h => absurd rfl h⟩
  | succ n ih =>
    rw [Scene.after_succ]
    by_cases hn : n = 0
    · subst hn
      have hyields := World.perform_yields w p.directory (.read task.file)
      generalize hperform : w.perform p.directory (.read task.file) = answer at hyields
      obtain ⟨reply, w₁⟩ := answer
      have hstart : task.after p w 0 = (.reading, w) := rfl
      rw [hstart, step_acts task.procedure p rfl, World.next, hperform]
      dsimp only at hyields ⊢
      cases reply with
      | ok bytes => exact absurd (congrArg Prod.fst hyields.perform_eq) (hread bytes)
      | error e =>
        refine ⟨?_, fun _ => ⟨_, rfl⟩⟩
        generalize (Except.error e : FileReply) = reply at hyields
        generalize w₁.tree = tree at hyields ⊢
        cases hyields with
        | done | failed => rfl
        | torn _ _ _ _ hwrite => cases hwrite
    · obtain ⟨htree, hends⟩ := ih
      obtain ⟨e, hfinished⟩ := hends hn
      rw [hfinished, Scene.step_finished]
      exact ⟨htree, fun _ => ⟨e, rfl⟩⟩

theorem run_eq_after (task : Task) (p : Premises) (w : World) :
    (task.run p.host).run w = task.after p w longest := by
  rw [run, after]

section

variable (hp : (task.scene p w).Prepared) (houtside : task.Outside p w)

include hp houtside

/-- **A file that can be read** comes to an end, and it is known at any moment how far it has come.
-/
theorem halfway_of_read {old : Bytes} (hold : w.tree.read p.directory task.file = .ok old) :
    ∃ place outcome, (task.scene p w).Reads 0 place old ∧
      (task.after p w longest).1 = .finished outcome ∧
      ∀ n, (task.scene p w).Halfway task place old (task.CleansUp p w) (task.after p w n).2.tree
        (task.after p w n).1 := by
  obtain ⟨place, hplace⟩ := FileTree.read_eq_ok_iff.mp hold
  have hread : (task.scene p w).Reads 0 place old := ⟨task.file, rfl, hplace⟩
  have hcalm : task.CleansUp p w → ∀ n r e w', task.after p w n = (.cleaning r e, w') →
      w'.faults.head?.join = none := fun hc => hc
  have hafter : ∀ n ≤ longest, (task.scene p w).Halfway task place old (task.CleansUp p w)
        (task.after p w n).2.tree (task.after p w n).1 ∧
      ((∃ outcome, (task.after p w n).1 = .finished outcome) ∨
        n ≤ Scene.rank (task.after p w n).1) := by
    intro n hn
    obtain ⟨hknown, _, _, hends⟩ :=
      Scene.halfway_after (separate hp houtside) hp rfl hread rfl hcalm n (Nat.add_le_add_left hn _)
    exact ⟨hknown, hends⟩
  obtain ⟨hlast, hends⟩ := hafter longest (Nat.le_refl _)
  obtain ⟨outcome, hfinished⟩ := Scene.finished_of_rank hends
  refine ⟨place, outcome, hread, hfinished, fun n => ?_⟩
  by_cases hle : n ≤ longest
  · exact (hafter n hle).1
  · -- it stays where it is when it has come to its end
    have hrun :
        task.after p w longest = (.finished outcome, (task.after p w longest).2) := by
      rw [← hfinished]
    have hsame : task.after p w n = task.after p w longest := by
      rw [hrun]
      exact Scene.run_finished hrun (by omega)
    rw [hsame]
    exact hlast

/-- **A file that is replaced** has been converted as a whole, and the archive has what it had. -/
theorem replaces_of_run {o : FileOutcome} {old : Bytes} {w' : World}
    (hold : w.tree.read p.directory task.file = .ok old)
    (hrun : (task.run p.host).run w = (.finished (.ok o), w')) (hwritten : o.written = true) :
    ∃ result, o.edits = result.edits ∧ task.Replaces p w.tree w'.tree o.archived old result := by
  obtain ⟨place, _, _, _, hknown⟩ := halfway_of_read hp houtside hold
  have h := hknown longest
  rw [← run_eq_after, hrun] at h
  dsimp only at h
  generalize hstage : Stage.finished (.ok o) = stage at h
  cases h with
  | written r x hconverts hleads _ hkept =>
    cases hstage
    obtain ⟨hsource, hresult⟩ := hconverts
    rw [hsource] at hresult
    refine ⟨r.result, rfl, hold, ⟨rfl, hresult⟩, FileTree.read_eq_ok_iff.mpr ⟨x, hleads⟩,
      fun a ha => ?_⟩
    obtain ⟨entry, c, m, harchived, hentry, hcopy, hmanifest⟩ := hkept a ha
    refine ⟨entry, _, harchived, hentry, hcopy.read, hmanifest.read, rfl, fun earlier hheld => ?_⟩
    have hheld' : (task.scene p w).initial.tree.held (task.scene p w).directory
        a.manifest = Manifest.content earlier := hheld
    rw [hheld', ← Manifest.content_append]
    exact Manifest.read_content _
  | unwritten o' hnot =>
    cases hstage
    rw [hnot] at hwritten
    cases hwritten
  | _ => cases hstage

end

/-- **A file is converted as a whole or not at all**, whatever fails. -/
theorem run_all_or_nothing (task : Task) (p : Premises) (w : World) (hp : (task.scene p w).Prepared)
    (houtside : task.Outside p w) :
    (∀ n, (task.after p w n).2.tree.read p.directory task.file = w.tree.read p.directory task.file ∨
      ∃ old result, w.tree.read p.directory task.file = .ok old ∧
        Scene.Converts task old (task.options.encoding.decode old) result ∧
        (task.after p w n).2.tree.read p.directory task.file =
          .ok (task.options.encoding.encode result.text)) ∧
    ∃ outcome w', (task.run p.host).run w = (.finished outcome, w') ∧
      (∀ e, outcome = .error e →
        w'.tree.read p.directory task.file = w.tree.read p.directory task.file) ∧
      (task.CleansUp p w → (task.scene p w).Cleared w'.tree) ∧
      (∀ o, outcome = .ok o → o.written = true →
        ∃ old result, task.Replaces p w.tree w'.tree o.archived old result) ∧
      (∀ o, outcome = .ok o → o.written = false → w'.tree = w.tree) := by
  have hs := separate hp houtside
  by_cases hunread : ∀ bytes, w.tree.read p.directory task.file ≠ .ok bytes
  · -- nothing is done at all
    rw [run_eq_after]
    refine ⟨fun n => .inl (by rw [(after_unread hunread n).1]), ?_⟩
    obtain ⟨htree, hends⟩ := after_unread hunread longest
    obtain ⟨e, hfinished⟩ := hends (by decide)
    generalize task.after p w longest = reached at htree hfinished ⊢
    obtain ⟨stage, w'⟩ := reached
    dsimp only at htree hfinished
    rw [hfinished]
    refine ⟨.error e, w', rfl, fun _ _ => by rw [htree], fun _ => ?_, fun o ho => (by cases ho),
      fun o ho => (by cases ho)⟩
    rw [htree]
    exact (Scene.whole_initial hs).cleared
  · obtain ⟨old, hold⟩ := not_forall_not.mp hunread
    obtain ⟨place, outcome, hread, hfinished, hknown⟩ := halfway_of_read hp houtside hold
    refine ⟨fun n => ?_, ?_⟩
    · rcases (hknown n).reads hs hread rfl with hstays | ⟨result, hconverts, hnew⟩
      · exact .inl (hstays.trans hold.symm)
      · exact .inr ⟨old, result, hold, hconverts, hnew⟩
    · have hlast := hknown longest
      have hreplaces :
          ∀ o w', (task.run p.host).run w = (.finished (.ok o), w') → o.written = true →
          ∃ result, o.edits = result.edits ∧ task.Replaces p w.tree w'.tree o.archived old result :=
        fun o w' => replaces_of_run hp houtside hold
      rw [run_eq_after] at hreplaces ⊢
      generalize task.after p w longest = reached at hlast hfinished hreplaces ⊢
      obtain ⟨stage, w'⟩ := reached
      dsimp only at hlast hfinished
      subst hfinished
      refine ⟨outcome, w', rfl, fun e he => ?_, fun hc => hlast.cleared_of_finished hs hc,
        fun o ho hwritten => ?_, fun o ho hnot => ?_⟩
      · subst he
        exact (hlast.reads_of_error hs hread rfl).trans hold.symm
      · subst ho
        obtain ⟨result, _, h⟩ := hreplaces o w' rfl hwritten
        exact ⟨old, result, h⟩
      · subst ho
        exact hlast.tree_of_unwritten hnot

/-! ## A link to a file, with a full disk -/

def linkedTree : FileTree :=
  ⟨[(["src"], .directory), (["src", "b.py"], .file markedBytes),
    (["b.py"], .link "src/b.py")]⟩

/-- A file that is reached by a link. -/
def linkedTask : Task := sampleTask "b.py"

/-- The disk is full when the temporary file has been written in part. -/
def fullDisk : List (Option Fault) :=
  [none, none, none, none, none,
    some ⟨⟨.other "ENOSPC" "no space left on device", "write", []⟩,
      some (Encoding.utf8.encode "def")⟩]

/-- The world of the file, with the failures that are met. -/
def linkedWorld (faults : List (Option Fault)) : World where
  tree := linkedTree
  faults := faults

theorem linked_prepared (faults : List (Option Fault)) :
    (linkedTask.scene sample.premises (linkedWorld faults)).Prepared := by
  have hshort : Scene.Short linkedTree [linkedTask.file] := by decide
  have hstop : 0 + longest ≤ sample.stop := by decide
  exact Scene.prepared_of_short rfl (fun a ha => (Option.some.inj ha).symm) hstop hshort

theorem linked_outside (faults : List (Option Fault)) :
    linkedTask.Outside sample.premises (linkedWorld faults) := by
  intro a place bytes node ha hfile
  have hapart : (linkedTask.scene sample.premises (linkedWorld [])).Apart := by decide
  exact Scene.Apart.manifest_ne (s := linkedTask.scene _ (linkedWorld faults)) hapart hfile ha
    (.head _) node

/-- How the conversion ends. -/
def linkedEnd (faults : List (Option Fault)) : Stage × World :=
  (linkedTask.run sample.host).run (linkedWorld faults)

theorem linkedEnd_evaluated : (linkedEnd fullDisk).1.outcome?.map Except.isOk = some false ∧
      ((linkedEnd []).1.outcome?.bind Except.toOption).map FileOutcome.written = some true ∧
      linkedTree.read "/" "b.py" = .ok markedBytes ∧
      ∀ n ≤ longest,
        Scene.rank (linkedTask.after sample.premises (linkedWorld fullDisk) n).1 = 7 →
        (linkedTask.after sample.premises (linkedWorld fullDisk) n).2.faults.head?.join =
          none := by
  decide +kernel

/-- With a full disk, the temporary file can still be taken away. -/
theorem linked_cleansUp : linkedTask.CleansUp sample.premises (linkedWorld fullDisk) := by
  obtain ⟨hfails, _, _, hall⟩ := linkedEnd_evaluated
  intro n r e w' hafter
  by_cases hn : n ≤ longest
  · have hfaults := hall n hn
    rw [hafter] at hfaults
    exact hfaults rfl
  · -- it has come to its end by then
    rw [linkedEnd, run_eq_after] at hfails
    generalize hend : linkedTask.after sample.premises (linkedWorld fullDisk) longest =
      reached at hfails
    obtain ⟨stage, w⟩ := reached
    cases stage with
    | finished outcome =>
      rw [after, Scene.run_finished hend (by omega)] at hafter
      cases hafter
    | _ => cases hfails

/-- **A file behind a link** is left alone if the disk is full, and replaced otherwise. -/
theorem run_all_or_nothing_linked :
    (∀ faults, (linkedTask.scene sample.premises (linkedWorld faults)).Prepared ∧
      linkedTask.Outside sample.premises (linkedWorld faults)) ∧
    linkedTask.CleansUp sample.premises (linkedWorld fullDisk) ∧
    (∃ e w, linkedEnd fullDisk = (.finished (.error e), w) ∧
      w.tree.read "/" "b.py" = .ok markedBytes ∧
      (linkedTask.scene sample.premises (linkedWorld fullDisk)).Cleared w.tree) ∧
    ∃ o w old result, linkedEnd [] = (.finished (.ok o), w) ∧ o.written = true ∧
      linkedTask.Replaces sample.premises linkedTree w.tree o.archived old result := by
  obtain ⟨hfails, hwrites, hread, _⟩ := linkedEnd_evaluated
  refine ⟨fun faults => ⟨linked_prepared faults, linked_outside faults⟩, linked_cleansUp, ?_, ?_⟩
  · obtain ⟨_, outcome, w, hrun, herror, hcleared, _⟩ := run_all_or_nothing linkedTask
      sample.premises (linkedWorld fullDisk) (linked_prepared fullDisk)
        (linked_outside fullDisk)
    rw [linkedEnd, hrun] at hfails
    cases outcome with
    | ok o => cases hfails
    | error e => exact ⟨e, w, hrun, (herror e rfl).trans hread, hcleared linked_cleansUp⟩
  · obtain ⟨_, outcome, w, hrun, _, _, hreplaces, _⟩ := run_all_or_nothing linkedTask
      sample.premises (linkedWorld []) (linked_prepared []) (linked_outside [])
    rw [linkedEnd, hrun] at hwrites
    cases outcome with
    | error e => cases hwrites
    | ok o =>
      have hwritten : o.written = true := Option.some.inj hwrites
      obtain ⟨old, result, hleaves⟩ := hreplaces o rfl hwritten
      exact ⟨o, w, old, result, hrun, hwritten, hleaves⟩

end Task

end Posonly
