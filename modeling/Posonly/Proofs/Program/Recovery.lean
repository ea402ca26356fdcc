import Posonly.Program
import Posonly.Proofs.Archive.Recovery
import Posonly.Proofs.Batch.Driving
import Posonly.Proofs.Syntax.Shape

/-!
# Runs of the program, and what recovery makes of them

Runs that store files in one archive keep it (`Runs.kept`). A file that was there before the first
run therefore has its bytes again after a recovery exactly if the copy of its earliest entry has
them; and it has them unless a run has taken that copy for a source and stored it in its turn
(`recover_restores_iff`).
-/

open List Posonly.Path Posonly.CommandLine

namespace Posonly.Program

variable {s : Setting} {w w' : World} {entries : List ArchiveEntry} {place : Place} {bytes : Bytes}

/-! ## Printing -/

theorem print_run (p : Premises) (lines : List Line) (w : World) :
    (print p.host lines).run w = ((), { w with printed := w.printed ++ lines }) := by
  induction lines generalizing w with
  | nil =>
    rw [append_nil]
    rfl
  | cons line lines ih =>
    have hrest := ih { w with printed := w.printed ++ [line] }
    rwa [append_assoc] at hrest

theorem print_onlyPrints (p : Premises) (lines : List Line) : OnlyPrints (print p.host lines) := by
  intro w
  rw [print_run]
  exact ⟨rfl, rfl, rfl⟩

/-- What is printed of a file. -/
def told (o : RunOptions) : Except TaskError FileOutcome → List Line
  | .ok outcome => if o.quiet then [] else Report.outcome o.dryRun outcome
  | .error _ => []

theorem report_tells (p : Premises) (o : RunOptions) :
    Tells (report p.host o) fun _ => told o := by
  intro task outcome w
  have hnothing : w = { w with printed := w.printed ++ [] } := by rw [append_nil]
  cases outcome with
  | error e => exact hnothing
  | ok outcome =>
    unfold report told
    cases o.quiet with
    | true => exact hnothing
    | false =>
      change (StateT.run (print p.host (Report.outcome o.dryRun outcome)) w).2 = _
      rw [print_run]
      rfl

theorem conclude_onlyPrints (p : Premises) (o : RunOptions) (summary : BatchSummary) :
    OnlyPrints (conclude p.host o summary) := by
  unfold conclude
  refine (print_onlyPrints p _).bind fun _ => ?_
  dsimp only
  cases !o.quiet || !summary.failed.isEmpty with
  | true => exact (print_onlyPrints p [Report.totals summary]).bind fun _ => .pure _
  | false => exact .pure _

/-! ## Runs -/

/-- **What a run does**: it prints, and then it may convert the sources that it has found. -/
theorem convert_run (p : Premises) (o : RunOptions) (w : World) :
    w.Alike (StateT.run (convert p.host o) w).2 ∨
      ∃ sources w₁, StateT.run (findSources p.host o.paths) w = (.ok sources, w) ∧
        (∀ file ∈ sources.files, Searched file) ∧ w.Alike w₁ ∧
        (StateT.run (Batch.run p.host (report p.host o) sources.files (batchOptions p.host o) false)
          w₁).2.Alike (StateT.run (convert p.host o) w).2 := by
  obtain ⟨result, hfound, hsearched⟩ := findSources_looks p w o.paths
  change StateT.run (findSources p.host o.paths) w = _ at hfound
  cases result with
  | error e =>
    refine .inl ?_
    unfold convert
    rw [StateT.run_bind, hfound]
    exact .refl w
  | ok sources =>
    have hprint := print_onlyPrints p (sources.missing.map Report.missing)
    have hrun : StateT.run (convert p.host o) w = StateT.run (do
        print p.host (sources.missing.map Report.missing)
        if sources.files.isEmpty then
          print p.host [Report.fatal "no valid source file found"]
          return .ok 2
        else
          let batch ← Batch.run p.host (report p.host o) sources.files (batchOptions p.host o) false
          return .ok (← conclude p.host o batch.summary)) w := by
      unfold convert
      rw [StateT.run_bind, hfound]
      rfl
    rw [hrun]
    -- without a source there is only something to print
    by_cases hempty : sources.files.isEmpty
    · rw [if_pos hempty]
      exact .inl ((hprint.bind fun _ => (print_onlyPrints p _).bind fun _ => .pure _) w)
    · rw [if_neg hempty]
      refine .inr ⟨sources, _, hfound, hsearched sources rfl, hprint w, ?_⟩
      exact ((conclude_onlyPrints p o _).bind fun _ => .pure _) _

theorem convert_supplied (p : Premises) (o : RunOptions) (w : World) :
    w.supplied ≤ (StateT.run (convert p.host o) w).2.supplied := by
  rcases convert_run p o w with halike | ⟨sources, w₁, _, _, hbefore, hafter⟩
  · exact Nat.le_of_eq halike.supplied.symm
  · obtain ⟨moves, hrun, _⟩ :=
      run_moves p (report_tells p o) sources.files (batchOptions p.host o) false w₁
    rw [← hbefore.supplied, hafter.supplied, hrun, moveAll_supplied p (report_tells p o).prints]
    exact Nat.le_add_right ..

theorem moveAll_going {called : Place → Text} {since : Nat} {b : Batch}
    {hook : Batch.Hook (StateM World)} (hs : s.Ready)
    (hname : Naming s called) (hhook : Prints hook)
    (moves : List BatchMove) (h : Going s called since w entries b)
    (hstop : ((Batch.moveAll s.host hook b moves).run w).2.supplied ≤ s.stop) :
    ∃ entries', Going s called since ((Batch.moveAll s.host hook b moves).run w).2 entries'
      ((Batch.moveAll s.host hook b moves).run w).1 := by
  induction moves generalizing b w entries with
  | nil => exact ⟨entries, h⟩
  | cons move moves ih =>
    -- supplies only grow, so the bound at the end holds after this move too
    have hle := moveAll_supplied s.premises hhook moves ((b.move s.host hook move).run w).1
      ((b.move s.host hook move).run w).2
    change ((Batch.moveAll s.host hook ((b.move s.host hook move).run w).1 moves).run
      ((b.move s.host hook move).run w).2).2.supplied ≤ s.stop at hstop
    rcases move_cases s.premises hhook b move w with
      ⟨_, _, halike, htasks, hstages⟩ | ⟨k, _, _, _, rfl, _⟩
    · exact ih ((h.alike halike).congr htasks hstages) hstop
    · obtain ⟨entries', hacted⟩ := act_going hs hname h k
        (show ((b.move s.host hook (.act k)).run w).2.supplied ≤ s.stop by omega)
      exact ih hacted hstop

/-- A run that stores what it converts in the archive. -/
structure Stores (s : Setting) (o : RunOptions) (w : World) : Prop where
  archive : o.archive = true
  written : o.dryRun = false
  path : resolve s.directory o.archivePath = s.root.root
  /-- Each source that is found is a file where its path says, with no link on the way, and its
  whole path is short enough. -/
  plain : ∀ sources ∈ (StateT.run (findSources s.host o.paths) w).1.toOption,
    ∀ file ∈ sources.files,
      (w.tree.get? (FileTree.placeOf (resolve s.directory file))).map FileNode.kind =
        some .file ∧ pathBytes (resolve s.directory file) < pathLimit

instance (s : Setting) (o : RunOptions) (w : World) : Decidable (Stores s o w) :=
  decidable_of_iff (o.archive = true ∧ o.dryRun = false ∧
      resolve s.directory o.archivePath = s.root.root ∧
      ∀ sources ∈ (StateT.run (findSources s.host o.paths) w).1.toOption,
        ∀ file ∈ sources.files,
          (w.tree.get? (FileTree.placeOf (resolve s.directory file))).map
            FileNode.kind = some .file ∧ pathBytes (resolve s.directory file) < pathLimit)
    ⟨fun ⟨h₁, h₂, h₃, h₄⟩ => ⟨h₁, h₂, h₃, h₄⟩, fun h => ⟨h.1, h.2, h.3, h.4⟩⟩

theorem file_of_kind {node : Option FileNode} (h : node.map FileNode.kind = some .file) :
    ∃ bytes, node = some (.file bytes) := by
  match node with
  | some (.file bytes) => exact ⟨bytes, rfl⟩
  | some .directory | some (.link _) | none => cases h

theorem convert_kept {o : RunOptions} (hs : s.Proper)
    (hk : Kept s absolute w entries) (hstores : Stores s o w)
    (hstop : (StateT.run (convert s.host o) w).2.supplied ≤ s.stop) :
    ∃ entries', Kept s absolute (StateT.run (convert s.host o) w).2 entries' := by
  rcases convert_run s.premises o w with halike | ⟨sources, w₁, hfound, hsearched, hbefore, hafter⟩
  · exact ⟨entries, hk.alike halike⟩
  · have harchive : (batchOptions s.host o).archive = some s.root := by
      unfold batchOptions
      rw [hstores.archive, hstores.written]
      exact congrArg (fun root => some (Archive.mk root)) hstores.path
    have hfiles : ∀ file ∈ sources.files, Convertible s w₁.tree file := by
      intro file hfile
      obtain ⟨hkind, hshort⟩ := hstores.plain sources (by rw [hfound]; rfl) file hfile
      rw [FileTree.placeOf_resolve, ← hbefore.tree] at hkind
      exact { hsearched file hfile with present := file_of_kind hkind, short := hshort }
    rw [hafter.supplied] at hstop
    have htells := report_tells s.premises o
    obtain ⟨moves, hrun, _⟩ :=
      run_moves s.premises htells sources.files (batchOptions s.host o) false w₁
    have hstart := start_going hs.ready (hk.alike hbefore) harchive s.parse false hfiles
    rw [hrun] at hstop hafter
    obtain ⟨entries', hgoing⟩ :=
      moveAll_going hs.ready hs.ready.naming_absolute htells.prints moves hstart hstop
    exact ⟨entries', hgoing.kept.alike hafter⟩

/-- The world that a run of the program leads to. -/
def worldAfter (p : Premises) (args : List Text) (env : Environment) (w : World) : World :=
  (StateT.run (run p.host args env) w).2

/-- The worlds that runs which store what they convert lead to, one run after the other. -/
inductive Runs (s : Setting) : World → Prop where
  | start : Runs s s.initial
  | run {w : World} {o : RunOptions} (before : Runs s w) (args : List Text)
      (env : Environment)
      (command : read args env s.directory = .ok (.run o))
      (stores : Stores s o w) : Runs s (worldAfter s.premises args env w)

theorem run_of_read {p : Premises} {args : List Text} {env : Environment}
    {command : Command} (h : read args env p.directory = .ok command) :
    run p.host args env = execute p.host command := by
  unfold run
  rw [show p.host.directory = p.directory from rfl, h]

theorem Runs.kept (hs : s.Proper) (h : Runs s w) (hstop : w.supplied ≤ s.stop) :
    ∃ entries, Kept s absolute w entries := by
  induction h with
  | start => exact ⟨[], kept_initial hs.ready⟩
  | run before args env command stores ih =>
    rename_i w o
    rw [worldAfter, run_of_read command] at hstop ⊢
    obtain ⟨entries, hk⟩ := ih (Nat.le_trans (convert_supplied s.premises o w) hstop)
    exact convert_kept hs hk stores hstop

/-! ## Recovery -/

theorem recover_prints {p : Premises} {restored : List ArchiveEntry} (path : Text) (quiet : Bool)
    (h : StateT.run (Archive.recover ⟨resolve p.directory path⟩ p.host).run w =
      (.ok restored, w')) :
    ∃ w₁, StateT.run (recover p.host path quiet) w = (.ok 0, w₁) ∧ w'.Alike w₁ := by
  have hrun : StateT.run (recover p.host path quiet) w = StateT.run (do
      if !quiet then print p.host (restored.map Report.recovered)
      print p.host [Report.recoveredTotal restored.length path]
      return .ok 0) w' := by
    unfold recover
    rw [StateT.run_bind, show p.host.directory = p.directory from rfl, h]
    rfl
  rw [hrun]
  have htotal := print_onlyPrints p [Report.recoveredTotal restored.length path]
  cases quiet with
  | true => exact ⟨_, rfl, (htotal.bind fun _ => .pure ()) w'⟩
  | false =>
    exact ⟨_, rfl, ((print_onlyPrints p (restored.map Report.recovered)).bind fun _ => htotal) w'⟩

/-- **What becomes of a file from the beginning** when files are restored from a kept archive. -/
theorem restored_iff {t' : FileTree} (hs : s.Proper)
    (hk : Kept s absolute w entries)
    (hrestored : Restored s absolute (Manifest.earliest entries) w.tree t')
    (hinitial : s.initial.tree.get? place = some (.file bytes)) :
    t'.get? place = some (.file bytes) ↔ ∀ e ∈ Manifest.earliest entries,
      e.file = absolute place → w.tree.get? (s.copy e.archived) = some (.file bytes) := by
  constructor
  · intro hback e he hfile
    rw [← hk.restored_copy hs.ready.naming_absolute hrestored hinitial he hfile, hback]
  · exact hk.restored_original hs.ready.naming_absolute hrestored hinitial

/-- The copy of the earliest entry has the bytes from the beginning if it has no entry itself. -/
theorem copy_unlisted {e : ArchiveEntry} (hs : s.Proper)
    (hk : Kept s absolute w entries)
    (hinitial : s.initial.tree.get? place = some (.file bytes))
    (he : e ∈ Manifest.earliest entries) (hfile : e.file = absolute place)
    (hnone : ∀ f ∈ entries, f.file ≠ s.root.copyPath e.archived) :
    w.tree.get? (s.copy e.archived) = some (.file bytes) := by
  obtain ⟨_, hstored⟩ := hk.listed.restorable.stored e he
  obtain ⟨_, hcopy⟩ := hstored.copyPresent
  have hspelled := (hk.orderly.wellFormed.spelled hcopy e.archived (by simp [Setting.copy])).1
  rw [Manifest.mem_earliest, hfile] at he
  rcases hk.listed.first place bytes e hinitial he with hsame | ⟨f, hf, hentry⟩
  · exact hsame
  · exact absurd (hentry.trans (hs.ready.copyPath_eq hspelled).symm) (hnone f hf)

/-- **Recovery after any runs that store what they convert.** A file that was there before the first
run has its bytes again exactly if the copy of its earliest entry still has them, and the copy has
them unless a run has stored the copy itself as a source. -/
theorem recover_restores_iff (hs : s.Proper) (hruns : Runs s w) (hstop : w.supplied ≤ s.stop)
    (args : List Text) (env : Environment) (path : Text) (quiet : Bool)
    (hcommand : read args env s.directory = .ok (.recover path quiet))
    (hpath : resolve s.directory path = s.root.root) :
    ∃ entries w', StateT.run (s.root.entries s.host).run w = (.ok entries, w) ∧
      StateT.run (run s.host args env) w = (.ok 0, w') ∧
      ∀ place bytes, s.initial.tree.get? place = some (.file bytes) →
        (w'.tree.get? place = some (.file bytes) ↔ ∀ e ∈ Manifest.earliest entries,
          e.file = absolute place → w.tree.get? (s.copy e.archived) = some (.file bytes)) ∧
        ((∀ e ∈ Manifest.earliest entries, e.file = absolute place →
            ∀ f ∈ entries, f.file ≠ s.root.copyPath e.archived) →
          w'.tree.get? place = some (.file bytes)) := by
  obtain ⟨entries, hk⟩ := hruns.kept hs hstop
  have hcalm := hk.orderly.calm hs
  obtain ⟨t', hrecover, hrestored⟩ := hk.recover_run hs.ready hcalm
  have hroot : s.root = ⟨resolve s.directory path⟩ := by rw [hpath]
  rw [hroot] at hrecover
  obtain ⟨w', hrun, halike⟩ := recover_prints path quiet hrecover
  refine ⟨entries, w', hk.entries_run hs.ready hcalm, ?_, fun place bytes hinitial => ?_⟩
  · rw [run_of_read hcommand]
    exact hrun
  · have hiff := restored_iff hs hk hrestored hinitial
    rw [halike.tree]
    exact ⟨hiff, fun hnone => hiff.mpr fun e he hfile =>
      copy_unlisted hs hk hinitial he hfile (hnone e he hfile)⟩

/-! ## A directory that holds its archive -/

/-- A function with a marker. -/
def markedSource : Text := "def f(a, /): pass\n"

def markedBytes : Bytes := Encoding.utf8.encode markedSource

def markedTree : Tree :=
  .node .script ⟨0, 18⟩ [.node .functionDefinition ⟨0, 18⟩ [
    .sign "def" 0, .leaf .variableName 4 5,
    .node .paramList ⟨5, 11⟩ [.sign "(" 5, .leaf .variableName 6 7, .sign "," 7, .sign ")" 10],
    .passBody 11]]

/-- A single file in the working directory. Tokens count up. -/
def sample : Setting where
  premises :=
    { directory := "/"
      parse := fun t => if t = markedSource then markedTree else .node .script ⟨0, t.length⟩ []
      supply := fun i => ⟨List.replicate 34 0x30 ++
        [(0x30 + i / 10).toUInt16, (0x30 + i % 10).toUInt16], "now"⟩ }
  initial := { tree := ⟨[(["a.py"], .file (markedBytes))]⟩ }
  archive := [defaultArchive]
  stop := 16

/-- A task on a file, with the sample's archive. -/
def sampleTask (file : Text) : Task where
  file := file
  options := { values := { dismiss := some true }, archive := some sample.root }
  directory := sample.directory
  parse := sample.parse

theorem length_of_known {s : Setting} {n : Text} (harchive : ∀ n ∈ s.archive, n.length < 36)
    (hnodes : ∀ entry ∈ s.initial.tree.nodes, ∀ n ∈ entry.1, n.length < 36) (hn : s.Known n) :
    n.length < 36 := by
  rcases hn with hn | ⟨place, node, hnode, hn⟩
  · exact harchive n hn
  · obtain ⟨entry, hentry, rfl⟩ := FileTree.exists_mem_nodes hnode (ne_nil_of_mem hn)
    exact hnodes entry hentry n hn

theorem sample_tokens {known : Text → Prop} {start stop : Nat} (hstop : stop ≤ sample.stop)
    (hknown : ∀ n, known n → n.length < 36) :
    FreshTokens sample.supply known start stop := by
  have hshaped : ∀ i < sample.stop, IsToken (sample.token i) := by decide
  have hdistinct :
      ∀ i < sample.stop, ∀ j < sample.stop, sample.token i = sample.token j → i = j := by
    decide
  have hlt : ∀ i < stop, i < sample.stop := fun i hi => Nat.lt_of_lt_of_le hi hstop
  refine ⟨fun i _ hi => hshaped i (hlt i hi),
    fun i j _ hi _ hj => hdistinct i (hlt i hi) j (hlt j hj), fun i _ hi n hn htoken => ?_⟩
  have hle := htoken.length_le
  have hlength : (sample.supply i).token.length = 36 := (hshaped i (hlt i hi)).length
  have := hknown n hn
  omega

theorem sample_proper : sample.Proper where
  wellFormed := FileTree.wellFormed_of_nodes (by decide)
  faults := rfl
  names := by decide
  absent := by decide
  way q hq := by
    change q <+: [] ++ [defaultArchive] at hq
    rcases prefix_concat_iff.mp hq with rfl | hq
    · decide
    · rw [prefix_nil.mp hq]
      decide
  short := by decide
  tokens := sample_tokens (Nat.le_refl _) fun _ => length_of_known (by decide) (by decide)

/-- The world after one run on the whole directory. -/
def once : World := worldAfter sample.premises ["-q", "-d", "."] [] sample.initial

/-- The world after two runs. The second takes the copy that the first has made for a source. -/
def twice : World := worldAfter sample.premises ["-q", "-d", "."] [] once

def sampleOptions : RunOptions :=
  ⟨["."], true, true, "/archive", .utf8, none, false, false, { dismiss := some true }⟩

theorem read_sampleOptions :
    read ["-q", "-d", "."] [] sample.directory = .ok (.run sampleOptions) := by
  decide

/-- Both sources of the second run are plain files. In the end the copy of the first entry, which is
for the file, has other bytes. -/
theorem twice_evaluated : Stores sample sampleOptions once ∧ twice.supplied ≤ sample.stop ∧
    ∃ entries ∈ (StateT.run (sample.root.entries sample.host).run twice).1.toOption,
      ∃ e ∈ Manifest.earliest entries, e.file = absolute ["a.py"] ∧
        twice.tree.get? (sample.copy e.archived) ≠
          some (.file markedBytes) := by
  decide +kernel

theorem runs_twice : Runs sample twice := by
  have hfirst : Stores sample sampleOptions sample.initial := by decide
  have honce : Runs sample once := .run .start _ _ read_sampleOptions hfirst
  exact .run honce _ _ read_sampleOptions twice_evaluated.1

/-- **Two runs on a directory that holds its archive** lose the original. -/
theorem recover_loses_original :
    sample.Proper ∧ Runs sample twice ∧ twice.supplied ≤ sample.stop ∧
      sample.initial.tree.get? ["a.py"] = some (.file markedBytes) ∧
      ∃ w', StateT.run (run sample.host ["-q", "--recover", "archive"] []) twice =
          (.ok 0, w') ∧
        w'.tree.get? ["a.py"] ≠ some (.file markedBytes) := by
  obtain ⟨_, hstop, entries, hentries, e, he, hfile, hother⟩ := twice_evaluated
  have hinitial : sample.initial.tree.get? ["a.py"] =
      some (.file markedBytes) := by decide +kernel
  obtain ⟨entries', w', hentries', hrun, hrestores⟩ := recover_restores_iff sample_proper runs_twice
    hstop ["-q", "--recover", "archive"] [] "/archive" true (by decide +kernel) (by decide +kernel)
  rw [hentries'] at hentries
  cases hentries
  exact ⟨sample_proper, runs_twice, hstop, hinitial, w', hrun, fun hback =>
    hother (((hrestores _ _ hinitial).1.mp hback) e he hfile)⟩

end Posonly.Program
