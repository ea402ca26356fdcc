import Posonly.Proofs.Conversion.Wholeness
import Posonly.Proofs.Program.Atomicity

/-!
# What a conversion does to the bytes of a file

A file is decoded, converted and encoded again, so that even what no edit touches goes through text.
Bytes that are no text in the encoding of the file do not come back from that: they are replaced
beside the edits. The new bytes are the old ones with the edits made, and nothing else, exactly if
all that no edit takes out comes back (`run_patches`).
-/

open Posonly.Encoding

namespace Posonly.Task

/-- **A file that is replaced** has its old bytes, with those of the deleted text taken out and
those of the inserted text put in, exactly if each chunk of bytes that stays is the encoding of what
it was decoded to. So it is with files that are text in their encoding, and with all files if every
byte stands for a unit. -/
theorem run_patches (task : Task) (p : Premises) (w w' : World) (e : Encoding) (old : Bytes)
    (source : Text) (o : FileOutcome) (hp : (task.scene p w).Prepared) (houtside : task.Outside p w)
    (hold : w.tree.read p.directory task.file = .ok old)
    (hrun : (task.run p.host).run w = (.finished (.ok o), w')) (hwritten : o.written = true)
    (he : task.options.encoding = e) (hsource : e.decode old = source)
    (htree : (task.parse source).WellFormed source.length)
    (hlambdas : (task.parse source).WholeLambdas source) :
    ∃ result new, Conversion.convert task.parse source
          { task.options.values with filename := some task.file } = .ok result ∧
      o.edits = result.edits ∧ w'.tree.read p.directory task.file = .ok new ∧
      (∀ edit ∈ result.applied,
        e.decode ((old.take (e.byteOffset old edit.stop)).drop (e.byteOffset old edit.start)) =
          source.slice edit.start edit.stop) ∧
      (new = e.patch old result.applied ↔
        ∀ c ∈ e.kept old result.applied, e.encode c.units = c.bytes) ∧
      (e.encode source = old ∨ e.scheme = .eightBit → new = e.patch old result.applied) := by
  subst he hsource
  obtain ⟨result, hedits, hreplaces⟩ := replaces_of_run hp houtside hold hrun hwritten
  have hconvert := hreplaces.converts.converted
  have hread := hreplaces.written
  obtain ⟨happlicable, htext, hwhole⟩ := Conversion.convert_whole hconvert htree hlambdas
  generalize task.options.encoding = e at *
  -- no edit cuts a character, and no text of one joins what is around it
  have hcut : e.CutBy old result.applied := fun d hd => ⟨(hwhole d hd).1, (hwhole d hd).2.1⟩
  have htexts : ∀ d ∈ result.applied, e.Separate d.text := fun d hd _ => (hwhole d hd).2.2
  refine ⟨result, e.encode result.text, hconvert, hedits, hread, fun d hd => ?_, ?_, fun hold => ?_⟩
  · have hvalid : d.start ≤ d.stop := happlicable.valid d hd
    have hstop := happlicable.stop_le d hd
    exact CutAt.decode_range ⟨Nat.le_trans hvalid hstop, (hcut d hd).1⟩
      ⟨hstop, (hcut d hd).2⟩ hvalid
  · rw [htext]
    exact encode_splice happlicable hcut htexts
  · rw [htext]
    refine patch_of_faithful happlicable hcut htexts ?_
    rcases hold with hold | hscheme
    · exact hold
    · exact encode_decode_eightBit hscheme old

/-! ## A byte that is no text -/

/-- A function with some parameters, and behind it a comment with a byte that is no text. -/
def strayFile (parameters : Text) : Bytes :=
  utf8.encode ("def f(" ++ parameters ++ "): pass # ") ++ [0xFF, 0x0A]

def strayTree : Tree :=
  .node .script ⟨0, 22⟩ [.node .functionDefinition ⟨0, 22⟩ [
    .sign "def" 0, .leaf .variableName 4 5,
    .node .paramList ⟨5, 11⟩ [.sign "(" 5, .leaf .variableName 6 7, .sign "," 7, .sign ")" 10],
    .node .body ⟨11, 22⟩ [.sign ":" 11,
      .node (.other "PassStatement") ⟨13, 17⟩ [.sign "pass" 13], .leaf .comment 18 21]]]

/-- A single file in the working directory. -/
def strayWorld : World where
  tree := ⟨[(["a.py"], .file (strayFile "a, /"))]⟩

def strayTask : Task where
  file := "a.py"
  options := { values := { dismiss := some true } }
  directory := "/"
  parse := fun _ => strayTree

theorem stray_prepared : (strayTask.scene Program.sample.premises strayWorld).Prepared :=
  Scene.prepared_of_short rfl (fun a ha => by cases ha) (by decide) (by decide)

/-- There is no archive. -/
theorem stray_outside : strayTask.Outside Program.sample.premises strayWorld := by
  intro a place bytes node ha
  cases ha

/-- How the conversion of the file ends. -/
def strayEnd : Stage × World := (strayTask.run Program.sample.host).run strayWorld

theorem strayEnd_evaluated :
    (strayEnd.1.outcome?.bind Except.toOption).map FileOutcome.written = some true := by
  decide +kernel

/-- The text of the file, in which a replacement character stands for the byte. -/
def straySource : Text := utf8.decode (strayFile "a, /")

theorem stray_converted : (Conversion.convert strayTask.parse straySource
      { strayTask.options.values with filename := some "a.py" }).toOption.map (fun r =>
        (utf8.patch (strayFile "a, /") r.applied,
          (utf8.kept (strayFile "a, /") r.applied).all fun c =>
            utf8.encode c.units == c.bytes)) = some (strayFile "a", false) := by
  decide +kernel

/-- **A byte that is no text is lost**, though nothing is edited there. -/
theorem run_patches_stray :
    (strayTask.scene Program.sample.premises strayWorld).Prepared ∧
      strayTask.Outside Program.sample.premises strayWorld ∧
      strayWorld.tree.read "/" "a.py" = .ok (strayFile "a, /") ∧
      strayTree.WellFormed straySource.length ∧ strayTree.WholeLambdas straySource ∧
      ∃ o w new, strayEnd = (.finished (.ok o), w) ∧ o.written = true ∧
        w.tree.read "/" "a.py" = .ok new ∧ new ≠ strayFile "a" := by
  have hold : strayWorld.tree.read "/" "a.py" = .ok (strayFile "a, /") := by decide
  have htree : strayTree.WellFormed straySource.length := by decide +kernel
  have hlambdas : strayTree.WholeLambdas straySource := by decide +kernel
  refine ⟨stray_prepared, stray_outside, hold, htree, hlambdas, ?_⟩
  -- the conversion ends with the file written
  obtain ⟨o, w, hend, hwritten⟩ : ∃ o w, strayEnd = (.finished (.ok o), w) ∧ o.written = true := by
    have hwritten := strayEnd_evaluated
    cases hend : strayEnd with
    | mk stage w =>
      rw [hend] at hwritten
      cases stage with
      | finished outcome =>
        cases outcome with
        | ok o => exact ⟨o, w, rfl, Option.some.inj hwritten⟩
        | error e => cases hwritten
      | _ => cases hwritten
  obtain ⟨result, new, hconvert, _, hread, _, hiff, _⟩ :=
    run_patches strayTask Program.sample.premises
    strayWorld w .utf8 (strayFile "a, /") straySource o stray_prepared
      stray_outside hold hend hwritten
    rfl rfl htree hlambdas
  refine ⟨o, w, new, hend, hwritten, hread, ?_⟩
  have hfacts := stray_converted
  rw [show Conversion.convert strayTask.parse straySource
    { strayTask.options.values with filename := some "a.py" } = .ok result from hconvert] at hfacts
  obtain ⟨hpatch, hall⟩ := Prod.mk.inj (Option.some.inj hfacts)
  obtain ⟨c, hc, hbad⟩ := List.all_eq_false.mp hall
  rw [← hpatch]
  intro hnew
  exact hbad (beq_iff_eq.mpr (hiff.mp hnew c hc))

/-- What stands in its place is a replacement character. -/
theorem stray_byte_replaced :
    strayWorld.tree.read "/" "a.py" = .ok (strayFile "a, /") ∧
      strayEnd.2.tree.read "/" "a.py" =
        .ok (utf8.encode "def f(a): pass # \uFFFD\n") ∧
      strayEnd.2.tree.read "/" "a.py" ≠ .ok (strayFile "a") := by
  decide +kernel

end Posonly.Task
