import Posonly.Proofs.Conversion.FixedPoint

/-!
# Declaring a later version

The version that a source is declared to be written in is looked at in two places: where its
constructs are held against it, and where a linted result is checked in its turn. Both let more pass
under a later version. What is found newer than the later one is a part of what is found newer than
the earlier one (`newerThan_later`), and nothing else in a conversion hangs on the version
(`visitScript_checked`). So a conversion that succeeds gives the same under every later version
(`convert_later`).
-/

namespace Posonly.Conversion

/-- **Fewer constructs are newer than a later version**: of those that are newer than the earlier
one, the ones that came after the later one as well. -/
theorem newerThan_later (source : Text) (tree : Tree) {v w : PythonVersion}
    (hle : v.rank ≤ w.rank) : Feature.newerThan source tree w =
      (Feature.newerThan source tree v).filter fun f => f.construct.since.isAfter w := by
  rw [Feature.newerThan, Feature.newerThan, List.filter_filter]
  refine List.filter_congr fun f _ => ?_
  -- what came after the later version came after the earlier one
  have hboth : f.construct.since.isAfter w = true → f.construct.since.isAfter v = true := by
    rw [PythonVersion.isAfter, PythonVersion.isAfter, decide_eq_true_eq, decide_eq_true_eq]
    omega
  cases hafter : f.construct.since.isAfter w with
  | false => rfl
  | true => rw [hboth hafter]; rfl

theorem resolve_version {values : OptionValues} {source : Text} {v : PythonVersion} {o : Options}
    (h : { values with version := some v.text }.resolve source = .ok o) (w : PythonVersion) :
    o.version = v ∧
      { values with version := some w.text }.resolve source = .ok { o with version := w } := by
  have h := OptionValues.resolve_eq_ok_iff.mp h
  refine ⟨?_, OptionValues.resolve_eq_ok_iff.mpr { h with version := readVersion_text w }⟩
  have hversion := h.version
  rw [Option.getD_some, readVersion_text, Except.ok.injEq] at hversion
  exact hversion.symm

theorem verify_later {parse : Text → Tree} {text : Text} {o : Options} {w : PythonVersion}
    (hle : o.version.rank ≤ w.rank) (h : verify parse text o = .ok ()) :
    verify parse text { o with version := w } = .ok () :=
  verify_of_clean ((clean_of_verify h).later hle)

/-- **The check of the version is monotone.** What is newer than a later version is what is newer
than an earlier one and came after the later one; and a conversion that succeeds under the earlier
version succeeds under the later one, with the same text, state, edits and definition, whether it
lints or not. -/
theorem convert_later (parse : Text → Tree) (source : Text) (values : OptionValues)
    {v w : PythonVersion} (hle : v.rank ≤ w.rank) :
    (∀ tree, Feature.newerThan source tree w =
      (Feature.newerThan source tree v).filter fun f => f.construct.since.isAfter w) ∧
    ∀ r, convert parse source { values with version := some v.text } = .ok r →
      convert parse source { values with version := some w.text } =
        .ok { r with options := { r.options with version := w } } := by
  refine ⟨fun tree => newerThan_later source tree hle, fun r hrun => ?_⟩
  obtain ⟨o, hres, hresolved⟩ := convert_eq_ok_iff.mp hrun
  obtain ⟨hjob, hverify⟩ := convertResolved_eq_ok_iff.mp hresolved
  obtain ⟨hversion, hres'⟩ := resolve_version hres w
  have hle : o.version.rank ≤ w.rank := hversion ▸ hle
  have hjob' := run_checked hle o.lint hjob
  rw [options_of_run hjob] at hjob' ⊢
  refine convert_eq_ok_iff.mpr ⟨_, hres', convertResolved_eq_ok_iff.mpr ⟨hjob', ?_⟩⟩
  intro hlint hstate
  exact verify_later hle (hverify hlint hstate)

/-- A tree with a match statement and a list of type parameters. -/
def datedTree : Tree :=
  .node .script ⟨0, 9⟩ [.leaf .matchStatement 0 4, .leaf .typeParamList 5 9]

theorem convert_later_nested :
    PythonVersion.v38.rank ≤ PythonVersion.v310.rank ∧
    Feature.newerThan nestedSource datedTree .v38 =
      [⟨⟨0, 4⟩, .matchStatement⟩, ⟨⟨5, 9⟩, .typeParameters⟩] ∧
    Feature.newerThan nestedSource datedTree .v310 = [⟨⟨5, 9⟩, .typeParameters⟩] ∧
    ∃ r r', convert parseNested nestedSource
        { lint := some true, dismiss := some true, version := some "3.8" } = .ok r ∧
      convert parseNested nestedSource
        { lint := some true, dismiss := some true, version := some "3.10" } = .ok r' ∧
      r.state = .assembled ∧ r'.text = r.text ∧ r'.state = r.state ∧ r'.edits = r.edits ∧
      r'.definition = r.definition := by
  have hstate : (convert parseNested nestedSource
      { lint := some true, dismiss := some true, version := some "3.8" }).toOption.map (·.state) =
        some .assembled := by
    decide +kernel
  have hold : Feature.newerThan nestedSource datedTree .v38 =
      [⟨⟨0, 4⟩, .matchStatement⟩, ⟨⟨5, 9⟩, .typeParameters⟩] := by
    decide +kernel
  obtain ⟨hnewer, hlater⟩ := convert_later parseNested nestedSource
    { lint := some true, dismiss := some true }
    (show PythonVersion.v38.rank ≤ PythonVersion.v310.rank by decide)
  obtain ⟨r, hrun, hstate⟩ := ok_of_toOption hstate
  refine ⟨by decide, hold, ?_, r, _, hrun, hlater r hrun, hstate, rfl, rfl, rfl, rfl⟩
  rw [hnewer datedTree, hold]
  decide

end Posonly.Conversion
