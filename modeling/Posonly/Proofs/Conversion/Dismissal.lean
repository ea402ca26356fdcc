import Mathlib.Data.List.Forall2
import Posonly.Proofs.Conversion.Completeness

/-!
# Dismissing the checks

With its checks dismissed a conversion takes markers out and puts nothing in. The walk looks at the
same nodes either way, what it deletes there does not hang on the checks, and nothing goes wrong
without them that would not go wrong with them (`Scanned.dismissed`). So a conversion that succeeds
with checks succeeds without. Its edits are the deletions of the other one, and its text is that of
the other one with everything cut out again that was put in (`convert_dismissed`).
-/

open List Posonly.Decorator Posonly.Edit

namespace Posonly.Conversion

open Posonly.Signature

/-- A job with its checks dismissed. -/
def Job.dismissed (j : Job) : Job := ⟨j.source, { j.options with dismiss := true }⟩

variable {j : Job} {tree n : Tree} {css css' : List (List (Option Contribution))}
  {scan scan' : Scan}

/-! ## The walk without checks -/

theorem changesAt_dismissed {e : Extraction} {ctx : Context}
    (h : ContextOf j.dismissed ctx) : changesAt n e ctx = .ok [markerChange e] := by
  have hdismiss : ctx.dismiss = true := h.dismiss
  unfold changesAt
  split
  · rw [functionChanges, if_pos hdismiss]
  · rw [lambdaChanges, if_pos hdismiss]

/-- Where the walk with checks gets past a node, the one without does. -/
theorem Contributes.not_stumbles {c? : Option Contribution} (h : Contributes j n c?)
    (hvalid : ∀ c, c? = some c → c.extraction.span.start ≤ c.extraction.span.stop) :
    ¬ Stumbles j.dismissed n := by
  intro hstumbles
  cases hstumbles with
  | @misplaced scope fault hsig =>
    obtain ⟨x?, hx, _⟩ := h.extracted scope
    exact absurd (hx.symm.trans hsig) (by simp)
  | unplaced _ hctx hch =>
    rw [changesAt_dismissed hctx] at hch
    cases hch
  | @rangeless scope e ctx changes c hsig hctx hch hc hbad =>
    rw [changesAt_dismissed hctx, Except.ok.injEq] at hch
    rw [← hch, mem_singleton] at hc
    -- the range is that of the marker, which the walk with checks has taken in
    obtain ⟨x?, hx, hspan⟩ := h.extracted scope
    rw [show signatureAt j.source n scope = .ok (some e) from hsig, Except.ok.injEq] at hx
    subst hx
    obtain ⟨d, rfl, hd⟩ : ∃ d, c? = some d ∧ d.extraction.span = e.span := by
      cases c? with
      | none => cases hspan
      | some d => exact ⟨d, rfl, by simpa using hspan.symm⟩
    have hle := hvalid d rfl
    rw [hd] at hle
    refine hbad ?_
    rw [hc, markerChange]
    dsimp only
    omega

theorem Scanned.span_le (h : Scanned j tree css scan) {c : Contribution}
    (hc : c ∈ marked css.flatten) : c.extraction.span.start ≤ c.extraction.span.stop := by
  have hmem : markerChange c.extraction ∈
      (scan.edits.edits.filter fun e => e.origin = .marker).map change := by
    rw [h.marker_edits]
    exact mem_map_of_mem hc
  obtain ⟨e, he, hchange⟩ := mem_map.mp hmem
  have hvalid := h.valid e (mem_filter.mp he).1
  simp only [change, markerChange, Change.mk.injEq, Int.natCast_inj] at hchange
  unfold Valid at hvalid
  omega

theorem Scanned.dismissed (h : Scanned j tree css scan) :
    ∃ css' scan', visitScript j.dismissed tree = .ok scan' ∧
      Scanned j.dismissed tree css' scan' := by
  have hspec := visitScript_spec j.dismissed tree
  cases hscan : visitScript j.dismissed tree with
  | ok scan' =>
    rw [hscan] at hspec
    obtain ⟨css', hscanned⟩ := hspec
    exact ⟨css', scan', rfl, hscanned⟩
  | error f =>
    rw [hscan] at hspec
    obtain ⟨n, hn, hstumbles⟩ := hspec.stumbles
    obtain ⟨c?, hc, hcon⟩ := exists_contribution h.contributes hn
    refine absurd hstumbles (hcon.not_stumbles ?_)
    rintro c rfl
    exact h.span_le (mem_filterMap.mpr ⟨some c, hc, rfl⟩)

section

variable (h : Scanned j tree css scan) (h' : Scanned j.dismissed tree css' scan')

include h h'

theorem Scanned.spans_eq :
    (marked css'.flatten).map (·.extraction.span) = (marked css.flatten).map (·.extraction.span) :=
  (spans_marked h'.contributes .module).trans (spans_marked h.contributes .module).symm

/-- **The edits without checks are the deletions among the edits with checks.** -/
theorem Scanned.edits_dismissed : scan'.edits.edits.map change =
      (scan.edits.edits.filter fun e => e.origin = .marker).map change := by
  have hone : ∀ c ∈ marked css'.flatten, c.changes = [markerChange c.extraction] := by
    intro c hc
    obtain ⟨n, _, hcon⟩ := exists_contributor h'.contributes hc
    cases hcon with
    | signature _ hctx hch =>
      rw [changesAt_dismissed hctx, Except.ok.injEq] at hch
      exact hch.symm
  -- a marker's change is made from its span alone
  have hmarker : ∀ cs : List Contribution, cs.map (fun c => markerChange c.extraction) =
      (cs.map (·.extraction.span)).map fun r => ⟨r.start, r.stop, [], .marker⟩ := by
    intro cs
    rw [map_map]
    rfl
  rw [h'.changes, flatMap_congr hone, h.marker_edits, ← map_eq_flatMap, hmarker, hmarker,
    h.spans_eq h']

theorem Accepted.dismissed (haccepted : Accepted j tree scan) :
    Accepted j.dismissed tree scan' where
  parsed := by
    have hany : ∀ (r : Range) (s : Scan) (cs : List Contribution),
        s.extractions = cs.map (·.extraction) → s.extractions.any (withinSpan r) =
          (cs.map (·.extraction.span)).any fun span =>
            decide (span.start ≤ r.start) && decide (r.stop ≤ span.stop) := by
      intro r s cs hs
      rw [hs, any_map, any_map]
      rfl
    rw [← haccepted.parsed]
    refine filter_congr fun r _ => ?_
    rw [hany r scan' _ h'.extractions, hany r scan _ h.extractions, h.spans_eq h']
  version := haccepted.version

end

/-! ## Results -/

/-- Edits of the result that cut out everything that was put in. -/
def Result.cuts (r : Result) (source : Text) : List Edit :=
  (inverse source r.applied).filter fun i => i.origin ≠ .marker

theorem Result.filter_applied (r : Result) : (r.applied.filter fun e => e.origin = .marker) =
      inOrder (r.edits.filter fun e => e.origin = .marker) := by
  unfold Result.applied EditSet.withDefinition
  rw [← inOrder_filter, filter_append]
  cases r.definition <;> rfl

theorem result_applied {r : Result} (hrun : j.run tree = .ok r) :
    Applicable j.source 0 r.applied ∧ r.text = splice j.source r.applied ∧
      ∀ e ∈ r.applied, e.origin ≠ .marker → e.start = e.stop := by
  obtain ⟨css, scan, hscanned, happlicable, htext, hedits⟩ := applied_of_run hrun
  refine ⟨happlicable, htext, fun e he horigin => ?_⟩
  rcases hedits e he with he | ⟨d, _, rfl⟩
  · obtain ⟨_, _, _, _, _, hmark | ⟨offset, _, hstart, hstop⟩⟩ := edit_cases hscanned he
    · exact absurd (congrArg Change.origin hmark) horigin
    · have hsame : (e.start : Int) = e.stop := hstart.trans hstop.symm
      omega
  · rfl

theorem run_dismissed {r : Result} (hrun : j.run tree = .ok r) :
    ∃ r', j.dismissed.run tree = .ok r' ∧ r'.state = r.state ∧ r'.definition = none ∧
      r'.edits.map change = (r.edits.filter fun e => e.origin = .marker).map change ∧
      r'.text = splice j.source (r.applied.filter fun e => e.origin = .marker) := by
  obtain ⟨happlicable, _, _⟩ := result_applied hrun
  obtain ⟨css, scan, _, hscanned, hfin⟩ := finished_of_run hrun
  obtain ⟨css', scan', hscan', hscanned'⟩ := hscanned.dismissed
  have hfin' := run_finished hscan' hscanned'.scopes
  have hedits := hscanned.edits_dismissed hscanned'
  have hdefinition : j.dismissed.definitionInsertion scan'.definitionAt = none := by
    rw [hscanned'.definitionAt]
    rfl
  have hnil : scan.edits.edits = [] ↔ scan'.edits.edits = [] := by
    rw [hscanned.edits_eq_nil_iff, hscanned'.edits_eq_nil_iff, ← map_eq_nil_iff,
      ← hscanned.spans_eq hscanned', map_eq_nil_iff]
  cases hfin with
  | unchanged hnone haccepted =>
    exact ⟨_, hfin'.of_nil (haccepted.dismissed hscanned hscanned') (hnil.mp hnone), rfl, rfl, rfl,
      rfl⟩
  | @assembled text hne happly hsorted haccepted =>
    -- the sorted deletions are those of the other walk, and can be applied by themselves
    have hsame : (inOrder scan'.edits.edits).map change =
        ((inOrder scan.edits.edits).filter fun e => e.origin = .marker).map change := by
      rw [map_change_inOrder hedits, inOrder_filter]
    have hmarkers := Result.filter_applied ⟨text, .assembled, inOrder scan.edits.edits,
      j.definitionInsertion scan.definitionAt, j.options⟩
    dsimp only at hmarkers
    rw [inOrder_filter, inOrder_inOrder] at hmarkers
    rw [← hmarkers] at hsame
    have happlicable' : Applicable j.dismissed.source 0
        (inOrder (scan'.edits.withDefinition
          (j.dismissed.definitionInsertion scan'.definitionAt))) := by
      rw [hdefinition]
      exact (happlicable.sublist filter_sublist).congr hsame.symm
    have hsorted' : scan'.edits.sorted = .ok (inOrder scan'.edits.edits) := by
      rw [hdefinition] at happlicable'
      exact EditSet.ordered_of_applicable happlicable'
    refine ⟨_, hfin'.of_apply (haccepted.dismissed hscanned hscanned') (fun h => hne (hnil.mpr h))
      (EditSet.apply_of_applicable happlicable') hsorted', rfl, hdefinition, ?_, ?_⟩
    · rw [hsame, hmarkers]
    · dsimp only
      rw [hdefinition]
      exact spliceFrom_congr hsame

/-- **Dismissed and checked conversions agree.** If a conversion with checks succeeds and does not
lint, the one without them succeeds in the same state. Its edits are the deletions of the other, in
the same order. All else that the other did was to put text in, which stands in its text where the
inverses of its edits say; and with that cut out the two texts are the same. -/
theorem convert_dismissed (parse : Text → Tree) (source : Text) (values : OptionValues) (r : Result)
    (hlint : values.lint.getD false = false)
    (hrun : convert parse source { values with dismiss := some false } = .ok r) :
    ∃ r', convert parse source { values with dismiss := some true } = .ok r' ∧
      r'.state = r.state ∧ r'.definition = none ∧
      r'.edits.map change = (r.edits.filter fun e => e.origin = .marker).map change ∧
      List.Forall₂ (fun e i => i.origin = e.origin ∧ r.text.slice i.start i.stop = e.text ∧
        (e.origin ≠ .marker → e.start = e.stop ∧ i.text = []))
        r.applied (inverse source r.applied) ∧
      r'.text = splice r.text (r.cuts source) := by
  obtain ⟨options, hres, hresolved⟩ := convert_eq_ok_iff.mp hrun
  have hjob := (convertResolved_eq_ok_iff.mp hresolved).1
  obtain ⟨happlicable, htext, hinsertions⟩ := result_applied hjob
  obtain ⟨r', hrun', hstate, hdefinition, hedits, htext'⟩ := run_dismissed hjob
  have hres' := OptionValues.resolve_eq_ok_iff.mp hres
  have hdismissed : { values with dismiss := some true }.resolve source =
      .ok { options with dismiss := true } :=
    OptionValues.resolve_eq_ok_iff.mpr { hres' with dismiss := rfl }
  refine ⟨r', convert_eq_ok_iff.mpr ⟨_, hdismissed, convertResolved_eq_ok_iff.mpr ⟨hrun', ?_⟩⟩,
    hstate, hdefinition, hedits, ?_, ?_⟩
  · intro hon
    rw [show options.lint = false from hres'.lint.trans hlint] at hon
    cases hon
  · rw [htext]
    have hboth := (List.forall₂_and_left _ _).mpr ⟨hinsertions, inverse_spec happlicable⟩
    refine hboth.imp fun e i ⟨hinsertion, horigin, hback, hput⟩ => ⟨horigin, hput, fun hne => ?_⟩
    -- what an insertion took out is nothing
    have hempty := hinsertion hne
    refine ⟨hempty, ?_⟩
    rw [hback, hempty, Text.slice, List.drop_take, Nat.sub_self, List.take_zero]
  · rw [htext', htext, Result.cuts,
      splice_inverse_filter (fun o => decide (o ≠ .marker)) happlicable]
    simp

theorem convert_dismissed_nested :
    ∃ r r', convert (fun _ => nestedTree) nestedSource { dismiss := some false } = .ok r ∧
      convert (fun _ => nestedTree) nestedSource { dismiss := some true } = .ok r' ∧
      r.state = .assembled ∧ r.applied.length = 6 ∧ r'.edits.length = 2 ∧
      r'.text = splice r.text (r.cuts nestedSource) := by
  have hfacts : (convert (fun _ => nestedTree) nestedSource { dismiss := some false }).toOption.map
      (fun r => (r.state, r.applied.length,
        (r.edits.filter fun e => e.origin = .marker).length)) =
      some (.assembled, 6, 2) := by decide +kernel
  obtain ⟨r, hrun, hfacts⟩ := ok_of_toOption hfacts
  injection hfacts with hstate hfacts
  injection hfacts with hsix htwo
  obtain ⟨r', hrun', _, _, hedits, _, htext⟩ :=
    convert_dismissed (fun _ => nestedTree) nestedSource {} r rfl hrun
  have hlength := congrArg List.length hedits
  rw [List.length_map, List.length_map, htwo] at hlength
  exact ⟨r, r', hrun, hrun', hstate, hsix, hlength, htext⟩

end Posonly.Conversion
