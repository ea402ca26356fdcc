import Posonly.Proofs.Conversion.Preservation
import Posonly.Signature.Survey

/-!
# No marker is missed

The walk goes in and out of scopes and takes a signature in behind everything below it. A survey of
the same tree knows nothing of scopes and goes through the nodes in document order. Both look at the
same nodes, each once, and the scope that a signature stands in has no part in what is deleted
there. So the markers that a conversion takes out are those that the survey finds
(`convert_complete`).
-/

open List

namespace Posonly.Signature

/-- What was extracted from a signature, if it has a marker and that is well placed. -/
def Finding.extraction? (f : Finding) : Option Extraction := f.result.toOption.join

end Posonly.Signature

namespace Posonly.Conversion

open Posonly.Signature

/-! ## Surveys -/

/-- What is extracted at a node, if it has a marker and that is well placed. -/
def extractionAt (source : Text) (scope : ScopeKind) (n : Tree) : Option Extraction :=
  (signatureAt source n scope).toOption.join

variable {source : Text} {scope : ScopeKind} {n : Tree}

theorem finding?_cases (source : Text) (scope : ScopeKind) (n : Tree) :
    (∃ f, finding? source scope n = some f ∧ f.result = signatureAt source n scope) ∨
      (finding? source scope n = none ∧ signatureAt source n scope = .ok none) := by
  unfold finding? signatureAt
  by_cases hfun : n.kind = .functionDefinition
  · rw [if_pos hfun, hfun]
    cases n.child? .paramList with
    | none => exact .inr ⟨rfl, rfl⟩
    | some params => exact .inl ⟨_, rfl, rfl⟩
  · rw [if_neg hfun]
    by_cases hlam : n.kind = .lambdaExpression
    · rw [if_pos hlam, hlam]
      exact .inl ⟨_, rfl, rfl⟩
    · rw [if_neg hlam]
      refine .inr ⟨rfl, ?_⟩
      split
      · exact absurd (by assumption) hfun
      · exact absurd (by assumption) hlam
      · rfl

variable {f : Finding} {ns : List Tree} {cs : List (Option Contribution)} {r : Result} {j : Job}

theorem mem_survey {tree : Tree} (hf : f ∈ survey source scope tree) :
    ∃ n ∈ tree.preorder, f.result = signatureAt source n scope := by
  obtain ⟨n, hn, hfn⟩ := mem_filterMap.mp hf
  rcases finding?_cases source scope n with ⟨g, hg, hres⟩ | ⟨hnone, _⟩
  · rw [hg] at hfn
    injection hfn with hfn
    exact ⟨n, hn, hfn ▸ hres⟩
  · rw [hnone] at hfn
    cases hfn

theorem survey_unmarked_iff {tree : Tree} : (∀ f ∈ survey source scope tree, f.result = .ok none) ↔
      ∀ n ∈ tree.preorder, signatureAt source n scope = .ok none := by
  constructor
  · intro h n hn
    rcases finding?_cases source scope n with ⟨g, hg, hres⟩ | ⟨_, hnone⟩
    · rw [← hres]
      exact h g (mem_filterMap.mpr ⟨n, hn, hg⟩)
    · exact hnone
  · intro h f hf
    obtain ⟨n, hn, hres⟩ := mem_survey hf
    rw [hres, h n hn]

theorem filterMap_survey (tree : Tree) : (survey source scope tree).filterMap Finding.extraction? =
      tree.preorder.filterMap (extractionAt source scope) := by
  rw [survey, filterMap_filterMap]
  refine filterMap_congr fun n _ => ?_
  rcases finding?_cases source scope n with ⟨f, hf, hres⟩ | ⟨hnone, hsig⟩
  · rw [hf, extractionAt, ← hres]
    rfl
  · rw [hnone, extractionAt, hsig]
    rfl

/-! ## The walk against the survey -/

theorem Contributes.extracted {c? : Option Contribution} (h : Contributes j n c?)
    (scope : ScopeKind) :
    ∃ x?, signatureAt j.source n scope = .ok x? ∧ x?.map (·.span) = c?.map (·.extraction.span) := by
  cases h with
  | @nothing scope' hsig | @signature scope' e ctx changes hsig =>
    rw [signatureAt_scope _ _ scope' scope, hsig]
    exact ⟨_, rfl, rfl⟩

theorem spans_marked (h : Forall₂ (Contributes j) ns cs) (scope : ScopeKind) :
    (marked cs).map (·.extraction.span) =
      (ns.filterMap (extractionAt j.source scope)).map (·.span) := by
  induction h with
  | nil => rfl
  | @cons n c? ns cs hn _ ih =>
    -- the node has a span in both lists or in neither
    obtain ⟨x?, hx, hspan⟩ := hn.extracted scope
    have hhead : extractionAt j.source scope n = x? := by
      rw [extractionAt, hx]
      rfl
    cases c? with
    | none =>
      cases x? with
      | none => simpa [marked, hhead] using ih
      | some x => cases hspan
    | some c =>
      cases x? with
      | none => cases hspan
      | some x =>
        have hspan : x.span = c.extraction.span := by simpa using hspan
        simpa [marked, hhead, hspan] using ih

theorem Contributes.filter_marker {c : Contribution} (h : Contributes j n (some c)) :
    (c.changes.filter fun d => d.origin = .marker) = [Decorator.markerChange c.extraction] := by
  cases h with
  | @signature scope e ctx changes hsig hctx hch =>
    obtain ⟨before, after, rfl, hins⟩ :=
      changesAt_cases hctx.source (isSignature_of_signatureAt hsig) hch
    have hother : ∀ d ∈ before ++ after, ¬ decide (d.origin = .marker) = true := by
      intro d hd
      obtain ⟨offset, hat, _⟩ := hins d hd
      rcases hat.origin_cases with h | h | h <;> simp [h]
    rw [filter_append, filter_cons_of_pos (by simp [Decorator.markerChange]),
      filter_eq_nil_iff.mpr fun d hd => hother d (mem_append_left _ hd),
      filter_eq_nil_iff.mpr fun d hd => hother d (mem_append_right _ hd)]
    rfl

variable {j : Job} {tree : Tree} {css : List (List (Option Contribution))} {scan : Scan}

/-- **The edits that take markers out** are one for each contribution. -/
theorem Scanned.marker_edits (h : Scanned j tree css scan) :
    (scan.edits.edits.filter fun e => e.origin = .marker).map Edit.change =
      (marked css.flatten).map fun c => Decorator.markerChange c.extraction := by
  have hcomm : (scan.edits.edits.filter fun e => e.origin = .marker).map Edit.change =
      (scan.edits.edits.map Edit.change).filter fun d => d.origin = .marker := by
    rw [filter_map]
    rfl
  rw [hcomm, h.changes, filter_flatMap, map_eq_flatMap]
  refine flatMap_congr fun c hc => ?_
  obtain ⟨n, _, hcon⟩ := exists_contributor h.contributes hc
  exact hcon.filter_marker

theorem Scanned.edits_eq_nil_iff (h : Scanned j tree css scan) :
    scan.edits.edits = [] ↔ marked css.flatten = [] := by
  constructor
  · intro hnil
    have hmark := h.marker_edits
    rw [hnil] at hmark
    exact map_eq_nil_iff.mp hmark.symm
  · intro hnil
    have hchanges := h.changes
    rw [hnil] at hchanges
    exact map_eq_nil_iff.mp hchanges

/-- **The walk finds what the survey does**: the spans of its contributions are those of the
survey, in another order. -/
theorem marked_perm_survey {t : Tree} (h : Forall₂ (Contributes j) t.postorder cs)
    (scope : ScopeKind) : ((marked cs).map (·.extraction.span)).Perm
      (((survey j.source scope t).filterMap Finding.extraction?).map (·.span)) := by
  rw [spans_marked h scope, filterMap_survey]
  exact (t.postorder_perm.filterMap _).map _

/-- A root that is no signature contributes nothing, so the same holds of a whole source. -/
theorem Scanned.spans_perm (h : Scanned j tree css scan) (hroot : tree.kind = .script)
    (scope : ScopeKind) :
    ((marked css.flatten).map (·.extraction.span)).Perm
      (((survey j.source scope tree).filterMap Finding.extraction?).map (·.span)) := by
  have hnone : signatureAt j.source tree scope = .ok none := by
    unfold signatureAt
    rw [hroot]
  -- in postorder the root comes behind all statements
  have hall : Forall₂ (Contributes j) tree.postorder (css.flatten ++ [none]) := by
    rw [Tree.postorder_eq]
    exact rel_append h.contributes (.cons (.nothing hnone) .nil)
  simpa [marked] using marked_perm_survey hall scope

theorem exists_contribution (h : Forall₂ (Contributes j) ns cs) (hn : n ∈ ns) :
    ∃ c? ∈ cs, Contributes j n c? := by
  induction h with
  | nil => cases hn
  | @cons m c? ns cs hfirst _ ih =>
    rcases mem_cons.mp hn with rfl | hn
    · exact ⟨c?, mem_cons_self .., hfirst⟩
    · obtain ⟨d?, hd, hcon⟩ := ih hn
      exact ⟨d?, mem_cons_of_mem _ hd, hcon⟩

theorem Scanned.survey_ok (h : Scanned j tree css scan) (hroot : tree.kind = .script)
    (hf : f ∈ survey j.source scope tree) : ∃ x?, f.result = .ok x? := by
  obtain ⟨n, hn, hres⟩ := mem_survey hf
  rw [hres]
  rw [Tree.preorder_eq] at hn
  rcases mem_cons.mp hn with rfl | hn
  · unfold signatureAt
    rw [hroot]
    exact ⟨none, rfl⟩
  · obtain ⟨t, ht, hnt⟩ := Tree.mem_preorderAll.mp hn
    obtain ⟨c?, _, hcon⟩ := exists_contribution h.contributes
      (Tree.mem_postorderAll.mpr ⟨t, ht, Tree.mem_postorder.mpr hnt⟩)
    obtain ⟨x?, hx, _⟩ := hcon.extracted scope
    exact ⟨x?, hx⟩

theorem Scanned.marked_eq_nil_iff (h : Scanned j tree css scan) (hroot : tree.kind = .script)
    (scope : ScopeKind) :
    marked css.flatten = [] ↔ ∀ f ∈ survey j.source scope tree, f.result = .ok none := by
  have hperm := h.spans_perm hroot scope
  constructor
  · intro hnil f hf
    rw [hnil] at hperm
    have hnone := filterMap_eq_nil_iff.mp
      (map_eq_nil_iff.mp (nil_perm.mp hperm)) f hf
    obtain ⟨x?, hx⟩ := h.survey_ok hroot hf
    rw [Finding.extraction?, hx] at hnone
    rw [hx, show x? = none from hnone]
  · intro hfree
    have hnil : (survey j.source scope tree).filterMap Finding.extraction? = [] :=
      filterMap_eq_nil_iff.mpr fun f hf => by rw [Finding.extraction?, hfree f hf]; rfl
    rw [hnil] at hperm
    exact map_eq_nil_iff.mp (perm_nil.mp hperm)

/-! ## Results -/

theorem Finished.edits_perm (h : Finished j tree scan (.ok r)) : r.edits.Perm scan.edits.edits := by
  cases h with
  | unchanged hnil => rw [hnil]
  | assembled => exact Edit.inOrder_perm _

theorem Finished.unchanged_iff (h : Finished j tree scan (.ok r)) :
    r.state = .unchanged ↔ scan.edits.edits = [] := by
  cases h with
  | unchanged hnil => simp [hnil]
  | assembled hne => simp [hne]

/-- The part of a source that an edit is made to. -/
def edited (e : Edit) : Range := ⟨e.start, e.stop⟩

theorem Scanned.marker_ranges (h : Scanned j tree css scan) (hfin : Finished j tree scan (.ok r)) :
    ((r.edits.filter fun e => e.origin = .marker).map edited).Perm
      ((marked css.flatten).map (·.extraction.span)) := by
  have hranges : ((scan.edits.edits.filter fun e => e.origin = .marker).map edited) =
      (marked css.flatten).map (·.extraction.span) := by
    have hmap := congrArg (map fun d : Change => (⟨d.start.toNat, d.stop.toNat⟩ : Range))
      h.marker_edits
    rwa [map_map, map_map] at hmap
  rw [← hranges]
  exact (hfin.edits_perm.filter _).map _

theorem Scanned.marker_text (h : Scanned j tree css scan) {e : Edit} (he : e ∈ scan.edits.edits)
    (horigin : e.origin = .marker) : e.text = [] := by
  have hmem : e.change ∈ (scan.edits.edits.filter fun e => e.origin = .marker).map Edit.change :=
    mem_map_of_mem (mem_filter.mpr ⟨he, by simpa using horigin⟩)
  rw [h.marker_edits] at hmem
  obtain ⟨c, _, hc⟩ := mem_map.mp hmem
  exact (congrArg Change.text hc).symm

theorem marker_in_span {x : Extraction} (htree : tree.WellFormed source.length)
    (hn : n ∈ tree.preorder) (hx : signatureAt source n scope = .ok (some x)) :
    x.span.start ≤ x.marker.start ∧ x.marker.start < x.span.stop ∧
      source[x.marker.start]? = some 0x2F := by
  have hord : ∀ m ∈ n.preorder, m.Orderly := fun m hm => htree.2 m (Tree.mem_preorder_trans hn hm)
  have hlen : n.stop ≤ source.length := Nat.le_trans (Tree.preorder_range htree.2 hn).2.2 htree.1
  obtain ⟨c?, hrun⟩ := signatureAt_run hord hlen hx
  exact ⟨hrun.start_le, hrun.lt_stop, hrun.marker⟩

/-- **A conversion misses no marker and takes none out twice.** Whatever the scope they are looked
for in, the signatures of a source that converts have their markers well placed, and the ranges that
its edits take markers out of are those that a survey finds. Nothing is changed exactly if the
survey finds no marker; otherwise the text is that of the source with the edits made, so that no
unit of a marker found is left. -/
theorem convert_complete (parse : Text → Tree) (source : Text) (values : OptionValues) (r : Result)
    (scope : ScopeKind) (hrun : convert parse source values = .ok r)
    (hroot : (parse source).kind = .script) :
    (∀ f ∈ survey source scope (parse source), ∃ x?, f.result = .ok x?) ∧
    ((r.edits.filter fun e => e.origin = .marker).map edited).Perm
      (((survey source scope (parse source)).filterMap Finding.extraction?).map (·.span)) ∧
    (r.state = .unchanged ↔ ∀ f ∈ survey source scope (parse source), f.result = .ok none) ∧
    (r.state = .unchanged → r.text = source ∧ r.edits = [] ∧ r.definition = none) ∧
    (r.state = .assembled →
      r.text = (range (source.length + 1)).flatMap fun i =>
        EditSet.definitionAt r.definition i ++ Edit.pieceAt source r.edits i) ∧
    (∀ f ∈ survey source scope (parse source), ∀ x, f.result = .ok (some x) →
      ∃ e ∈ r.edits, e.text = [] ∧ edited e = x.span ∧
        ((parse source).WellFormed source.length →
          e.covers x.marker.start = true ∧ source[x.marker.start]? = some 0x2F)) := by
  obtain ⟨options, hjob⟩ := run_of_convert hrun
  rcases run_cases ⟨source, options⟩ (parse source) with ⟨css, scan, _, hscanned, hfin⟩ |
    ⟨f, herr, _⟩
  · rw [hjob] at hfin
    have hranges := (hscanned.marker_ranges hfin).trans (hscanned.spans_perm hroot scope)
    refine ⟨fun f hf => hscanned.survey_ok hroot hf, hranges, ?_, ?_, ?_, ?_⟩
    · rw [hfin.unchanged_iff, hscanned.edits_eq_nil_iff, hscanned.marked_eq_nil_iff hroot scope]
    · intro hstate
      cases hfin with
      | unchanged => exact ⟨rfl, rfl, rfl⟩
      | assembled => exact absurd hstate (by simp)
    · intro hstate
      cases hfin with
      | unchanged => exact absurd hstate (by simp)
      | assembled hne happly hsorted =>
        obtain ⟨happlicable, htext⟩ := scan.edits.apply_applicable hscanned.valid happly
        rw [← EditSet.inOrder_withDefinition] at happlicable htext
        rw [htext, Edit.splice_inOrder happlicable]
        exact flatMap_congr fun i _ => EditSet.pieceAt_withDefinition source _ _ i
    · -- the span of what was found is among the ranges of the edits
      intro f hf x hx
      have hspan : x.span ∈ ((r.edits.filter fun e => e.origin = .marker).map edited) := by
        refine hranges.mem_iff.mpr (mem_map_of_mem (mem_filterMap.mpr ⟨f, hf, ?_⟩))
        rw [Finding.extraction?, hx]
        rfl
      obtain ⟨e, he, hex⟩ := mem_map.mp hspan
      obtain ⟨he, horigin⟩ := mem_filter.mp he
      refine ⟨e, he, ?_, hex, fun htree => ?_⟩
      · exact hscanned.marker_text (hfin.edits_perm.mem_iff.mp he) (by simpa using horigin)
      · obtain ⟨n, hn, hres⟩ := mem_survey hf
        obtain ⟨hlow, hhigh, hunit⟩ := marker_in_span htree hn (hres.symm.trans hx)
        rw [← hex] at hlow hhigh
        exact ⟨by simpa [Edit.covers] using ⟨hlow, hhigh⟩, hunit⟩
  · rw [herr] at hjob
    exact absurd hjob (by simp)

theorem convert_complete_nested :
    ∃ r, convert (fun _ => nestedTree) nestedSource {} = .ok r ∧ nestedTree.kind = .script ∧
      r.state = .assembled ∧
      ((r.edits.filter fun e => e.origin = .marker).map edited).Perm [⟨9, 12⟩, ⟨22, 25⟩] := by
  have hstate : (convert (fun _ => nestedTree) nestedSource {}).toOption.map (·.state) =
      some .assembled := by decide +kernel
  have hspans : ((survey nestedSource .module nestedTree).filterMap Finding.extraction?).map
      (·.span) = [⟨9, 12⟩, ⟨22, 25⟩] := by decide +kernel
  obtain ⟨r, hrun, hstate⟩ := ok_of_toOption hstate
  obtain ⟨_, hperm, _⟩ := convert_complete (fun _ => nestedTree) nestedSource {} r .module hrun rfl
  rw [hspans] at hperm
  exact ⟨r, hrun, rfl, hstate, hperm⟩

end Posonly.Conversion
