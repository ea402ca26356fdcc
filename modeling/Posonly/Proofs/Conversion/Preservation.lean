import Posonly.Conversion.Convert
import Posonly.Proofs.Conversion.Script

/-!
# A conversion preserves its source

Everything a conversion does to a text is in its edits, and these come in two kinds: text put in
between two units, and a marker taken out together with blanks and at most one comma. So whatever
else stands in the source stands in the result as well, and the source can be had back from the
result and the edits (`convert_preserves`).
-/

open List Posonly.Edit

namespace Posonly.Conversion

open Posonly.Signature

/-! ## What a conversion does after the walk -/

/-- The source has no errors beside those that are deleted, and is of its version. -/
structure Accepted (j : Job) (tree : Tree) (scan : Scan) : Prop where
  parsed : (tree.errors.filter fun r => !scan.extractions.any (withinSpan r)) = []
  version : Feature.newerThan j.source tree j.options.version = []

/-- The ways in which a conversion can go on when the walk through its tree is done. -/
inductive Finished (j : Job) (tree : Tree) (scan : Scan) : Except Failure Result → Prop where
  | rejected {f : Failure} : f.cause.kind = .parse → ¬ Accepted j tree scan →
      Finished j tree scan (.error f)
  | unchanged : scan.edits.edits = [] → Accepted j tree scan →
      Finished j tree scan (.ok ⟨j.source, .unchanged, [], none, j.options⟩)
  | assembled {text : Text} : scan.edits.edits ≠ [] →
      scan.edits.apply j.source (j.definitionInsertion scan.definitionAt) = .ok text →
      scan.edits.sorted = .ok (inOrder scan.edits.edits) → Accepted j tree scan →
      Finished j tree scan (.ok ⟨text, .assembled, inOrder scan.edits.edits,
        j.definitionInsertion scan.definitionAt, j.options⟩)
  | inapplicable {f : EditFault} :
      scan.edits.apply j.source (j.definitionInsertion scan.definitionAt) = .error f ∨
        scan.edits.sorted = .error f →
      scan.edits.edits ≠ [] → Finished j tree scan (.error (j.failure (.edit f)))

theorem assertParsed_cases (j : Job) (errors : List Range) :
    (j.assertParsed errors = .ok () ∧ errors = []) ∨
      ∃ f, j.assertParsed errors = .error f ∧ f.cause.kind = .parse ∧ errors ≠ [] := by
  unfold Job.assertParsed
  cases errors with
  | nil => exact .inl ⟨rfl, rfl⟩
  | cons first others => exact .inr ⟨_, rfl, rfl, by simp⟩

theorem assertVersion_cases (j : Job) (tree : Tree) :
    (j.assertVersion tree = .ok () ∧ Feature.newerThan j.source tree j.options.version = []) ∨
      ∃ f, j.assertVersion tree = .error f ∧ f.cause.kind = .parse ∧
        Feature.newerThan j.source tree j.options.version ≠ [] := by
  unfold Job.assertVersion
  dsimp only
  cases Feature.newerThan j.source tree j.options.version with
  | nil => exact .inl ⟨rfl, rfl⟩
  | cons first others => exact .inr ⟨_, rfl, rfl, by simp⟩

variable {j : Job} {tree : Tree} {scan : Scan} {parse : Text → Tree} {source : Text} {r : Result}
  {values : OptionValues} {css : List (List (Option Contribution))} {e : Edit}

/-- **After the walk** a conversion can only find the source invalid or its edits inapplicable. -/
theorem run_finished (hscan : visitScript j tree = .ok scan) (hscopes : scan.scopes.scopes = []) :
    Finished j tree scan (j.run tree) := by
  have hdepth : scan.scopes.depth = 0 := by rw [ScopeStack.depth, hscopes]; rfl
  unfold Job.run
  rw [hscan]
  rw [show j.advance .parsed .scanning = .ok .scanning from rfl]
  simp only [bind, Except.bind, hdepth]
  rw [if_neg (by simp)]
  -- errors inside a deleted marker do not count
  rcases assertParsed_cases j
    (tree.errors.filter fun r => !scan.extractions.any (withinSpan r)) with
    ⟨hp, hparsed⟩ | ⟨f, hp, hkind, hbad⟩
  · rw [hp]
    dsimp only
    rcases assertVersion_cases j tree with ⟨hv, hversion⟩ | ⟨f, hv, hkind, hbad⟩
    · rw [hv]
      dsimp only
      by_cases hsize : scan.edits.size = 0
      · rw [if_pos hsize]
        exact .unchanged (length_eq_zero_iff.mp hsize) ⟨hparsed, hversion⟩
      · rw [if_neg hsize]
        have hne : scan.edits.edits ≠ [] := fun h => hsize (by rw [EditSet.size, h]; rfl)
        rw [show j.advance .scanning .editing = .ok .editing from rfl]
        dsimp only
        cases happly : scan.edits.apply j.source (j.definitionInsertion scan.definitionAt) with
        | error f => exact .inapplicable (.inl happly) hne
        | ok text =>
          cases hsorted : scan.edits.sorted with
          | error f => exact .inapplicable (.inr hsorted) hne
          | ok es =>
            obtain ⟨_, rfl⟩ := EditSet.ordered_eq_ok_iff.mp hsorted
            exact .assembled hne happly hsorted ⟨hparsed, hversion⟩
    · rw [hv]
      exact .rejected hkind fun h => hbad h.version
  · rw [hp]
    exact .rejected hkind fun h => hbad h.parsed

section

variable {j : Job} {tree : Tree} {scan : Scan} {x : Except Failure Result}
  (h : Finished j tree scan x) (haccepted : Accepted j tree scan)

include h haccepted

theorem Finished.of_nil (hnil : scan.edits.edits = []) :
    x = .ok ⟨j.source, .unchanged, [], none, j.options⟩ := by
  cases h with
  | rejected _ hno => exact absurd haccepted hno
  | unchanged => rfl
  | assembled hne | inapplicable _ hne => exact absurd hnil hne

theorem Finished.of_apply {text : Text} (hne : scan.edits.edits ≠ [])
    (happly : scan.edits.apply j.source (j.definitionInsertion scan.definitionAt) = .ok text)
    (hsorted : scan.edits.sorted = .ok (inOrder scan.edits.edits)) :
    x = .ok ⟨text, .assembled, inOrder scan.edits.edits,
      j.definitionInsertion scan.definitionAt, j.options⟩ := by
  cases h with
  | rejected _ hno => exact absurd haccepted hno
  | unchanged hnil => exact absurd hnil hne
  | assembled _ happly' =>
    rw [happly, Except.ok.injEq] at happly'
    rw [happly']
  | inapplicable hfault =>
    rw [happly, hsorted] at hfault
    exact absurd hfault (by simp)

end

/-- **What may come of a conversion**: the source is malformed, or it is walked through and then the
conversion goes on. -/
theorem run_cases (j : Job) (tree : Tree) :
    (∃ css scan, visitScript j tree = .ok scan ∧ Scanned j tree css scan ∧
        Finished j tree scan (j.run tree)) ∨
      ∃ f, j.run tree = .error f ∧
        ((∀ n ∈ Tree.postorderAll tree.children, SpanValid j n) → f.cause.kind = .malformed) := by
  have hwalk := visitScript_spec j tree
  cases hscan : visitScript j tree with
  | ok scan =>
    rw [hscan] at hwalk
    obtain ⟨css, hscanned⟩ := hwalk
    exact .inl ⟨css, scan, rfl, hscanned, run_finished hscan hscanned.scopes⟩
  | error f =>
    rw [hscan] at hwalk
    refine .inr ⟨f, ?_, hwalk.malformed⟩
    unfold Job.run
    rw [hscan]
    rfl

theorem finished_of_run (hrun : j.run tree = .ok r) :
    ∃ css scan, visitScript j tree = .ok scan ∧ Scanned j tree css scan ∧
      Finished j tree scan (.ok r) := by
  rcases run_cases j tree with ⟨css, scan, hscan, hscanned, hfin⟩ | ⟨f, herr, _⟩
  · rw [hrun] at hfin
    exact ⟨css, scan, hscan, hscanned, hfin⟩
  · rw [hrun] at herr
    cases herr

theorem convertResolved_eq_ok_iff {options : Options} :
    convertResolved parse source options = .ok r ↔
      Job.run ⟨source, options⟩ (parse source) = .ok r ∧
        (options.lint = true → r.state = .assembled → verify parse r.text options = .ok ()) := by
  unfold convertResolved
  rw [bind_eq_ok]
  constructor
  · rintro ⟨r', hrun, h⟩
    split at h
    · obtain ⟨_, hverify, h⟩ := bind_eq_ok.mp h
      injection h with h
      exact ⟨h ▸ hrun, fun _ _ => h ▸ hverify⟩
    · rename_i hcond
      injection h with h
      exact ⟨h ▸ hrun, fun hlint hstate => absurd ⟨hlint, h ▸ hstate⟩ hcond⟩
  · rintro ⟨hrun, hverify⟩
    refine ⟨r, hrun, ?_⟩
    split
    · rename_i hcond
      exact bind_eq_ok.mpr ⟨_, hverify hcond.1 hcond.2, rfl⟩
    · rfl

theorem convert_eq_ok_iff : convert parse source values = .ok r ↔
      ∃ options, values.resolve source = .ok options ∧
        convertResolved parse source options = .ok r := by
  unfold convert
  cases values.resolve source with
  | error e => simp
  | ok options => simp [mapError_eq_ok]

theorem run_of_convert (h : convert parse source values = .ok r) :
    ∃ options : Options, Job.run ⟨source, options⟩ (parse source) = .ok r := by
  obtain ⟨options, _, hr⟩ := convert_eq_ok_iff.mp h
  exact ⟨options, (convertResolved_eq_ok_iff.mp hr).1⟩

/-! ## Edits -/

/-- What an edit may do to a source without losing any of it: put text in, or take out one marker
with padding and at most one comma. -/
inductive Harmless (source : Text) (e : Edit) : Prop where
  | insertion : e.start = e.stop →
      e.origin = .decorator ∨ e.origin = .wrapOpen ∨ e.origin = .wrapClose → Harmless source e
  | deletion : e.origin = .marker → e.text = [] → e.start < e.stop → e.stop ≤ source.length →
      (source.slice e.start e.stop).count 0x2F = 1 →
      (source.slice e.start e.stop).count 0x2C ≤ 1 →
      (∀ u ∈ source.slice e.start e.stop, u = 0x2F ∨ u = 0x2C ∨ Text.isPadding u = true) →
      Harmless source e

theorem exists_contributor {ns : List Tree} {cs : List (Option Contribution)}
    (h : List.Forall₂ (Contributes j) ns cs) {c : Contribution} (hc : c ∈ marked cs) :
    ∃ n ∈ ns, Contributes j n (some c) := by
  induction h with
  | nil => cases hc
  | @cons n c' ns cs hn _ ih =>
    have hc : c' = some c ∨ c ∈ marked cs := by
      cases c' <;> simp_all [marked, eq_comm]
    rcases hc with rfl | hc
    · exact ⟨n, mem_cons_self .., hn⟩
    · obtain ⟨m, hm, hcon⟩ := ih hc
      exact ⟨m, mem_cons_of_mem _ hm, hcon⟩

theorem Scanned.mem_marked (h : Scanned j tree css scan) (he : e ∈ scan.edits.edits) :
    ∃ c ∈ marked css.flatten, e.change ∈ c.changes := by
  have hmem : e.change ∈ (marked css.flatten).flatMap (·.changes) := by
    rw [← h.changes]
    exact mem_map_of_mem he
  exact mem_flatMap.mp hmem

/-- **Where an edit comes from**: it takes out the marker of a signature, or puts text in around
one. -/
theorem edit_cases (h : Scanned j tree css scan) (he : e ∈ scan.edits.edits) :
    ∃ n ∈ Tree.postorderAll tree.children, ∃ scope x, signatureAt j.source n scope = .ok (some x) ∧
        (e.change = Decorator.markerChange x ∨ Inserted j.source n e.change) := by
  obtain ⟨c, hc, hec⟩ := h.mem_marked he
  obtain ⟨n, hn, hcon⟩ := exists_contributor h.contributes hc
  obtain ⟨⟨scope, hsig⟩, hcases⟩ := hcon.mem_changes hec
  exact ⟨n, hn, scope, c.extraction, hsig, hcases⟩

theorem walked_orderly {n : Tree} {length : Nat} (h : tree.WellFormed length)
    (hn : n ∈ Tree.postorderAll tree.children) :
    (∀ m ∈ n.preorder, m.Orderly) ∧ n.stop ≤ length := by
  obtain ⟨t, ht, hnt⟩ := Tree.mem_postorderAll.mp hn
  have hmem := Tree.mem_preorder_of_child ht (Tree.mem_postorder.mp hnt)
  refine ⟨fun m hm => h.2 m (Tree.mem_preorder_trans hmem hm), ?_⟩
  exact Nat.le_trans (Tree.preorder_range h.2 hmem).2.2 h.1

theorem harmless_of_scanned (h : Scanned j tree css scan)
    (htree : tree.WellFormed j.source.length) (he : e ∈ scan.edits.edits) :
    Harmless j.source e := by
  obtain ⟨n, hn, scope, x, hsig, hmark | ⟨offset, hins, hstart, hstop⟩⟩ := edit_cases h he
  · obtain ⟨hord, hlen⟩ := walked_orderly htree hn
    obtain ⟨c?, hrun⟩ := signatureAt_run hord hlen hsig
    obtain ⟨start, stop, text, origin, seq⟩ := e
    simp only [change, Decorator.markerChange, Change.mk.injEq, Int.natCast_inj] at hmark
    obtain ⟨rfl, rfl, rfl, rfl⟩ := hmark
    refine .deletion rfl rfl hrun.lt hrun.stop_le hrun.count_slash hrun.count_comma fun u hu => ?_
    have hsep := all_eq_true.mp (Text.all_slice.mpr hrun.separators) u hu
    simp only [Text.isSeparator, Bool.or_eq_true, beq_iff_eq] at hsep
    tauto
  · have heq : e.start = e.stop := by
      have : (e.start : Int) = e.stop := hstart.trans hstop.symm
      omega
    exact .insertion heq hins.origin_cases

theorem Harmless.covers_solid (h : Harmless source e) {i : Nat} (hi : source.SolidAt i) :
    e.covers i = false := by
  rw [Bool.eq_false_iff]
  intro hc
  rw [covers, Bool.and_eq_true, decide_eq_true_eq, decide_eq_true_eq] at hc
  cases h with
  | insertion heq => omega
  | deletion _ _ _ _ _ _ hall =>
    obtain ⟨u, hu, hsolid⟩ := hi
    have hmem : u ∈ source.slice e.start e.stop := by
      refine mem_of_getElem? (i := i - e.start) ?_
      rw [Text.getElem?_slice, if_pos (by omega), show e.start + (i - e.start) = i by omega, hu]
    have hsep : Text.isSeparator u = true := by
      rcases hall u hmem with rfl | rfl | hpad
      · decide
      · decide
      · exact Text.isSeparator_of_isPadding hpad
    rw [hsolid] at hsep
    cases hsep

/-! ## Results -/

/-- All that a result did to its source, in application order. -/
def Result.applied (r : Result) : List Edit :=
  inOrder (EditSet.withDefinition ⟨r.edits⟩ r.definition)

/-- **What a result is**: the source with all its edits made, which are those of the walk and the
definition. -/
theorem applied_of_run (hrun : j.run tree = .ok r) :
    ∃ css scan, Scanned j tree css scan ∧ Applicable j.source 0 r.applied ∧
      r.text = splice j.source r.applied ∧
      ∀ e ∈ r.applied, e ∈ scan.edits.edits ∨
        ∃ d, j.definitionInsertion scan.definitionAt = some d ∧ e = EditSet.definitionEdit d := by
  obtain ⟨css, scan, _, hscanned, hfin⟩ := finished_of_run hrun
  refine ⟨css, scan, hscanned, ?_⟩
  cases hfin with
  | unchanged =>
    refine ⟨⟨?_, ?_, ?_, .nil, .nil⟩, rfl, ?_⟩ <;> exact fun _ he => absurd he not_mem_nil
  | assembled _ happly =>
    obtain ⟨happlicable, htext⟩ := scan.edits.apply_applicable hscanned.valid happly
    unfold Result.applied
    dsimp only
    rw [EditSet.inOrder_withDefinition]
    refine ⟨happlicable, htext, fun e he => ?_⟩
    rcases mem_append.mp (mem_inOrder.mp he) with he | he
    · obtain ⟨d, hd, heq⟩ := Option.map_eq_some_iff.mp (Option.mem_toList.mp he)
      exact .inr ⟨d, hd, heq.symm⟩
    · exact .inl he

/-- **A conversion preserves its source.** Each edit of a result is harmless; the text is that of
the source with the edits made, the definition ahead of whatever else goes in at its offset; the
edits can be taken back; and no unit but a separator is ever deleted. -/
theorem convert_preserves (parse : Text → Tree) (source : Text) (values : OptionValues) (r : Result)
    (hrun : convert parse source values = .ok r) (hstate : r.state = .assembled)
    (htree : (parse source).WellFormed source.length) :
    (∀ e ∈ r.edits, Harmless source e) ∧
    r.text = (List.range (source.length + 1)).flatMap (fun i =>
      EditSet.definitionAt r.definition i ++ pieceAt source r.edits i) ∧
    splice r.text (inverse source r.applied) = source ∧
    ∀ e ∈ r.edits, ∀ i, source.SolidAt i → e.covers i = false := by
  obtain ⟨options, hjob⟩ := run_of_convert hrun
  rcases run_cases ⟨source, options⟩ (parse source) with ⟨css, scan, _, hscanned, hfin⟩ |
    ⟨f, herr, _⟩
  · rw [hjob] at hfin
    cases hfin with
    | unchanged => exact absurd hstate (by simp)
    | @assembled text hne happly hsorted =>
      have hharm : ∀ e ∈ inOrder scan.edits.edits, Harmless source e := fun e he =>
        harmless_of_scanned hscanned htree (mem_inOrder.mp he)
      obtain ⟨happlicable, htext⟩ := scan.edits.apply_applicable hscanned.valid happly
      rw [← EditSet.inOrder_withDefinition] at happlicable htext
      refine ⟨hharm, ?_, ?_, fun e he i hi => (hharm e he).covers_solid hi⟩
      · rw [htext, splice_inOrder happlicable]
        exact List.flatMap_congr fun i _ => EditSet.pieceAt_withDefinition source _ _ i
      · rw [htext]
        exact splice_inverse happlicable
  · rw [herr] at hjob
    exact absurd hjob (by simp)

/-- A function with a marker that has a lambda with a marker for a default. -/
def nestedSource : Text := "def f(a, /, g=lambda b, /: b): pass\n"

/-- Its tree. The marker of the lambda is an error, that of the function has no node. -/
def nestedTree : Tree :=
  .node .script ⟨0, 36⟩ [.node .functionDefinition ⟨0, 36⟩ [
    .sign "def" 0, .leaf .variableName 4 5,
    .node .paramList ⟨5, 29⟩ [.sign "(" 5, .leaf .variableName 6 7, .sign "," 7, .sign "," 10,
      .leaf .variableName 12 13, .leaf (.other "AssignOp") 13 14,
      .markedLambda 14 (.leaf .variableName 27 28), .sign ")" 28],
    .passBody 29]]

theorem convert_preserves_nested :
    ∃ r, convert (fun _ => nestedTree) nestedSource {} = .ok r ∧ r.state = .assembled ∧
      nestedTree.WellFormed nestedSource.length ∧ (∀ e ∈ r.edits, Harmless nestedSource e) ∧
      splice r.text (inverse nestedSource r.applied) = nestedSource := by
  have hstate : (convert (fun _ => nestedTree) nestedSource {}).toOption.map (·.state) =
      some .assembled := by decide +kernel
  have htree : nestedTree.WellFormed nestedSource.length := by decide +kernel
  obtain ⟨r, hrun, hstate⟩ := ok_of_toOption hstate
  obtain ⟨hharm, _, hback, _⟩ :=
    convert_preserves (fun _ => nestedTree) nestedSource {} r hrun hstate htree
  exact ⟨r, hrun, hstate, htree, hharm, hback⟩

end Posonly.Conversion
