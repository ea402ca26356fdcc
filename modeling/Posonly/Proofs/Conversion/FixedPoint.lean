import Posonly.Proofs.Conversion.Completeness
import Posonly.Proofs.Conversion.Consistency

/-!
# Linted results are fixed points

Whether a conversion changes a source is decided by the source and its tree: by the errors, the
markers and the constructs in it. Options have no part in that but for the version, and a later
version takes in more (`run_unchanged_iff`). Linting runs a conversion on the result and requires
that nothing is changed, so every later conversion leaves the result alone
(`convert_linted`).
-/

open List

namespace Posonly.Conversion

open Posonly.Signature

/-- What a conversion has nothing to do about: the source parses, is of its version, and has no
marker below its root. -/
structure Clean (source : Text) (tree : Tree) (version : PythonVersion) : Prop where
  parsed : tree.errors = []
  unmarked : ∀ n ∈ Tree.postorderAll tree.children, ¬ CarriesMarker source n
  version : Feature.newerThan source tree version = []

/-! ## Versions -/

variable {source text : Text} {v w version : PythonVersion} {r : Result} {parse : Text → Tree}
  {values : OptionValues} {options : Options}

theorem newerThan_eq_nil_of_later {tree : Tree} (hle : v.rank ≤ w.rank)
    (h : Feature.newerThan source tree v = []) : Feature.newerThan source tree w = [] := by
  refine filter_eq_nil_iff.mpr fun f hf hafter => ?_
  refine filter_eq_nil_iff.mp h f hf ?_
  rw [PythonVersion.isAfter, decide_eq_true_eq] at hafter ⊢
  omega

theorem Clean.later {tree : Tree} (h : Clean source tree v) (hle : v.rank ≤ w.rank) :
    Clean source tree w :=
  { h with version := newerThan_eq_nil_of_later hle h.version }

/-! ## Sources that stay as they are -/

variable {j : Job} {tree : Tree} {css : List (List (Option Contribution))} {scan : Scan}

theorem Scanned.marked_eq_nil_iff_unmarked (h : Scanned j tree css scan) : marked css.flatten = [] ↔
      ∀ n ∈ Tree.postorderAll tree.children, ¬ CarriesMarker j.source n := by
  constructor
  · rintro hnil n hn ⟨scope, hmark⟩
    obtain ⟨c?, hc, hcon⟩ := exists_contribution h.contributes hn
    have hnone : c? = none := filterMap_eq_nil_iff.mp hnil c? hc
    obtain ⟨x?, hx, hspan⟩ := hcon.extracted scope
    rw [hnone] at hspan
    rw [hx, show x? = none by simpa using hspan] at hmark
    exact hmark rfl
  · intro hfree
    refine eq_nil_iff_forall_not_mem.mpr fun c hc => ?_
    obtain ⟨n, hn, hcon⟩ := exists_contributor h.contributes hc
    cases hcon with
    | @signature scope e ctx changes hsig =>
      exact hfree n hn ⟨scope, by rw [hsig]; simp⟩

theorem Scanned.errors_eq (h : Scanned j tree css scan) (hnil : marked css.flatten = []) :
    (tree.errors.filter fun r => !scan.extractions.any (withinSpan r)) = tree.errors := by
  rw [h.extractions, hnil]
  exact filter_eq_self.mpr fun r _ => rfl

/-- **A source stays as it is exactly if there is nothing to do about it.** -/
theorem run_unchanged_iff (j : Job) (tree : Tree) :
    j.run tree = .ok ⟨j.source, .unchanged, [], none, j.options⟩ ↔
      Clean j.source tree j.options.version := by
  have hspec := visitScript_spec j tree
  constructor
  · intro hrun
    obtain ⟨css, scan, _, hscanned, hfin⟩ := finished_of_run hrun
    cases hfin with
    | unchanged hedits haccepted =>
      have hnil := hscanned.edits_eq_nil_iff.mp hedits
      exact
        { parsed := hscanned.errors_eq hnil ▸ haccepted.parsed
          unmarked := hscanned.marked_eq_nil_iff_unmarked.mp hnil
          version := haccepted.version }
  · intro hclean
    cases hscan : visitScript j tree with
    | error f =>
      rw [hscan] at hspec
      obtain ⟨n, hn, hstumbles⟩ := hspec.stumbles
      exact absurd hstumbles.carriesMarker (hclean.unmarked n hn)
    | ok scan =>
      rw [hscan] at hspec
      obtain ⟨css, hscanned⟩ := hspec
      have hnil := hscanned.marked_eq_nil_iff_unmarked.mpr hclean.unmarked
      have hedits := hscanned.edits_eq_nil_iff.mpr hnil
      have haccepted : Accepted j tree scan :=
        ⟨by rw [hscanned.errors_eq hnil]; exact hclean.parsed, hclean.version⟩
      exact (run_finished hscan hscanned.scopes).of_nil haccepted hedits

theorem clean_of_unchanged (hrun : j.run tree = .ok r) (hstate : r.state = .unchanged) :
    r.text = j.source ∧ Clean j.source tree j.options.version := by
  obtain ⟨css, scan, _, hscanned, hfin⟩ := finished_of_run hrun
  cases hfin with
  | unchanged => exact ⟨rfl, (run_unchanged_iff j tree).mp hrun⟩
  | assembled => cases hstate

theorem options_of_run (hrun : j.run tree = .ok r) : r.options = j.options := by
  obtain ⟨_, _, _, _, hfin⟩ := finished_of_run hrun
  cases hfin <;> rfl

theorem run_own_options (h : convert parse source values = .ok r) :
    Job.run ⟨source, r.options⟩ (parse source) = .ok r := by
  obtain ⟨options, hrun⟩ := run_of_convert h
  rwa [options_of_run hrun]

theorem clean_of_verify (h : verify parse text options = .ok ()) :
    Clean text (parse text) options.version := by
  unfold verify at h
  dsimp only at h
  split at h
  · cases h
  · obtain ⟨again, hrun, h⟩ := bind_eq_ok.mp h
    split at h
    · rename_i hstate
      exact (clean_of_unchanged hrun hstate).2
    · cases h

theorem verify_of_clean (h : Clean text (parse text) options.version) :
    verify parse text options = .ok () := by
  have hrun := (run_unchanged_iff ⟨text, { options with lint := false }⟩ (parse text)).mpr h
  unfold verify
  dsimp only
  rw [h.parsed]
  exact bind_eq_ok.mpr ⟨_, hrun, rfl⟩

/-! ## Checks have no part in the result -/

/-- A job that declares a version, with linting turned on or off. -/
def Job.checked (j : Job) (v : PythonVersion) (b : Bool) : Job :=
  ⟨j.source, { j.options with version := v, lint := b }⟩

/-- A job with linting turned on or off. -/
def Job.linted (j : Job) (b : Bool) : Job := ⟨j.source, { j.options with lint := b }⟩

theorem visitAll_checked {b : Bool} {ts : List Tree}
    (h : ∀ t ∈ ts, ∀ scan, visit (j.checked v b) scan t = visit j scan t) (scan : Scan) :
    visitAll (j.checked v b) scan ts = visitAll j scan ts := by
  induction ts generalizing scan with
  | nil => rfl
  | cons t ts ih =>
    rw [visitAll, visitAll, h t (by simp)]
    exact bind_congr fun scan' => ih (fun s hs => h s (.tail _ hs)) scan'

theorem visit_checked (v : PythonVersion) (b : Bool) (t : Tree) (scan : Scan) :
    visit (j.checked v b) scan t = visit j scan t := by
  induction t using Tree.byChildren generalizing scan with
  | _ t ih =>
    obtain ⟨kind, range, children⟩ := t
    have hall : ∀ scan, visitAll (j.checked v b) scan children = visitAll j scan children :=
      visitAll_checked ih
    -- whatever else a node calls looks at other options
    cases kind with
    | classDefinition | functionDefinition | lambdaExpression | formatString =>
      rw [visit, visit]
      simp only [hall]
      rfl
    | _ =>
      rw [visit, visit, hall]
      all_goals simp

theorem visitStatements_checked (v : PythonVersion) (b : Bool) (ts : List Tree) (scan : Scan) :
    visitStatements (j.checked v b) scan ts = visitStatements j scan ts := by
  induction ts generalizing scan with
  | nil => rfl
  | cons t ts ih =>
    have hfirst : visitStatement (j.checked v b) scan t = visitStatement j scan t := by
      unfold visitStatement
      rw [visit_checked]
      rfl
    rw [visitStatements, visitStatements, hfirst]
    exact bind_congr ih

theorem visitScript_checked (v : PythonVersion) (b : Bool) (tree : Tree) :
    visitScript (j.checked v b) tree = visitScript j tree := by
  unfold visitScript
  simp only [visitStatements_checked]
  rfl

/-- **A job that succeeds gives the same under a later version**, with linting and without. -/
theorem run_checked (hle : j.options.version.rank ≤ v.rank) (b : Bool) (hrun : j.run tree = .ok r) :
    (j.checked v b).run tree =
      .ok { r with options := { r.options with version := v, lint := b } } := by
  obtain ⟨css, scan, hscan, hscanned, hfin⟩ := finished_of_run hrun
  have hfin' := run_finished ((visitScript_checked v b tree).trans hscan) hscanned.scopes
  cases hfin with
  | unchanged =>
    exact (run_unchanged_iff (j.checked v b) tree).mpr
      (((run_unchanged_iff j tree).mp hrun).later hle)
  | @assembled text hne happly hsorted haccepted =>
    -- the same edits are applied to the same source
    exact hfin'.of_apply
      ⟨haccepted.parsed, newerThan_eq_nil_of_later hle haccepted.version⟩ hne happly hsorted

/-- **A conversion that succeeds gives the same with linting and without.** -/
theorem run_linted (b : Bool) (hrun : j.run tree = .ok r) :
    (j.linted b).run tree = .ok { r with options := { r.options with lint := b } } := by
  have hchecked := run_checked (Nat.le_refl j.options.version.rank) b hrun
  rw [options_of_run hrun] at hchecked ⊢
  exact hchecked

/-! ## Results -/

theorem Clean.survey_child (h : Clean source tree version) {c : Tree} (hc : c ∈ tree.children)
    (scope : ScopeKind) : ∀ f ∈ survey source scope c, f.result = .ok none := by
  refine survey_unmarked_iff.mpr fun n hn => ?_
  by_contra hmark
  exact h.unmarked n (Tree.mem_postorderAll.mpr ⟨c, hc, Tree.mem_postorder.mpr hn⟩) ⟨scope, hmark⟩

theorem Clean.survey_root (h : Clean source tree version) (hroot : ¬ IsSignature tree)
    (scope : ScopeKind) : ∀ f ∈ survey source scope tree, f.result = .ok none := by
  refine survey_unmarked_iff.mpr fun n hn => ?_
  rw [Tree.preorder_eq] at hn
  rcases mem_cons.mp hn with rfl | hn
  · unfold signatureAt
    split
    · exact absurd (.inl (by assumption)) hroot
    · exact absurd (.inr (by assumption)) hroot
    · rfl
  · obtain ⟨c, hc, hnc⟩ := Tree.mem_preorderAll.mp hn
    exact survey_unmarked_iff.mp (h.survey_child hc scope) n hnc

/-- **A conversion leaves a clean source alone**, whatever its options are. -/
theorem convert_clean {o : Options} (hres : values.resolve source = .ok o)
    (hclean : Clean source (parse source) o.version) :
    convert parse source values = .ok ⟨source, .unchanged, [], none, o⟩ := by
  refine convert_eq_ok_iff.mpr ⟨o, hres, convertResolved_eq_ok_iff.mpr ⟨?_, ?_⟩⟩
  · exact (run_unchanged_iff ⟨source, o⟩ (parse source)).mpr hclean
  · intro _ hstate
    cases hstate

/-- **Linted results are fixed points.** With linting, a result has no error and no marker below the
root of its tree, and none at all unless the root is a signature itself. A conversion of the result
leaves it alone, under any options that resolve for any source and have no earlier version. Without
linting the result is the same. -/
theorem convert_linted (parse : Text → Tree) (source : Text) (values : OptionValues) (r : Result)
    (hlint : values.lint = some true) (hrun : convert parse source values = .ok r) :
    (parse r.text).errors = [] ∧
    (∀ scope, ∀ c ∈ (parse r.text).children, ∀ f ∈ survey r.text scope c, f.result = .ok none) ∧
    (¬ IsSignature (parse r.text) →
      ∀ scope, ∀ f ∈ survey r.text scope (parse r.text), f.result = .ok none) ∧
    (∀ (values' : OptionValues) (other : Text) (o : Options), values'.resolve other = .ok o →
      r.options.version.isAfter o.version = false →
      ∃ o', values'.resolve r.text = .ok o' ∧
        convert parse r.text values' = .ok ⟨r.text, .unchanged, [], none, o'⟩) ∧
    convert parse source { values with lint := some false } =
      .ok { r with options := { r.options with lint := false } } := by
  obtain ⟨options, hres, hresolved⟩ := convert_eq_ok_iff.mp hrun
  obtain ⟨hjob, hverify⟩ := convertResolved_eq_ok_iff.mp hresolved
  have hon : options.lint = true := by
    rw [(OptionValues.resolve_eq_ok_iff.mp hres).lint, hlint]
    rfl
  have hclean : Clean r.text (parse r.text) r.options.version := by
    rw [options_of_run hjob]
    -- linting looks at a changed result only; an unchanged one is the source that was walked
    -- through
    cases hstate : r.state with
    | unchanged =>
      obtain ⟨htext, hclean⟩ := clean_of_unchanged hjob hstate
      rw [htext]
      exact hclean
    | assembled => exact clean_of_verify (hverify hon hstate)
  refine ⟨hclean.parsed, fun scope c hc => hclean.survey_child hc scope,
    fun hroot scope => hclean.survey_root hroot scope, ?_, ?_⟩
  · intro values' other o hother hversion
    obtain ⟨i, s, hvalues⟩ := OptionValues.resolve_elsewhere hother r.text
    refine ⟨_, hvalues, convert_clean hvalues (hclean.later ?_)⟩
    simpa [PythonVersion.isAfter] using hversion
  · refine convert_eq_ok_iff.mpr ⟨_, OptionValues.resolve_lint hres false,
      convertResolved_eq_ok_iff.mpr ⟨run_linted false hjob, ?_⟩⟩
    intro h
    exact absurd h (by simp)

/-- The tree of the same function without its markers. -/
def unmarkedTree : Tree :=
  .node .script ⟨0, 30⟩ [.node .functionDefinition ⟨0, 30⟩ [
    .sign "def" 0, .leaf .variableName 4 5,
    .node .paramList ⟨5, 23⟩ [.sign "(" 5, .leaf .variableName 6 7, .sign "," 7,
      .leaf .variableName 9 10, .leaf (.other "AssignOp") 10 11,
      .node .lambdaExpression ⟨11, 22⟩ [.sign "lambda" 11,
        .node .paramList ⟨18, 19⟩ [.leaf .variableName 18 19],
        .sign ":" 19, .leaf .variableName 21 22],
      .sign ")" 22],
    .passBody 23]]

/-- A parser that knows the function with its markers and without. -/
def parseNested (text : Text) : Tree := if text = nestedSource then nestedTree else unmarkedTree

theorem convert_linted_nested :
    ∃ r, convert parseNested nestedSource { lint := some true, dismiss := some true } = .ok r ∧
      r.state = .assembled ∧ (parseNested r.text).errors = [] ∧
      ∃ o, convert parseNested r.text {} = .ok ⟨r.text, .unchanged, [], none, o⟩ := by
  have hstate : (convert parseNested nestedSource
      { lint := some true, dismiss := some true }).toOption.map
        (fun r => (r.state, r.options.version)) = some (.assembled, .v312) := by
    decide +kernel
  obtain ⟨r, hrun, hfacts⟩ := ok_of_toOption hstate
  injection hfacts with hstate hversion
  obtain ⟨hparsed, _, _, hfixed, _⟩ := convert_linted parseNested nestedSource
    { lint := some true, dismiss := some true } r rfl hrun
  have hplain : OptionValues.resolve {} [] = .ok plainOptions :=
    OptionValues.resolve_eq_ok_iff.mpr ⟨rfl, rfl, rfl, rfl, rfl, rfl, rfl, rfl, rfl⟩
  obtain ⟨o, _, hagain⟩ := hfixed {} [] _ hplain (by rw [hversion]; rfl)
  exact ⟨r, hrun, hstate, hparsed, o, hagain⟩

end Posonly.Conversion
