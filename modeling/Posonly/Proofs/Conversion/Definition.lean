import Posonly.Proofs.Conversion.Completeness
import Posonly.Proofs.Conversion.Consistency

/-!
# The definition of the decorator comes first

The definition goes to the start of the line of the first statement with a marker in it. Nothing
that a conversion edits lies ahead of that line: a deletion stays on the line of its marker or
below, a decorator goes to the start of the line of its function, and both the marker and the
function are in that statement or in one behind it. So the definition is the first edit of all, and
if the source has it already ahead of that line then it stays there as it is
(`convert_defines_first`).
-/

open List Posonly.Decorator Posonly.Edit

namespace Posonly.Conversion

open Posonly.Signature

/-! ## The first statement with a marker -/

/-- Whether a signature in a statement has a marker. -/
def holdsMarker (source : Text) (scope : ScopeKind) (t : Tree) : Bool :=
  (survey source scope t).any (·.extraction?.isSome)

variable {j : Job} {tree : Tree} {css : List (List (Option Contribution))} {scan : Scan}

section

variable {ts : List Tree}
  (h : List.Forall₂ (fun t cs => List.Forall₂ (Contributes j) t.postorder cs) ts css)

include h

/-- The first statement that contributes something is the first in which a survey finds a marker. -/
theorem firstMarked_eq (scope : ScopeKind) :
    firstMarked ts css = (ts.find? (holdsMarker j.source scope)).map (·.start) := by
  induction h with
  | nil => rfl
  | @cons t cs ts css ht _ ih =>
    have hsame : (marked cs).isEmpty = !holdsMarker j.source scope t := by
      have hlen := (marked_perm_survey ht scope).length_eq
      rw [length_map, length_map] at hlen
      have hnone : (marked cs).isEmpty = true ↔ holdsMarker j.source scope t = false := by
        rw [List.isEmpty_iff, ← length_eq_zero_iff, hlen, length_eq_zero_iff,
          filterMap_eq_nil_iff, holdsMarker, any_eq_false]
        simp
      rw [Bool.eq_iff_iff, hnone, Bool.not_eq_true']
    rw [firstMarked, hsame, ih, find?_cons]
    cases holdsMarker j.source scope t <;> rfl

theorem marked_eq_nil_of_firstMarked (hnone : firstMarked ts css = none) :
    marked css.flatten = [] := by
  induction h with
  | nil => rfl
  | @cons t cs ts css _ _ ih =>
    rw [firstMarked] at hnone
    split at hnone
    · rename_i hempty
      rw [flatten_cons, marked, filterMap_append]
      exact append_eq_nil_iff.mpr ⟨List.isEmpty_iff.mp hempty, ih hnone⟩
    · cases hnone

end

theorem Scanned.definitionAt_eq (h : Scanned j tree css scan) (hdismiss : j.options.dismiss = false)
    (scope : ScopeKind) :
    scan.definitionAt = (tree.children.find? (holdsMarker j.source scope)).map (·.start) := by
  rw [h.definitionAt, hdismiss, ← firstMarked_eq h.statements scope]
  rfl

theorem Scanned.exists_first (h : Scanned j tree css scan) (hdismiss : j.options.dismiss = false)
    (hne : scan.edits.edits ≠ []) (scope : ScopeKind) :
    ∃ first, tree.children.find? (holdsMarker j.source scope) = some first ∧
      scan.definitionAt = some first.start := by
  have hdef := h.definitionAt_eq hdismiss scope
  cases hfind : tree.children.find? (holdsMarker j.source scope) with
  | some first =>
    rw [hfind] at hdef
    exact ⟨first, rfl, hdef⟩
  | none =>
    refine absurd (h.edits_eq_nil_iff.mpr ?_) hne
    have hfirst := firstMarked_eq h.statements scope
    rw [hfind] at hfirst
    exact marked_eq_nil_of_firstMarked h.statements hfirst

/-! ## Where the definition stands in a result -/

/-- **A copy of the definition stands ahead of all that is put in**, whether it is put in itself or
has been there before. -/
theorem Scanned.copy_first (h : Scanned j tree css scan) (hwf : tree.WellFormed j.source.length)
    {s : Nat} (hat : scan.definitionAt = some s) {applied : List Edit}
    (happlied : applied =
      inOrder (scan.edits.withDefinition (j.definitionInsertion scan.definitionAt))) :
    ∃ p, (splice j.source applied).slice p
          (p + (definition j.options.style).length) =
        definition j.options.style ∧
      ∀ i ∈ inverse j.source applied, i.origin ≠ .definition →
        p + (definition j.options.style).length ≤ i.start := by
  obtain ⟨hlen, hline⟩ := h.line_le hwf hat
  have hline : ∀ e ∈ inOrder scan.edits.edits, j.source.lineStart s ≤ e.start := fun e he =>
    hline e (mem_inOrder.mp he)
  rw [hat] at happlied
  have hcases := definitionInsertion_cases j s
  generalize definition j.options.style = block at hcases ⊢
  rcases hcases with ⟨hthere, hnone⟩ | ⟨_, before, after, hsome⟩
  · -- the copy is in what stands ahead of all edits
    rw [hnone] at happlied
    have happlied : applied = inOrder scan.edits.edits := happlied
    obtain ⟨before, after, hcopy⟩ := Text.occursIn_iff.mp hthere
    have hend : before.length + block.length ≤ j.source.lineStart s := by
      have := congrArg List.length hcopy
      simp only [length_append, length_take] at this
      omega
    refine ⟨before.length, ?_, fun i hi _ => ?_⟩
    · rw [← Text.slice_take hend, happlied, take_splice hline hlen, ← hcopy,
        append_assoc, slice_append_left rfl (by omega)]
    · rw [happlied] at hi
      have := inverseFrom_start_ge hline i hi
      omega
  · -- the definition is the first of all edits
    rw [hsome] at happlied
    have hfirst : applied = EditSet.definitionEdit
        ⟨j.source.lineStart s, before ++ block ++ after⟩ :: inOrder scan.edits.edits := by
      rw [happlied]
      exact place_insertion (by simp [isInsertion, EditSet.definitionEdit]) hline
    have hahead : (j.source.slice 0 (j.source.lineStart s) ++ before).length =
        j.source.lineStart s + before.length := by
      rw [length_append, Text.length_slice]
      omega
    refine ⟨j.source.lineStart s + before.length, ?_, fun i hi horigin => ?_⟩
    · rw [hfirst, splice, spliceFrom]
      unfold EditSet.definitionEdit
      dsimp only
      rw [append_assoc, append_assoc, append_assoc, ← append_assoc _ before,
        slice_append_left hahead (by omega)]
    · rw [hfirst, inverse, inverseFrom] at hi
      rcases mem_cons.mp hi with rfl | hi
      · exact absurd rfl horigin
      · have := inverseFrom_start_ge (b := 0) (fun _ _ => Nat.zero_le _) i hi
        unfold EditSet.definitionEdit at this
        simp only [length_append] at this
        omega

/-- **The definition of the decorator precedes all uses of it.** Without dismissal, a conversion
that changes something puts the definition in unless the source has it ahead of the line of the
first statement with a marker; it goes to the start of that line, and no edit starts ahead of it. In
the result, where the text of each edit stands at the range of its inverse, a copy of the definition
ends ahead of them all. With dismissal no definition is put in. -/
theorem convert_defines_first (parse : Text → Tree) (source : Text) (values : OptionValues)
    (r : Result) (scope : ScopeKind) (hrun : convert parse source values = .ok r)
    (htree : (parse source).WellFormed source.length) :
    values.resolve source = .ok r.options ∧
    (r.options.dismiss = true → r.definition = none) ∧
    (r.options.dismiss = false → r.state = .assembled →
      ∃ first, (parse source).children.find? (holdsMarker source scope) = some first ∧
        (r.definition = none ↔ Text.occursIn (definition r.options.style)
          (source.take (source.lineStart first.start)) = true) ∧
        (∀ d, r.definition = some d → d.offset = source.lineStart first.start ∧
          ∀ e ∈ r.edits, d.offset ≤ e.start) ∧
        List.Forall₂ (fun e i => i.origin = e.origin ∧ r.text.slice i.start i.stop = e.text)
          r.applied (inverse source r.applied) ∧
        ∃ p, r.text.slice p (p + (definition r.options.style).length) =
            definition r.options.style ∧
          ∀ i ∈ inverse source r.applied, i.origin ≠ .definition →
            p + (definition r.options.style).length ≤ i.start) := by
  obtain ⟨options, hres, hresolved⟩ := convert_eq_ok_iff.mp hrun
  have hjob := (convertResolved_eq_ok_iff.mp hresolved).1
  rcases run_cases ⟨source, options⟩ (parse source) with ⟨css, scan, _, hscanned, hfin⟩ |
    ⟨f, herr, _⟩
  · rw [hjob] at hfin
    cases hfin with
    | unchanged => exact ⟨hres, fun _ => rfl, fun _ hstate => absurd hstate (by simp)⟩
    | @assembled text hne happly hsorted =>
      obtain ⟨happlicable, htext⟩ := scan.edits.apply_applicable hscanned.valid happly
      refine ⟨hres, fun hdismiss => ?_, fun hdismiss _ => ?_⟩
      · have hnone : scan.definitionAt = none := by
          rw [hscanned.definitionAt]
          exact if_pos hdismiss
        rw [hnone]
        rfl
      · obtain ⟨first, hfirst, hat⟩ := hscanned.exists_first hdismiss hne scope
        have happlied := EditSet.inOrder_withDefinition scan.edits
          (Job.definitionInsertion ⟨source, options⟩ scan.definitionAt)
        refine ⟨first, hfirst, ?_, fun d hd => ?_, ?_, ?_⟩
        · dsimp only
          rw [hat]
          exact definitionInsertion_eq_none_iff ⟨source, options⟩ first.start
        · dsimp only at hd ⊢
          have hclear := hscanned.definition_clear htree hd
          rw [hat] at hd
          exact ⟨definitionInsertion_offset hd, fun e he => hclear.2 e (mem_inOrder.mp he)⟩
        · unfold Result.applied
          rw [happlied, htext]
          exact spelled_inverse happlicable
        · -- what was applied is the definition, if it was put in, and then the edits
          have hcopy := hscanned.copy_first htree hat rfl
          rw [← htext] at hcopy
          unfold Result.applied
          dsimp only at hcopy ⊢
          rw [happlied]
          exact hcopy
  · rw [herr] at hjob
    exact absurd hjob (by simp)

theorem convert_defines_first_nested :
    nestedTree.WellFormed nestedSource.length ∧
      ∃ r d, convert (fun _ => nestedTree) nestedSource {} = .ok r ∧ r.state = .assembled ∧
        r.options.dismiss = false ∧ r.definition = some d ∧ (∀ e ∈ r.edits, d.offset ≤ e.start) ∧
        ∃ p, r.text.slice p (p + (definition r.options.style).length) =
            definition r.options.style ∧
          ∀ i ∈ inverse nestedSource r.applied, i.origin ≠ .definition →
            p + (definition r.options.style).length ≤ i.start := by
  have htree : nestedTree.WellFormed nestedSource.length := by decide +kernel
  have hfacts : (convert (fun _ => nestedTree) nestedSource {}).toOption.map
      (fun r => (r.state, r.options.dismiss, r.definition.isSome)) =
        some (.assembled, false, true) := by decide +kernel
  obtain ⟨r, hrun, hfacts⟩ := ok_of_toOption hfacts
  injection hfacts with hstate hfacts
  injection hfacts with hdismiss hsome
  obtain ⟨d, hd⟩ := Option.isSome_iff_exists.mp hsome
  obtain ⟨_, _, hdefines⟩ :=
    convert_defines_first (fun _ => nestedTree) nestedSource {} r .module hrun htree
  obtain ⟨_, _, _, hfirst, _, hcopy⟩ := hdefines hdismiss hstate
  exact ⟨htree, r, d, hrun, hstate, hdismiss, hd, (hfirst d hd).2, hcopy⟩

end Posonly.Conversion
