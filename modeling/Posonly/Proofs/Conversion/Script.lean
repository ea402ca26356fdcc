import Posonly.Proofs.Conversion.Walk

/-!
# The walk through a whole source

At the top level the walk also notes which statement needs the definition of the decorator first.
Between statements the stack holds the module and nothing else, and the module remembers whether the
definition has been scheduled (`AtTop`). So the noted statement is the first one with a marker in it
(`firstMarked`), and a whole walk ends with an empty stack (`visitScript_spec`).
-/

open List Posonly.ScopeStack

namespace Posonly.Conversion

open Posonly.Signature

/-- The scan is between two statements of the top level. -/
structure AtTop (id : Nat) (scan : Scan) : Prop where
  module : ∃ root, scan.scopes.scopes = [root] ∧ root.id = id ∧ root.kind = .module ∧
    root.definitionScheduled = scan.definitionAt.isSome

/-- The contributions of some nodes that are some. -/
def marked (cs : List (Option Contribution)) : List Contribution := cs.filterMap id

/-- The start of the first of some statements that contributes something. -/
def firstMarked : List Tree → List (List (Option Contribution)) → Option Nat
  | t :: ts, cs :: css => if (marked cs).isEmpty then firstMarked ts css else some t.start
  | _, _ => none

variable {j : Job} {scan scan' : Scan} {id : Nat} {css : List (List (Option Contribution))}
  {ts : List Tree}

theorem scheduleDefinition_atTop (h : AtTop id scan) :
    ∃ scopes, scan.scopes.scheduleDefinition = .ok (scan.definitionAt.isNone, scopes) ∧
      ∃ root, scopes.scopes = [root] ∧ root.id = id ∧ root.kind = .module ∧
        root.definitionScheduled = true := by
  obtain ⟨root, hscopes, hid, hkind, hflag⟩ := h.module
  unfold scheduleDefinition
  rw [hscopes, reverse_singleton]
  dsimp only
  rw [if_neg (by simp [hkind])]
  cases hdef : scan.definitionAt with
  | none =>
    rw [hdef] at hflag
    rw [if_neg (by simp [hflag])]
    exact ⟨_, rfl, _, rfl, hid, hkind, rfl⟩
  | some start =>
    rw [hdef] at hflag
    rw [if_pos (by simp [hflag])]
    exact ⟨_, rfl, root, hscopes, hid, hkind, hflag⟩

/-- **A statement** contributes what its nodes do, and is noted if it is the first that does. -/
theorem visitStatement_spec {t : Tree} (htop : AtTop id scan) : match visitStatement j scan t with
    | .ok scan' => ∃ cs es, Collects j scan t.postorder cs es scan' ∧ AtTop id scan' ∧
        scan'.definitionAt = scan.definitionAt.or
          (if j.options.dismiss ∨ (marked cs).isEmpty then none else some t.start)
    | .error f => FailsAt j t.postorder f := by
  obtain ⟨root, hscopes, _⟩ := htop.module
  have hwalk := visit_walked (j := j) t scan
  unfold visitStatement
  cases hvisit : visit j scan t with
  | error f =>
    rw [hvisit] at hwalk
    exact hwalk (by rw [hscopes]; simp)
  | ok scan₁ =>
    rw [hvisit] at hwalk
    obtain ⟨cs, es, hgains⟩ := hwalk
    have htop₁ : AtTop id scan₁ := ⟨by rw [hgains.scopes, hgains.definitionAt]; exact htop.module⟩
    have hlen : scan₁.extractions.length = scan.extractions.length + (marked cs).length := by
      rw [hgains.extractions, length_append, length_map]
      rfl
    change match (if scan.extractions.length < scan₁.extractions.length ∧ !j.options.dismiss then
        j.scoped scan₁.scopes.scheduleDefinition >>= fun p =>
          pure (if p.1 then { scan₁ with scopes := p.2, definitionAt := some t.start }
            else { scan₁ with scopes := p.2 })
      else pure scan₁) with
      | .ok scan' => _
      | .error f => _
    -- whether the statement has a marker that needs the decorator
    by_cases hmark : scan.extractions.length < scan₁.extractions.length ∧ !j.options.dismiss
    · rw [if_pos hmark]
      have hcond : ¬ (j.options.dismiss ∨ (marked cs).isEmpty) := by
        rintro (hd | hempty)
        · exact absurd hmark.2 (by simp [hd])
        · rw [isEmpty_iff.mp hempty] at hlen
          simp at hlen
          omega
      obtain ⟨scopes, hsched, root', hroot⟩ := scheduleDefinition_atTop htop₁
      have hcollects : ∀ s : Scan, s.extractions = scan₁.extractions → s.edits = scan₁.edits →
          Collects j scan t.postorder cs es s := fun s hx he =>
        ⟨hgains.contributes, hx ▸ hgains.extractions, he ▸ hgains.edits, hgains.changes,
          hgains.valid⟩
      rw [hsched]
      -- a statement noted before stays the one that is noted
      cases hdef : scan₁.definitionAt with
      | none | some start =>
        refine ⟨cs, es, hcollects _ rfl rfl, ⟨root', hroot⟩, ?_⟩
        rw [if_neg hcond, ← hgains.definitionAt, hdef]
        rfl
    · rw [if_neg hmark]
      have hcond : j.options.dismiss ∨ (marked cs).isEmpty := by
        by_contra hc
        rw [not_or] at hc
        refine hmark ⟨?_, by simp [hc.1]⟩
        have : (marked cs).length ≠ 0 := fun h0 => hc.2 (by rw [length_eq_zero_iff.mp h0]; rfl)
        omega
      refine ⟨cs, es, hgains.toCollects, htop₁, ?_⟩
      rw [if_pos hcond, Option.or_none, hgains.definitionAt]

/-- What the walk through the statements of the top level adds to a scan. -/
structure TopGains (j : Job) (id : Nat) (scan : Scan) (ts : List Tree)
    (css : List (List (Option Contribution))) (es : List Edit) (scan' : Scan) : Prop where
  collects : Collects j scan (Tree.postorderAll ts) css.flatten es scan'
  statements : Forall₂ (fun t cs => Forall₂ (Contributes j) t.postorder cs) ts css
  top : AtTop id scan'
  definitionAt : scan'.definitionAt =
    scan.definitionAt.or (if j.options.dismiss then none else firstMarked ts css)

/-- **Statements** contribute what their nodes do, and the first that does is noted. -/
theorem visitStatements_spec (htop : AtTop id scan) :
    match visitStatements j scan ts with
    | .ok scan' => ∃ css es, TopGains j id scan ts css es scan'
    | .error f => FailsAt j (Tree.postorderAll ts) f := by
  induction ts generalizing scan with
  | nil =>
    refine ⟨[], [], Collects.refl j scan, .nil, htop, ?_⟩
    simp [firstMarked]
  | cons t ts ih =>
    have hfirst := visitStatement_spec (j := j) (t := t) htop
    rw [visitStatements, Tree.postorderAll]
    cases hstep : visitStatement j scan t with
    | error f =>
      rw [hstep] at hfirst
      exact hfirst.mono (subset_append_left ..)
    | ok scan₁ =>
      rw [hstep] at hfirst
      obtain ⟨cs, es, hcollects, htop₁, hdef⟩ := hfirst
      have hrest := ih htop₁
      change match visitStatements j scan₁ ts with
        | .ok scan' => _
        | .error f => _
      cases hsteps : visitStatements j scan₁ ts with
      | error f =>
        rw [hsteps] at hrest
        exact hrest.mono (subset_append_right ..)
      | ok scan₂ =>
        rw [hsteps] at hrest
        obtain ⟨css, fs, hgains⟩ := hrest
        refine ⟨cs :: css, es ++ fs, ?_, .cons hcollects.contributes hgains.statements,
          hgains.top, ?_⟩
        · exact hcollects.append hgains.collects
        · -- what the statements before have noted comes first
          rw [hgains.definitionAt, hdef, firstMarked, Option.or_assoc]
          cases j.options.dismiss with
          | true => simp
          | false => cases (marked cs).isEmpty <;> simp

theorem contributes_of_statements {j : Job}
    (h : Forall₂ (fun t cs => Forall₂ (Contributes j) t.postorder cs) ts css) :
    Forall₂ (Contributes j) (Tree.postorderAll ts) css.flatten := by
  induction h with
  | nil => exact .nil
  | cons ht _ ih => exact rel_append ht ih

/-- What the walk through a whole source finds. -/
structure Scanned (j : Job) (tree : Tree) (css : List (List (Option Contribution))) (scan : Scan) :
    Prop where
  statements : Forall₂ (fun t cs => Forall₂ (Contributes j) t.postorder cs)
    tree.children css
  extractions : scan.extractions = (marked css.flatten).map (·.extraction)
  changes : scan.edits.edits.map Edit.change = (marked css.flatten).flatMap (·.changes)
  valid : ∀ e ∈ scan.edits.edits, e.Valid
  scopes : scan.scopes.scopes = []
  definitionAt : scan.definitionAt =
    if j.options.dismiss then none else firstMarked tree.children css

theorem Scanned.contributes {j : Job} {tree : Tree}
    {scan : Scan} (h : Scanned j tree css scan) :
    Forall₂ (Contributes j) (Tree.postorderAll tree.children) css.flatten :=
  contributes_of_statements h.statements

/-- **The walk through a source** finds what its nodes contribute and leaves no scope behind, or
fails at one of them. -/
theorem visitScript_spec (j : Job) (tree : Tree) : match visitScript j tree with
    | .ok scan => ∃ css, Scanned j tree css scan
    | .error f => FailsAt j (Tree.postorderAll tree.children) f := by
  have htop : AtTop 0 { scopes := ⟨[next {} .module none none], 1⟩ } :=
    ⟨_, rfl, rfl, rfl, rfl⟩
  have hspec := @visitStatements_spec j _ _ tree.children htop
  change match visitStatements j { scopes := ⟨[next {} .module none none], 1⟩ }
      tree.children >>= fun scan => scan.exit j ⟨1, next {} .module none none⟩ with
    | .ok scan => _
    | .error f => _
  cases hsteps : visitStatements j { scopes := ⟨[next {} .module none none], 1⟩ }
      tree.children with
  | error f =>
    rwa [hsteps] at hspec
  | ok scan₁ =>
    rw [hsteps] at hspec
    obtain ⟨css, es, hgains⟩ := hspec
    obtain ⟨root, hscopes, hid, _⟩ := hgains.top.module
    change match scan₁.exit j ⟨1, next {} .module none none⟩ with
      | .ok scan => _
      | .error f => _
    -- the scope of the module is the only one left, so its handle closes it
    have hexit : scan₁.exit j ⟨1, next {} .module none none⟩ =
        .ok { scan₁ with scopes := { scan₁.scopes with scopes := [] } } := by
      unfold Scan.exit exit
      rw [hscopes]
      dsimp only
      rw [if_pos ⟨by rw [depth, hscopes]; rfl, hid⟩]
      rfl
    rw [hexit]
    refine ⟨css, ?_⟩
    exact
      { statements := hgains.statements
        extractions := by simpa [marked] using hgains.collects.extractions
        changes := by
          have hedits := hgains.collects.edits
          rw [nil_append] at hedits
          change scan₁.edits.edits.map Edit.change = _
          rw [hedits]
          exact hgains.collects.changes
        valid := by
          have hedits := hgains.collects.edits
          rw [nil_append] at hedits
          change ∀ e ∈ scan₁.edits.edits, e.Valid
          rw [hedits]
          exact hgains.collects.valid
        scopes := rfl
        definitionAt := by simpa using hgains.definitionAt }

end Posonly.Conversion
