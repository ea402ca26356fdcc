import Posonly.Conversion.Walk
import Posonly.Proofs.Signature.Marker

/-!
# Signatures in a tree

A function has its parameters between the brackets of its parameter list, a lambda between its
keyword and its body. `Site` says what the two have in common: a stretch of the node, nodes in order
within it, and tokens made from these. Everything about the deleted text that does not depend on the
kind of signature is derived from its site.
-/

open Posonly.Tree

namespace Posonly.Conversion

open Posonly.Signature

/-- What is extracted at a node that stands in a kind of scope. -/
def signatureAt (source : Text) (n : Tree) (scope : ScopeKind) :
    Except MarkerFault (Option Extraction) :=
  match n.kind with
  | .functionDefinition =>
    match n.child? .paramList with
    | none => .ok none
    | some params => extractFunction source params scope
  | .lambdaExpression => extractLambda source n scope
  | _ => .ok none

/-- A node that has parameters. -/
def IsSignature (n : Tree) : Prop := n.kind = .functionDefinition ∨ n.kind = .lambdaExpression

/-- A signature with a marker, well placed or not. -/
def CarriesMarker (source : Text) (n : Tree) : Prop :=
  ∃ scope, signatureAt source n scope ≠ .ok none

/-! ## Scopes -/

theorem extract_scope (source : Text) (tokens : List Token) (target : Target)
    (scope scope' : ScopeKind) :
    extract source tokens target scope' =
      (extract source tokens target scope).map (Option.map ({ · with scope := scope' })) := by
  unfold extract
  cases ({} : Found).steps (heads tokens) with
  | error e => rfl
  | ok found =>
    dsimp only
    cases found.marker with
    | none => rfl
    | some m =>
      dsimp only
      cases found.star.filter fun star => decide (star.start < m.1.start) with
      | some star => rfl
      | none =>
        dsimp only
        split <;> rfl

/-- A scope is handed on and has no say in what is extracted. -/
theorem signatureAt_scope (source : Text) (n : Tree) (scope scope' : ScopeKind) :
    signatureAt source n scope' =
      (signatureAt source n scope).map (Option.map ({ · with scope := scope' })) := by
  unfold signatureAt
  split
  · cases n.child? .paramList with
    | none => rfl
    | some params => exact extract_scope ..
  · unfold extractLambda
    split
    · exact extract_scope ..
    · rfl
  · rfl

/-- Where the parameters of a signature are looked for: the nodes of a stretch, and the tokens that
are made from them. -/
structure Site (source : Text) (n : Tree) (lo hi : Nat) (region : List Tree) (tokens : List Token) :
    Prop where
  start_le : n.start ≤ lo
  stop_le : hi ≤ n.stop
  inOrder : Tree.InOrder lo hi region
  below : ∀ d ∈ region, d ∈ n.preorder
  tokens_sublist : tokens.Sublist (tokenize source lo hi region)
  laid : Laid source tokens
  /-- Something solid ends the stretch or comes behind it. -/
  closes : n.TightNode source → ∃ z, hi ≤ z + 1 ∧ z < n.stop ∧ source.SolidAt z
  /-- Signatures below the node are below a node of the stretch or outside of it. -/
  encloses : (∀ m ∈ n.preorder, m.TightNode source) → ∀ c ∈ n.children, ∀ k ∈ c.preorder,
    IsSignature k → (∃ d ∈ region, k ∈ d.preorder) ∨ k.stop ≤ lo ∨ hi ≤ k.start

variable {source : Text} {n : Tree} {scope : ScopeKind} {e : Extraction}

/-! ## Functions -/

variable {p keyword body : Tree} {ts middle : List Tree}

/-- A parameter list is no signature, so what is below it is below a child of it. -/
theorem below_of_not_signature {k : Tree} (hp : p.kind = .paramList) (hk : k ∈ p.preorder)
    (hsig : IsSignature k) : ∃ d ∈ p.children, k ∈ d.preorder := by
  rw [preorder_eq] at hk
  rcases List.mem_cons.mp hk with rfl | hk
  · unfold IsSignature at hsig
    rw [hp] at hsig
    exact absurd hsig (by simp)
  · exact mem_preorderAll.mp hk

/-- The tokens of a function are those of its parameter list, without the brackets. -/
theorem function_site (hk : n.kind = .functionDefinition) (hn : ∀ m ∈ n.preorder, m.Orderly)
    (hp : p ∈ n.children) (hpk : p.kind = .paramList) (hlen : n.stop ≤ source.length) :
    Site source n p.start p.stop p.children
      (inner (tokenize source p.start p.stop p.children)) := by
  have hord := hn p (mem_preorder_of_child hp (self_mem_preorder p))
  have hrange := (hn n (self_mem_preorder n)).2.mem_range hp
  exact
    { start_le := hrange.1
      stop_le := hrange.2.2
      inOrder := hord.2
      below := fun d hd => mem_preorder_of_child hp
        (mem_preorder_of_child hd (self_mem_preorder d))
      tokens_sublist := inner_sublist _
      laid := laid_inner (laid_tokenize hord.1 (by omega) hord.2.mem_le)
      closes := fun htight => by
        obtain ⟨hlt, hu⟩ := htight.bracket hk p hp hpk
        exact ⟨p.stop - 1, by omega, by omega, _, hu, by decide⟩
      encloses := fun _ c hc k hkc hsig => by
        by_cases hcp : c = p
        · subst hcp
          exact .inl (below_of_not_signature hpk hkc hsig)
        · -- another child lies on one side of the parameter list
          have hrange := preorder_range (forall_preorder_child hn hc) hkc
          rcases (hn n (self_mem_preorder n)).2.apart hc hp hcp with h | h
          · exact .inr (.inl (by omega))
          · exact .inr (.inr (by omega)) }

/-! ## Lambdas -/

theorem lambdaRegion_inOrder {a b : Nat} (h : Tree.InOrder a b ts) (hts : ∀ t ∈ ts, t.Orderly) :
    Tree.InOrder a b (lambdaRegion ts) := by
  induction ts generalizing a with
  | nil => exact h
  | cons t ts ih =>
    obtain ⟨h1, h2, h3⟩ := h
    have hrest := ih h3 fun s hs => hts s (.tail _ hs)
    rw [lambdaRegion, List.flatMap_cons]
    refine Tree.InOrder.append (b := t.stop) ?_ hrest
    split
    · exact (hts t (by simp)).2.weaken h1
    · exact ⟨h1, h2, Nat.le_refl _⟩

theorem mem_lambdaRegion {d : Tree} (h : d ∈ lambdaRegion ts) :
    ∃ t ∈ ts, d = t ∨ (t.kind = .paramList ∧ d ∈ t.children) := by
  obtain ⟨t, ht, hd⟩ := List.mem_flatMap.mp h
  refine ⟨t, ht, ?_⟩
  split at hd
  · exact .inr ⟨by assumption, hd⟩
  · exact .inl (List.mem_singleton.mp hd)

/-- The nodes of a lambda that count: its keyword, what may be parameters, and its body. -/
structure LambdaParts (n : Tree) (keyword : Tree) (middle : List Tree) (body : Tree) : Prop where
  nodes : (n.children.filter fun c => c.kind ≠ .comment) = keyword :: (middle ++ [body])

theorem LambdaParts.mem (h : LambdaParts n keyword middle body) {c : Tree}
    (hc : c ∈ keyword :: (middle ++ [body])) : c ∈ n.children := by
  rw [← h.nodes] at hc
  exact (List.mem_filter.mp hc).1

theorem extractLambda_eq_some (h : extractLambda source n scope = .ok (some e)) :
    ∃ keyword middle body, LambdaParts n keyword middle body ∧
      extract source ((tokenize source keyword.stop body.start (lambdaRegion middle)).takeWhile
        fun t => !t.isPunct ":") .lambda scope = .ok (some e) := by
  unfold extractLambda at h
  split at h
  · rename_i keyword second others hnodes
    refine ⟨keyword, (second :: others).dropLast, (second :: others).getLast (by simp), ⟨?_⟩, h⟩
    rw [hnodes, List.dropLast_append_getLast]
  · cases h

/-- The tokens of a lambda are those between its keyword and its colon. -/
theorem lambda_site (hk : n.kind = .lambdaExpression) (hn : ∀ m ∈ n.preorder, m.Orderly)
    (hparts : LambdaParts n keyword middle body) (hlen : n.stop ≤ source.length) :
    Site source n keyword.stop body.start (lambdaRegion middle)
      ((tokenize source keyword.stop body.start (lambdaRegion middle)).takeWhile
        fun t => !t.isPunct ":") := by
  have hself := hn n (self_mem_preorder n)
  have hchild : ∀ c ∈ keyword :: (middle ++ [body]), c ∈ n.preorder := fun c hc =>
    mem_preorder_of_child (hparts.mem hc) (self_mem_preorder c)
  have hsub : Tree.InOrder n.start n.stop (keyword :: (middle ++ [body])) := by
    rw [← hparts.nodes]
    exact hself.2.sublist List.filter_sublist
  obtain ⟨hkey, hkeyle, hrest⟩ := hsub
  obtain ⟨hmiddle, hbody⟩ := hrest.of_concat
  have hbodyle := (hn body (hchild body (by simp))).1
  have hregion := lambdaRegion_inOrder hmiddle fun t ht => hn t (hchild t (by simp [ht]))
  exact
    { start_le := Nat.le_trans hkey hkeyle
      stop_le := Nat.le_trans hbodyle hbody
      inOrder := hregion
      below := fun d hd => by
        obtain ⟨t, ht, rfl | ⟨_, hdt⟩⟩ := mem_lambdaRegion hd
        · exact hchild d (by simp [ht])
        · exact mem_preorder_of_child (hparts.mem (c := t) (by simp [ht]))
            (mem_preorder_of_child hdt (self_mem_preorder d))
      tokens_sublist := List.takeWhile_sublist _
      laid := laid_takeWhile _
        (laid_tokenize hmiddle.le (by omega) hregion.mem_le)
      closes := fun htight => by
        obtain ⟨hlt, hz⟩ := htight.closes hk
        exact ⟨n.stop - 1, by omega, by omega, hz⟩
      encloses := fun htight c hc k hkc hsig => by
        have hrange := preorder_range (forall_preorder_child hn hc) hkc
        by_cases hcom : c.kind = .comment
        · -- a comment has nothing below it and is no signature itself
          have hleaf := (htight c (mem_preorder_of_child hc (self_mem_preorder c))).leaf
            (Or.inr hcom)
          rw [preorder_eq, hleaf] at hkc
          rw [List.mem_singleton.mp hkc, IsSignature, hcom] at hsig
          exact absurd hsig (by simp)
        have hmem : c ∈ keyword :: (middle ++ [body]) := by
          rw [← hparts.nodes]
          exact List.mem_filter.mpr ⟨hc, by simpa using hcom⟩
        rcases List.mem_cons.mp hmem with rfl | hmem
        · exact .inr (.inl hrange.2.2)
        rcases List.mem_append.mp hmem with hmid | hlast
        · refine .inl ?_
          by_cases hpk : c.kind = .paramList
          · obtain ⟨d, hd, hkd⟩ := below_of_not_signature hpk hkc hsig
            exact ⟨d, List.mem_flatMap.mpr ⟨c, hmid, by rw [if_pos hpk]; exact hd⟩, hkd⟩
          · exact ⟨c, List.mem_flatMap.mpr ⟨c, hmid, by rw [if_neg hpk]; simp⟩, hkc⟩
        · rw [List.mem_singleton.mp hlast] at hrange
          exact .inr (.inr hrange.1) }

/-! ## Both -/

section

variable (hn : ∀ m ∈ n.preorder, m.Orderly) (hlen : n.stop ≤ source.length)
  (h : signatureAt source n scope = .ok (some e))

include hn hlen h

theorem signatureAt_site : ∃ lo hi region tokens target, Site source n lo hi region tokens ∧
      extract source tokens target scope = .ok (some e) := by
  unfold signatureAt at h
  split at h
  · rename_i hk
    split at h
    · cases h
    · rename_i params hparams
      have hpk : params.kind = .paramList := by simpa using List.find?_some hparams
      exact ⟨_, _, _, _, _, function_site hk hn (List.mem_of_find?_eq_some hparams) hpk hlen, h⟩
  · rename_i hk
    obtain ⟨keyword, middle, body, hparts, hext⟩ := extractLambda_eq_some h
    exact ⟨_, _, _, _, _, lambda_site hk hn hparts hlen, hext⟩
  · cases h

theorem signatureAt_run : ∃ c?, MarkerRun source e.marker.start c? e.span := by
  obtain ⟨_, _, _, _, _, hsite, hext⟩ := signatureAt_site hn hlen h
  obtain ⟨_, _, _, _, hx⟩ := extract_eq_some hext
  exact hx.run hsite.laid

/-- **What is deleted from a signature is on its first line or below.** -/
theorem signatureAt_start_le : n.start ≤ e.marker.start := by
  obtain ⟨lo, hi, region, tokens, target, hsite, hext⟩ := signatureAt_site hn hlen h
  obtain ⟨_, _, marker, index, hx⟩ := extract_eq_some hext
  have hmem : marker ∈ tokenize source lo hi region :=
    hsite.tokens_sublist.subset (List.mem_of_getElem? (mem_heads hx.head))
  have hlow := ((layout_tokenize hsite.inOrder.le hsite.inOrder.mem_le).mem_range hmem).1
  rw [hx.markerRange]
  exact Nat.le_trans hsite.start_le hlow

theorem signatureAt_line : source.lineStart n.start ≤ e.span.start := by
  obtain ⟨lo, hi, region, tokens, target, hsite, hext⟩ := signatureAt_site hn hlen h
  obtain ⟨_, _, marker, index, hx⟩ := extract_eq_some hext
  obtain ⟨comma, hshape⟩ := hx.shape hsite.laid
  have hline := hshape.lineStart_le fun p hp => by
    obtain ⟨i, _, hi⟩ := previousAt_eq_some hp
    exact hsite.laid.spelled p (List.mem_of_getElem? hi)
  have hlow := signatureAt_start_le hn hlen h
  rw [hx.markerRange] at hlow
  exact Nat.le_trans (Text.lineStart_mono hlow) hline

end

end Posonly.Conversion
