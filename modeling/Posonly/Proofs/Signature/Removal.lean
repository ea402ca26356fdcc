import Posonly.Proofs.Conversion.Site
import Posonly.Proofs.Signature.Lossless

/-!
# Punctuation with and without a node

It makes no difference whether a punctuation mark is a node or is left in a gap: the scan of the gap
that is left comes to the mark by itself and goes on behind it (`gapTokens_split`). The tokens ahead
of the mark are the same since none of them could reach past it. A comment would, so there must be
none; two stars would be read as one mark; and then there is a name that is found one unit early,
because the gap starts inside a surrogate pair. Its token takes in the mark, but only if the mark is
no node (`tokenize_remove_iff`).
-/

open List

namespace Posonly.Signature

open Conversion (LambdaParts)

variable {source : Text} {start stop : Nat} {c : Tree} {before after : List Tree}

/-! ## A mark in a gap -/

/-- Punctuation between two offsets that is not next to a star if it is a star itself. -/
structure StandsAlone (source : Text) (m e : Nat) : Prop where
  stop_le : e ≤ source.length
  punctuation : isPunctuation (source.slice m e) = true
  ahead : source[m]? = some 0x2A → ∀ i, i + 1 = m → source[i]? ≠ some 0x2A
  behind : source[m]? = some 0x2A → source[e]? ≠ some 0x2A

/-- A name at an offset inside a pair takes in the unit at a later offset and ends with it. -/
def Swallows (source : Text) (i m : Nat) : Prop :=
  SplitsPair source i ∧ identifierAt source i ≠ [] ∧ i + (identifierAt source i).length = m + 1

instance (source : Text) (i m : Nat) : Decidable (Swallows source i m) :=
  inferInstanceAs (Decidable (SplitsPair source i ∧ identifierAt source i ≠ [] ∧
    i + (identifierAt source i).length = m + 1))

theorem isPunctuation_cases {text : Text} (h : isPunctuation text = true) :
    (∃ u, text = [u] ∧ isPunctuation [u] = true) ∨ text = [0x2A, 0x2A] := by
  have hmem := h
  rw [isPunctuation, punctuation_eq, contains_iff_mem] at hmem
  have hlength : ∀ t ∈ ([[0x28], [0x29], [0x2C], [0x2F], [0x2A], [0x2A, 0x2A], [0x3A], [0x3D]] :
      List Text), t.length = 1 ∨ t = [0x2A, 0x2A] := by decide
  rcases hlength text hmem with hone | hstars
  · obtain ⟨u, rfl⟩ := length_eq_one_iff.mp hone
    exact .inl ⟨u, rfl, h⟩
  · exact .inr hstars

variable {m e q i : Nat} {u : UInt16}

theorem StandsAlone.units (h : StandsAlone source m e) :
    (∃ u, source.slice m e = [u] ∧ e = m + 1 ∧ source[m]? = some u ∧ isPunctuation [u] = true) ∨
      (source.slice m e = [0x2A, 0x2A] ∧ e = m + 2 ∧ source[m]? = some 0x2A ∧
        source[m + 1]? = some 0x2A) := by
  have hlen := Text.length_slice source m e
  have hstop := h.stop_le
  have hat := Text.getElem?_slice source m e
  rcases isPunctuation_cases h.punctuation with ⟨u, htext, hu⟩ | htext
  · rw [htext, length_singleton] at hlen
    have hone : e = m + 1 := by omega
    have hfirst := hat 0
    rw [htext, if_pos (by omega)] at hfirst
    exact .inl ⟨u, htext, hone, hfirst.symm, hu⟩
  · rw [htext] at hlen hat
    have htwo : e = m + 2 := by simp at hlen; omega
    have hfirst := hat 0
    have hsecond := hat 1
    rw [if_pos (by omega)] at hfirst hsecond
    exact .inr ⟨htext, htwo, hfirst.symm, hsecond.symm⟩

theorem StandsAlone.lt (h : StandsAlone source m e) : m < e := by
  rcases h.units with ⟨_, _, he, _⟩ | ⟨_, he, _⟩ <;> omega

theorem StandsAlone.unit (h : StandsAlone source m e) :
    ∃ u, source[m]? = some u ∧ isPunctuation [u] = true := by
  rcases h.units with ⟨u, _, _, hu, hp⟩ | ⟨_, _, hu, _⟩
  · exact ⟨u, hu, hp⟩
  · exact ⟨0x2A, hu, by decide⟩

/-- The token of a mark. -/
def markToken (source : Text) (m e : Nat) : Token := ⟨.punctuation, source.slice m e, m, e⟩

theorem StandsAlone.lexeme_eq_mark (h : StandsAlone source m e) (hq : e ≤ q) :
    lexeme source m q = some (markToken source m e) := by
  unfold markToken
  rcases h.units with ⟨u, htext, he, hu, hp⟩ | ⟨htext, he, hu, hnext⟩
  · obtain ⟨hblank, hhash, _⟩ := isPunctuation_unit hp
    have hstars : ¬ ((u == 0x2A && source[m + 1]? == some 0x2A && decide (m + 1 < q)) = true) := by
      intro hstars
      simp only [Bool.and_eq_true, beq_iff_eq, decide_eq_true_eq] at hstars
      rw [hstars.1.1] at hu
      exact h.behind hu (by rw [he]; exact hstars.1.2)
    rw [lexeme_eq hu, if_neg (by simp [hblank]), if_neg (by simpa using hhash), if_neg hstars,
      if_pos hp, htext, he]
  · have hstars : ((0x2A : UInt16) == 0x2A && source[m + 1]? == some 0x2A &&
        decide (m + 1 < q)) = true := by
      rw [hnext]
      simp
      omega
    rw [lexeme_eq hu, if_neg (by decide), if_neg (by decide), if_pos hstars, htext, he]
    rfl

theorem identifierLength_le (hu : source[m]? = some u)
    (hp : isPunctuation [u] = true) (hi : i ≤ m) :
    i + Text.identifierLength (source.drop i) ≤ m := by
  obtain ⟨_, _, hhigh, hlow, hcontinues⟩ := isPunctuation_unit hp
  rcases Text.identifierLength_cases (source.drop i) with hzero | hrest
  · omega
  · by_contra hlt
    have hat : (source.drop i)[m - i]? = some u := by
      rw [getElem?_drop, show i + (m - i) = m by omega, hu]
    rcases Text.unit_of_lt_identifierRest (by omega) hat with h | h | h
    · rw [hhigh] at h
      exact Bool.false_ne_true h
    · rw [hlow] at h
      exact Bool.false_ne_true h
    · rw [hcontinues] at h
      exact Bool.false_ne_true h

/-- A name ahead of a mark ends there at the latest, unless it takes in a unit of the mark. -/
theorem identifierAt_le (hu : source[m]? = some u) (hp : isPunctuation [u] = true) (hi : i < m)
    (hswallows : ¬ Swallows source i m) (hne : identifierAt source i ≠ []) :
    i + (identifierAt source i).length ≤ m := by
  by_cases hsplits : SplitsPair source i
  · have hbound := identifierLength_le hu hp (show i - 1 ≤ m by omega)
    have hpos := hsplits.1
    have hlong : i + (identifierAt source i).length ≤ m + 1 := by
      rw [identifierAt_of_splits hsplits, Text.length_take_identifierLength]
      omega
    have hother : i + (identifierAt source i).length ≠ m + 1 := fun heq =>
      hswallows ⟨hsplits, hne, heq⟩
    omega
  · rw [identifierAt_of_not_splits hsplits, Text.length_take_identifierLength]
    exact identifierLength_le hu hp (Nat.le_of_lt hi)

theorem StandsAlone.lexeme_congr (h : StandsAlone source m e) (hq : e ≤ q) (hi : i < m)
    (hhash : source[i]? ≠ some 0x23) (hswallows : ¬ Swallows source i m) :
    lexeme source i q = lexeme source i m := by
  have hlt := h.lt
  have hstop := h.stop_le
  have hu := getElem?_eq_getElem (l := source) (i := i) (by omega)
  obtain ⟨v, hv, hp⟩ := h.unit
  have hnohash : ¬ ((source[i] == 0x23) = true) := by
    intro hmark
    rw [beq_iff_eq.mp hmark] at hu
    exact hhash hu
  have hstars : (source[i] == 0x2A && source[i + 1]? == some 0x2A && decide (i + 1 < q)) =
      (source[i] == 0x2A && source[i + 1]? == some 0x2A && decide (i + 1 < m)) := by
    by_cases hm : i + 1 = m
    · -- the second star would be the mark
      have hno : (source[i] == 0x2A && source[i + 1]? == some 0x2A) = false := by
        rw [Bool.and_eq_false_iff, beq_eq_false_iff_ne, beq_eq_false_iff_ne, hm]
        by_cases hstar : source[m]? = some 0x2A
        · refine .inl fun heq => h.ahead hstar i hm ?_
          rw [hu, heq]
        · exact .inr hstar
      rw [hno, Bool.false_and, Bool.false_and]
    · rw [decide_eq_true (by omega : i + 1 < q), decide_eq_true (by omega : i + 1 < m)]
  have hname : (!(identifierAt source i).isEmpty &&
        decide (i + (identifierAt source i).length ≤ q)) =
      (!(identifierAt source i).isEmpty &&
        decide (i + (identifierAt source i).length ≤ m)) := by
    by_cases hne : identifierAt source i = []
    · rw [hne]
      rfl
    · have hle := identifierAt_le hv hp hi hswallows hne
      rw [decide_eq_true hle, decide_eq_true (by omega : i + (identifierAt source i).length ≤ q)]
  rw [lexeme_eq hu, lexeme_eq hu, if_neg hnohash, if_neg hnohash, hstars, hname]

theorem Anchored.not_swallows (h : Anchored source q i) (hq : m < q) : ¬ Swallows source i m := by
  intro hswallows
  rcases h hswallows.1 with hnone | hlong
  · exact hswallows.2.1 hnone
  · have := hswallows.2.2
    omega

theorem StandsAlone.gapTokens_split (h : StandsAlone source m e) (hq : e ≤ q) (hi : i ≤ m)
    (hhash : ∀ k, i ≤ k → k < m → source[k]? ≠ some 0x23) (hswallows : ¬ Swallows source i m) :
    gapTokens source i q =
      gapTokens source i m ++ markToken source m e :: gapTokens source e q := by
  have hlt := h.lt
  have hstop := h.stop_le
  -- along the scan up to the mark; only at its start a name could take in the mark, for the offsets
  -- that it goes on to are anchored
  induction i using @gap_induction source m with
  | done i hle =>
    obtain rfl : i = m := by omega
    rw [gapTokens_of_le (Nat.le_refl i), gapTokens_of_some (by omega) (h.lexeme_eq_mark hq)]
    rfl
  | blank i him hnone ih =>
    have hsame := h.lexeme_congr hq him (hhash i (Nat.le_refl i) him) hswallows
    rw [hnone] at hsame
    have hanchored := anchored_of_none (getElem?_eq_getElem (by omega)) hsame
    rw [gapTokens_of_none (by omega) hsame, gapTokens_of_none him hnone]
    exact ih (by omega) (fun k hk => hhash k (by omega)) (hanchored.not_swallows (by omega))
  | token i t him hsome ih =>
    have hsame := h.lexeme_congr hq him (hhash i (Nat.le_refl i) him) hswallows
    rw [hsome] at hsame
    have hrange := (lexeme_of_some hsome).range him
    have hanchored := anchored_of_some hsame (by omega)
    rw [gapTokens_of_some (by omega) hsame, gapTokens_of_some him hsome, cons_append]
    exact congrArg (t :: ·) (ih (by omega) (fun k hk => hhash k (by omega))
      (hanchored.not_swallows (by omega)))

theorem lexeme_of_splits (h : SplitsPair source i) (q : Nat) : ∃ u, lexeme source i q =
      if !(identifierAt source i).isEmpty && i + (identifierAt source i).length ≤ q then
        some ⟨.name, identifierAt source i, i, i + (identifierAt source i).length⟩
      else some ⟨.node, [u], i, i + 1⟩ := by
  have hlow := h.2.1
  cases hu : source[i]? with
  | none => rw [hu] at hlow; cases hlow
  | some u =>
    rw [hu, Option.any_some] at hlow
    have hblank : ¬ isGapBlank u = true := by
      rw [isGapBlank_of_surrogate (.inr hlow)]
      simp
    have hhash : ¬ (u == 0x23) = true := by
      intro hmark
      rw [beq_iff_eq.mp hmark] at hlow
      exact absurd hlow (by decide)
    have hpunct : ¬ isPunctuation [u] = true := by
      intro hp
      rw [(isPunctuation_unit hp).2.2.2.1] at hlow
      exact Bool.false_ne_true hlow
    have hstars : ¬ ((u == 0x2A && source[i + 1]? == some 0x2A && decide (i + 1 < q)) = true) := by
      intro hstars
      rw [Bool.and_eq_true, Bool.and_eq_true] at hstars
      rw [beq_iff_eq.mp hstars.1.1] at hlow
      exact absurd hlow (by decide)
    exact ⟨u, by rw [lexeme_eq hu, if_neg hblank, if_neg hhash, if_neg hstars, if_neg hpunct]⟩

/-- A name that takes in a mark is found in a gap that goes on over the mark, and not in one that
ends there. -/
theorem StandsAlone.gapTokens_ne (h : StandsAlone source m e) (hq : e ≤ q) (hi : i ≤ m)
    (hswallows : Swallows source i m) (rest : List Token) :
    gapTokens source i q ≠ gapTokens source i m ++ rest := by
  obtain ⟨hsplits, hne, hlong⟩ := hswallows
  have hlt := h.lt
  -- a mark does not split a pair, so the scan is not at the mark yet
  have him : i < m := by
    rcases Nat.lt_or_eq_of_le hi with hlt | rfl
    · exact hlt
    · obtain ⟨u, hu, hp⟩ := h.unit
      exact absurd hsplits (not_splitsPair_of_behind hu (isPunctuation_unit hp).2.2.2.1)
  obtain ⟨_, hname⟩ := lexeme_of_splits hsplits q
  obtain ⟨_, hnode⟩ := lexeme_of_splits hsplits m
  rw [if_pos (by simp [hne]; omega)] at hname
  rw [if_neg (by simp; omega)] at hnode
  rw [gapTokens_of_some (by omega) hname, gapTokens_of_some him hnode, cons_append]
  intro heq
  exact absurd (congrArg Token.kind (List.cons.inj heq).1) (by simp)

/-! ## A mark among the nodes -/

theorem classify_eq_mark (hle : c.start ≤ c.stop) (hlen : c.stop ≤ source.length)
    (hcomment : c.kind ≠ .comment) (hname : c.kind ≠ .variableName)
    (hpunct : isPunctuation (source.slice c.start c.stop) = true) :
    classify source c = some (markToken source c.start c.stop) := by
  have hall :
      ∀ t ∈ punctuation, t.trim = t ∧ t.takeWhile Text.isBlank = [] ∧ t.isEmpty = false := by
    decide
  by_cases herror : c.kind = .error
  · obtain ⟨htrim, hlead, hne⟩ := hall _ (contains_iff_mem.mp hpunct)
    have hlength := Text.length_slice source c.start c.stop
    rw [classify_of_error herror, htrim, hlead, if_neg (by rw [hne]; simp), if_pos hpunct, hlength]
    unfold markToken
    rw [length_nil, Nat.add_zero, Nat.min_eq_left hlen, Nat.add_sub_cancel' hle]
  · unfold classify
    dsimp only
    rw [if_neg hcomment, if_neg herror, if_neg hname, if_pos hpunct]
    rfl

theorem tokenize_first_gap (source : Text) (hord : Tree.InOrder e stop after) :
    ∃ q rest, e ≤ q ∧ q ≤ stop ∧ ∀ s, s ≤ e →
      tokenize source s stop after = gapTokens source s q ++ rest := by
  cases after with
  | nil => exact ⟨stop, [], hord, Nat.le_refl _, fun s _ => (append_nil _).symm⟩
  | cons d rest =>
    obtain ⟨h1, h2, h3⟩ := hord
    exact ⟨d.start, _, h1, Nat.le_trans h2 h3.le, fun s hs => tokenize_cons (by omega) h2⟩

/-- Where the gap behind some nodes starts. -/
def gapStart (start : Nat) (before : List Tree) : Nat :=
  (before.getLast?.map (·.stop)).getD start

theorem gapStart_cons (start : Nat) (b : Tree) (before : List Tree) :
    gapStart start (b :: before) = gapStart b.stop before := by
  cases before with
  | nil => rfl
  | cons d rest =>
    rw [gapStart, gapStart, getLast?_cons_cons, getLast?_eq_some_getLast (by simp)]
    rfl

theorem tokenize_remove_first (hord : Tree.InOrder start stop (c :: after))
    (halone : StandsAlone source c.start c.stop)
    (hclass : classify source c = some (markToken source c.start c.stop))
    (hhash : ∀ i, start ≤ i → i < c.start → source[i]? ≠ some 0x23) :
    tokenize source start stop (c :: after) = tokenize source start stop after ↔
      ¬ Swallows source start c.start := by
  obtain ⟨h1, h2, h3⟩ := hord
  obtain ⟨q, rest, hq, _, hfirst⟩ := tokenize_first_gap source h3
  have hwith : tokenize source start stop (c :: after) = (gapTokens source start c.start ++
      markToken source c.start c.stop :: gapTokens source c.stop q) ++ rest := by
    rw [tokenize_cons h1 h2, hclass, hfirst c.stop (Nat.le_refl _), Option.toList_some,
      singleton_append, append_assoc, cons_append]
  rw [hwith, hfirst start (by omega), append_cancel_right_eq]
  constructor
  · intro heq hswallows
    exact halone.gapTokens_ne hq h1 hswallows _ heq.symm
  · intro hswallows
    exact (halone.gapTokens_split hq h1 hhash hswallows).symm

theorem tokenize_remove (hord : Tree.InOrder start stop (before ++ c :: after))
    (halone : StandsAlone source c.start c.stop)
    (hclass : classify source c = some (markToken source c.start c.stop))
    (hhash : ∀ i, gapStart start before ≤ i → i < c.start → source[i]? ≠ some 0x23) :
    tokenize source start stop (before ++ c :: after) =
      tokenize source start stop (before ++ after) ↔
      ¬ Swallows source (gapStart start before) c.start := by
  induction before generalizing start with
  | nil => exact tokenize_remove_first hord halone hclass hhash
  | cons b before ih =>
    obtain ⟨h1, h2, h3⟩ := hord
    rw [gapStart_cons] at hhash ⊢
    rw [cons_append, cons_append, tokenize_cons h1 h2, tokenize_cons h1 h2,
      append_cancel_left_eq, append_cancel_left_eq]
    exact ih h3 hhash

theorem tokenize_congr {d : Tree} (hstart : d.start = c.start) (hstop : d.stop = c.stop)
    (hclass : classify source d = classify source c) (before : List Tree) :
    tokenize source start stop (before ++ d :: after) =
      tokenize source start stop (before ++ c :: after) := by
  induction before generalizing start with
  | nil =>
    rw [nil_append, nil_append, tokenize, tokenize, hstart, hstop, hclass]
  | cons b before ih =>
    rw [cons_append, cons_append, tokenize, tokenize, ih, ih]

/-! ## Extractions -/

theorem extractLambda_of_parts {n keyword body : Tree} {middle : List Tree}
    (h : LambdaParts n keyword middle body) (scope : ScopeKind) :
    extractLambda source n scope =
      extract source ((tokenize source keyword.stop body.start (lambdaRegion middle)).takeWhile
        fun t => !t.isPunct ":") .lambda scope := by
  unfold extractLambda
  rw [h.nodes]
  cases middle with
  | nil => rfl
  | cons second middle =>
    have hinit : (second :: (middle ++ [body])).dropLast = second :: middle := by
      rw [← cons_append, dropLast_concat]
    have hlast : (second :: (middle ++ [body])).getLast (by simp) = body := by simp
    dsimp only [cons_append]
    rw [hinit, hlast]

/-- **Which punctuation is a node does not matter.** Take a node that is a punctuation mark, with no
comment opened in the gap ahead of it and no star next to a star. Its kind makes no difference to
the tokens, and neither does taking the node away, unless the gap ahead of it starts inside a
surrogate pair and with a name that then takes in the mark. So the same is extracted from a function
or a lambda with the node and from one without. -/
theorem tokenize_remove_iff (source : Text) (start stop : Nat) (before : List Tree) (c : Tree)
    (after : List Tree) (hord : Tree.InOrder start stop (before ++ c :: after))
    (hlen : stop ≤ source.length) (hcomment : c.kind ≠ .comment) (hname : c.kind ≠ .variableName)
    (hpunct : isPunctuation (source.slice c.start c.stop) = true)
    (hhash : ∀ i, gapStart start before ≤ i → i < c.start → source[i]? ≠ some 0x23)
    (hstar : source[c.start]? = some 0x2A →
      (∀ i, i + 1 = c.start → source[i]? ≠ some 0x2A) ∧ source[c.stop]? ≠ some 0x2A) :
    (tokenize source start stop (before ++ c :: after) =
        tokenize source start stop (before ++ after) ↔
      ¬ Swallows source (gapStart start before) c.start) ∧
    (∀ d : Tree, d.start = c.start → d.stop = c.stop → d.kind ≠ .comment → d.kind ≠ .variableName →
      tokenize source start stop (before ++ d :: after) =
        tokenize source start stop (before ++ c :: after)) ∧
    (¬ Swallows source (gapStart start before) c.start → ∀ scope : ScopeKind,
      (∀ params params' : Tree, params.start = start → params.stop = stop →
        params'.start = start → params'.stop = stop → params.children = before ++ c :: after →
        params'.children = before ++ after →
        extractFunction source params scope = extractFunction source params' scope) ∧
      (∀ lambda lambda' keyword body middle middle', LambdaParts lambda keyword middle body →
        LambdaParts lambda' keyword middle' body → keyword.stop = start → body.start = stop →
        lambdaRegion middle = before ++ c :: after → lambdaRegion middle' = before ++ after →
        extractLambda source lambda scope = extractLambda source lambda' scope)) := by
  have hrange := hord.mem_range (List.mem_append_right _ (List.mem_cons_self ..))
  have hstop := Nat.le_trans hrange.2.2 hlen
  have halone : StandsAlone source c.start c.stop :=
    ⟨hstop, hpunct, fun hs => (hstar hs).1, fun hs => (hstar hs).2⟩
  have hclass := classify_eq_mark hrange.2.1 hstop hcomment hname hpunct
  have hremove := tokenize_remove hord halone hclass hhash
  refine ⟨hremove, fun d hdstart hdstop hdcomment hdname => ?_, fun hswallows scope => ⟨?_, ?_⟩⟩
  · -- the kind of a node counts only if it is a comment or a name
    have hdclass : classify source d = classify source c := by
      rw [hclass, ← hdstart, ← hdstop]
      exact classify_eq_mark (by omega) (by omega) hdcomment hdname
        (by rw [hdstart, hdstop, hpunct])
    exact tokenize_congr hdstart hdstop hdclass before
  · intro params params' h1 h2 h3 h4 hchildren hchildren'
    rw [extractFunction, extractFunction, h1, h2, h3, h4, hchildren, hchildren',
      hremove.mpr hswallows]
  · intro lambda lambda' keyword body middle middle' hparts hparts' h1 h2 hregion hregion'
    rw [extractLambda_of_parts hparts, extractLambda_of_parts hparts', h1, h2, hregion, hregion',
      hremove.mpr hswallows]

/-- The parameters of a function. -/
def listedSource : Text := "(a, /, **k)"

def listedAhead : List Tree :=
  [.sign "(" 0, .leaf .variableName 1 2, .sign "," 2]

def listedBehind : List Tree :=
  [.sign "," 5, .leaf .variableName 9 10, .sign ")" 10]

/-- Their marker, as an error. -/
def listedMarker : Tree := .leaf .error 4 5

theorem tokenize_remove_listed :
    Tree.InOrder 0 11 (listedAhead ++ listedMarker :: listedBehind) ∧ 11 ≤ listedSource.length ∧
    isPunctuation (listedSource.slice 4 5) = true ∧ gapStart 0 listedAhead = 3 ∧
    ¬ Swallows listedSource 3 4 ∧
    tokenize listedSource 0 11 (listedAhead ++ listedMarker :: listedBehind) =
      tokenize listedSource 0 11 (listedAhead ++ listedBehind) ∧
    extractFunction listedSource
        (.node .paramList ⟨0, 11⟩ (listedAhead ++ listedMarker :: listedBehind)) .module =
      extractFunction listedSource
        (.node .paramList ⟨0, 11⟩ (listedAhead ++ listedBehind)) .module := by
  have hord : Tree.InOrder 0 11 (listedAhead ++ listedMarker :: listedBehind) := by decide
  have hlen : 11 ≤ listedSource.length := by decide
  have hpunct : isPunctuation (listedSource.slice 4 5) = true := by decide
  have hgap : listedSource[3]? ≠ some 0x23 ∧ listedSource[4]? ≠ some 0x2A := by decide
  have hswallows : ¬ Swallows listedSource 3 4 := by decide
  obtain ⟨hremove, _, hextract⟩ := tokenize_remove_iff listedSource 0 11 listedAhead listedMarker
    listedBehind hord hlen (by decide) (by decide) hpunct
    (fun i hlow hhigh => by
      have hlow : 3 ≤ i := hlow
      have hhigh : i < 4 := hhigh
      obtain rfl : i = 3 := by omega
      exact hgap.1)
    (fun hstar => absurd hstar hgap.2)
  exact ⟨hord, hlen, hpunct, rfl, hswallows, hremove.mpr hswallows,
    (hextract hswallows .module).1 _ _ rfl rfl rfl rfl rfl rfl⟩

/-- **A mark without a node can get lost**: a letter outside the basic plane that a gap starts
inside of is found one unit early, and its token takes in the mark behind it. -/
theorem mark_needs_node :
    tokenize [0xD835, 0xDC1A, 0x2F] 1 3 [.leaf .error 2 3] =
      [⟨.node, [0xDC1A], 1, 2⟩, ⟨.punctuation, [0x2F], 2, 3⟩] ∧
    tokenize [0xD835, 0xDC1A, 0x2F] 1 3 [] = [⟨.name, [0xD835, 0xDC1A], 1, 3⟩] := by
  decide +kernel

end Posonly.Signature
