import Posonly.Proofs.Signature.Groups

/-!
# Where the marker of a signature stands

Token lists come out of the tokenizer and lose their brackets or their tail before anything is
extracted from them. `Laid` is what survives this: tokens in their order, spelled as they stand in
the source, with padding between neighbours unless one of the two is a comment. An extraction from
such a list deletes a `MarkerRun`, and if names start with a solid unit, one of them stands ahead of
all that is deleted.
-/

open List Posonly.Text

namespace Posonly.Signature

open Text (isPadding isSeparator)

variable {source : Text} {tokens : List Token} {target : Target} {scope : ScopeKind}

/-- Tokens as they stand in a source. -/
structure Laid (source : Text) (tokens : List Token) : Prop where
  chain : tokens.IsChain (Token.Follows source)
  range : ∀ t ∈ tokens, t.start ≤ t.stop ∧ t.stop ≤ source.length
  spelled : ∀ t ∈ tokens, t.Spelled source

/-! ## Tokenized ranges -/

variable {ts : List Token} {i stop start index : Nat} {t marker : Token} {c : Tree}
  {children : List Tree} {e : Extraction}

/-- Neighbours of a layout have padding between them. -/
theorem Layout.chain {a b : Nat} (h : Layout source a b ts) :
    ts.IsChain (Token.Follows source) := by
  induction h with
  | nil _ _ => exact .nil
  | @cons a b t ts _ _ _ htail ih =>
    refine isChain_cons.mpr ⟨fun s hs => ?_, ih⟩
    cases htail with
    | nil _ _ => cases hs
    | cons hle hpad _ _ =>
      rw [head?_cons, Option.mem_some_iff] at hs
      subst hs
      exact ⟨hle, fun _ _ => hpad⟩

theorem Lexeme.spelled (h : Lexeme source i stop t) : t.Spelled source := by
  intro hkind
  cases h with
  | comment _ => cases hkind
  | stars h1 h2 _ =>
    refine ⟨?_, rfl⟩
    have hcut := slice_append (t := source) (Nat.le_add_right i 1) (Nat.le_add_right (i + 1) 1)
    rw [slice_unit h1, slice_unit h2] at hcut
    exact hcut.symm
  | mark hu _ => exact ⟨slice_unit hu, rfl⟩
  | name _ _ _ _ _ | other _ _ => cases hkind

theorem Classified.spelled (hle : c.start ≤ c.stop) (hlen : c.stop ≤ source.length)
    (h : Classified source c t) : t.Spelled source := by
  intro hkind
  cases h with
  | comment _ => cases hkind
  | skipped _ _ _ _ hslice _ _ => exact ⟨hslice, rfl⟩
  | name _ => cases hkind
  | mark _ _ =>
    refine ⟨rfl, ?_⟩
    dsimp only
    rw [length_slice]
    omega
  | error _ _ | other _ _ => cases hkind

/-- All of a node whose token is a slash is separators: the slash and the padding around it. -/
theorem Classified.separators (hlen : c.stop ≤ source.length) (hle : c.start ≤ c.stop)
    (h : Classified source c t) (hslash : t.isPunct "/" = true) :
    source.Throughout isSeparator c.start c.stop := by
  obtain ⟨hu, hone⟩ := (h.spelled hle hlen).unit hslash
  obtain ⟨h1, _, h3, hlead, hend⟩ := h.range hle
  have hmark : source.Throughout isSeparator t.start t.stop := by
    rw [hone]
    exact throughout_unit hu (by decide)
  have hlead := hlead.imp fun _ => isSeparator_of_isPadding
  have hend := hend.imp fun _ => isSeparator_of_isPadding
  exact (hlead.append hmark).append hend

/-- **The tokens of a range stand in the source** as `Laid` says. -/
theorem laid_tokenize (hle : start ≤ stop) (hlen : stop ≤ source.length)
    (hin : ∀ c ∈ children, c.start ≤ c.stop ∧ c.stop ≤ stop) :
    Laid source (tokenize source start stop children) where
  chain := (layout_tokenize hle hin).chain
  range t ht := by
    have := (layout_tokenize hle hin).mem_range ht
    omega
  spelled t ht := by
    rcases mem_tokenize hin ht with ⟨c, hc, hcl⟩ | ⟨i, e, _, _, hlex⟩
    · have := hin c hc
      exact hcl.spelled this.1 (by omega)
    · exact hlex.spelled

/-! ## Dropping tokens -/

/-- A token next to a comment can be taken out: a comment stands behind no token directly. -/
theorem Laid.remove {xs ys : List Token} (h : Laid source (xs ++ t :: ys))
    (hedge : (∀ x ∈ xs.getLast?, x.isComment = true) ∨ ∀ y ∈ ys.head?, y.isComment = true) :
    Laid source (xs ++ ys) := by
  have hsub : (xs ++ ys).Sublist (xs ++ t :: ys) := (sublist_cons_self t ys).append_left xs
  obtain ⟨hxs, htys, hjoin⟩ := isChain_append.mp h.chain
  obtain ⟨hty, hys⟩ := isChain_cons.mp htys
  refine ⟨isChain_append.mpr ⟨hxs, hys, fun x hx y hy => ?_⟩,
    fun s hs => h.range s (hsub.subset hs), fun s hs => h.spelled s (hsub.subset hs)⟩
  have hxt := hjoin x hx t rfl
  have hty := hty y hy
  have ht := (h.range t (by simp)).1
  refine ⟨Nat.le_trans hxt.1 (Nat.le_trans ht hty.1), fun hxc hyc => ?_⟩
  rcases hedge with hc | hc
  · exact absurd (hc x hx) (by rw [hxc]; simp)
  · exact absurd (hc y hy) (by rw [hyc]; simp)

/-- A punctuation is taken off behind the comments that come first, or nothing is. -/
theorem dropFirst_cases (text : Text) (ts : List Token) :
    dropFirst text ts = ts ∨ ∃ xs t ys, ts = xs ++ t :: ys ∧ t.isPunct text = true ∧
      (∀ x ∈ xs, x.isComment = true) ∧ dropFirst text ts = xs ++ ys := by
  induction ts with
  | nil => exact .inl rfl
  | cons t rest ih =>
    rw [dropFirst]
    split
    · rename_i hc
      rcases ih with h | ⟨xs, s, ys, rfl, hs, hxs, h⟩
      · exact .inl (by rw [h])
      · refine .inr ⟨t :: xs, s, ys, rfl, hs, ?_, by rw [h]; rfl⟩
        intro x hx
        rcases mem_cons.mp hx with rfl | hx
        · exact hc
        · exact hxs x hx
    · split
      · rename_i hp
        exact .inr ⟨[], t, rest, rfl, hp, by simp, rfl⟩
      · exact .inl rfl

theorem laid_dropFirst {text : Text} (h : Laid source ts) : Laid source (dropFirst text ts) := by
  rcases dropFirst_cases text ts with heq | ⟨xs, t, ys, rfl, _, hxs, heq⟩
  · rwa [heq]
  · rw [heq]
    exact h.remove (.inl fun x hx => hxs x (mem_of_getLast? hx))

theorem laid_inner (h : Laid source ts) : Laid source (inner ts) := by
  unfold inner
  rcases dropFirst_cases ")" (dropFirst "(" ts).reverse with heq | ⟨xs, t, ys, hrev, _, hxs, heq⟩
  · rw [heq, reverse_reverse]
    exact laid_dropFirst h
  · rw [heq, reverse_append]
    have hlist : dropFirst "(" ts = ys.reverse ++ t :: xs.reverse := by
      rw [← reverse_reverse (dropFirst "(" ts), hrev, reverse_append, reverse_cons, append_assoc]
      rfl
    have hopen : Laid source (dropFirst "(" ts) := laid_dropFirst h
    rw [hlist] at hopen
    refine hopen.remove (.inr fun x hx => hxs x ?_)
    exact mem_reverse.mp (mem_of_head? hx)

theorem inner_sublist (ts : List Token) : (inner ts).Sublist ts := by
  have hdrop : ∀ (text : Text) (us : List Token), (dropFirst text us).Sublist us := by
    intro text us
    rcases dropFirst_cases text us with heq | ⟨xs, t, ys, rfl, _, _, heq⟩
    · rw [heq]
    · rw [heq]
      exact (sublist_cons_self t ys).append_left xs
  unfold inner
  have := (hdrop ")" (dropFirst "(" ts).reverse).reverse
  rw [reverse_reverse] at this
  exact this.trans (hdrop "(" ts)

theorem laid_takeWhile (p : Token → Bool) (h : Laid source ts) : Laid source (ts.takeWhile p) := by
  have hsub := takeWhile_sublist (l := ts) p
  have hchain := h.chain
  rw [← takeWhile_append_dropWhile (p := p) (l := ts)] at hchain
  exact ⟨hchain.left_of_append, fun t ht => h.range t (hsub.subset ht),
    fun t ht => h.spelled t (hsub.subset ht)⟩

/-! ## Order -/

/-- **Tokens are in order**, and not only those next to each other. -/
theorem Laid.pairwise (h : Laid source tokens) : tokens.Pairwise fun s t => s.stop ≤ t.start := by
  induction tokens with
  | nil => exact .nil
  | cons s rest ih =>
    obtain ⟨hnext, hchain⟩ := isChain_cons.mp h.chain
    have hrest : Laid source rest := ⟨hchain, fun t ht => h.range t (.tail _ ht),
      fun t ht => h.spelled t (.tail _ ht)⟩
    refine pairwise_cons.mpr ⟨fun t ht => ?_, ih hrest⟩
    cases rest with
    | nil => cases ht
    | cons u rest =>
      have hsu := (hnext u rfl).1
      rcases mem_cons.mp ht with rfl | ht
      · exact hsu
      · have hu := (hrest.range u (.head _)).1
        exact Nat.le_trans hsu (Nat.le_trans hu ((pairwise_cons.mp (ih hrest)).1 t ht))

theorem Laid.stop_le {j : Nat} {s : Token} (h : Laid source tokens) (hi : tokens[i]? = some s)
    (hj : tokens[j]? = some t) (hij : i < j) : s.stop ≤ t.start := by
  obtain ⟨_, rfl⟩ := List.getElem?_eq_some_iff.mp hi
  obtain ⟨_, rfl⟩ := List.getElem?_eq_some_iff.mp hj
  exact pairwise_iff_getElem.mp h.pairwise i j _ _ hij

theorem Laid.apart {pre post : List Token} {m : Token} (h : Laid source (pre ++ m :: post)) :
    (∀ t ∈ pre, t.stop ≤ m.start) ∧ ∀ t ∈ post, m.stop ≤ t.start := by
  obtain ⟨_, hpost, hpre⟩ := pairwise_append.mp h.pairwise
  exact ⟨fun t ht => hpre t ht m (.head _), (pairwise_cons.mp hpost).1⟩

/-! ## The deleted text -/

theorem previousAt_eq_some {p : Token} (h : previousAt tokens index = some p) :
    ∃ i, index = i + 1 ∧ tokens[i]? = some p := by
  unfold previousAt at h
  split at h
  · cases h
  · exact ⟨index - 1, by omega, h⟩

/-- The span of an extraction has the shape that the neighbours of its marker give it. -/
theorem Extracted.shape (h : Extracted source tokens marker index e) (hlaid : Laid source tokens) :
    ∃ comma, SpanShape source (previousAt tokens index) marker tokens[index + 1]? comma e.span := by
  have hat := mem_heads h.head
  rw [h.span]
  refine markerSpan_shape source ?_ (hlaid.range marker (mem_of_getElem? hat)).2 ?_
  · intro p hp
    obtain ⟨i, rfl, hi⟩ := previousAt_eq_some hp
    exact hlaid.stop_le hi hat (Nat.lt_succ_self i)
  · intro n hn
    exact (hlaid.range n (mem_of_getElem? hn)).2

/-- **An extraction deletes a run** of separators around its marker. -/
theorem Extracted.run (h : Extracted source tokens marker index e) (hlaid : Laid source tokens) :
    ∃ c?, MarkerRun source e.marker.start c? e.span := by
  have hat := mem_heads h.head
  have hlt := (List.getElem?_eq_some_iff.mp hat).1
  have hmem := mem_of_getElem? hat
  obtain ⟨comma, hshape⟩ := h.shape hlaid
  rw [h.markerRange]
  refine ⟨_, hshape.run h.slash (hlaid.spelled marker hmem) ?_ ?_ (hlaid.range marker hmem).2⟩
  · intro p hp
    obtain ⟨i, rfl, hi⟩ := previousAt_eq_some hp
    refine ⟨hlaid.spelled p (mem_of_getElem? hi), ?_⟩
    have hnext := hlaid.chain.getElem i hlt
    rwa [(List.getElem?_eq_some_iff.mp hi).2, (List.getElem?_eq_some_iff.mp hat).2] at hnext
  · intro n hn
    obtain ⟨hnlt, hneq⟩ := List.getElem?_eq_some_iff.mp hn
    refine ⟨hlaid.spelled n (mem_of_getElem? hn), ?_⟩
    have hnext := hlaid.chain.getElem index hnlt
    rwa [hneq, (List.getElem?_eq_some_iff.mp hat).2] at hnext

/-! ## Names -/

/-- An identifier starts with a solid unit, also one that is looked for inside of a pair. -/
theorem solidAt_of_identifierAt {u : UInt16} (hu : source[i]? = some u)
    (h : identifierAt source i ≠ []) : source.SolidAt i := by
  refine ⟨u, hu, ?_⟩
  by_cases hlow : Text.isLowSurrogate u = true
  · exact isSeparator_of_surrogate (.inr hlow)
  by_cases hhigh : Text.isHighSurrogate u = true
  · exact isSeparator_of_surrogate (.inl hhigh)
  rw [Bool.eq_false_iff]
  intro hs
  have hstart := startsIdentifier_of_isSeparator hs
  refine h ?_
  have hrest : source.drop i = u :: source.drop (i + 1) := by
    obtain ⟨hlt, rfl⟩ := List.getElem?_eq_some_iff.mp hu
    exact drop_eq_getElem_cons hlt
  unfold identifierAt
  dsimp only
  rw [hu, Option.any_some, Bool.eq_false_iff.mpr hlow, Bool.and_false, Bool.false_and,
    if_neg (by simp), hrest]
  have hzero : Text.identifierLength (u :: source.drop (i + 1)) = 0 := by
    cases source.drop (i + 1) with
    | nil => rw [Text.identifierLength, hstart]; rfl
    | cons v rest =>
      rw [Text.identifierLength, Bool.eq_false_iff.mpr hhigh, Bool.false_and]
      simp [hstart]
  rw [hzero, take_zero]

theorem solidAt_of_mem_tokenize (hin : ∀ c ∈ children, c.start ≤ c.stop ∧ c.stop ≤ stop)
    (hnames : ∀ c ∈ children, c.kind = .variableName → source.SolidAt c.start)
    (ht : t ∈ tokenize source start stop children) (hkind : t.kind = .name) :
    source.SolidAt t.start := by
  rcases mem_tokenize hin ht with ⟨c, hc, hcl⟩ | ⟨i, e, _, _, hlex⟩
  · cases hcl with
    | name hk => exact hnames c hc hk
    | _ => cases hkind
  · cases hlex with
    | name hu _ _ hne _ => exact solidAt_of_identifierAt hu hne
    | _ => cases hkind

/-- **A name stands ahead of what is deleted**: the parameters that the marker is for. -/
theorem Extracted.exists_solid (h : Extracted source tokens marker index e)
    (hlaid : Laid source tokens) (hnames : ∀ t ∈ tokens, t.kind = .name → source.SolidAt t.start) :
    ∃ t ∈ tokens, source.SolidAt t.start ∧ t.start < e.span.start := by
  obtain ⟨t, i, ht, hkind, hi⟩ := h.exists_name
  obtain ⟨c?, hrun⟩ := h.run hlaid
  have hmem := mem_of_getElem? ht
  have hsolid := hnames t hmem hkind
  refine ⟨t, hmem, hsolid, ?_⟩
  have hlt : t.stop ≤ e.marker.start := by
    rw [h.markerRange]
    exact hlaid.stop_le ht (mem_heads h.head) hi
  have hle := (hlaid.range t hmem).1
  have hend := hrun.lt_stop
  rcases hsolid.not_mem hrun.separators with hbefore | hbehind
  · exact hbefore
  · omega

end Posonly.Signature
