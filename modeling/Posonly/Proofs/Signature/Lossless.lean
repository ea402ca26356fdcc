import Posonly.Proofs.Signature.Gaps

/-!
# Tokenizing loses nothing

The tokens of a range stand apart and in order, each with the text at its range; what is in none of
them separates (`Skips`), and a node that is no blank error has one token and shares none with what
is around it. All this is shown of a gap by going along its scan, of a node by its kind, and of a
range by going along its nodes (`tokenize_lossless`).

The text of a token is not at its range in one case: a name at the start of a gap that starts
between the halves of a surrogate pair. It is found one unit early, and its token covers one unit
too many.
-/

open List Posonly.Text

namespace Posonly.Signature

variable {source : Text} {start stop : Nat} {t : Token} {c : Tree} {children : List Tree} {k : Nat}
  {i : Nat}

/-! ## Text -/

/-- A token has the text at its range. -/
def Token.Verbatim (source : Text) (t : Token) : Prop := source.slice t.start t.stop = t.text

/-- A token is a name that was found one unit ahead of its range, whose start splits a pair. -/
structure Token.Shifted (source : Text) (t : Token) : Prop where
  name : t.kind = .name
  splits : SplitsPair source t.start
  text : source.slice (t.start - 1) (t.stop - 1) = t.text

theorem slice_takeWhile (source : Text) (p : UInt16 → Bool) (i stop : Nat) :
    source.slice i (i + ((source.slice i stop).takeWhile p).length) =
      (source.slice i stop).takeWhile p := by
  obtain ⟨rest, hrest⟩ := takeWhile_prefix (l := source.slice i stop) p
  exact (slice_split hrest.symm).1

theorem verbatim_or_shifted (h : Lexeme source i stop t) :
    t.Verbatim source ∨ t.Shifted source := by
  cases h with
  | comment => exact .inl (slice_takeWhile source _ i stop)
  | stars h1 h2 hlt => exact .inl ((Lexeme.stars h1 h2 hlt).spelled rfl).1
  | mark hu => exact .inl (slice_unit hu)
  | name =>
    rcases spells_identifierAt source i with hspelled | ⟨hsplits, hearly⟩
    · exact .inl hspelled
    · exact .inr ⟨rfl, hsplits, hearly⟩
  | other hu => exact .inl (slice_unit hu)

theorem Anchored.verbatim (hanchored : Anchored source stop i)
    (h : Lexeme source i stop t) : t.Verbatim source := by
  rcases verbatim_or_shifted h with hverbatim | hshifted
  · exact hverbatim
  · cases h with
    | name _ _ _ hne hfits =>
      rcases hanchored hshifted.splits with hnone | hlong
      · exact absurd hnone hne
      · omega
    | _ => exact absurd hshifted.name (by simp)

/-- A scan that starts at an anchored offset stays verbatim. -/
theorem Anchored.verbatim_gapTokens (hlen : stop ≤ source.length)
    (h : Anchored source stop i) : ∀ t ∈ gapTokens source i stop, t.Verbatim source := by
  induction i using @gap_induction source stop with
  | done i hle =>
    intro t ht
    rw [gapTokens_of_le hle] at ht
    exact absurd ht not_mem_nil
  | blank i hi hnone ih =>
    rw [gapTokens_of_none hi hnone]
    exact ih (anchored_of_none (getElem?_eq_getElem (by omega)) hnone)
  | token i s hi hsome ih =>
    rw [gapTokens_of_some hi hsome]
    intro t ht
    rcases mem_cons.mp ht with rfl | ht
    · exact h.verbatim (lexeme_of_some hsome)
    · -- the scan goes on behind the token, where it is anchored again unless it is at its end
      by_cases hlt : s.stop < stop
      · exact ih (anchored_of_some hsome hlt) t ht
      · rw [gapTokens_of_le (by omega)] at ht
        exact absurd ht not_mem_nil

/-- **The tokens of a gap are verbatim**, but for a name that is found ahead of the gap. -/
theorem verbatim_gapTokens (hlen : stop ≤ source.length) (ht : t ∈ gapTokens source start stop) :
    t.Verbatim source ∨ (t.Shifted source ∧ t.start = start) := by
  by_cases hle : stop ≤ start
  · rw [gapTokens_of_le hle] at ht
    exact absurd ht not_mem_nil
  · cases hlex : lexeme source start stop with
    | none =>
      rw [gapTokens_of_none (by omega) hlex] at ht
      have hanchored := anchored_of_none (getElem?_eq_getElem (by omega)) hlex
      exact .inl (hanchored.verbatim_gapTokens hlen t ht)
    | some s =>
      rw [gapTokens_of_some (by omega) hlex] at ht
      rcases mem_cons.mp ht with rfl | ht
      · rcases verbatim_or_shifted (lexeme_of_some hlex) with hverbatim | hshifted
        · exact .inl hverbatim
        · exact .inr ⟨hshifted, ((lexeme_of_some hlex).range (by omega)).1⟩
      · by_cases hlt : s.stop < stop
        · exact .inl ((anchored_of_some hlex hlt).verbatim_gapTokens hlen t ht)
        · rw [gapTokens_of_le (by omega)] at ht
          exact absurd ht not_mem_nil

theorem Classified.verbatim (h : Classified source c t) : t.Verbatim source := by
  cases h with
  | skipped _ _ _ _ hslice => exact hslice
  | _ => rfl

/-! ## What is in no token -/

/-- A unit that belongs to no token: a separating unit of a gap, or a blank of an error. -/
def Skips (source : Text) (children : List Tree) (i : Nat) : Prop :=
  ∃ u, source[i]? = some u ∧ ((isGapBlank u = true ∧ ∀ c ∈ children, i < c.start ∨ c.stop ≤ i) ∨
      (isBlank u = true ∧ ∃ c ∈ children, c.kind = .error ∧ c.start ≤ i ∧ i < c.stop))

/-- A token covers an offset. -/
def Token.Covers (t : Token) (i : Nat) : Prop := t.start ≤ i ∧ i < t.stop

theorem gapTokens_covers (hlen : stop ≤ source.length) (hk : k < stop) :
    start ≤ k → (∃ t ∈ gapTokens source start stop, t.Covers k) ∨
      ∃ u, source[k]? = some u ∧ isGapBlank u = true := by
  induction start using @gap_induction source stop with
  | done i hle => intro hik; omega
  | blank i hi hnone ih =>
    intro hik
    rw [gapTokens_of_none hi hnone]
    by_cases heq : i = k
    · subst heq
      have hu := getElem?_eq_getElem (l := source) (i := i) (by omega)
      exact .inr ⟨_, hu, isGapBlank_of_lexeme hu hnone⟩
    · exact ih (by omega)
  | token i s hi hsome ih =>
    intro hik
    rw [gapTokens_of_some hi hsome]
    have hrange := (lexeme_of_some hsome).range hi
    by_cases hlt : k < s.stop
    · exact .inl ⟨s, mem_cons_self .., by omega, hlt⟩
    · rcases ih (by omega) with ⟨t, ht, hcovers⟩ | hblank
      · exact .inl ⟨t, mem_cons_of_mem _ ht, hcovers⟩
      · exact .inr hblank

theorem classify_eq_none_iff : classify source c = none ↔
    c.kind = .error ∧ (source.slice c.start c.stop).isAllBlank = true := by
  unfold classify
  dsimp only
  rw [← trim_eq_nil_iff]
  split
  · rename_i hcomment
    simp [hcomment]
  · split
    · rename_i herror
      split
      · rename_i hempty
        simp [herror, List.isEmpty_iff.mp hempty]
      · rename_i hempty
        split <;> simpa [herror] using hempty
    · rename_i herror
      split
      · simp [herror]
      · split <;> simp [herror]

theorem classify_of_error (h : c.kind = .error) : classify source c =
      if (source.slice c.start c.stop).trim.isEmpty then none
      else if isPunctuation (source.slice c.start c.stop).trim then
        some ⟨.punctuation, (source.slice c.start c.stop).trim,
          c.start + ((source.slice c.start c.stop).takeWhile isBlank).length,
          c.start + ((source.slice c.start c.stop).takeWhile isBlank).length +
            (source.slice c.start c.stop).trim.length⟩
      else some ⟨.node, source.slice c.start c.stop, c.start, c.stop⟩ := by
  unfold classify
  dsimp only
  rw [if_neg (by rw [h]; simp), if_pos h]

theorem classify_covers (hlen : c.stop ≤ source.length) (hlow : c.start ≤ k)
    (hhigh : k < c.stop) :
    (∃ t, classify source c = some t ∧ t.Covers k) ∨
      (c.kind = .error ∧ ∃ u, source[k]? = some u ∧ isBlank u = true) := by
  have hu := getElem?_eq_getElem (l := source) (i := k) (by omega)
  by_cases herror : c.kind = .error
  · obtain ⟨rest, hparts, hrest⟩ := trim_parts (source.slice c.start c.stop)
    have hlead := all_takeWhile (p := isBlank) (l := source.slice c.start c.stop)
    obtain ⟨hfirst, htail⟩ := slice_split hparts
    obtain ⟨_, hlast⟩ := slice_split htail
    rw [← hfirst, all_slice] at hlead
    rw [← hlast, all_slice] at hrest
    have hclassify := @classify_of_error source c herror
    generalize (source.slice c.start c.stop).trim = trimmed at hclassify hrest
    generalize ((source.slice c.start c.stop).takeWhile isBlank).length = n
      at hclassify hlead hrest
    -- the offset is among the blanks at either end, or in what is left between them
    by_cases hahead : k < c.start + n
    · exact .inr ⟨herror, _, hu, hlead k _ hlow hahead hu⟩
    · by_cases hbehind : c.start + n + trimmed.length ≤ k
      · exact .inr ⟨herror, _, hu, hrest k _ hbehind hhigh hu⟩
      · have hne : ¬ trimmed.isEmpty = true := by
          intro hempty
          rw [List.isEmpty_iff.mp hempty, length_nil] at hbehind
          omega
        rw [if_neg hne] at hclassify
        split at hclassify
        · exact .inl ⟨_, hclassify, by dsimp only; omega, by dsimp only; omega⟩
        · exact .inl ⟨_, hclassify, hlow, hhigh⟩
  · rcases classify_cases source (Nat.le_of_lt (Nat.lt_of_le_of_lt hlow hhigh)) with
      ⟨hnone, _⟩ | ⟨t, hsome, ht⟩
    · exact absurd (classify_eq_none_iff.mp hnone).1 herror
    · refine .inl ⟨t, hsome, ?_⟩
      cases ht with
      | skipped hk => exact absurd hk herror
      | _ => exact ⟨hlow, hhigh⟩

/-! ## Ranges -/

theorem tokenize_cons {rest : List Tree} (h : start ≤ c.start) (hle : c.start ≤ c.stop) :
    tokenize source start stop (c :: rest) =
      gapTokens source start c.start ++ ((classify source c).toList ++
        tokenize source c.stop stop rest) := by
  rw [tokenize, if_neg (by omega), Nat.max_eq_right (by omega), append_assoc]

theorem mem_tokenize_cases (hord : Tree.InOrder start stop children)
    (ht : t ∈ tokenize source start stop children) :
    (∃ c ∈ children, classify source c = some t) ∨
      ∃ p q, (p = start ∨ ∃ c ∈ children, c.stop = p) ∧ p ≤ q ∧ q ≤ stop ∧
        t ∈ gapTokens source p q := by
  induction children generalizing start with
  | nil => exact .inr ⟨start, stop, .inl rfl, hord, Nat.le_refl _, ht⟩
  | cons c rest ih =>
    obtain ⟨h1, h2, h3⟩ := hord
    rw [tokenize_cons h1 h2] at ht
    rcases mem_append.mp ht with hgap | ht
    · exact .inr ⟨start, c.start, .inl rfl, h1, Nat.le_trans h2 h3.le, hgap⟩
    rcases mem_append.mp ht with hnode | ht
    · exact .inl ⟨c, mem_cons_self .., Option.mem_toList.mp hnode⟩
    rcases ih h3 ht with ⟨d, hd, hclass⟩ | ⟨p, q, hp, hpq, hq, hgap⟩
    · exact .inl ⟨d, mem_cons_of_mem _ hd, hclass⟩
    · refine .inr ⟨p, q, .inr ?_, hpq, hq, hgap⟩
      rcases hp with rfl | ⟨d, hd, hstop⟩
      · exact ⟨c, mem_cons_self .., rfl⟩
      · exact ⟨d, mem_cons_of_mem _ hd, hstop⟩

theorem classified_of_some (hle : c.start ≤ c.stop) (h : classify source c = some t) :
    Classified source c t := by
  rcases classify_cases source hle with ⟨hnone, _⟩ | ⟨s, hsome, hs⟩
  · exact absurd (h.symm.trans hnone) (by simp)
  · obtain rfl : t = s := Option.some.inj (h.symm.trans hsome)
    exact hs

theorem Classified.lt (h : Classified source c t) (hlt : c.kind ≠ .error → c.start < c.stop) :
    t.start < t.stop := by
  cases h with
  | comment hk => exact hlt (by rw [hk]; simp)
  | skipped _ hp _ _ hslice => exact (visible_of_isPunctuation hp hslice).lt
  | name hk => exact hlt (by rw [hk]; simp)
  | mark _ hp => exact (visible_of_isPunctuation hp rfl).lt
  | error _ hblank =>
    dsimp only
    by_contra hle
    rw [slice_of_le (by omega)] at hblank
    cases hblank
  | other hk => exact hlt hk

theorem tokenize_covers (hord : Tree.InOrder start stop children) (hlen : stop ≤ source.length)
    (hlow : start ≤ k) (hhigh : k < stop) :
    (∃ t ∈ tokenize source start stop children, t.Covers k) ∨ Skips source children k := by
  induction children generalizing start with
  | nil =>
    rcases gapTokens_covers hlen hhigh hlow with hcovered | ⟨u, hu, hblank⟩
    · exact .inl hcovered
    · exact .inr ⟨u, hu, .inl ⟨hblank, fun _ hc => absurd hc not_mem_nil⟩⟩
  | cons c rest ih =>
    obtain ⟨h1, h2, h3⟩ := hord
    have hstop : c.stop ≤ source.length := Nat.le_trans h3.le hlen
    have hstart : c.start ≤ source.length := Nat.le_trans h2 hstop
    rw [tokenize_cons h1 h2]
    -- the offset is ahead of the node, in it or behind it
    by_cases hahead : k < c.start
    · rcases gapTokens_covers hstart hahead hlow with ⟨t, ht, hcovers⟩ | ⟨u, hu, hblank⟩
      · exact .inl ⟨t, mem_append_left _ ht, hcovers⟩
      · refine .inr ⟨u, hu, .inl ⟨hblank, fun d hd => .inl ?_⟩⟩
        rcases mem_cons.mp hd with rfl | hd
        · exact hahead
        · have := (h3.mem_range hd).1
          omega
    by_cases hin : k < c.stop
    · rcases classify_covers hstop (by omega) hin with ⟨t, ht, hcovers⟩ | ⟨hk, u, hu, hblank⟩
      · refine .inl ⟨t, ?_, hcovers⟩
        exact mem_append_right _ (mem_append_left _ (Option.mem_toList.mpr ht))
      · exact .inr ⟨u, hu, .inr ⟨hblank, c, mem_cons_self .., hk, by omega, hin⟩⟩
    · rcases ih h3 (by omega) with ⟨t, ht, hcovers⟩ | ⟨u, hu, hskips⟩
      · exact .inl ⟨t, mem_append_right _ (mem_append_right _ ht), hcovers⟩
      · -- what separates in the rest is not in the first node either
        refine .inr ⟨u, hu, ?_⟩
        rcases hskips with ⟨hblank, hout⟩ | ⟨hblank, d, hd, hrange⟩
        · refine .inl ⟨hblank, fun d hd => ?_⟩
          rcases mem_cons.mp hd with rfl | hd
          · exact .inr (by omega)
          · exact hout d hd
        · exact .inr ⟨hblank, d, mem_cons_of_mem _ hd, hrange⟩

/-- Whether a token and a node share a unit. -/
def Token.overlaps (t : Token) (c : Tree) : Bool :=
  decide (c.start < t.stop) && decide (t.start < c.stop)

theorem filter_overlaps_eq_nil {ts : List Token}
    (h : ∀ t ∈ ts, t.stop ≤ c.start ∨ c.stop ≤ t.start) : ts.filter (·.overlaps c) = [] := by
  rw [filter_eq_nil_iff]
  intro t ht
  have := h t ht
  rw [Token.overlaps, Bool.and_eq_true, decide_eq_true_eq, decide_eq_true_eq]
  omega

/-- **The tokens that share something with a node** are the one it stands for, if it stands for one.
-/
theorem filter_overlaps_tokenize (hord : Tree.InOrder start stop children)
    (hlt : ∀ c ∈ children, c.kind ≠ .error → c.start < c.stop) (hc : c ∈ children) :
    (tokenize source start stop children).filter (·.overlaps c) = (classify source c).toList := by
  induction children generalizing start with
  | nil => exact absurd hc not_mem_nil
  | cons d rest ih =>
    obtain ⟨h1, h2, h3⟩ := hord
    have hlayout : Layout source d.stop stop (tokenize source d.stop stop rest) :=
      layout_tokenize h3.le h3.mem_le
    rw [tokenize_cons h1 h2, filter_append, filter_append]
    rcases mem_cons.mp hc with rfl | hc
    · -- the gap ends where the node starts, and the rest starts where it ends
      rw [filter_overlaps_eq_nil fun t ht => .inl ((layout_gapTokens h1).mem_range ht).2.2,
        filter_overlaps_eq_nil fun t ht => .inr (hlayout.mem_range ht).1, nil_append,
        append_nil, filter_eq_self]
      intro t ht
      have hclass := classified_of_some h2 (Option.mem_toList.mp ht)
      have hpos := hclass.lt (hlt c (.head _))
      have hrange := hclass.range h2
      rw [Token.overlaps, Bool.and_eq_true, decide_eq_true_eq, decide_eq_true_eq]
      omega
    · -- the gap and the first node are ahead of any later node
      have hbehind := (h3.mem_range hc).1
      rw [filter_overlaps_eq_nil fun t ht => .inl ?_, filter_overlaps_eq_nil fun t ht => .inl ?_,
        ih h3 (fun e he => hlt e (.tail _ he)) hc, nil_append, nil_append]
      · have := ((layout_classify h2).mem_range ht).2.2
        omega
      · have := ((layout_gapTokens h1).mem_range ht).2.2
        omega

theorem classify_spec (hle : c.start ≤ c.stop) :
    if c.kind = .error ∧ (source.slice c.start c.stop).isAllBlank = true then
      (classify source c).toList = []
    else ∃ t, (classify source c).toList = [t] ∧ c.start ≤ t.start ∧ t.stop ≤ c.stop := by
  split
  · rename_i hblank
    rw [classify_eq_none_iff.mpr hblank]
    rfl
  · rename_i hblank
    cases hclass : classify source c with
    | none => exact absurd (classify_eq_none_iff.mp hclass) hblank
    | some t =>
      have hrange := (classified_of_some hle hclass).range hle
      exact ⟨t, rfl, hrange.1, hrange.2.2.1⟩

/-- **Tokenizing a range loses nothing of it and counts nothing twice.** The tokens are not empty,
stand in order and apart, and have the text at their ranges, unless a gap starts inside a surrogate
pair and with a name. What they do not cover separates. A node has one token, which lies in it and
is the only one that shares a unit with it; a blank error has none. -/
theorem tokenize_lossless (source : Text) (start stop : Nat) (children : List Tree)
    (hord : Tree.InOrder start stop children) (hlen : stop ≤ source.length)
    (hlt : ∀ c ∈ children, c.kind ≠ .error → c.start < c.stop) :
    (∀ t ∈ tokenize source start stop children,
      start ≤ t.start ∧ t.start < t.stop ∧ t.stop ≤ stop) ∧
    (tokenize source start stop children).Pairwise (fun s t => s.stop ≤ t.start) ∧
    (∀ t ∈ tokenize source start stop children, t.Verbatim source ∨
      (t.Shifted source ∧ (t.start = start ∨ ∃ c ∈ children, c.stop = t.start))) ∧
    (∀ k, start ≤ k → k < stop →
      (∃ t ∈ tokenize source start stop children, t.Covers k) ∨ Skips source children k) ∧
    (∀ c ∈ children,
      if c.kind = .error ∧ (source.slice c.start c.stop).isAllBlank = true then
        (tokenize source start stop children).filter (·.overlaps c) = []
      else ∃ t, (tokenize source start stop children).filter (·.overlaps c) = [t] ∧
        c.start ≤ t.start ∧ t.stop ≤ c.stop) := by
  have hlayout : Layout source start stop (tokenize source start stop children) :=
    layout_tokenize hord.le hord.mem_le
  refine ⟨fun t ht => ?_, (laid_tokenize hord.le hlen hord.mem_le).pairwise, fun t ht => ?_,
    fun k hlow hhigh => tokenize_covers hord hlen hlow hhigh, fun c hc => ?_⟩
  · have hrange := hlayout.mem_range ht
    refine ⟨hrange.1, ?_, hrange.2.2⟩
    rcases mem_tokenize hord.mem_le ht with ⟨c, hc, hclass⟩ | ⟨i, e, hi, _, hlex⟩
    · exact hclass.lt (hlt c hc)
    · have := hlex.range hi
      omega
  · rcases mem_tokenize_cases hord ht with ⟨c, hc, hclass⟩ | ⟨p, q, hp, _, hq, hgap⟩
    · exact Or.inl (classified_of_some (hord.mem_range hc).2.1 hclass).verbatim
    · rcases verbatim_gapTokens (Nat.le_trans hq hlen) hgap with hverbatim | ⟨hshifted, rfl⟩
      · exact Or.inl hverbatim
      · exact Or.inr ⟨hshifted, hp⟩
  · rw [filter_overlaps_tokenize hord hlt hc]
    exact classify_spec (hord.mem_range hc).2.1

/-- Parameters with punctuation, a comment and a joined line in the gaps. -/
def gappedSource : Text := "a,\\\n b=1 #c\r** / "

/-- Their nodes. One error is blank, the other holds a marker. -/
def gappedNodes : List Tree :=
  [.leaf .variableName 0 1, .leaf .error 4 5, .leaf .variableName 5 6,
    .leaf (.other "Number") 7 8, .leaf .error 14 17]

theorem tokenize_lossless_gapped :
    Tree.InOrder 0 17 gappedNodes ∧ 17 ≤ gappedSource.length ∧
    (∀ c ∈ gappedNodes, c.kind ≠ .error → c.start < c.stop) ∧
    (tokenize gappedSource 0 17 gappedNodes).map (·.range) =
      [⟨0, 1⟩, ⟨1, 2⟩, ⟨5, 6⟩, ⟨6, 7⟩, ⟨7, 8⟩, ⟨9, 11⟩, ⟨12, 14⟩, ⟨15, 16⟩] ∧
    (tokenize gappedSource 0 17 gappedNodes).Pairwise (fun s t => s.stop ≤ t.start) ∧
    (∀ t ∈ tokenize gappedSource 0 17 gappedNodes, t.Verbatim gappedSource ∨
      (t.Shifted gappedSource ∧ (t.start = 0 ∨ ∃ c ∈ gappedNodes, c.stop = t.start))) ∧
    (∀ k, 0 ≤ k → k < 17 →
      (∃ t ∈ tokenize gappedSource 0 17 gappedNodes, t.Covers k) ∨
        Skips gappedSource gappedNodes k) := by
  have hord : Tree.InOrder 0 17 gappedNodes := by decide
  have hlen : 17 ≤ gappedSource.length := by decide
  have hlt : ∀ c ∈ gappedNodes, c.kind ≠ .error → c.start < c.stop := by decide
  obtain ⟨_, hpairwise, htext, hcovers, _⟩ :=
    tokenize_lossless gappedSource 0 17 gappedNodes hord hlen hlt
  exact ⟨hord, hlen, hlt, by decide, hpairwise, htext, hcovers⟩

/-- **A token can hide the comma behind it**: looked for between the halves of a letter outside the
basic plane, the letter is found one unit early, and what is at the range of its token is another
text. -/
theorem shifted_name_covers_comma :
    tokenize [0xD835, 0xDC1A, 0x2C, 0x62] 1 4 [] =
      [⟨.name, [0xD835, 0xDC1A], 1, 3⟩, ⟨.name, [0x62], 3, 4⟩] ∧
    slice [0xD835, 0xDC1A, 0x2C, 0x62] 1 3 = [0xDC1A, 0x2C] := by
  decide +kernel

end Posonly.Signature
