import Mathlib.Data.List.Chain
import Posonly.Proofs.Syntax.Shape
import Posonly.Signature.Extraction

/-!
# How tokens lie in a source

A token list accounts for its whole range: between two neighbours there is nothing but *padding*,
which is white space and the backslashes that join lines. `Layout` says this of a range and a token
list, the tokenizer is shown to give one (`layout_tokenize`), and everything that later proofs know
about where tokens stand is read off it.

The range of a gap may not be cut back: a blank error node leaves no token, and its text is white
space of any kind, so padding has to be wider than the blanks that the gap scanner skips.
-/

open List Posonly.Text

namespace Posonly.Signature

open Text (isPadding)

/-- Tokens that account for a range: each starts where padding after the one before ends. -/
inductive Layout (source : Text) : Nat → Nat → List Token → Prop where
  | nil {a b : Nat} : a ≤ b → source.Throughout isPadding a b → Layout source a b []
  | cons {a b : Nat} {t : Token} {ts : List Token} :
      a ≤ t.start → source.Throughout isPadding a t.start → t.start ≤ t.stop →
      Layout source t.stop b ts → Layout source a b (t :: ts)

variable {source : Text} {a b c : Nat} {ts : List Token}

theorem Layout.le (h : Layout source a b ts) : a ≤ b := by
  induction h with
  | nil hle _ => exact hle
  | cons hle _ hne _ ih => omega

/-- Padding ahead of a range can be counted in with it. -/
theorem Layout.padLeft (hab : a ≤ b) (hpad : source.Throughout isPadding a b)
    (h : Layout source b c ts) : Layout source a c ts := by
  cases h with
  | nil hle hrest => exact .nil (Nat.le_trans hab hle) (hpad.append hrest)
  | cons hle hrest hne htail =>
    exact .cons (Nat.le_trans hab hle) (hpad.append hrest) hne htail

/-- Tokens of two ranges, one behind the other, account for both. -/
theorem Layout.append {us : List Token} (h : Layout source a b ts) (h' : Layout source b c us) :
    Layout source a c (ts ++ us) := by
  induction h with
  | nil hle hpad => exact h'.padLeft hle hpad
  | cons hle hpad hne _ ih => exact .cons hle hpad hne (ih h')

variable {t : Token} {stop : Nat} {children : List Tree} {c : Tree}

theorem Layout.mem_range (h : Layout source a b ts) (ht : t ∈ ts) :
    a ≤ t.start ∧ t.start ≤ t.stop ∧ t.stop ≤ b := by
  induction h with
  | nil _ _ => cases ht
  | cons hle _ hne htail ih =>
    rcases mem_cons.mp ht with rfl | ht
    · exact ⟨hle, hne, htail.le⟩
    · have := ih ht
      omega

/-! ## Gaps -/

/-- What a token of a gap that ends at `stop` is, by the unit it starts with. -/
inductive Lexeme (source : Text) (i stop : Nat) : Token → Prop where
  | comment : source[i]? = some 0x23 → Lexeme source i stop
        ⟨.comment, (source.slice i stop).takeWhile fun v =>
          v != lineFeed && v != carriageReturn, i,
          i + ((source.slice i stop).takeWhile fun v =>
            v != lineFeed && v != carriageReturn).length⟩
  | stars : source[i]? = some 0x2A → source[i + 1]? = some 0x2A → i + 1 < stop →
      Lexeme source i stop ⟨.punctuation, "**", i, i + 2⟩
  | mark {u : UInt16} : source[i]? = some u → isPunctuation [u] = true →
      Lexeme source i stop ⟨.punctuation, [u], i, i + 1⟩
  | name {u : UInt16} : source[i]? = some u → isGapBlank u = false → isPunctuation [u] = false →
      identifierAt source i ≠ [] → i + (identifierAt source i).length ≤ stop →
      Lexeme source i stop
        ⟨.name, identifierAt source i, i, i + (identifierAt source i).length⟩
  | other {u : UInt16} : source[i]? = some u → isGapBlank u = false →
      Lexeme source i stop ⟨.node, [u], i, i + 1⟩

/-- **What the scanner finds at an offset of a gap**: padding, which it skips, or a token. -/
theorem lexeme_cases (source : Text) (i stop : Nat) :
    (lexeme source i stop = none ∧ source.Throughout isPadding i (i + 1)) ∨
      ∃ t, lexeme source i stop = some t ∧ Lexeme source i stop t := by
  cases hdrop : source.drop i with
  | nil =>
    have hlen := drop_eq_nil_iff.mp hdrop
    refine .inl ⟨by rw [lexeme, hdrop], fun k u hik _ hu => ?_⟩
    rw [getElem?_eq_none (by omega)] at hu
    cases hu
  | cons u rest =>
    have hat : ∀ k, source[i + k]? = (u :: rest)[k]? := fun k => by
      rw [← hdrop, getElem?_drop]
    have hu : source[i]? = some u := hat 0
    rw [lexeme, hdrop]
    dsimp only
    split_ifs with hblank hhash hstars hpunct hname
    · exact .inl ⟨rfl, throughout_unit hu (isPadding_of_isGapBlank hblank)⟩
    · exact .inr ⟨_, rfl, .comment (by rw [hu, beq_iff_eq.mp hhash])⟩
    · simp only [Bool.and_eq_true, decide_eq_true_eq, beq_iff_eq] at hstars
      obtain ⟨⟨rfl, hnext⟩, hlt⟩ := hstars
      refine .inr ⟨_, rfl, .stars hu ?_ hlt⟩
      rw [hat 1, getElem?_cons_succ, ← head?_eq_getElem?, hnext]
    · exact .inr ⟨_, rfl, .mark hu hpunct⟩
    · simp only [Bool.and_eq_true, decide_eq_true_eq, Bool.not_eq_true',
        isEmpty_eq_false_iff] at hname
      exact .inr ⟨_, rfl, .name hu (by simpa using hblank) (by simpa using hpunct) hname.1 hname.2⟩
    · exact .inr ⟨_, rfl, .other hu (by simpa using hblank)⟩

/-- A token of a gap starts where it is found, takes up a unit at least and ends within the gap. -/
theorem Lexeme.range {i : Nat} (hi : i < stop) (h : Lexeme source i stop t) :
    t.start = i ∧ i < t.stop ∧ t.stop ≤ stop := by
  cases h with
  | comment hu =>
    -- the mark that opens the comment is part of it
    have hpos : 0 < ((source.slice i stop).takeWhile fun v =>
        v != lineFeed && v != carriageReturn).length := by
      have hfirst : (source.slice i stop)[0]? = some 0x23 := by
        rw [getElem?_slice, Nat.add_zero, if_pos hi, hu]
      cases hs : source.slice i stop with
      | nil => rw [hs] at hfirst; cases hfirst
      | cons v rest =>
        rw [hs, getElem?_cons_zero] at hfirst
        injection hfirst with hfirst
        rw [hfirst, takeWhile_cons_of_pos (by decide)]
        exact Nat.succ_pos _
    have hle := (takeWhile_sublist (l := source.slice i stop) (fun v =>
      v != lineFeed && v != carriageReturn)).length_le
    rw [length_slice] at hle
    exact ⟨rfl, by dsimp only; omega, by dsimp only; omega⟩
  | stars _ _ hlt | mark _ _ => exact ⟨rfl, by dsimp only; omega, by dsimp only; omega⟩
  | name _ _ _ hne hle =>
    have := length_pos_of_ne_nil hne
    exact ⟨rfl, by dsimp only; omega, hle⟩
  | other _ _ => exact ⟨rfl, by dsimp only; omega, by dsimp only; omega⟩

/-- The fuel is the length of what is left of the gap, so it lasts to the end. -/
theorem layout_gapTokensFrom : ∀ (fuel start : Nat), start ≤ stop →
    stop - start ≤ fuel → Layout source start stop (gapTokensFrom source stop fuel start)
  | 0, start, hle, hfuel => .nil hle (throughout_of_le (by omega))
  | fuel + 1, start, hle, hfuel => by
      rw [gapTokensFrom]
      split
      · exact .nil hle (throughout_of_le (by assumption))
      · rcases lexeme_cases source start stop with ⟨hnone, hpad⟩ | ⟨t, hsome, ht⟩
        · rw [hnone]
          exact (layout_gapTokensFrom fuel (start + 1) (by omega) (by omega)).padLeft
            (Nat.le_succ _) hpad
        · obtain ⟨hstart, hlt, hstop⟩ := ht.range (by omega)
          rw [hsome]
          exact .cons (by omega) (throughout_of_le (by omega)) (by omega)
            (layout_gapTokensFrom fuel t.stop hstop (by omega))

theorem layout_gapTokens {start : Nat} (h : start ≤ stop) :
    Layout source start stop (gapTokens source start stop) :=
  layout_gapTokensFrom _ start h (Nat.le_refl _)

theorem mem_gapTokensFrom : ∀ (fuel start : Nat),
    t ∈ gapTokensFrom source stop fuel start → ∃ i, i < stop ∧ Lexeme source i stop t
  | 0, _, ht => absurd ht (by simp [gapTokensFrom])
  | fuel + 1, start, ht => by
      rw [gapTokensFrom] at ht
      split at ht
      · cases ht
      · rename_i hlt
        rcases lexeme_cases source start stop with ⟨hnone, _⟩ | ⟨s, hsome, hs⟩
        · rw [hnone] at ht
          exact mem_gapTokensFrom fuel _ ht
        · rw [hsome] at ht
          rcases mem_cons.mp ht with rfl | ht
          · exact ⟨start, by omega, hs⟩
          · exact mem_gapTokensFrom fuel _ ht

/-! ## Child nodes -/

/-- What the token of a child node is. -/
inductive Classified (source : Text) (c : Tree) : Token → Prop where
  | comment : c.kind = .comment →
      Classified source c ⟨.comment, source.slice c.start c.stop, c.start, c.stop⟩
  | skipped {start : Nat} {text : Text} : c.kind = .error → isPunctuation text = true →
      c.start ≤ start → start + text.length ≤ c.stop →
        source.slice start (start + text.length) = text →
      source.Throughout isPadding c.start start →
      source.Throughout isPadding (start + text.length) c.stop →
      Classified source c ⟨.punctuation, text, start, start + text.length⟩
  | name : c.kind = .variableName →
      Classified source c ⟨.name, source.slice c.start c.stop, c.start, c.stop⟩
  | mark : c.kind ≠ .comment → isPunctuation (source.slice c.start c.stop) = true →
      Classified source c ⟨.punctuation, source.slice c.start c.stop, c.start, c.stop⟩
  | error : c.kind = .error → (source.slice c.start c.stop).all isBlank = false →
      Classified source c ⟨.node, source.slice c.start c.stop, c.start, c.stop⟩
  | other : c.kind ≠ .error → c.kind ≠ .comment →
      Classified source c ⟨.node, source.slice c.start c.stop, c.start, c.stop⟩

/-- **What becomes of a child node**: it has a token, or it is blank and has none. -/
theorem classify_cases (source : Text) (hle : c.start ≤ c.stop) :
    (classify source c = none ∧ source.Throughout isPadding c.start c.stop) ∨
      ∃ t, classify source c = some t ∧ Classified source c t := by
  unfold classify
  dsimp only
  split
  · exact .inr ⟨_, rfl, .comment (by assumption)⟩
  · rename_i hcomment
    split
    · rename_i herror
      obtain ⟨rest, hparts, hrest⟩ := trim_parts (source.slice c.start c.stop)
      have hblank := all_takeWhile (p := isBlank) (l := source.slice c.start c.stop)
      obtain ⟨hlead, htail⟩ := slice_split hparts
      obtain ⟨htrim, hend⟩ := slice_split htail
      rw [← hlead] at hblank
      rw [← hend] at hrest
      have hlead' := (all_slice.mp hblank).imp fun _ => isPadding_of_isBlank
      have hend' := (all_slice.mp hrest).imp fun _ => isPadding_of_isBlank
      have hlen := congrArg List.length hparts
      rw [length_slice, length_append, length_append] at hlen
      split
      · rename_i hempty
        rw [List.isEmpty_iff.mp hempty, length_nil, Nat.add_zero] at hend'
        exact .inl ⟨rfl, hlead'.append hend'⟩
      · rename_i hnonempty
        refine .inr ?_
        split
        · exact ⟨_, rfl, .skipped herror (by assumption) (Nat.le_add_right ..) (by omega) htrim
            hlead' hend'⟩
        · refine ⟨_, rfl, .error herror ?_⟩
          -- a blank text would have been trimmed to nothing
          exact Bool.eq_false_iff.mpr fun hall =>
            hnonempty (List.isEmpty_iff.mpr (trim_eq_nil_iff.mpr hall))
    · refine .inr ?_
      split
      · exact ⟨_, rfl, .name (by assumption)⟩
      · split
        · exact ⟨_, rfl, .mark hcomment (by assumption)⟩
        · exact ⟨_, rfl, .other (by assumption) hcomment⟩

/-- A token leaves nothing of its node but padding. It is narrower only where the white space around
a skipped punctuation is trimmed. -/
theorem Classified.range (hle : c.start ≤ c.stop) (h : Classified source c t) :
    c.start ≤ t.start ∧ t.start ≤ t.stop ∧ t.stop ≤ c.stop ∧
      source.Throughout isPadding c.start t.start ∧ source.Throughout isPadding t.stop c.stop := by
  have whole : c.start ≤ c.start ∧ c.start ≤ c.stop ∧ c.stop ≤ c.stop ∧
      source.Throughout isPadding c.start c.start ∧ source.Throughout isPadding c.stop c.stop :=
    ⟨Nat.le_refl _, hle, Nat.le_refl _, throughout_of_le (Nat.le_refl _),
      throughout_of_le (Nat.le_refl _)⟩
  cases h with
  | comment _ => exact whole
  | skipped _ _ hstart hstop _ hlead hend =>
    exact ⟨hstart, Nat.le_add_right .., hstop, hlead, hend⟩
  | name _ | mark _ _ | error _ _ | other _ _ => exact whole

theorem layout_classify (hle : c.start ≤ c.stop) :
    Layout source c.start c.stop (classify source c).toList := by
  rcases classify_cases source hle with ⟨hnone, hpad⟩ | ⟨t, hsome, ht⟩
  · rw [hnone]
    exact .nil hle hpad
  · obtain ⟨h1, h2, h3, h4, h5⟩ := ht.range hle
    rw [hsome]
    exact .cons h1 h4 h2 (.nil h3 h5)

theorem classified_of_mem (hle : c.start ≤ c.stop) (ht : t ∈ (classify source c).toList) :
    Classified source c t := by
  rcases classify_cases source hle with ⟨hnone, _⟩ | ⟨s, hsome, hs⟩
  · rw [hnone] at ht
    cases ht
  · rw [hsome, Option.toList_some, mem_singleton] at ht
    exact ht ▸ hs

/-! ## Whole ranges -/

/-- **The tokens of a range account for it**: gaps and children take turns, and each has a layout. A
child that starts too early is passed over, and the gap goes on to the next one. -/
theorem layout_tokenize :
    ∀ {start : Nat}, start ≤ stop → (∀ c ∈ children, c.start ≤ c.stop ∧ c.stop ≤ stop) →
      Layout source start stop (tokenize source start stop children) := by
  induction children with
  | nil => intro start hle _; exact layout_gapTokens hle
  | cons c rest ih =>
    intro start hle hin
    obtain ⟨hc, hcs⟩ := hin c (.head _)
    have hrest : ∀ d ∈ rest, d.start ≤ d.stop ∧ d.stop ≤ stop := fun d hd => hin d (.tail _ hd)
    rw [tokenize]
    split
    · exact ih hle hrest
    · rw [Nat.max_eq_right (by omega), append_assoc]
      exact (layout_gapTokens (by omega)).append ((layout_classify hc).append (ih hcs hrest))

/-- **Where a token comes from**: a child node, or a gap between two of them. -/
theorem mem_tokenize : ∀ {start : Nat}, (∀ c ∈ children, c.start ≤ c.stop ∧ c.stop ≤ stop) →
      t ∈ tokenize source start stop children →
      (∃ c ∈ children, Classified source c t) ∨ ∃ i e, i < e ∧ e ≤ stop ∧ Lexeme source i e t := by
  induction children with
  | nil =>
    intro start _ ht
    obtain ⟨i, hi, hlex⟩ := mem_gapTokensFrom _ _ ht
    exact .inr ⟨i, stop, hi, Nat.le_refl _, hlex⟩
  | cons c rest ih =>
    intro start hin ht
    obtain ⟨hc, hcs⟩ := hin c (.head _)
    have later : ∀ {from' : Nat}, t ∈ tokenize source from' stop rest →
        (∃ d ∈ c :: rest, Classified source d t) ∨
          ∃ i e, i < e ∧ e ≤ stop ∧ Lexeme source i e t := fun ht' => by
      rcases ih (fun d hd => hin d (.tail _ hd)) ht' with ⟨d, hd, hcl⟩ | hgap
      · exact .inl ⟨d, mem_cons_of_mem _ hd, hcl⟩
      · exact .inr hgap
    rw [tokenize] at ht
    split at ht
    · exact later ht
    · rcases mem_append.mp ht with ht | ht
      · rcases mem_append.mp ht with ht | ht
        · obtain ⟨i, hi, hlex⟩ := mem_gapTokensFrom _ _ ht
          exact .inr ⟨i, c.start, hi, by omega, hlex⟩
        · exact .inl ⟨c, mem_cons_self .., classified_of_mem hc ht⟩
      · exact later ht

/-- If the children are in order, a token is that of a child or stands apart from it. -/
theorem tokenize_apart : ∀ {start : Nat}, Tree.InOrder start stop children →
      t ∈ tokenize source start stop children → ∀ c ∈ children,
      Classified source c t ∨ t.stop ≤ c.start ∨ c.stop ≤ t.start := by
  induction children with
  | nil => intro start _ _ c hc; cases hc
  | cons d rest ih =>
    intro start hord ht c hc
    obtain ⟨h1, h2, h3⟩ := hord
    rw [tokenize, if_neg (by omega), Nat.max_eq_right (by omega)] at ht
    rcases mem_append.mp ht with ht | ht
    · -- the token stands before the end of `d`, so all later children are behind it
      have hgap : t.start ≤ t.stop ∧ t.stop ≤ d.stop ∧
          (Classified source d t ∨ t.stop ≤ d.start) := by
        rcases mem_append.mp ht with ht | ht
        · have := (layout_gapTokens h1).mem_range ht
          exact ⟨this.2.1, by omega, .inr this.2.2⟩
        · have hs := classified_of_mem h2 ht
          have := hs.range h2
          exact ⟨this.2.1, this.2.2.1, .inl hs⟩
      rcases mem_cons.mp hc with rfl | hc
      · rcases hgap.2.2 with h | h
        · exact .inl h
        · exact .inr (.inl h)
      · have := (h3.mem_range hc).1
        exact .inr (.inl (by omega))
    · rcases mem_cons.mp hc with rfl | hc
      · have := ((layout_tokenize h3.le fun e he => (h3.mem_range he).2).mem_range ht).1
        exact .inr (.inr this)
      · exact ih h3 ht c hc

end Posonly.Signature
