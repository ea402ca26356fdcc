import Posonly.Proofs.Signature.Layout

/-!
# The text deleted with a marker

`markerSpan` has seven ways to choose the text that goes with a marker. What they have in common is
said once, in `SpanShape`: the marker goes together with a comma next to it or with none, and beyond
these two only spaces, tabs and at most one line break at the very end.

From the shape follows `MarkerRun`, which forgets the tokens and speaks of the source alone. A
deleted stretch is a run of separators with one slash and at most one comma in it, and a line can
start inside it only ahead of that comma.
-/

open List Posonly.Text

namespace Posonly.Signature

open Text (isPadding isSeparator isSpaceOrTab isBreak)

/-- Whether a unit is a space, a tab or part of a line break. -/
def isLineBlank (u : UInt16) : Bool := isSpaceOrTab u || isBreak u

/-- A unit of a line break stands at an offset. -/
def BreakAt (source : Text) (i : Nat) : Prop := ∃ u, source[i]? = some u ∧ isBreak u = true

/-- Spaces and tabs up to an offset, with at most one line break, which is then at the end. -/
structure LineEnd (source : Text) (start stop : Nat) : Prop where
  le : start ≤ stop
  stop_le : stop ≤ source.length
  blank : source.Throughout isLineBlank start stop
  /-- Only the second half of a break can follow a break. -/
  last : ∀ p, start < p → p < stop → BreakAt source (p - 1) → BreakAt source p

variable {source : Text} {a b i : Nat}

variable {u : UInt16} {t marker : Token} {previous following : Option Token} {span : Range}
  {comma : Option Token}

theorem isPadding_of_isLineBlank (h : isLineBlank u = true) : isPadding u = true := by
  rw [isLineBlank, Bool.or_eq_true] at h
  rcases h with h | h
  · exact isPadding_of_isSpaceOrTab h
  · exact isPadding_of_isBreak h

theorem isBreak_eq_false_of_isSpaceOrTab (h : isSpaceOrTab u = true) : isBreak u = false := by
  simp only [isSpaceOrTab, Bool.or_eq_true, beq_iff_eq] at h
  rcases h with rfl | rfl <;> decide

theorem not_breakAt_of_unit (h : source[i]? = some u) (hu : isBreak u = false) :
    ¬ BreakAt source i := by
  rintro ⟨v, hv, hbreak⟩
  rw [h, Option.some.injEq] at hv
  rw [← hv, hu] at hbreak
  cases hbreak

/-- Behind a unit that is no break, a line ends with its first break. -/
theorem LineEnd.breakAt {stop p : Nat} (h : LineEnd source (i + 1) stop)
    (hunit : source[i]? = some u) (hu : isBreak u = false) (hip : i < p) (hps : p < stop)
    (hb : BreakAt source (p - 1)) : BreakAt source p := by
  by_cases hpi : p = i + 1
  · subst hpi
    exact absurd hb (not_breakAt_of_unit hunit hu)
  · exact h.last p (by omega) hps hb

theorem not_breakAt_of_throughout (h : source.Throughout isSpaceOrTab a b) (ha : a ≤ i)
    (hb : i < b) : ¬ BreakAt source i := by
  rintro ⟨u, hu, hbreak⟩
  rw [isBreak_eq_false_of_isSpaceOrTab (h i u ha hb hu)] at hbreak
  cases hbreak

theorem lineEnd_of_throughout (hab : a ≤ b) (hb : b ≤ source.length)
    (h : source.Throughout isSpaceOrTab a b) : LineEnd source a b where
  le := hab
  stop_le := hb
  blank := h.imp fun u hu => by rw [isLineBlank, hu, Bool.true_or]
  last p hap hpb hbreak := absurd hbreak (not_breakAt_of_throughout h (by omega) (by omega))

/-! ## Whole lines -/

theorem lineEnd_of_isBlankToBreak (hab : a ≤ b) (hb : b ≤ source.length)
    (h : isBlankToBreak (source.slice a b) = true) : LineEnd source a b := by
  have hparts := (takeWhile_append_dropWhile (p := isSpaceOrTab)
    (l := source.slice a b)).symm
  generalize hlead : (source.slice a b).takeWhile isSpaceOrTab = lead at hparts
  have hblank : lead.all isSpaceOrTab = true := by rw [← hlead]; exact all_takeWhile
  unfold isBlankToBreak at h
  generalize (source.slice a b).dropWhile isSpaceOrTab = rest at h hparts
  obtain ⟨hleft, hright⟩ := slice_split hparts
  rw [← hleft] at hblank
  have hlen := congrArg List.length hparts
  rw [length_slice, length_append] at hlen
  have hspaces := all_slice.mp hblank
  -- the units of the break, by their offsets
  have hrest : ∀ k, a + lead.length ≤ k → k < b → source[k]? = rest[k - (a + lead.length)]? := by
    intro k hk hkb
    rw [← hright, getElem?_slice, show a + lead.length + (k - (a + lead.length)) = k by omega,
      if_pos hkb]
  have hbreaks : ∀ u ∈ rest, isBreak u = true := by
    simp only [Bool.or_eq_true, beq_iff_eq] at h
    rcases h with (rfl | rfl) | rfl <;> decide
  have hbreak : ∀ k, a + lead.length ≤ k → k < b → BreakAt source k := by
    intro k hk hkb
    obtain ⟨u, hu⟩ : ∃ u, source[k]? = some u :=
      ⟨_, getElem?_eq_getElem (Nat.lt_of_lt_of_le hkb hb)⟩
    rw [hrest k hk hkb] at hu
    exact ⟨u, by rw [hrest k hk hkb, hu], hbreaks u (mem_of_getElem? hu)⟩
  refine ⟨hab, hb, ?_, ?_⟩
  · refine Text.Throughout.append (hspaces.imp fun u hu => by rw [isLineBlank, hu, Bool.true_or]) ?_
    intro k u hk hkb hu
    obtain ⟨v, hv, hvb⟩ := hbreak k hk hkb
    rw [hu] at hv
    injection hv with hv
    rw [isLineBlank, hv, hvb, Bool.or_true]
  · intro p hap hpb hbefore
    by_cases hp : p - 1 < a + lead.length
    · exact absurd hbefore (not_breakAt_of_throughout hspaces (by omega) hp)
    · exact hbreak p (by omega) hpb

theorem wholeLine?_eq_some {start stop : Nat} {line : Range}
    (h : wholeLine? source start stop = some line) :
    line.start = source.lineStart start ∧ source.Throughout isSpaceOrTab line.start start ∧
      LineEnd source stop line.stop := by
  unfold wholeLine? at h
  dsimp only at h
  split at h
  · cases h
  · rename_i hblank
    split at h
    · cases h
    · rename_i last hnext
      split at h
      · rename_i hend
        cases h
        have hle := nextLineStart?_le hnext
        refine ⟨rfl, all_slice.mp (by simpa using hblank), ?_⟩
        exact lineEnd_of_isBlankToBreak (Nat.le_of_lt hle.1) hle.2 hend
      · cases h

theorem skipBlanks_le (hle : a ≤ source.length) :
    a ≤ skipBlanks source a ∧ skipBlanks source a ≤ source.length := by
  have := (takeWhile_sublist (l := source.drop a) isSpaceOrTab).length_le
  rw [length_drop] at this
  unfold skipBlanks
  omega

theorem skipBlanks_throughout (source : Text) (a : Nat) :
    source.Throughout isSpaceOrTab a (skipBlanks source a) := by
  have hprefix := prefix_iff_eq_take.mp
    (List.takeWhile_prefix (l := source.drop a) isSpaceOrTab)
  rw [← all_slice, skipBlanks, Text.slice, drop_take, Nat.add_sub_cancel_left, ← hprefix]
  exact all_takeWhile

/-! ## The shape of a span -/

/-- A token that spells punctuation, where it stands. -/
def Token.Spelled (source : Text) (t : Token) : Prop :=
  t.kind = .punctuation → source.slice t.start t.stop = t.text ∧ t.stop = t.start + t.text.length

/-- One token stands behind another. Between two that are no comments there is only padding. -/
def Token.Follows (source : Text) (s t : Token) : Prop :=
  s.stop ≤ t.start ∧
    (s.isComment = false → t.isComment = false → source.Throughout isPadding s.stop t.start)

theorem Token.Spelled.unit (h : t.Spelled source) (hp : t.isPunct [u] = true) :
    source[t.start]? = some u ∧ t.stop = t.start + 1 := by
  simp only [Token.isPunct, Bool.and_eq_true, beq_iff_eq] at hp
  obtain ⟨hslice, hstop⟩ := h hp.1
  rw [hp.2] at hslice hstop
  refine ⟨?_, hstop⟩
  have hget := getElem?_slice source t.start t.stop 0
  rw [hslice, Nat.add_zero, if_pos (by rw [hstop]; simp)] at hget
  exact hget.symm

theorem isComment_eq_false_of_isPunct {text : Text} (h : t.isPunct text = true) :
    t.isComment = false := by
  simp only [Token.isPunct, Bool.and_eq_true, beq_iff_eq] at h
  rw [Token.isComment, h.1]
  rfl

/-- **What a marker takes along.** The first argument after the neighbours is the comma that goes
with it, if one does. -/
inductive SpanShape (source : Text) (previous : Option Token) (marker : Token)
    (following : Option Token) : Option Token → Range → Prop where
  /-- The comma behind the marker, with blanks around the two. -/
  | behind {comma : Token} {start stop : Nat} :
      following = some comma → comma.isPunct "," = true → start ≤ marker.start →
      source.Throughout isSpaceOrTab start marker.start → LineEnd source comma.stop stop →
      SpanShape source previous marker following (some comma) ⟨start, stop⟩
  /-- The comma ahead of it on its line, when none stands right behind it. -/
  | ahead {comma : Token} :
      following.filter (·.isPunct ",") = none → wholeLine? source marker.start marker.stop = none →
      commaBefore? source marker.start previous = some comma →
      SpanShape source previous marker following (some comma) ⟨comma.start, marker.stop⟩
  /-- No comma. -/
  | alone {start stop : Nat} : following.filter (·.isPunct ",") = none →
      (wholeLine? source marker.start marker.stop).isSome ∨
        commaBefore? source marker.start previous = none →
      start ≤ marker.start → source.Throughout isSpaceOrTab start marker.start →
      LineEnd source marker.stop stop →
      SpanShape source previous marker following none ⟨start, stop⟩

theorem commaBefore?_eq_some {comma : Token} {offset : Nat}
    (h : commaBefore? source offset previous = some comma) :
    previous = some comma ∧ comma.isPunct "," = true ∧
      source.Throughout isSpaceOrTab comma.stop offset := by
  unfold commaBefore? at h
  obtain ⟨hprev, hcomma⟩ := Option.filter_eq_some_iff.mp h
  rw [Bool.and_eq_true] at hcomma
  exact ⟨hprev, hcomma.1, all_slice.mp hcomma.2⟩

/-- **What is removed with a marker** has one of three shapes. -/
theorem markerSpan_shape (source : Text) (hprev : ∀ p, previous = some p → p.stop ≤ marker.start)
    (hstop : marker.stop ≤ source.length)
    (hnext : ∀ n, following = some n → n.stop ≤ source.length) :
    ∃ comma, SpanShape source previous marker following comma
      (markerSpan source previous marker following) := by
  have hself : ∀ k, source.Throughout isSpaceOrTab k k := fun k => throughout_of_le (Nat.le_refl k)
  unfold markerSpan
  split
  · -- a comma follows and goes with the marker, as does a line that holds only these
    rename_i comma hcomma
    obtain ⟨hfol, hpunct⟩ := Option.filter_eq_some_iff.mp hcomma
    have hlen := hnext comma hfol
    refine ⟨some comma, ?_⟩
    split
    · rename_i line hline
      obtain ⟨hstart, hblank, hend⟩ := wholeLine?_eq_some hline
      exact .behind hfol hpunct (hstart ▸ Text.lineStart_le ..) hblank hend
    · dsimp only
      have hskip := skipBlanks_le hlen
      split
      · exact .behind hfol hpunct (Nat.le_refl _) (hself _)
          (lineEnd_of_throughout hskip.1 hskip.2 (skipBlanks_throughout _ _))
      · have hend := lineEnd_of_throughout (Nat.le_refl _) hlen (hself comma.stop)
        split
        · rename_i earlier hearlier
          obtain ⟨hp, _, hblank⟩ := commaBefore?_eq_some hearlier
          exact .behind hfol hpunct (hprev _ hp) hblank hend
        · exact .behind hfol hpunct (Nat.le_refl _) (hself _) hend
  · -- none follows: what goes is the line, the comma ahead or the marker alone
    rename_i hnone
    split
    · rename_i line hline
      obtain ⟨hstart, hblank, hend⟩ := wholeLine?_eq_some hline
      exact ⟨none, .alone hnone (.inl (by rw [hline]; rfl)) (hstart ▸ Text.lineStart_le ..) hblank
        hend⟩
    · rename_i hline
      split
      · rename_i earlier hearlier
        exact ⟨some earlier, .ahead hnone hline hearlier⟩
      · rename_i hbefore
        exact ⟨none, .alone hnone (.inr hbefore) (Nat.le_refl _) (hself _)
          (lineEnd_of_throughout (Nat.le_refl _) hstop (hself _))⟩

theorem SpanShape.lineStart_le
    (h : SpanShape source previous marker following comma span)
    (hprev : ∀ p, previous = some p → p.Spelled source) :
    source.lineStart marker.start ≤ span.start := by
  have hblank : ∀ {a : Nat}, source.Throughout isSpaceOrTab a marker.start →
      source.Throughout (fun u => !Text.isBreak u) a marker.start := fun h =>
    h.imp fun u hu => by rw [isBreak_eq_false_of_isSpaceOrTab hu]; rfl
  cases h with
  | behind _ _ _ hahead => exact lineStart_le_of_throughout (hblank hahead)
  | @ahead comma _ _ hbefore =>
    -- the comma itself is no break either
    obtain ⟨hp, hpunct, hahead⟩ := commaBefore?_eq_some hbefore
    obtain ⟨hunit, hstop⟩ := (hprev comma hp).unit hpunct
    rw [hstop] at hahead
    exact lineStart_le_of_throughout
      ((throughout_unit hunit (by decide)).append (hblank hahead))
  | alone _ _ _ hahead => exact lineStart_le_of_throughout (hblank hahead)

/-! ## Runs of separators -/

/-- A stretch of a source that can be deleted with the marker at an offset: beside the marker and at
most one comma there is only padding. -/
structure MarkerRun (source : Text) (m : Nat) (c? : Option Nat) (span : Range) : Prop where
  start_le : span.start ≤ m
  lt_stop : m < span.stop
  stop_le : span.stop ≤ source.length
  marker : source[m]? = some 0x2F
  comma : ∀ c, c? = some c → span.start ≤ c ∧ c < span.stop ∧ source[c]? = some 0x2C
  padding : ∀ i u, span.start ≤ i → i < span.stop → i ≠ m → c? ≠ some i →
    source[i]? = some u → isPadding u = true
  /-- A line that starts inside goes on with padding up to the comma. -/
  line : ∀ p, span.start < p → p < span.stop → BreakAt source (p - 1) → ¬ BreakAt source p →
    ∃ c, c? = some c ∧ p ≤ c

section

variable {m c start stop : Nat} (hslash : source[m]? = some 0x2F)

include hslash

/-- The comma is behind the marker, possibly on a later line. -/
theorem markerRun_behind (hcomma : source[c]? = some 0x2C) (hmc : m < c) (hle : start ≤ m)
    (hblank : source.Throughout isSpaceOrTab start m)
    (hpad : source.Throughout isPadding (m + 1) c) (hend : LineEnd source (c + 1) stop) :
    MarkerRun source m (some c) ⟨start, stop⟩ := by
  have hcs := hend.le
  refine ⟨hle, by dsimp only; omega, hend.stop_le, hslash, ?_, ?_, ?_⟩
  · intro d hd
    cases hd
    exact ⟨by dsimp only; omega, hcs, hcomma⟩
  · intro i u his hie him hic hu
    dsimp only at his hie
    by_cases h1 : i < m
    · exact isPadding_of_isSpaceOrTab (hblank i u his h1 hu)
    · by_cases h2 : i < c
      · exact hpad i u (by omega) h2 hu
      · have hne : i ≠ c := fun he => hic (by rw [he])
        exact isPadding_of_isLineBlank (hend.blank i u (by omega) hie hu)
  · intro p _ hps hb hnb
    refine ⟨c, rfl, ?_⟩
    -- a break behind the comma is the last thing in the stretch
    by_contra hpc
    exact hnb (hend.breakAt hcomma (by decide) (by omega) hps hb)

/-- The comma is ahead of the marker on its line. -/
theorem markerRun_ahead (hcomma : source[c]? = some 0x2C) (hcm : c < m)
    (hblank : source.Throughout isSpaceOrTab (c + 1) m) (hlen : m + 1 ≤ source.length) :
    MarkerRun source m (some c) ⟨c, m + 1⟩ := by
  refine ⟨Nat.le_of_lt hcm, Nat.lt_add_one m, hlen, hslash, ?_, ?_, ?_⟩
  · intro d hd
    cases hd
    exact ⟨Nat.le_refl c, by dsimp only; omega, hcomma⟩
  · intro i u his hie him hic hu
    dsimp only at his hie
    have hne : i ≠ c := fun he => hic (by rw [he])
    exact isPadding_of_isSpaceOrTab (hblank i u (by omega) (by omega) hu)
  · intro p hcp hps hb _
    dsimp only at hcp hps
    exfalso
    by_cases hpc : p = c + 1
    · subst hpc
      exact not_breakAt_of_unit hcomma (by decide) hb
    · exact not_breakAt_of_throughout hblank (by omega) (by omega) hb

theorem markerRun_alone (hle : start ≤ m) (hblank : source.Throughout isSpaceOrTab start m)
    (hend : LineEnd source (m + 1) stop) : MarkerRun source m none ⟨start, stop⟩ := by
  refine ⟨hle, hend.le, hend.stop_le, hslash, fun c hc => absurd hc (by simp), ?_, ?_⟩
  · intro i u his hie him _ hu
    dsimp only at his hie
    by_cases h1 : i < m
    · exact isPadding_of_isSpaceOrTab (hblank i u his h1 hu)
    · exact isPadding_of_isLineBlank (hend.blank i u (by omega) hie hu)
  · intro p hsp hps hb hnb
    dsimp only at hsp
    exfalso
    by_cases hpm : p ≤ m
    · exact not_breakAt_of_throughout hblank (by omega) (by omega) hb
    · exact hnb (hend.breakAt hslash (by decide) (by omega) hps hb)

end

theorem SpanShape.run
    (h : SpanShape source previous marker following comma span)
    (hmarker : marker.isPunct "/" = true) (hspelled : marker.Spelled source)
    (hprev : ∀ p, previous = some p → p.Spelled source ∧ p.Follows source marker)
    (hnext : ∀ n, following = some n → n.Spelled source ∧ marker.Follows source n)
    (hlen : marker.stop ≤ source.length) :
    MarkerRun source marker.start (comma.map Token.start) span := by
  obtain ⟨hslash, hone⟩ := hspelled.unit hmarker
  cases h with
  | @behind comma start stop hfol hcomma hle hblank hend =>
    obtain ⟨hcspell, hafter, hpad⟩ := hnext comma hfol
    obtain ⟨hunit, hcone⟩ := hcspell.unit hcomma
    have hpad := hpad (isComment_eq_false_of_isPunct hmarker)
      (isComment_eq_false_of_isPunct hcomma)
    rw [hone] at hafter hpad
    rw [hcone] at hend
    exact markerRun_behind hslash hunit hafter hle hblank hpad hend
  | @ahead comma hfol hline hbefore =>
    obtain ⟨hp, hcomma, hblank⟩ := commaBefore?_eq_some hbefore
    obtain ⟨hcspell, hafter, _⟩ := hprev comma hp
    obtain ⟨hunit, hcone⟩ := hcspell.unit hcomma
    rw [hcone] at hafter hblank
    rw [hone] at hlen ⊢
    exact markerRun_ahead hslash hunit hafter hblank hlen
  | @alone start stop hfol hwhy hle hblank hend =>
    rw [hone] at hend
    exact markerRun_alone hslash hle hblank hend

namespace MarkerRun

variable {m : Nat} {c? : Option Nat} {span : Range}

section

variable (h : MarkerRun source m c? span)

include h

theorem separators : source.Throughout isSeparator span.start span.stop := by
  intro i u his hie hu
  by_cases him : i = m
  · subst him
    rw [h.marker] at hu
    cases hu
    decide
  · by_cases hic : c? = some i
    · rw [(h.comma i hic).2.2] at hu
      cases hu
      decide
    · exact isSeparator_of_isPadding (h.padding i u his hie him hic hu)

theorem lt : span.start < span.stop :=
  Nat.lt_of_le_of_lt h.start_le h.lt_stop

theorem count_slash : (source.slice span.start span.stop).count 0x2F = 1 := by
  refine count_slice_unit h.start_le h.lt_stop h.marker fun i hs he hi hu => ?_
  by_cases hc : c? = some i
  · rw [(h.comma i hc).2.2] at hu
    exact absurd hu (by decide)
  · exact absurd (h.padding i _ hs he hi hc hu) (by decide)

theorem count_comma : (source.slice span.start span.stop).count 0x2C ≤ 1 := by
  have hother : ∀ i, span.start ≤ i → i < span.stop → c? ≠ some i → source[i]? ≠ some 0x2C := by
    intro i hs he hc hu
    by_cases hm : i = m
    · rw [hm, h.marker] at hu
      exact absurd hu (by decide)
    · exact absurd (h.padding i _ hs he hm hc hu) (by decide)
  cases hc : c? with
  | none =>
    rw [count_slice_eq_zero fun i hs he => hother i hs he (by simp [hc])]
    exact Nat.zero_le 1
  | some c =>
    obtain ⟨hs, he, hu⟩ := h.comma c hc
    refine Nat.le_of_eq (count_slice_unit hs he hu fun i his hie hic => ?_)
    exact hother i his hie (by simp [hc, Ne.symm hic])

end

end MarkerRun

end Posonly.Signature
