import Posonly.Proofs.Signature.Names
import Posonly.Proofs.Text.Offsets

/-!
# Scanning a gap

A gap between two nodes is scanned from its start: at each offset there is a token or a unit that
separates, and the scan goes on behind it (`gap_induction`). Two things about this scan are not
plain from one step.

An identifier is looked for in the whole source and not in the gap alone. It ends where it cannot go
on, and that is never inside a surrogate pair nor behind a punctuation mark.

An identifier that is looked for between the halves of a pair is found one unit earlier. A gap may
start at such an offset, but a scan does not get to one by itself and find anything there
(`Anchored`): a pair that is taken unit by unit holds no identifier that fits, and behind an
identifier that was found too early there is none at all.
-/

open List

namespace Posonly.Text

variable {t : Text} {u : UInt16}

/-! ## Where identifiers end -/

theorem continuesIdentifier_of_startsIdentifier {n : Nat} (h : startsIdentifier n = true) :
    continuesIdentifier n = true := by
  unfold startsIdentifier at h
  unfold continuesIdentifier
  rw [Bool.or_eq_true] at h
  rcases h with h | h <;> simp [h]

theorem not_isHighSurrogate_of_isLowSurrogate (h : isLowSurrogate u = true) :
    isHighSurrogate u = false := by
  simp only [isLowSurrogate, isHighSurrogate, Bool.and_eq_true,
    decide_eq_true_eq, Bool.and_eq_false_iff,
    decide_eq_false_iff_not, UInt16.le_iff_toNat_le, UInt16.reduceToNat] at h ⊢
  omega

theorem identifierLength_cases (t : Text) :
    identifierLength t = 0 ∨ identifierLength t = identifierRest t := by
  unfold identifierLength
  split
  · exact .inl rfl
  · rename_i u
    split
    · rename_i hstarts
      exact .inr (by rw [identifierRest, if_pos (continuesIdentifier_of_startsIdentifier hstarts)])
    · exact .inl rfl
  · rename_i u v rest
    dsimp only
    generalize (if isHighSurrogate u && isLowSurrogate v then pairCode u v else u.toNat) = first
    by_cases hstarts : startsIdentifier first = true
    · exact .inr (if_pos hstarts)
    · exact .inl (if_neg hstarts)

theorem identifierLength_eq_zero (h : identifierRest t = 0) : identifierLength t = 0 := by
  rcases identifierLength_cases t with hzero | hrest
  · exact hzero
  · exact hrest.trans h

theorem identifierRest_le (t : Text) : identifierRest t ≤ t.length := by
  fun_induction identifierRest t <;> simp only [length_cons, length_nil] at * <;> omega

theorem length_take_identifierLength (t : Text) :
    (t.take (identifierLength t)).length = identifierLength t := by
  have hle := identifierRest_le t
  rw [length_take]
  rcases identifierLength_cases t with h | h <;> omega

theorem identifierLength_eq_rest (h : t.take (identifierLength t) ≠ []) :
    identifierLength t = identifierRest t := by
  rcases identifierLength_cases t with hzero | hrest
  · rw [hzero, take_zero] at h
    exact absurd rfl h
  · exact hrest

theorem identifierRest_drop (t : Text) : identifierRest (t.drop (identifierRest t)) = 0 := by
  fun_induction identifierRest t with
  | case1 | case2 u h => rfl
  | case3 u h => simp [identifierRest, h]
  | case4 u v rest hpair h ih => exact ih
  | case5 u v rest hpair h => rw [drop_zero, identifierRest, if_pos hpair, if_neg h]
  | case6 u v rest hpair h ih => exact ih
  | case7 u v rest hpair h => rw [drop_zero, identifierRest, if_neg hpair, if_neg h]

theorem wholeAt_identifierRest (t : Text) : t.WholeAt (identifierRest t) := by
  fun_induction identifierRest t with
  | case1 => trivial
  | case2 u h => simp [WholeAt]
  | case3 u h => trivial
  | case4 u v rest hpair h ih =>
    cases hn : identifierRest rest with
    | zero =>
      -- it ends behind a pair, and no second half is the first of another
      rw [Bool.and_eq_true] at hpair
      simp [WholeAt, not_isHighSurrogate_of_isLowSurrogate hpair.2]
    | succ k =>
      rwa [hn] at ih
  | case5 u v rest hpair h => trivial
  | case6 u v rest hpair h ih =>
    cases hn : identifierRest (v :: rest) with
    | zero => simpa [WholeAt] using hpair
    | succ k =>
      rwa [hn] at ih
  | case7 u v rest hpair h => trivial

theorem unit_of_lt_identifierRest {k : Nat} (hk : k < identifierRest t) (hu : t[k]? = some u) :
    isHighSurrogate u = true ∨ isLowSurrogate u = true ∨ continuesIdentifier u.toNat = true := by
  fun_induction identifierRest t generalizing k with
  | case1 => omega
  | case2 v h =>
    obtain rfl : k = 0 := by omega
    injection hu with hu
    exact .inr (.inr (hu ▸ h))
  | case3 => omega
  | case4 v w rest hpair h ih =>
    rw [Bool.and_eq_true] at hpair
    rcases k with _ | _ | k
    · injection hu with hu
      exact .inl (hu ▸ hpair.1)
    · injection hu with hu
      exact .inr (.inl (hu ▸ hpair.2))
    · exact ih (by omega) hu
  | case5 => omega
  | case6 v w rest hpair h ih =>
    rcases k with _ | k
    · injection hu with hu
      exact .inr (.inr (hu ▸ h))
    · exact ih (by omega) hu
  | case7 => omega

end Posonly.Text

namespace Posonly.Signature

variable {source : Text} {i stop : Nat} {t : Token} {u : UInt16}

instance (source : Text) (i : Nat) : Decidable (SplitsPair source i) :=
  inferInstanceAs (Decidable (0 < i ∧ (source[i]?).any Text.isLowSurrogate = true ∧
    (source[i - 1]?).any Text.isHighSurrogate = true))

/-! ## Identifiers in a source -/

theorem splitsPair_iff : SplitsPair source i ↔ (0 < i && (source[i]?).any Text.isLowSurrogate &&
      (source[i - 1]?).any Text.isHighSurrogate) = true := by
  rw [Bool.and_eq_true, Bool.and_eq_true, decide_eq_true_eq, and_assoc, SplitsPair]

theorem identifierAt_of_not_splits (h : ¬ SplitsPair source i) :
    identifierAt source i = (source.drop i).take (Text.identifierLength (source.drop i)) := by
  unfold identifierAt
  dsimp only
  rw [if_neg (mt splitsPair_iff.mpr h)]

theorem identifierAt_of_splits (h : SplitsPair source i) : identifierAt source i =
      (source.drop (i - 1)).take (Text.identifierLength (source.drop (i - 1))) := by
  unfold identifierAt
  dsimp only
  rw [if_pos (splitsPair_iff.mp h)]

theorem not_splitsPair_of_ahead (hu : source[i]? = some u) (h : Text.isHighSurrogate u = false) :
    ¬ SplitsPair source (i + 1) := by
  intro hsplits
  have hhigh := hsplits.2.2
  rw [Nat.add_sub_cancel, hu, Option.any_some, h] at hhigh
  exact Bool.false_ne_true hhigh

theorem not_splitsPair_of_behind (hu : source[i]? = some u) (h : Text.isLowSurrogate u = false) :
    ¬ SplitsPair source i := by
  intro hsplits
  have hlow := hsplits.2.1
  rw [hu, Option.any_some, h] at hlow
  exact Bool.false_ne_true hlow

theorem not_splitsPair_of_identifierAt (h : ¬ SplitsPair source i)
    (hne : identifierAt source i ≠ []) :
    ¬ SplitsPair source (i + (identifierAt source i).length) := by
  rw [identifierAt_of_not_splits h] at hne ⊢
  rw [Text.length_take_identifierLength]
  have hwhole := Text.wholeAt_identifierRest (source.drop i)
  rw [← Text.identifierLength_eq_rest hne] at hwhole
  cases hn : Text.identifierLength (source.drop i) with
  | zero => exact h
  | succ n =>
    rw [hn, Text.WholeAt, getElem?_drop, getElem?_drop] at hwhole
    intro hsplits
    have hhigh := hsplits.2.2
    rw [show i + (n + 1) - 1 = i + n by omega] at hhigh
    rw [hhigh, hsplits.2.1] at hwhole
    cases hwhole

/-- Behind an identifier that was found one unit early, a split pair holds none. -/
theorem identifierAt_of_splits_twice (h : SplitsPair source i) (hne : identifierAt source i ≠ [])
    (h' : SplitsPair source (i + (identifierAt source i).length)) :
    identifierAt source (i + (identifierAt source i).length) = [] := by
  have hpos := h.1
  rw [identifierAt_of_splits h']
  rw [identifierAt_of_splits h] at hne ⊢
  rw [Text.length_take_identifierLength]
  -- the pair starts where the identifier ended, so nothing there goes on with it or starts another
  have hbehind := Text.identifierRest_drop (source.drop (i - 1))
  rw [← Text.identifierLength_eq_rest hne, drop_drop,
    show i - 1 + Text.identifierLength (source.drop (i - 1)) =
      i + Text.identifierLength (source.drop (i - 1)) - 1 by omega] at hbehind
  rw [Text.identifierLength_eq_zero hbehind, take_zero]

/-- Both halves of a pair have one identifier. -/
theorem identifierAt_succ_of_splits (h : SplitsPair source (i + 1)) :
    identifierAt source (i + 1) = identifierAt source i := by
  have hno : ¬ SplitsPair source i := by
    intro hsplits
    have hlow := hsplits.2.1
    have hhigh := h.2.2
    rw [Nat.add_sub_cancel] at hhigh
    cases hu : source[i]? with
    | none => rw [hu] at hlow; cases hlow
    | some u =>
      rw [hu, Option.any_some] at hlow hhigh
      rw [Text.not_isHighSurrogate_of_isLowSurrogate hlow] at hhigh
      exact Bool.false_ne_true hhigh
  rw [identifierAt_of_splits h, identifierAt_of_not_splits hno, Nat.add_sub_cancel]

/-! ## One step of a scan -/

theorem punctuation_eq : punctuation =
    [[0x28], [0x29], [0x2C], [0x2F], [0x2A], [0x2A, 0x2A], [0x3A], [0x3D]] := by decide

theorem mem_of_isPunctuation (h : isPunctuation [u] = true) :
    u ∈ ([0x28, 0x29, 0x2C, 0x2F, 0x2A, 0x3A, 0x3D] : List UInt16) := by
  rw [isPunctuation, punctuation_eq, contains_iff_mem] at h
  simpa using h

theorem isPunctuation_unit (h : isPunctuation [u] = true) :
    isGapBlank u = false ∧ u ≠ 0x23 ∧ Text.isHighSurrogate u = false ∧
      Text.isLowSurrogate u = false ∧ Text.continuesIdentifier u.toNat = false := by
  have hall : ∀ v ∈ ([0x28, 0x29, 0x2C, 0x2F, 0x2A, 0x3A, 0x3D] : List UInt16),
      isGapBlank v = false ∧ v ≠ 0x23 ∧ Text.isHighSurrogate v = false ∧
        Text.isLowSurrogate v = false ∧ Text.continuesIdentifier v.toNat = false := by decide
  exact hall u (mem_of_isPunctuation h)

theorem isGapBlank_of_surrogate
    (h : Text.isHighSurrogate u = true ∨ Text.isLowSurrogate u = true) : isGapBlank u = false := by
  rw [Bool.eq_false_iff]
  intro hblank
  have hs := Text.isSeparator_of_surrogate h
  rw [Text.isSeparator_of_isPadding (Text.isPadding_of_isGapBlank hblank)] at hs
  cases hs

theorem lexeme_eq (hu : source[i]? = some u) (stop : Nat) : lexeme source i stop =
      if isGapBlank u then none
      else if u == 0x23 then
        some ⟨.comment, (source.slice i stop).takeWhile fun v =>
            v != Text.lineFeed && v != Text.carriageReturn, i,
          i + ((source.slice i stop).takeWhile fun v =>
            v != Text.lineFeed && v != Text.carriageReturn).length⟩
      else if u == 0x2A && source[i + 1]? == some 0x2A && i + 1 < stop then
        some ⟨.punctuation, "**", i, i + 2⟩
      else if isPunctuation [u] then some ⟨.punctuation, [u], i, i + 1⟩
      else if !(identifierAt source i).isEmpty && i + (identifierAt source i).length ≤ stop then
        some ⟨.name, identifierAt source i, i, i + (identifierAt source i).length⟩
      else some ⟨.node, [u], i, i + 1⟩ := by
  obtain ⟨hlt, rfl⟩ := List.getElem?_eq_some_iff.mp hu
  have hnext : (source.drop (i + 1)).head? = source[i + 1]? := head?_drop
  unfold lexeme
  rw [drop_eq_getElem_cons hlt]
  dsimp only
  rw [hnext]

theorem isGapBlank_of_lexeme (hu : source[i]? = some u) (h : lexeme source i stop = none) :
    isGapBlank u = true := by
  by_contra hblank
  rw [lexeme_eq hu, if_neg hblank] at h
  split_ifs at h

theorem lexeme_of_some (h : lexeme source i stop = some t) : Lexeme source i stop t := by
  rcases lexeme_cases source i stop with ⟨hnone, _⟩ | ⟨s, hsome, hs⟩
  · exact absurd (h.symm.trans hnone) (by simp)
  · obtain rfl : t = s := Option.some.inj (h.symm.trans hsome)
    exact hs

theorem identifierAt_of_node (h : lexeme source i stop = some t) (hkind : t.kind = .node) :
    identifierAt source i = [] ∨ stop < i + (identifierAt source i).length := by
  obtain ⟨u, hu⟩ : ∃ u, source[i]? = some u := by
    cases lexeme_of_some h with
    | other hu => exact ⟨_, hu⟩
    | _ => cases hkind
  by_contra hname
  rw [not_or, Nat.not_lt] at hname
  have hfits : (!(identifierAt source i).isEmpty &&
      decide (i + (identifierAt source i).length ≤ stop)) = true := by
    simpa using hname
  rw [lexeme_eq hu, if_pos hfits] at h
  split_ifs at h <;> exact absurd hkind (by rw [← Option.some.inj h]; simp)

/-- A name that a gap has at an offset starts there. -/
def Anchored (source : Text) (stop i : Nat) : Prop :=
  SplitsPair source i → identifierAt source i = [] ∨ stop < i + (identifierAt source i).length

theorem anchored_of_not_splits (h : ¬ SplitsPair source i) : Anchored source stop i :=
  fun hsplits => absurd hsplits h

theorem anchored_of_none (hu : source[i]? = some u) (h : lexeme source i stop = none) :
    Anchored source stop (i + 1) := by
  refine anchored_of_not_splits (not_splitsPair_of_ahead hu ?_)
  rw [Bool.eq_false_iff]
  intro hhigh
  have hblank := isGapBlank_of_lexeme hu h
  rw [isGapBlank_of_surrogate (.inl hhigh)] at hblank
  exact Bool.false_ne_true hblank

/-- A comment that ends ahead of the gap ends at a line break. -/
theorem not_splitsPair_of_comment {text : Text}
    (htext : text = (source.slice i stop).takeWhile fun v =>
      v != Text.lineFeed && v != Text.carriageReturn) (hlt : i + text.length < stop) :
    ¬ SplitsPair source (i + text.length) := by
  cases hv : source[i + text.length]? with
  | none =>
    intro hsplits
    have hlow := hsplits.2.1
    rw [hv] at hlow
    cases hlow
  | some v =>
    refine not_splitsPair_of_behind hv ?_
    have hcut := takeWhile_append_dropWhile (l := source.slice i stop)
      (p := fun v => v != Text.lineFeed && v != Text.carriageReturn)
    have hfirst := head?_dropWhile_not
      (fun v => v != Text.lineFeed && v != Text.carriageReturn) (source.slice i stop)
    have hat : (source.slice i stop)[text.length]? = some v := by
      rw [Text.getElem?_slice, if_pos hlt, hv]
    rw [← hcut, ← htext, getElem?_append_right (Nat.le_refl _), Nat.sub_self,
      ← head?_eq_getElem?] at hat
    rw [hat] at hfirst
    simp only [Bool.and_eq_false_iff, bne_eq_false_iff_eq] at hfirst
    rcases hfirst with rfl | rfl <;> decide

/-- **A scan that has gone on to an offset finds a name there only if it starts there.** -/
theorem anchored_of_some (h : lexeme source i stop = some t) (hlt : t.stop < stop) :
    Anchored source stop t.stop := by
  have hnode := identifierAt_of_node h
  cases lexeme_of_some h with
  | comment => exact anchored_of_not_splits (not_splitsPair_of_comment rfl hlt)
  | stars _ hu => exact anchored_of_not_splits (not_splitsPair_of_ahead hu (by decide))
  | mark hu hp =>
    exact anchored_of_not_splits (not_splitsPair_of_ahead hu (isPunctuation_unit hp).2.2.1)
  | name _ _ _ hne =>
    -- only the first name of a gap can have been found early
    intro hsplits
    by_cases hearly : SplitsPair source i
    · exact .inl (identifierAt_of_splits_twice hearly hne hsplits)
    · exact absurd hsplits (not_splitsPair_of_identifierAt hearly hne)
  | other =>
    -- the two halves of a pair have one identifier, and for the first it did not fit
    intro hsplits
    rw [identifierAt_succ_of_splits hsplits]
    rcases hnode rfl with hnone | hlong
    · exact .inl hnone
    · exact .inr (by dsimp only; omega)

/-! ## The whole scan -/

theorem gapTokensFrom_congr {fuel fuel' start : Nat} (h : stop - start ≤ fuel)
    (h' : stop - start ≤ fuel') :
    gapTokensFrom source stop fuel start = gapTokensFrom source stop fuel' start := by
  induction fuel generalizing fuel' start with
  | zero =>
    cases fuel' with
    | zero => rfl
    | succ fuel' => rw [gapTokensFrom, gapTokensFrom, if_pos (by omega)]
  | succ fuel ih =>
    cases fuel' with
    | zero => rw [gapTokensFrom, gapTokensFrom, if_pos (by omega)]
    | succ fuel' =>
      rw [gapTokensFrom, gapTokensFrom]
      by_cases hle : stop ≤ start
      · rw [if_pos hle, if_pos hle]
      · rw [if_neg hle, if_neg hle]
        cases hlex : lexeme source start stop with
        | none => exact ih (by omega) (by omega)
        | some t =>
          have hrange := (lexeme_of_some hlex).range (by omega)
          exact congrArg (t :: ·) (ih (by omega) (by omega))

theorem gapTokens_of_le (h : stop ≤ i) : gapTokens source i stop = [] := by
  rw [gapTokens, Nat.sub_eq_zero_of_le h, gapTokensFrom]

theorem gapTokens_of_none (hi : i < stop) (h : lexeme source i stop = none) :
    gapTokens source i stop = gapTokens source (i + 1) stop := by
  obtain ⟨n, hn⟩ : ∃ n, stop - i = n + 1 := ⟨stop - i - 1, by omega⟩
  rw [gapTokens, hn, gapTokensFrom, if_neg (by omega), h]
  exact gapTokensFrom_congr (by omega) (by omega)

theorem gapTokens_of_some (hi : i < stop) (h : lexeme source i stop = some t) :
    gapTokens source i stop = t :: gapTokens source t.stop stop := by
  obtain ⟨n, hn⟩ : ∃ n, stop - i = n + 1 := ⟨stop - i - 1, by omega⟩
  have hrange := (lexeme_of_some h).range hi
  rw [gapTokens, hn, gapTokensFrom, if_neg (by omega), h]
  exact congrArg (t :: ·) (gapTokensFrom_congr (by omega) (by omega))

/-- **Induction along a scan**: from its end back to any offset, by what is found there. -/
theorem gap_induction {motive : Nat → Prop} (done : ∀ i, stop ≤ i → motive i)
    (blank : ∀ i, i < stop → lexeme source i stop = none → motive (i + 1) → motive i)
    (token : ∀ i t, i < stop → lexeme source i stop = some t → motive t.stop → motive i)
    (i : Nat) : motive i := by
  by_cases hle : stop ≤ i
  · exact done i hle
  · cases hlex : lexeme source i stop with
    | none => exact blank i (by omega) hlex (gap_induction done blank token (i + 1))
    | some t =>
      have hrange := (lexeme_of_some hlex).range (by omega)
      exact token i t (by omega) hlex (gap_induction done blank token t.stop)
termination_by stop - i

end Posonly.Signature
