import Mathlib.Data.List.Basic
import Mathlib.Data.List.TakeWhile
import Posonly.Text.Line

/-!
# Stretches of a text

Facts about a text are most often facts about the units between two offsets: they are all blank, or
none of them is a break. `Throughout` says such a thing about offsets of the whole text, so that it
can be cut and put together by arithmetic on the offsets alone, and `all_slice` takes it to and from
the slices that the program looks at.

The second half says what the line functions find in these terms.
-/

open List

namespace Posonly.Text

/-- Every unit of a text from one offset up to another has a property. -/
def Throughout (t : Text) (p : UInt16 → Bool) (start stop : Nat) : Prop :=
  ∀ (i : Nat) (u : UInt16), start ≤ i → i < stop → t[i]? = some u → p u = true

variable {t : Text} {p q : UInt16 → Bool} {a b c : Nat} {u : UInt16}

theorem Throughout.mono {a' b' : Nat} (h : t.Throughout p a b) (ha : a ≤ a') (hb : b' ≤ b) :
    t.Throughout p a' b' :=
  fun i u hai hib hu => h i u (Nat.le_trans ha hai) (Nat.lt_of_lt_of_le hib hb) hu

theorem Throughout.imp (h : t.Throughout p a b) (hpq : ∀ u, p u = true → q u = true) :
    t.Throughout q a b :=
  fun i u hai hib hu => hpq u (h i u hai hib hu)

theorem Throughout.append (h : t.Throughout p a b) (h' : t.Throughout p b c) :
    t.Throughout p a c := by
  intro i u hai hic hu
  by_cases hib : i < b
  · exact h i u hai hib hu
  · exact h' i u (by omega) hic hu

theorem throughout_of_le (h : b ≤ a) : t.Throughout p a b :=
  fun i _ hai hib _ => absurd hib (by omega)

theorem throughout_unit (hu : t[a]? = some u) (hp : p u = true) :
    t.Throughout p a (a + 1) := by
  intro i v hai hib hv
  have : i = a := by omega
  subst this
  rw [hu] at hv
  injection hv with hv
  exact hv ▸ hp

/-! ## Slices -/

theorem getElem?_slice (t : Text) (a b i : Nat) :
    (t.slice a b)[i]? = if a + i < b then t[a + i]? else none := by
  unfold slice
  rw [getElem?_drop, getElem?_take]

theorem length_slice (t : Text) (a b : Nat) : (t.slice a b).length = min b t.length - a := by
  unfold slice
  rw [length_drop, length_take]

/-- **A slice has a property throughout** if the stretch does. -/
theorem all_slice : (t.slice a b).all p = true ↔ t.Throughout p a b := by
  rw [all_eq_true]
  constructor
  · intro h i u hai hib hu
    refine h u (mem_iff_getElem?.mpr ⟨i - a, ?_⟩)
    rw [getElem?_slice, show a + (i - a) = i by omega, if_pos hib, hu]
  · intro h u hu
    obtain ⟨i, hi⟩ := mem_iff_getElem?.mp hu
    rw [getElem?_slice] at hi
    split at hi
    · exact h (a + i) u (by omega) (by assumption) hi
    · cases hi

theorem slice_append_drop (hab : a ≤ b) : t.slice a b ++ t.drop b = t.drop a := by
  unfold slice
  conv => rhs; rw [← take_append_drop b t, drop_append, length_take]
  by_cases hb : b ≤ t.length
  · rw [Nat.min_eq_left hb, show a - b = 0 by omega, drop_zero]
  · rw [drop_eq_nil_of_le (Nat.le_of_not_le hb), drop_nil]

theorem slice_take (h : b ≤ c) : slice (t.take c) a b = t.slice a b := by
  rw [slice, slice, take_take, Nat.min_eq_left h]

theorem slice_append (hab : a ≤ b) (hbc : b ≤ c) : t.slice a b ++ t.slice b c = t.slice a c := by
  rw [← slice_take hbc]
  exact slice_append_drop hab

theorem slice_of_le (h : b ≤ a) : t.slice a b = [] := by
  unfold slice
  exact drop_eq_nil_of_le (by rw [length_take]; omega)

theorem slice_unit (hu : t[a]? = some u) : t.slice a (a + 1) = [u] := by
  refine ext_getElem? fun i => ?_
  rw [getElem?_slice]
  cases i with
  | zero => simp [hu]
  | succ i => simp

/-- A slice that falls into two parts is two slices. -/
theorem slice_split {x y : Text} (h : t.slice a b = x ++ y) :
    t.slice a (a + x.length) = x ∧ t.slice (a + x.length) b = y := by
  unfold slice at h ⊢
  constructor
  · have hcut : ((t.drop a).take (b - a)).take x.length = x := by
      rw [← drop_take, h, take_left']
      rfl
    have hlen : x.length ≤ b - a := by
      have := congrArg List.length h
      rw [length_drop, length_take, length_append] at this
      omega
    rw [take_take, Nat.min_eq_left hlen] at hcut
    rw [drop_take, Nat.add_sub_cancel_left, hcut]
  · rw [← drop_drop, h, drop_left']
    rfl

theorem count_slice_eq_zero (h : ∀ i, a ≤ i → i < b → t[i]? ≠ some u) :
    (t.slice a b).count u = 0 := by
  rw [count_eq_zero]
  intro hmem
  obtain ⟨i, hi⟩ := mem_iff_getElem?.mp hmem
  rw [getElem?_slice] at hi
  split at hi
  · exact h (a + i) (Nat.le_add_right ..) (by assumption) hi
  · cases hi

theorem count_slice_unit {m : Nat} (ham : a ≤ m) (hmb : m < b) (hm : t[m]? = some u)
    (h : ∀ i, a ≤ i → i < b → i ≠ m → t[i]? ≠ some u) : (t.slice a b).count u = 1 := by
  rw [← slice_append ham (Nat.le_of_lt hmb), ← slice_append (Nat.le_succ m) hmb, count_append,
    count_append, slice_unit hm,
    count_slice_eq_zero fun i hi him => h i hi (by omega) (by omega),
    count_slice_eq_zero fun i him hi => h i (by omega) hi (by omega), count_singleton_self]

/-- To drop units from a slice is to start it later. -/
theorem slice_dropWhile (t : Text) (p : UInt16 → Bool) (hab : a ≤ b) :
    ∃ q, a ≤ q ∧ q ≤ b ∧ t.Throughout p a q ∧ (t.slice a b).dropWhile p = t.slice q b := by
  have hparts := (takeWhile_append_dropWhile (p := p) (l := t.slice a b)).symm
  obtain ⟨hleft, hright⟩ := slice_split hparts
  have hall := all_takeWhile (p := p) (l := t.slice a b)
  rw [← hleft] at hall
  have hlen := (takeWhile_sublist (l := t.slice a b) p).length_le
  rw [length_slice] at hlen
  exact ⟨_, Nat.le_add_right .., by omega, all_slice.mp hall, hright.symm⟩

/-- White space around a text is all that trimming takes off. -/
theorem trim_parts (t : Text) :
    ∃ rest : Text, t = t.takeWhile isBlank ++ (t.trim ++ rest) ∧ rest.all isBlank = true := by
  refine ⟨(t.trimStart.reverse.takeWhile isBlank).reverse, ?_, ?_⟩
  · have htail : t.trim ++ (t.trimStart.reverse.takeWhile isBlank).reverse = t.trimStart := by
      rw [trim, trimEnd, ← reverse_append, takeWhile_append_dropWhile, reverse_reverse]
    rw [htail, trimStart, takeWhile_append_dropWhile]
  · rw [all_reverse]
    exact all_takeWhile

theorem trim_eq_nil_iff : t.trim = [] ↔ t.isAllBlank = true := by
  constructor
  · intro hnil
    obtain ⟨rest, hparts, hrest⟩ := trim_parts t
    rw [hparts, hnil, nil_append, isAllBlank, all_append, hrest, Bool.and_true]
    exact all_takeWhile
  · intro hall
    rw [trim, trimStart, dropWhile_eq_nil_iff.mpr (all_eq_true.mp hall)]
    rfl

/-! ## Lines -/

theorem lineStart_le (t : Text) (offset : Nat) : t.lineStart offset ≤ offset := by
  induction offset with
  | zero => exact Nat.le_refl _
  | succ n ih =>
    rw [lineStart]
    split
    · exact Nat.le_refl _
    · exact Nat.le_succ_of_le ih

/-- No break stands between the start of a line and the offset. -/
theorem lineStart_throughout (t : Text) (offset : Nat) :
    t.Throughout (fun u => !isBreak u) (t.lineStart offset) offset := by
  induction offset with
  | zero => exact throughout_of_le (Nat.zero_le _)
  | succ n ih =>
    rw [lineStart]
    split
    · exact throughout_of_le (Nat.le_refl _)
    · rename_i hbreak
      refine ih.append ?_
      intro i u hni hin hu
      have : i = n := by omega
      subst this
      rw [hu] at hbreak
      simpa using hbreak

theorem break_before_lineStart {offset : Nat} (h : 0 < t.lineStart offset) :
    ∃ u, t[t.lineStart offset - 1]? = some u ∧ isBreak u = true := by
  induction offset with
  | zero => cases h
  | succ n ih =>
    rw [lineStart] at h ⊢
    split
    · rename_i hbreak
      obtain ⟨u, hu, hb⟩ := Option.any_eq_true _ _ |>.mp hbreak
      exact ⟨u, hu, hb⟩
    · rename_i hbreak
      rw [if_neg hbreak] at h
      exact ih h

theorem lineStart_le_of_throughout (h : t.Throughout (fun u => !isBreak u) a b) :
    t.lineStart b ≤ a := by
  by_contra hlt
  obtain ⟨u, hu, hbreak⟩ := @break_before_lineStart t b (by omega)
  have hle := lineStart_le t b
  have hno := h _ u (by omega) (by omega) hu
  exact absurd hno (by simp [hbreak])

theorem lineStart_mono (hab : a ≤ b) : t.lineStart a ≤ t.lineStart b := by
  by_cases hb : t.lineStart b ≤ a
  · exact lineStart_le_of_throughout ((lineStart_throughout t b).mono (Nat.le_refl _) hab)
  · have := lineStart_le t a
    omega

/-- The next line starts behind the break, and so within the text or at its end. -/
theorem breakEnd?_le {t : Text} {n : Nat} (h : breakEnd? t = some n) : 0 < n ∧ n ≤ t.length := by
  induction t generalizing n with
  | nil => cases h
  | cons u rest ih =>
    rw [breakEnd?] at h
    split at h
    · injection h with h
      exact ⟨by omega, by rw [length_cons]; omega⟩
    · split at h
      · injection h with h
        split at h
        · rename_i hlf
          cases rest with
          | nil => cases hlf
          | cons v rest => exact ⟨by omega, by simp only [length_cons]; omega⟩
        · exact ⟨by omega, by rw [length_cons]; omega⟩
      · obtain ⟨m, hm, rfl⟩ := Option.map_eq_some_iff.mp h
        exact ⟨by omega, by rw [length_cons]; exact Nat.succ_le_succ (ih hm).2⟩

theorem nextLineStart?_le {offset next : Nat} (h : t.nextLineStart? offset = some next) :
    offset < next ∧ next ≤ t.length := by
  unfold nextLineStart? at h
  obtain ⟨m, hm, rfl⟩ := Option.map_eq_some_iff.mp h
  have := breakEnd?_le hm
  rw [length_drop] at this
  omega

/-! ## Occurrences -/

theorem occursIn_iff {p : Text} : occursIn p t = true ↔ p <:+: t := by
  induction t with
  | nil => simp [occursIn]
  | cons u rest ih =>
    rw [occursIn, Bool.or_eq_true, ih, infix_cons_iff, isPrefixOf_iff_prefix]

end Posonly.Text
