import Mathlib.Order.Bounds.Defs
import Posonly.Location
import Posonly.Proofs.Text.Stretch

/-!
# Lines, counted from all sides

Four functions go by line breaks: `lines` cuts a text, `position` counts forwards, `lineStart` walks
back, and `nextLineStart?` walks on. A carriage return with its line feed behind it is what they
could disagree on. Each is brought to one equation for one more unit (`lines_append`,
`position_succ`), and that they agree follows by going along the text.

They do agree at every offset but one kind: between the two units of a break (`InsideBreak`), where
the text up to the offset ends with a break that the whole text does not have there.
-/

open List Option

namespace Posonly.Text

variable {t x y : Text} {u : UInt16} {a b o : Nat} {n : Nat}

/-! ## Lines of a text put together -/

/-- The end of one text and the start of another make one break. -/
def Joins (x y : Text) : Prop := x.getLast? = some carriageReturn ∧ y.head? = some lineFeed

/-- The last line of a text. -/
def lastLine (t : Text) : Text := (lines t).getLastD []

theorem endsLine_cases (u : UInt16) (t : Text) :
    endsLine u t = true ∨ (u = carriageReturn ∧ t.head? = some lineFeed) ∨ isBreak u = false := by
  unfold endsLine isBreak
  by_cases hlf : u = lineFeed
  · simp [hlf]
  · by_cases hcr : u = carriageReturn
    · by_cases hhead : t.head? = some lineFeed
      · exact .inr (.inl ⟨hcr, hhead⟩)
      · exact .inl (by simp [hcr, hhead])
    · exact .inr (.inr (by simp [hlf, hcr]))

theorem isBreak_of_endsLine (h : endsLine u t = true) : isBreak u = true := by
  simp only [endsLine, Bool.or_eq_true, Bool.and_eq_true] at h
  unfold isBreak
  rcases h with h | ⟨h, _⟩ <;> simp [h]

theorem endsLine_nil (u : UInt16) : endsLine u [] = isBreak u := by
  have hnone : (none : Option UInt16) ≠ some lineFeed := by simp
  simp [endsLine, isBreak, bne_iff_ne.mpr hnone]

theorem endsLine_of_paired (h : t.head? = some lineFeed) : endsLine carriageReturn t = false := by
  simp [endsLine, h, carriageReturn, lineFeed]

theorem lines_ne_nil (t : Text) : lines t ≠ [] := by
  fun_cases lines t <;> simp_all

theorem lines_cons_of_endsLine (h : endsLine u t = true) : lines (u :: t) = [] :: lines t := by
  have hbreak := isBreak_of_endsLine h
  cases t with
  | nil => simp [lines, hbreak]
  | cons v rest =>
    have hpair : ¬ ((u == carriageReturn && v == lineFeed) = true) := by
      rw [Bool.and_eq_true, beq_iff_eq, beq_iff_eq]
      rintro ⟨rfl, rfl⟩
      cases h
    rw [lines, if_neg hpair, if_pos hbreak]

theorem lines_cons_of_paired (h : t.head? = some lineFeed) :
    lines (carriageReturn :: t) = lines t := by
  obtain ⟨rest, rfl⟩ := head?_eq_some_iff.mp h
  rw [lines, if_pos (by decide), lines_cons_of_endsLine (by simp [endsLine])]

theorem lines_cons_of_not_break (h : isBreak u = false) :
    lines (u :: t) = (lines t).modifyHead (u :: ·) := by
  cases t with
  | nil => simp [lines, h]
  | cons v rest =>
    have hcr : ¬ ((u == carriageReturn && v == lineFeed) = true) := by
      rw [Bool.and_eq_true, beq_iff_eq]
      rintro ⟨rfl, _⟩
      exact absurd h (by decide)
    rw [lines, if_neg hcr, if_neg (by simp [h])]
    cases hlines : lines (v :: rest) with
    | nil => exact absurd hlines (lines_ne_nil _)
    | cons first others => rfl

theorem exists_lines (t : Text) : ∃ above, lines t = above ++ [lastLine t] := by
  refine ⟨(lines t).dropLast, ?_⟩
  rw [lastLine, getLastD_eq_getLast?, getLast?_eq_some_getLast (lines_ne_nil t)]
  exact (dropLast_append_getLast (lines_ne_nil t)).symm

theorem lastLine_of_lines {above : List Text} {last : Text} (h : lines t = above ++ [last]) :
    lastLine t = last := by
  rw [lastLine, h, getLastD_concat]

theorem Joins.of_cons (h : Joins x y) : Joins (u :: x) y := by
  obtain ⟨hlast, hhead⟩ := h
  refine ⟨?_, hhead⟩
  cases x with
  | nil => cases hlast
  | cons v rest => rw [getLast?_cons_cons, hlast]

/-- **The lines of two texts put together**: the last line of the first goes on with the first line
of the second. -/
theorem lines_append (h : ¬ Joins x y) :
    lines (x ++ y) = (lines x).dropLast ++ (lines y).modifyHead (lastLine x ++ ·) := by
  induction x with
  | nil =>
    cases hy : lines y with
    | nil => exact absurd hy (lines_ne_nil y)
    | cons first others => simp [hy, lines, lastLine]
  | cons u x ih =>
    have ih := ih fun hj => h hj.of_cons
    obtain ⟨above, hx⟩ := exists_lines x
    rw [hx, dropLast_concat] at ih
    rw [cons_append]
    -- `u` ends its line, is the first half of a pair or is no line break
    rcases endsLine_cases u (x ++ y) with hends | ⟨rfl, hpair⟩ | hbreak
    · have hends' : endsLine u x = true := by
        cases x with
        | nil => rw [endsLine_nil]; exact isBreak_of_endsLine hends
        | cons v rest => exact hends
      have hlines : lines (u :: x) = ([] :: above) ++ [lastLine x] := by
        rw [lines_cons_of_endsLine hends', hx, cons_append]
      rw [lines_cons_of_endsLine hends, ih, lastLine_of_lines hlines, hlines, dropLast_concat,
        cons_append]
    · have hpair' : x.head? = some lineFeed := by
        cases x with
        | nil => exact absurd ⟨rfl, hpair⟩ h
        | cons v rest => exact hpair
      have hlines : lines (carriageReturn :: x) = above ++ [lastLine x] := by
        rw [lines_cons_of_paired hpair', hx]
      rw [lines_cons_of_paired hpair, ih, lastLine_of_lines hlines, hlines, dropLast_concat]
    · rw [lines_cons_of_not_break hbreak, ih]
      cases above with
      | nil =>
        have hlines : lines (u :: x) = [] ++ [u :: lastLine x] := by
          rw [lines_cons_of_not_break hbreak, hx]
          rfl
        rw [lastLine_of_lines hlines, hlines, dropLast_concat, nil_append,
          nil_append, modifyHead_modifyHead]
        rfl
      | cons top above =>
        have hlines : lines (u :: x) = ((u :: top) :: above) ++ [lastLine x] := by
          rw [lines_cons_of_not_break hbreak, hx]
          rfl
        rw [lastLine_of_lines hlines, hlines, dropLast_concat]
        rfl

theorem lines_append_break {brk : Text} (h : ¬ Joins x brk) (hbrk : lines brk = [[], []]) :
    lines (x ++ brk) = lines x ++ [[]] := by
  obtain ⟨above, hx⟩ := exists_lines x
  rw [lines_append h, hbrk, hx, dropLast_concat]
  simp

theorem lines_of_no_break (h : ∀ u ∈ t, isBreak u = false) : lines t = [t] := by
  induction t with
  | nil => rfl
  | cons u rest ih =>
    rw [lines_cons_of_not_break (h u (.head _)), ih fun v hv => h v (.tail _ hv)]
    rfl

/-! ## Positions -/

/-- An offset between the two units of one line break. -/
def InsideBreak (t : Text) : Nat → Prop
  | 0 => False
  | i + 1 => t[i]? = some carriageReturn ∧ t[i + 1]? = some lineFeed

instance (t : Text) (o : Nat) : Decidable (t.InsideBreak o) :=
  match o with
  | 0 => .isFalse id
  | i + 1 => inferInstanceAs
      (Decidable (t[i]? = some carriageReturn ∧ t[i + 1]? = some lineFeed))

theorem not_insideBreak (h : t[o]? ≠ some lineFeed) : ¬ InsideBreak t o := by
  cases o with
  | zero => exact id
  | succ i => exact fun hin => h hin.2

theorem insideBreak_of_joins (hlen : o ≤ t.length) (h : Joins (t.take o) (t.drop o)) :
    InsideBreak t o := by
  obtain ⟨hlast, hhead⟩ := h
  cases o with
  | zero => cases hlast
  | succ i =>
    rw [head?_drop] at hhead
    rw [getLast?_eq_getElem?, length_take, Nat.min_eq_left hlen, Nat.add_sub_cancel,
      getElem?_take, if_pos (Nat.lt_succ_self i)] at hlast
    exact ⟨hlast, hhead⟩

/-- Whether a line break ends right behind an offset. -/
def endsLineAt (t : Text) (i : Nat) : Bool := (t[i]?).any fun u => endsLine u (t.drop (i + 1))

/-- A position comes ahead of another. -/
def Position.Before (p q : Position) : Prop :=
  p.line < q.line ∨ p.line = q.line ∧ p.column < q.column

theorem Position.Before.trans {p q r : Position} (h : p.Before q) (h' : q.Before r) :
    p.Before r := by
  unfold Before at *
  omega

theorem Position.not_before_self (p : Position) : ¬ p.Before p := by
  unfold Before
  omega

theorem position_zero (t : Text) : position t 0 = ⟨1, 0⟩ := by cases t <;> rfl

theorem position_cons_succ (u : UInt16) (t : Text) (o : Nat) : position (u :: t) (o + 1) =
      if endsLine u t then ⟨(position t o).line + 1, (position t o).column⟩
      else if (position t o).line = 1 then ⟨1, (position t o).column + 1⟩ else position t o := by
  rw [position]
  simp only [beq_iff_eq]

theorem one_le_line (t : Text) (o : Nat) : 1 ≤ (position t o).line := by
  induction t generalizing o with
  | nil => cases o <;> exact Nat.le_refl 1
  | cons u rest ih =>
    cases o with
    | zero => exact Nat.le_refl 1
    | succ o =>
      have := ih o
      rw [position_cons_succ]
      split
      · exact Nat.le_add_left 1 _
      · split <;> simp [*]

/-- **One step along a text**: to the start of the next line, or one column on. -/
theorem position_succ (t : Text) (o : Nat) :
    position t (o + 1) = if endsLineAt t o then ⟨(position t o).line + 1, 0⟩
      else ⟨(position t o).line, (position t o).column + 1⟩ := by
  induction t generalizing o with
  | nil => cases o <;> rfl
  | cons u rest ih =>
    cases o with
    | zero =>
      rw [position_cons_succ, position_zero, position_zero]
      change _ = if endsLine u rest then _ else _
      split <;> rfl
    | succ o =>
      have hat : endsLineAt (u :: rest) (o + 1) = endsLineAt rest o := rfl
      have hpos := one_le_line rest o
      rw [position_cons_succ, position_cons_succ, ih, hat]
      cases endsLineAt rest o <;> cases endsLine u rest <;>
        by_cases hone : (position rest o).line = 1 <;> simp [hone]
      omega

theorem position_before_succ (t : Text) (o : Nat) : (position t o).Before (position t (o + 1)) := by
  rw [position_succ]
  unfold Position.Before
  split <;> simp

theorem position_before (h : a < b) : (position t a).Before (position t b) := by
  induction h with
  | refl => exact position_before_succ t a
  | step _ ih => exact ih.trans (position_before_succ t _)

theorem position_injective (h : position t a = position t b) : a = b := by
  rcases Nat.lt_trichotomy a b with hlt | heq | hlt
  · exact absurd (h ▸ position_before (t := t) hlt) (Position.not_before_self _)
  · exact heq
  · exact absurd (h ▸ position_before (t := t) hlt) (Position.not_before_self _)

theorem position_lineStart (t : Text) (o : Nat) : (position t o).column ≤ o ∧
      position t (o - (position t o).column) = ⟨(position t o).line, 0⟩ := by
  induction o with
  | zero => rw [position_zero]; exact ⟨Nat.le_refl _, position_zero t⟩
  | succ o ih =>
    have hsucc := position_succ t o
    cases hends : endsLineAt t o with
    | true =>
      rw [hends, if_pos rfl] at hsucc
      rw [hsucc]
      exact ⟨Nat.zero_le _, hsucc⟩
    | false =>
      rw [hends, if_neg (by simp)] at hsucc
      rw [hsucc]
      refine ⟨Nat.succ_le_succ ih.1, ?_⟩
      rw [Nat.add_sub_add_right]
      exact ih.2

/-- **Positions add up**: what stands behind an offset is counted as if it stood alone. -/
theorem position_add (t : Text) (a b : Nat) :
    position t (a + b) = if (position (t.drop a) b).line = 1
      then ⟨(position t a).line, (position t a).column + (position (t.drop a) b).column⟩
      else ⟨(position t a).line + (position (t.drop a) b).line - 1,
        (position (t.drop a) b).column⟩ := by
  induction b with
  | zero => rw [position_zero, if_pos rfl]; rfl
  | succ b ih =>
    have hat : endsLineAt (t.drop a) b = endsLineAt t (a + b) := by
      unfold endsLineAt
      rw [getElem?_drop, drop_drop, Nat.add_assoc]
    have hpos := one_le_line (t.drop a) b
    rw [← Nat.add_assoc, position_succ, position_succ, hat]
    by_cases hone : (position (t.drop a) b).line = 1
    · rw [if_pos hone] at ih
      cases endsLineAt t (a + b) <;> simp [ih, hone, Nat.add_assoc]
    · have hmore : (position (t.drop a) b).line ≠ 0 := by omega
      rw [if_neg hone] at ih
      cases endsLineAt t (a + b)
      · simp [ih, hone]
      · simp [ih, hmore]
        omega

/-- **A position is that of the lines ahead of it**: as many as the line says, the last as long as
the column says. -/
theorem position_eq_lines (hlen : o ≤ t.length) (h : ¬ InsideBreak t o) :
    position t o = ⟨(lines (t.take o)).length, (lastLine (t.take o)).length⟩ := by
  induction o using Nat.strongRecOn with
  | ind o ih =>
    cases o with
    | zero => exact position_zero t
    | succ i =>
      obtain ⟨u, hu⟩ : ∃ u, t[i]? = some u := ⟨_, getElem?_eq_getElem hlen⟩
      have hcut : t.take (i + 1) = t.take i ++ [u] := by rw [take_add_one, hu]; rfl
      have hat : endsLineAt t i = endsLine u (t.drop (i + 1)) := by rw [endsLineAt, hu]; rfl
      rw [position_succ, hat]
      by_cases hin : InsideBreak t i
      · -- the second half of a break: no line ends between the two
        cases i with
        | zero => exact absurd hin id
        | succ j =>
          obtain ⟨hcr, hlf⟩ := hin
          obtain rfl := Option.some.inj (hu.symm.trans hlf)
          have hends : endsLineAt t j = false := by
            rw [endsLineAt, hcr, any_some, endsLine_of_paired (by rw [head?_drop, hlf])]
          have hlines : lines (t.take (j + 2)) = lines (t.take j) ++ [[]] := by
            rw [hcut, take_add_one, hcr, append_assoc]
            exact lines_append_break (fun hjoin => by cases hjoin.2) (by decide)
          rw [if_pos (by simp [endsLine]), position_succ, hends,
            ih j (by omega) (by omega) (not_insideBreak (by rw [hcr]; decide)),
            lastLine_of_lines hlines, hlines, length_append]
          rfl
      · have hjoin : ¬ Joins (t.take i) [u] := fun hj =>
          hin (insideBreak_of_joins (by omega) ⟨hj.1, by rw [head?_drop, hu]; exact hj.2⟩)
        rw [ih i (by omega) (by omega) hin, hcut]
        rcases endsLine_cases u (t.drop (i + 1)) with hends | ⟨rfl, hpair⟩ | hbreak
        · have hlines := lines_append_break hjoin
            (lines_cons_of_endsLine (by rw [endsLine_nil]; exact isBreak_of_endsLine hends))
          rw [if_pos hends, lastLine_of_lines hlines, hlines, length_append]
          rfl
        · rw [head?_drop] at hpair
          exact absurd ⟨hu, hpair⟩ h
        · obtain ⟨above, habove⟩ := exists_lines (t.take i)
          have hlines : lines (t.take i ++ [u]) = above ++ [lastLine (t.take i) ++ [u]] := by
            rw [lines_append hjoin, lines_cons_of_not_break hbreak, habove, dropLast_concat]
            rfl
          rw [if_neg fun hends => by simp [isBreak_of_endsLine hends] at hbreak,
            lastLine_of_lines hlines, hlines, habove, length_append, length_append, length_append]
          rfl

/-! ## Walking back and on -/

/-- **Walking back to the start of a line** goes over as many units as the column says. -/
theorem column_eq_sub_lineStart (h : ¬ InsideBreak t o) :
    (position t o).column = o - lineStart t o := by
  induction o with
  | zero => rw [position_zero]; rfl
  | succ o ih =>
    have hle := lineStart_le t o
    rw [position_succ, lineStart, endsLineAt]
    cases hu : t[o]? with
    | none =>
      simp only [any_none, Bool.false_eq_true, if_false]
      rw [ih (not_insideBreak (by simp [hu]))]
      omega
    | some u =>
      rw [any_some, any_some]
      rcases endsLine_cases u (t.drop (o + 1)) with hends | ⟨rfl, hpair⟩ | hbreak
      · rw [if_pos hends, if_pos (isBreak_of_endsLine hends), Nat.sub_self]
      · rw [head?_drop] at hpair
        exact absurd ⟨hu, hpair⟩ h
      · have hlf : u ≠ lineFeed := by
          rintro rfl
          exact absurd hbreak (by decide)
        rw [if_neg fun hends => by simp [isBreak_of_endsLine hends] at hbreak,
          if_neg (by simp [hbreak]), ih (not_insideBreak (by simp [hu, hlf]))]
        dsimp only
        omega

/-- A line break is found behind the first line, as a whole. -/
theorem take_breakEnd? (h : breakEnd? t = some n) : ¬ InsideBreak t n ∧
    ∃ brk, t.take n = firstLine t ++ brk ∧ lines brk = [[], []] := by
  induction t generalizing n with
  | nil => cases h
  | cons u rest ih =>
    rw [breakEnd?] at h
    split at h
    · rename_i hlf
      obtain rfl := beq_iff_eq.mp hlf
      obtain rfl := Option.some.inj h
      exact ⟨fun hin => (by cases hin.1), [lineFeed], by simp [firstLine, isBreak], by decide⟩
    · rename_i hlf
      split at h
      · rename_i hcr
        obtain rfl := beq_iff_eq.mp hcr
        obtain rfl := Option.some.inj h
        -- a line feed behind the carriage return belongs to the same break
        split
        · rename_i hhead
          obtain ⟨more, rfl⟩ := head?_eq_some_iff.mp (beq_iff_eq.mp hhead)
          exact ⟨fun hin => (by cases hin.1), [carriageReturn, lineFeed],
            by simp [firstLine, isBreak], by decide⟩
        · rename_i hhead
          rw [beq_iff_eq, head?_eq_getElem?] at hhead
          exact ⟨fun hin => hhead hin.2, [carriageReturn], by simp [firstLine, isBreak], by decide⟩
      · rename_i hcr
        obtain ⟨m, hm, rfl⟩ := map_eq_some_iff.mp h
        obtain ⟨hout, brk, htake, hlines⟩ := ih hm
        refine ⟨fun hin => ?_, brk, ?_, hlines⟩
        · -- the break is the same one, further back
          cases m with
          | zero => exact absurd (breakEnd?_le hm).1 (Nat.lt_irrefl 0)
          | succ m => exact hout hin
        · rw [take_succ_cons, htake, firstLine, firstLine,
            takeWhile_cons_of_pos (by simp [isBreak, hlf, hcr]), cons_append]

theorem lines_take_breakEnd? (h : breakEnd? t = some n) :
    lines (t.take n) = [firstLine t, []] := by
  obtain ⟨_, brk, htake, hbrk⟩ := take_breakEnd? h
  have hno : ∀ u ∈ firstLine t, isBreak u = false := fun u hu => by
    simpa using all_eq_true.mp (all_takeWhile (p := fun u => !isBreak u)) u hu
  have hjoin : ¬ Joins (firstLine t) brk := by
    rintro ⟨hcr, _⟩
    exact absurd (hno _ (mem_of_getLast? hcr)) (by decide)
  rw [htake, lines_append_break hjoin hbrk, lines_of_no_break hno]
  rfl

theorem position_breakEnd? (h : breakEnd? t = some n) : position t n = ⟨2, 0⟩ := by
  have hlines := lines_take_breakEnd? h
  rw [position_eq_lines (breakEnd?_le h).2 (take_breakEnd? h).1, hlines,
    lastLine_of_lines (show _ = [firstLine t] ++ [[]] from hlines)]
  rfl

theorem line_of_breakEnd?_eq_none (h : breakEnd? t = none) (n : Nat) : (position t n).line = 1 := by
  induction t generalizing n with
  | nil => cases n <;> rfl
  | cons u rest ih =>
    rw [breakEnd?] at h
    split at h
    · cases h
    · rename_i hlf
      split at h
      · cases h
      · rename_i hcr
        cases n with
        | zero => rfl
        | succ n =>
          rw [position_cons_succ, if_neg (by simp [endsLine, hlf, hcr]),
            if_pos (ih (map_eq_none_iff.mp h) n)]

/-- **Walking on to the next line** ends where that line has its start. -/
theorem nextLineStart?_eq_some_iff :
    t.nextLineStart? o = some n ↔ position t n = ⟨(position t o).line + 1, 0⟩ := by
  have hnext {m : Nat} (hm : t.nextLineStart? o = some m) :
      position t m = ⟨(position t o).line + 1, 0⟩ := by
    obtain ⟨k, hk, rfl⟩ := map_eq_some_iff.mp hm
    rw [Nat.add_comm, position_add, position_breakEnd? hk]
    rfl
  refine ⟨hnext, fun hn => ?_⟩
  cases hfound : t.nextLineStart? o with
  | some m => rw [position_injective ((hnext hfound).trans hn.symm)]
  | none =>
    -- all that follows is on the same line
    have hrest := line_of_breakEnd?_eq_none (map_eq_none_iff.mp hfound)
    have hlt : o ≤ n := by
      by_contra hlt
      have := position_before (t := t) (Nat.lt_of_not_le hlt)
      rw [hn] at this
      unfold Position.Before at this
      dsimp only at this
      omega
    rw [← Nat.add_sub_of_le hlt, position_add, if_pos (hrest _)] at hn
    exact absurd (congrArg Position.line hn) (by simp)

theorem nextLineStart?_eq_some_iff_isLeast : t.nextLineStart? o = some n ↔
      IsLeast {m | o < m ∧ (position t m).line = (position t o).line + 1 ∧
        (position t m).column = 0} n := by
  constructor
  · intro h
    have hpos := nextLineStart?_eq_some_iff.mp h
    refine ⟨⟨(nextLineStart?_le h).1, by rw [hpos], by rw [hpos]⟩, fun m hm => ?_⟩
    have hsame : position t m = position t n := by
      rw [hpos, ← hm.2.1, ← hm.2.2]
    exact Nat.le_of_eq (position_injective hsame).symm
  · rintro ⟨⟨_, hline, hcolumn⟩, _⟩
    rw [nextLineStart?_eq_some_iff, ← hline, ← hcolumn]

theorem nextLineStart?_eq_none_iff : t.nextLineStart? o = none ↔ ∀ m, o < m →
      ¬ ((position t m).line = (position t o).line + 1 ∧ (position t m).column = 0) := by
  constructor
  · intro hnone m _ hm
    have hpos : position t m = ⟨(position t o).line + 1, 0⟩ := by rw [← hm.1, ← hm.2]
    rw [nextLineStart?_eq_some_iff.mpr hpos] at hnone
    cases hnone
  · intro hno
    cases hfound : t.nextLineStart? o with
    | none => rfl
    | some n =>
      obtain ⟨hlt, hn⟩ := (nextLineStart?_eq_some_iff_isLeast.mp hfound).1
      exact absurd hn (hno n hlt)

/-! ## Blank lines above -/

/-- A line goes from its start to the start of the next one. -/
structure IsLine (t : Text) (a b : Nat) : Prop where
  start : (position t a).column = 0
  next : t.nextLineStart? a = some b

/-- So many lines of white space stand one above the other, right above the line that starts at an
offset. -/
inductive BlankRun (t : Text) : Nat → Nat → Prop where
  | nothing (b : Nat) : BlankRun t b 0
  | above {a b n : Nat} : IsLine t a b → isAllBlank (firstLine (t.drop a)) = true →
      BlankRun t a n → BlankRun t b (n + 1)

theorem not_insideBreak_of_column (h : (position t o).column = 0) : ¬ InsideBreak t o := by
  cases o with
  | zero => exact id
  | succ i =>
    rintro ⟨hcr, hlf⟩
    have hends : endsLineAt t i = false := by
      rw [endsLineAt, hcr, any_some, endsLine_of_paired (by rw [head?_drop, hlf])]
    rw [position_succ, hends] at h
    cases h

theorem exists_isLine_above (h : (position t b).column = 0) (hpos : 0 < b) :
    ∃ a, a < b ∧ IsLine t a b := by
  obtain ⟨e, rfl⟩ : ∃ e, b = e + 1 := ⟨b - 1, by omega⟩
  obtain ⟨_, hstart⟩ := position_lineStart t e
  refine ⟨e - (position t e).column, by omega, by rw [hstart], ?_⟩
  rw [nextLineStart?_eq_some_iff, hstart]
  rw [position_succ] at h ⊢
  split
  · rfl
  · rename_i hends
    rw [if_neg hends] at h
    cases h

/-- **The lines above the next line** are those above a line and the line itself. -/
theorem IsLine.dropLast_lines (h : IsLine t a b) :
    (lines (t.take b)).dropLast = (lines (t.take a)).dropLast ++ [firstLine (t.drop a)] := by
  obtain ⟨hlt, hlen⟩ := nextLineStart?_le h.next
  obtain ⟨n, hn, rfl⟩ := map_eq_some_iff.mp h.next
  have hin := not_insideBreak_of_column h.start
  have hlast : lastLine (t.take a) = [] := by
    have := congrArg Position.column (position_eq_lines (by omega) hin)
    rw [h.start] at this
    exact length_eq_zero_iff.mp this.symm
  have hjoin : ¬ Joins (t.take a) ((t.drop a).take n) := by
    rintro ⟨hcr, hlf⟩
    refine hin (insideBreak_of_joins (by omega) ⟨hcr, ?_⟩)
    rw [head?_take] at hlf
    split at hlf
    · cases hlf
    · exact hlf
  rw [Nat.add_comm n a, take_add, lines_append hjoin, lines_take_breakEnd? hn, hlast]
  simp

theorem IsLine.blankLinesAbove (h : IsLine t a b) : t.blankLinesAbove b =
      if isAllBlank (firstLine (t.drop a)) then t.blankLinesAbove a + 1 else 0 := by
  unfold Text.blankLinesAbove
  rw [h.dropLast_lines, reverse_append, reverse_singleton, singleton_append, takeWhile_cons]
  split <;> rfl

theorem blankLinesAbove_lineStart (t : Text) (o : Nat) :
    t.blankLinesAbove o = t.blankLinesAbove (t.lineStart o) := by
  have hle := lineStart_le t o
  have hno : ∀ u ∈ t.slice (t.lineStart o) o, isBreak u = false := fun u hu => by
    simpa using all_eq_true.mp (all_slice.mpr (lineStart_throughout t o)) u hu
  have hcut : t.take o = t.take (t.lineStart o) ++ t.slice (t.lineStart o) o :=
    (slice_append (a := 0) (Nat.zero_le _) hle).symm
  have hjoin : ¬ Joins (t.take (t.lineStart o)) (t.slice (t.lineStart o) o) := by
    rintro ⟨_, hlf⟩
    exact absurd (hno _ (mem_of_mem_head? hlf)) (by decide)
  unfold blankLinesAbove
  rw [hcut, lines_append hjoin, lines_of_no_break hno]
  simp

theorem BlankRun.le_blankLinesAbove (h : BlankRun t b n) : n ≤ t.blankLinesAbove b := by
  induction h with
  | nothing b => exact Nat.zero_le _
  | above hline hblank _ ih =>
    rw [hline.blankLinesAbove, if_pos hblank]
    exact Nat.succ_le_succ ih

theorem blankRun_blankLinesAbove (h : (position t b).column = 0) :
    BlankRun t b (t.blankLinesAbove b) := by
  induction b using Nat.strongRecOn with
  | ind b ih =>
    rcases Nat.eq_zero_or_pos b with rfl | hpos
    · exact .nothing 0
    · obtain ⟨a, hlt, hline⟩ := exists_isLine_above h hpos
      rw [hline.blankLinesAbove]
      split
      · exact .above hline (by assumption) (ih a hlt hline.start)
      · exact .nothing b

/-! ## Locations -/

theorem locate_natCast (t : Text) (m : Nat) :
    (locate t m m).line = (position t m).line ∧ (locate t m m).column = (position t m).column := by
  constructor
  · rfl
  · unfold locate
    dsimp only
    rw [if_neg (Int.not_lt.mpr (Int.natCast_nonneg m))]
    rfl

theorem locate_of_neg {a : Int} (h : a < 0) :
    (locate t a a).line = 1 ∧ (locate t a a).column = a := by
  refine ⟨?_, if_pos h⟩
  change (position t a.toNat).line = 1
  rw [Int.toNat_of_nonpos (by omega), position_zero]

theorem locate_before {a b : Int} (h : a < b) : (locate t a a).line < (locate t b b).line ∨
      (locate t a a).line = (locate t b b).line ∧
      (locate t a a).column < (locate t b b).column := by
  by_cases hb : b < 0
  · have ha := locate_of_neg (t := t) (show a < 0 by omega)
    have hb := locate_of_neg (t := t) hb
    omega
  · obtain ⟨n, rfl⟩ := Int.eq_ofNat_of_zero_le (Int.not_lt.mp hb)
    rw [(locate_natCast t n).1, (locate_natCast t n).2]
    by_cases ha : a < 0
    · have ha := locate_of_neg (t := t) ha
      have := one_le_line t n
      omega
    · obtain ⟨m, rfl⟩ := Int.eq_ofNat_of_zero_le (Int.not_lt.mp ha)
      have hbefore := position_before (t := t) (Int.ofNat_lt.mp h)
      unfold Position.Before at hbefore
      rw [(locate_natCast t m).1, (locate_natCast t m).2]
      omega

/-- **All ways to count lines agree.** At an offset that is not inside a break, the line of a
location is the number of lines up to there and its column the length of the last of them, which is
also the way back to the start of the line. The start of the next line is the first offset behind
that has column zero of the line below, if there is one, and the blank lines above are the longest
run of them. Over all offsets, a location comes ahead of another if its offset does. -/
theorem line_counts_agree (t : Text) :
    (∀ o : Nat, o ≤ t.length → ¬ t.InsideBreak o →
      (locate t o o).line = (lines (t.take o)).length ∧
      (locate t o o).column = (lastLine (t.take o)).length ∧
      (locate t o o).column = (o : Int) - t.lineStart o ∧
      (∀ n, t.nextLineStart? o = some n ↔ IsLeast {m : Nat | o < m ∧
        (locate t m m).line = (locate t o o).line + 1 ∧ (locate t m m).column = 0} n) ∧
      (t.nextLineStart? o = none ↔ ∀ m : Nat, o < m →
        ¬ ((locate t m m).line = (locate t o o).line + 1 ∧ (locate t m m).column = 0)) ∧
      IsGreatest {n | BlankRun t (t.lineStart o) n} (t.blankLinesAbove o)) ∧
    ∀ a b : Int, a < b →
      (locate t a a).line < (locate t b b).line ∨
        (locate t a a).line = (locate t b b).line ∧
        (locate t a a).column < (locate t b b).column := by
  refine ⟨fun o hlen hin => ?_, fun a b hab => locate_before hab⟩
  have hlines := position_eq_lines hlen hin
  have hcolumn := column_eq_sub_lineStart hin
  have hle := lineStart_le t o
  have hstart : (position t (t.lineStart o)).column = 0 := by
    have := (position_lineStart t o).2
    rw [hcolumn, Nat.sub_sub_self hle] at this
    rw [this]
  simp only [locate_natCast, Int.natCast_eq_zero]
  refine ⟨by rw [hlines], by rw [hlines], by rw [hcolumn]; omega,
    fun n => nextLineStart?_eq_some_iff_isLeast, nextLineStart?_eq_none_iff, ?_, ?_⟩
  · rw [blankLinesAbove_lineStart]
    exact blankRun_blankLinesAbove hstart
  · intro n hn
    rw [blankLinesAbove_lineStart]
    exact BlankRun.le_blankLinesAbove hn

/-- A text with all kinds of line breaks. -/
def mixedBreaks : Text := "a\r\n \n\r\tbc\rd"

theorem line_counts_agree_mixed :
    8 ≤ mixedBreaks.length ∧ ¬ mixedBreaks.InsideBreak 8 ∧ mixedBreaks.InsideBreak 2 ∧
      (locate mixedBreaks 8 8).line = 4 ∧ (locate mixedBreaks 8 8).column = 2 ∧
      mixedBreaks.nextLineStart? 8 = some 10 ∧
      IsLeast {m : Nat | 8 < m ∧ (locate mixedBreaks m m).line = 4 + 1 ∧
        (locate mixedBreaks m m).column = 0} 10 ∧
      mixedBreaks.lineStart 8 = 6 ∧ IsGreatest {n | BlankRun mixedBreaks 6 n} 2 := by
  obtain ⟨hagree, _⟩ := line_counts_agree mixedBreaks
  obtain ⟨_, _, _, hnext, _, hblank⟩ := hagree 8 (by decide) (by decide)
  exact ⟨by decide, by decide, by decide, by decide, by decide, by decide,
    (hnext 10).mp (by decide), by decide, hblank⟩

end Posonly.Text
