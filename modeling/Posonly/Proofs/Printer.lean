import Posonly.Proofs.Decorator
import Posonly.Proofs.Text.Lines

/-!
# What a printer prints

A printer is called to write texts, to end lines and to change its level. It puts indentation in
late, with the first unit of a line, and goes by a flag for that. What it prints is told here
without the flag. Everything that is written is put on a tape, unit by unit, each with the level in
force at that moment (`tape`). The tape is cut into rows where lines end (`rows`), and a row is
shown behind the indentation of its first unit (`shown`). The whole state of a printer is a function
of the tape (`typed`), and every call carries this function on (`perform_typed`, `run_typed`).

A text is taken up unit by unit as well (`write_cons_of_endsLine` and the two lemmas after it). So
it makes no difference where it is cut in two, unless the cut goes through one line break.
-/

open List Posonly.Text

namespace Posonly.Printer

/-- What a printer can be called to do. -/
inductive Call where
  | write (t : Text)
  | writeLine (t : Text)
  | newline
  | indent
  | dedent
deriving DecidableEq, Repr

def perform (p : Printer) : Call → Printer
  | .write t => p.write t
  | .writeLine t => p.writeLine t
  | .newline => p.newline
  | .indent => p.indent
  | .dedent => p.dedent

def run (p : Printer) (calls : List Call) : Printer := calls.foldl perform p

/-! ## The tape -/

/-- A unit that is written, with the level in force when it is. -/
structure Mark where
  unit : UInt16
  level : Nat
deriving DecidableEq, Repr

inductive Stroke where
  | mark (m : Mark)
  | lineEnd
deriving DecidableEq, Repr

/-- A text on the tape: each of its line breaks, of one unit or of two, is one end of a line. -/
def strokes (level : Nat) : Text → List Stroke
  | [] => []
  | u :: rest =>
    if endsLine u rest then .lineEnd :: strokes level rest
    else if isBreak u then strokes level rest
    else .mark ⟨u, level⟩ :: strokes level rest

namespace Call

/-- The text that a call is made with. -/
def text : Call → Text
  | write t | writeLine t => t
  | newline | indent | dedent => []

/-- What a call puts on the tape at a level. -/
def strokes (level : Nat) : Call → List Stroke
  | write t => Printer.strokes level t
  | writeLine t => Printer.strokes level t ++ [.lineEnd]
  | newline => [.lineEnd]
  | indent | dedent => []

/-- The level behind a call. The lowest level is zero. -/
def levelAfter (level : Nat) : Call → Nat
  | indent => level + 1
  | dedent => level - 1
  | write _ | writeLine _ | newline => level

end Call

/-- What some calls put on the tape, the first of them at a level. -/
def tape (level : Nat) : List Call → List Stroke
  | [] => []
  | c :: calls => c.strokes level ++ tape (c.levelAfter level) calls

/-- The lines of a tape. There is one more than there are ends of lines. -/
def rows : List Stroke → List (List Mark)
  | [] => [[]]
  | .lineEnd :: rest => [] :: rows rest
  | .mark m :: rest => (rows rest).modifyHead (m :: ·)

/-- A line as it is printed: the indentation of its first unit, then its units. An empty line has
nothing. -/
def shown (indentation : Text) : List Mark → Text
  | [] => []
  | m :: rest => times m.level indentation ++ (m :: rest).map (·.unit)

/-- The printer that has printed what is on a tape and is at a level. -/
def typed (indentation separator : Text) (level : Nat) (strokes : List Stroke) : Printer where
  indentation := indentation
  separator := separator
  level := level
  atLineStart := ((rows strokes).getLastD []).isEmpty
  output := joined separator ((rows strokes).map (shown indentation))

variable {p : Printer} {t x y : Text} {u : UInt16}

/-! ## Longer tapes -/

/-- The last row of a tape goes on with the first row of what is put behind it. -/
theorem rows_append (s : List Stroke) : ∃ above last, rows s = above ++ [last] ∧
    ∀ more first below, rows more = first :: below →
      rows (s ++ more) = above ++ (last ++ first) :: below := by
  induction s with
  | nil => exact ⟨[], [], rfl, fun more first below h => h⟩
  | cons stroke s ih =>
    obtain ⟨above, last, hs, happend⟩ := ih
    cases stroke with
    | lineEnd =>
      refine ⟨[] :: above, last, by rw [rows, hs]; rfl, fun more first below h => ?_⟩
      rw [cons_append, rows, happend more first below h]
      rfl
    | mark m =>
      cases above with
      | nil =>
        refine ⟨[], m :: last, by rw [rows, hs]; rfl, fun more first below h => ?_⟩
        rw [cons_append, rows, happend more first below h]
        rfl
      | cons top above =>
        refine ⟨(m :: top) :: above, last, by rw [rows, hs]; rfl, fun more first below h => ?_⟩
        rw [cons_append, rows, happend more first below h]
        rfl

theorem shown_append (indentation : Text) (row : List Mark) (m : Mark) :
    shown indentation (row ++ [m]) = shown indentation row ++
      ((if row.isEmpty then times m.level indentation else []) ++ [m.unit]) := by
  cases row with
  | nil => simp [shown]
  | cons first row => simp [shown]

theorem newline_typed (indentation separator : Text) (level : Nat) (s : List Stroke) :
    (typed indentation separator level s).newline =
      typed indentation separator level (s ++ [.lineEnd]) := by
  obtain ⟨above, last, hs, happend⟩ := rows_append s
  have hrows : rows (s ++ [.lineEnd]) = (above ++ [last]) ++ [[]] := by
    rw [happend [.lineEnd] [] [[]] rfl]
    simp
  have houtput : joined separator (((above ++ [last]) ++ [[]]).map (shown indentation)) =
      joined separator ((above ++ [last]).map (shown indentation)) ++ separator := by
    simp only [map_append, map_cons, map_nil, append_assoc, singleton_append,
      joined_append, joined, shown, append_nil]
  simp only [newline, typed, hrows, hs, houtput, getLastD_concat, isEmpty_nil]

theorem segment_typed (indentation separator : Text) (level : Nat) (s : List Stroke) (u : UInt16) :
    (typed indentation separator level s).segment [u] =
      typed indentation separator level (s ++ [.mark ⟨u, level⟩]) := by
  obtain ⟨above, last, hs, happend⟩ := rows_append s
  have hrows : rows (s ++ [.mark ⟨u, level⟩]) = above ++ [last ++ [⟨u, level⟩]] :=
    happend [.mark ⟨u, level⟩] [⟨u, level⟩] [] rfl
  have hfilled : (last ++ [(⟨u, level⟩ : Mark)]).isEmpty = false := by simp
  have houtput : joined separator
        ((above ++ [last ++ [(⟨u, level⟩ : Mark)]]).map (shown indentation)) =
      joined separator ((above ++ [last]).map (shown indentation)) ++
        (if last.isEmpty then times level indentation else []) ++ [u] := by
    simp only [map_append, map_cons, map_nil, joined_append, joined,
      shown_append, append_assoc]
  simp only [segment, typed, hrows, hs, houtput, getLastD_concat, hfilled, isEmpty_cons]
  rfl

/-! ## Writing unit by unit -/

theorem segment_append (p : Printer) (x y : Text) : p.segment (x ++ y) =
    (p.segment x).segment y := by
  unfold segment
  cases x with
  | nil => rfl
  | cons u x =>
    cases y with
    | nil => simp
    | cons v y => simp

theorem write_nil (p : Printer) : p.write [] = p := rfl

theorem write_cons_of_endsLine (p : Printer) (h : endsLine u t = true) :
    p.write (u :: t) = p.newline.write t := by
  unfold write
  rw [lines_cons_of_endsLine h]
  cases hlines : lines t with
  | nil => exact absurd hlines (lines_ne_nil t)
  | cons first others => rfl

theorem write_cons_of_paired (p : Printer) (h : t.head? = some lineFeed) :
    p.write (carriageReturn :: t) = p.write t := by
  unfold write
  rw [lines_cons_of_paired h]

theorem write_cons_of_not_break (p : Printer) (h : isBreak u = false) :
    p.write (u :: t) = (p.segment [u]).write t := by
  unfold write
  rw [lines_cons_of_not_break h]
  cases hlines : lines t with
  | nil => exact absurd hlines (lines_ne_nil t)
  | cons first others =>
    change others.foldl _ (p.segment ([u] ++ first)) = _
    rw [segment_append]

/-- **A text may be written in two pieces**, unless the cut goes through one line break. -/
theorem write_append (p : Printer) (h : ¬ Joins x y) :
    p.write (x ++ y) = (p.write x).write y := by
  induction x generalizing p with
  | nil => rfl
  | cons u x ih =>
    have ih := fun q => ih q fun hjoins => h hjoins.of_cons
    rw [cons_append]
    rcases endsLine_cases u (x ++ y) with hends | ⟨rfl, hpair⟩ | hbreak
    · have hends' : endsLine u x = true := by
        cases x with
        | nil => rw [endsLine_nil]; exact isBreak_of_endsLine hends
        | cons v x => exact hends
      rw [write_cons_of_endsLine p hends, write_cons_of_endsLine p hends', ih]
    · have hpair' : x.head? = some lineFeed := by
        cases x with
        | nil => exact absurd ⟨rfl, hpair⟩ h
        | cons v x => exact hpair
      rw [write_cons_of_paired p hpair, write_cons_of_paired p hpair', ih]
    · rw [write_cons_of_not_break p hbreak, write_cons_of_not_break p hbreak, ih]

/-! ## Calls -/

section

variable (indentation separator : Text) (level : Nat) (s : List Stroke)

theorem write_typed (t : Text) : (typed indentation separator level s).write t =
      typed indentation separator level (s ++ strokes level t) := by
  induction t generalizing s with
  | nil => rw [write_nil, strokes, append_nil]
  | cons u t ih =>
    rw [strokes]
    rcases endsLine_cases u t with hends | ⟨rfl, hpair⟩ | hbreak
    · rw [write_cons_of_endsLine _ hends, if_pos hends, newline_typed, ih, append_assoc]
      rfl
    · rw [write_cons_of_paired _ hpair, ih, endsLine_of_paired hpair, if_neg (by simp),
        if_pos (by decide)]
    · have hends : endsLine u t = false := by
        rw [Bool.eq_false_iff]
        intro hends
        rw [isBreak_of_endsLine hends] at hbreak
        cases hbreak
      rw [write_cons_of_not_break _ hbreak, segment_typed, ih, hends, hbreak, if_neg (by simp),
        if_neg (by simp), append_assoc]
      rfl

/-- What one call does to the tape and the level. -/
theorem perform_typed (c : Call) : (typed indentation separator level s).perform c =
      typed indentation separator (c.levelAfter level) (s ++ c.strokes level) := by
  cases c with
  | write t => exact write_typed indentation separator level s t
  | writeLine t =>
    rw [perform, writeLine, write_typed, newline_typed, append_assoc]
    rfl
  | newline => exact newline_typed indentation separator level s
  | indent | dedent =>
    rw [Call.strokes, append_nil]
    rfl

/-- What a sequence of calls does to the tape and the level. -/
theorem run_typed (calls : List Call) : (typed indentation separator level s).run calls =
      typed indentation separator (calls.foldl Call.levelAfter level) (s ++ tape level calls) := by
  induction calls generalizing level s with
  | nil => rw [tape, append_nil]; rfl
  | cons c calls ih =>
    change ((typed indentation separator level s).perform c).run calls = _
    rw [perform_typed, ih, tape, append_assoc]
    rfl

end

/-! ## What is on the tape -/

/-- The unit of a stroke, if it is no end of a line. -/
def Stroke.mark? : Stroke → Option Mark
  | mark m => some m
  | lineEnd => none

theorem Stroke.mark?_mark (m : Mark) : (mark m).mark? = some m := rfl

theorem flatten_rows (s : List Stroke) : (rows s).flatten = s.filterMap Stroke.mark? := by
  induction s with
  | nil => rfl
  | cons stroke s ih =>
    cases stroke with
    | lineEnd => exact ih
    | mark m =>
      obtain ⟨above, last, hs, _⟩ := rows_append s
      rw [filterMap_cons_some (Stroke.mark?_mark m), ← ih, rows, hs]
      cases above <;> rfl

theorem marks_strokes (level : Nat) (t : Text) :
    ((strokes level t).filterMap Stroke.mark?).map (·.unit) = t.filter (!isBreak ·) := by
  induction t with
  | nil => rfl
  | cons u t ih =>
    rw [strokes]
    by_cases hends : endsLine u t = true
    · rw [if_pos hends, filterMap_cons_none rfl, ih,
        filter_cons_of_neg (by simp [isBreak_of_endsLine hends])]
    · rw [if_neg hends]
      by_cases hbreak : isBreak u = true
      · rw [if_pos hbreak, ih, filter_cons_of_neg (by simp [hbreak])]
      · rw [if_neg hbreak, filterMap_cons_some (Stroke.mark?_mark _), map_cons, ih,
          filter_cons_of_pos (by simp [hbreak])]

theorem marks_tape (level : Nat) (calls : List Call) :
    ((tape level calls).filterMap Stroke.mark?).map (·.unit) =
      (calls.flatMap Call.text).filter (!isBreak ·) := by
  have hcall : ∀ (level : Nat) (c : Call), ((c.strokes level).filterMap Stroke.mark?).map (·.unit) =
      c.text.filter (!isBreak ·) := by
    intro level c
    cases c with
    | write t => exact marks_strokes level t
    | writeLine t =>
      rw [Call.strokes, filterMap_append, map_append, marks_strokes]
      exact append_nil _
    | newline | indent | dedent => rfl
  induction calls generalizing level with
  | nil => rfl
  | cons c calls ih =>
    rw [tape, filterMap_append, map_append, hcall, ih, flatMap_cons, filter_append]

/-- The printer behind some calls. -/
def printed (indentation separator : Text) (calls : List Call) : Printer :=
  run { indentation, separator } calls

theorem printed_eq (indentation separator : Text) (calls : List Call) :
    printed indentation separator calls =
      typed indentation separator (calls.foldl Call.levelAfter 0) (tape 0 calls) :=
  run_typed indentation separator 0 [] calls

/-- **What any calls print** is the rows of their tape with the separator between them. The rows
hold what the calls were made with, less its line breaks. And at any point it makes no difference
whether a text is written at once or in two pieces, unless a line break is cut. -/
theorem printed_rows (indentation separator : Text) (calls : List Call) :
    (printed indentation separator calls).output =
      joined separator ((rows (tape 0 calls)).map (shown indentation)) ∧
    (rows (tape 0 calls)).flatten.map (·.unit) =
      (calls.flatMap Call.text).filter (!isBreak ·) ∧
    (printed indentation separator calls).level = calls.foldl Call.levelAfter 0 ∧
    (printed indentation separator calls).atLineStart =
      ((rows (tape 0 calls)).getLastD []).isEmpty ∧
    ∀ x y, ¬ Joins x y →
      ((printed indentation separator calls).write x).write y =
        (printed indentation separator calls).write (x ++ y) := by
  refine ⟨?_, ?_, ?_, ?_, fun x y h => (write_append _ h).symm⟩
  · rw [printed_eq]
    rfl
  · rw [flatten_rows, marks_tape]
  · rw [printed_eq]
    rfl
  · rw [printed_eq]
    rfl

/-- The level goes up and down in the middle of lines, and lines end in all three ways. -/
def unevenCalls : List Call :=
  [.writeLine "if x:", .indent, .write "a\r\r", .indent, .write [], .write "b", .dedent, .dedent,
    .dedent, .write "c\r\nd", .newline, .newline]

theorem printed_rows_uneven :
    (printed "  " "|" unevenCalls).output = ofString "if x:|  a||    bc|d||" ∧
    ¬ Joins "e\r" "\r\nf" ∧
    ((printed "  " "|" unevenCalls).write "e\r").write "\r\nf" =
      (printed "  " "|" unevenCalls).write ("e\r" ++ "\r\nf") := by
  obtain ⟨houtput, _, _, _, hpieces⟩ := printed_rows "  " "|" unevenCalls
  have hcut : ¬ Joins "e\r" "\r\nf" := by
    unfold Joins
    decide
  exact ⟨houtput.trans (by decide), hcut, hpieces _ _ hcut⟩

end Posonly.Printer
