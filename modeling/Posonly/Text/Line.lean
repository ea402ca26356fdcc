import Posonly.Text.Blank

/-!
# Lines

A line break is a line feed, a carriage return, or the two together in this order, which count as
one. The functions here all go by this rule, each from its own side: `lines` cuts a text at its
breaks, `lineStart` and `nextLineStart` walk from an offset, and `position` counts.
-/

namespace Posonly.Text

def isBreak (u : UInt16) : Bool := u == lineFeed || u == carriageReturn

/-- The lines of a text, without their breaks. A text has one more line than it has breaks. -/
def lines : Text → List Text
  | [] => [[]]
  | [u] => if isBreak u then [[], []] else [[u]]
  | u :: v :: rest =>
    if u == carriageReturn && v == lineFeed then [] :: lines rest
    else if isBreak u then [] :: lines (v :: rest)
    else match lines (v :: rest) with
      | [] => [[u]]
      | first :: others => (u :: first) :: others

def firstLine (t : Text) : Text := t.takeWhile fun u => !isBreak u

def lineStart (t : Text) : Nat → Nat
  | 0 => 0
  | offset + 1 => if (t[offset]?).any isBreak then offset + 1 else lineStart t offset

/-- The length of a text up to the end of its first line break. -/
def breakEnd? : Text → Option Nat
  | [] => none
  | u :: rest =>
    if u == lineFeed then some 1
    else if u == carriageReturn then some (if rest.head? == some lineFeed then 2 else 1)
    else (breakEnd? rest).map (· + 1)

/-- The offset just past the line break that ends the line of an offset; none on the last line. -/
def nextLineStart? (t : Text) (offset : Nat) : Option Nat :=
  (breakEnd? (t.drop offset)).map (· + offset)

/-- How many lines of white space alone stand directly above the line that starts at an offset. -/
def blankLinesAbove (t : Text) (offset : Nat) : Nat :=
  ((lines (t.take offset)).dropLast.reverse.takeWhile isAllBlank).length

/-! ## Positions -/

structure Position where
  line : Nat
  /-- The units before it on its line. -/
  column : Nat
deriving DecidableEq, Repr

/-- Whether a line break ends right after a unit that has the given text behind it. -/
def endsLine (u : UInt16) (rest : Text) : Bool :=
  u == lineFeed || (u == carriageReturn && rest.head? != some lineFeed)

/-- The position of an offset. An offset past the end counts on along the last line. -/
def position : Text → Nat → Position
  | _, 0 => ⟨1, 0⟩
  | [], offset + 1 => ⟨1, offset + 1⟩
  | u :: rest, offset + 1 =>
    let p := position rest offset
    if endsLine u rest then ⟨p.line + 1, p.column⟩
    else if p.line == 1 then ⟨1, p.column + 1⟩ else p

end Posonly.Text
