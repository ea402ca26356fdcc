import Posonly.Grammar.Token
import Posonly.Text.Basic

/-!
# Layout

Line breaks, indentation and the inside of string literals are read according to what surrounds
them. A `Layout` keeps track of that: how deep the open blocks are indented, whether brackets are
open, and in which string literal the text stands.
-/

namespace Posonly.Lexer

open Posonly.Grammar

/-- What a stretch of text stands in. -/
structure Surrounding where
  indent : Nat := 0
  /-- Brackets are open, so line breaks do not count. -/
  bracketed : Bool := false
  opening : Option Opening := none
deriving DecidableEq, Repr, Inhabited

/-- What text stands in, innermost first, each with a fingerprint of itself and all around it. -/
abbrev Layout := List (Surrounding × Int)

namespace Layout

/-- The number that a surrounding adds to the fingerprint of those inside it. -/
def flags (s : Surrounding) : Nat :=
  (if s.bracketed then 1 else 0) + match s.opening with
    | none => 0
    | some o => 2 + (if o.double then 4 else 0) + (if o.long then 8 else 0) +
        (if o.raw then 16 else 0) + (if o.format then 32 else 0)

/-- The fingerprint of a layout, a signed 32-bit number. -/
def fingerprint : Layout → Int
  | [] => 0
  | (_, n) :: _ => n

def push (l : Layout) (s : Surrounding) : Layout :=
  let outer : Int := (512 * l.fingerprint).bmod 0x100000000
  (s, outer + 17 * s.indent + 65 * flags s) :: l

def outermost : Layout := [({}, 0)]

def top : Layout → Surrounding
  | [] => {}
  | (s, _) :: _ => s

def pop : Layout → Layout
  | [] => []
  | _ :: outer => outer

def isPlain (l : Layout) : Bool := !l.top.bracketed && l.top.opening.isNone

end Layout

/-- The width of leading blanks, with tab stops every eight columns. -/
def indentWidth (blanks : Text) : Nat :=
  blanks.foldl (fun width u => if u == 9 then width + (8 - width % 8) else width + 1) 0

/-- What has been read: a token with where it ends, if any, and the first offset not looked at. -/
structure Reading where
  token : Option (Token × Nat) := none
  seen : Nat
deriving Inhabited

def isLineBreak (u : UInt16) : Bool := u == 10 || u == 13

def isIndent (u : UInt16) : Bool := u == 32 || u == 9

/-- The first offset from `i` on whose unit fails the test, or the end. -/
def skipWhile (text : Array UInt16) (test : UInt16 → Bool) (i : Nat) : Nat :=
  if h : i < text.size then
    if test text[i] then skipWhile text test (i + 1) else i
  else i
termination_by text.size - i

/-- The offset after the furthest one looked at, which is never past the end. -/
def seenUpTo (text : Array UInt16) (start furthest : Nat) : Nat :=
  max (start + 1) (min (furthest + 1) text.size)

def atLineStart (text : Array UInt16) (i : Nat) : Bool :=
  i == 0 || (text[i - 1]?.map isLineBreak).getD false

/-- Reads the old print statement's word: not a longer word, and not before a bracket, a dot, the
end of the line or a comment. -/
def readPrint (text : Array UInt16) (i : Nat) : Reading :=
  let word : Text := "print"
  let isWord (u : UInt16) : Bool :=
    (48 ≤ u && u ≤ 57) || (65 ≤ u && u ≤ 90) || (97 ≤ u && u ≤ 122) || u == 95
  if (text.extract i (i + 5)).toList != word then { seen := i + 1 }
  else if (text[i + 5]?.map isWord).getD false then { seen := seenUpTo text i (i + 5) }
  else
    let next := skipWhile text isIndent (i + 5)
    let closes := (text[next]?.map fun u => [40, 46, 10, 13, 35].contains u).getD false
    { token := if closes then none else some (.print, i + 5), seen := seenUpTo text i next }

def readIndentation (text : Array UInt16) (layout : Layout) (i : Nat) : Reading :=
  if !layout.isPlain || i == 0 || !atLineStart text i then { seen := i + 1 }
  else
    let stop := skipWhile text isIndent i
    let width := indentWidth (text.extract i stop).toList
    let blank := (text[stop]?.map fun u => isLineBreak u || u == 35).getD false
    let token :=
      if width == layout.top.indent || blank then none
      else if width < layout.top.indent then some (Token.dedent, i)
      else some (Token.indent, stop)
    { token, seen := seenUpTo text i stop }

/-- Reads a line break, a blank line or the end of the text. A blank line counts only where
`blankAllowed`. -/
def readNewline (text : Array UInt16) (layout : Layout) (blankAllowed : Unit → Bool) (i : Nat) :
    Reading :=
  match text[i]? with
  | none => { token := some (.endOfText, i), seen := i + 1 }
  | some u =>
    if layout.top.bracketed then
      { token := if isLineBreak u then some (.lineJoin, i + 1) else none, seen := i + 1 }
    else if atLineStart text i && blankAllowed () then
      let stop := skipWhile text isIndent i
      let blank := (text[stop]?.map fun u => isLineBreak u || u == 35).getD false
      { token := if blank then some (.blankLine, i) else none, seen := seenUpTo text i stop }
    else { token := if isLineBreak u then some (.newline, i + 1) else none, seen := i + 1 }

/-- The end of an escape whose letter stands before `i`. -/
def escapeEnd (text : Array UInt16) (letter : UInt16) (i : Nat) : Nat :=
  let isHex (u : UInt16) : Bool :=
    (48 ≤ u && u ≤ 57) || (65 ≤ u && u ≤ 70) || (97 ≤ u && u ≤ 102)
  let upTo (n : Nat) (test : UInt16 → Bool) : Nat := min (i + n) (skipWhile text test i)
  if letter == 111 then upTo 2 fun u => 48 ≤ u && u ≤ 55
  else if letter == 120 then upTo 2 isHex
  else if letter == 117 then upTo 4 isHex
  else if letter == 85 then upTo 8 isHex
  else if letter == 78 && text[i]? == some 123 then
    let stop := skipWhile text (fun u => u != 125 && u != 39 && u != 34 && u != 10) (i + 1)
    if text[stop]? == some 125 then stop + 1 else stop
  else i

/-- The end of plain text in a string literal. A line break ends it, after which it may go on in a
literal with three quotes. -/
def contentEnd (text : Array UInt16) (o : Opening) (i : Nat) : Nat :=
  if h : i < text.size then
    let u := text[i]
    let quote : UInt16 := if o.double then 34 else 39
    let closes := u == quote &&
      (!o.long || (text[i + 1]? == some quote && text[i + 2]? == some quote))
    if o.format && u == 123 then
      if text[i + 1]? == some 123 then contentEnd text o (i + 2) else i
    else if !o.raw && u == 92 then i
    else if o.raw && u == 92 && i + 1 < text.size then contentEnd text o (i + 2)
    else if closes then i
    else if u == 10 then if o.long then i + 1 else i
    else contentEnd text o (i + 1)
  else text.size
termination_by text.size - i

/-- Reads on in a string literal. Outside of one, text is read as between single quotes. -/
def readString (text : Array UInt16) (layout : Layout) (i : Nat) : Reading :=
  let o := layout.top.opening.getD {}
  let quote : UInt16 := if o.double then 34 else 39
  let reading (token : Token) (stop : Nat) : Reading :=
    { token := some (token, stop), seen := seenUpTo text i (stop + 2) }
  match text[i]? with
  | none => { seen := i + 1 }
  | some u =>
    if o.format && u == 123 && text[i + 1]? != some 123 then reading .replacement (i + 1)
    else if !o.raw && u == 92 then
      match text[i + 1]? with
      | none => reading .escape text.size
      | some letter => reading .escape (escapeEnd text letter (i + 2))
    else if u == quote &&
      (!o.long || (text[i + 1]? == some quote && text[i + 2]? == some quote)) then
      reading .stringEnd (if o.long then i + 3 else i + 1)
    else if u == 10 && !o.long then reading .stringEnd i
    else reading .stringContent (contentEnd text o i)

end Posonly.Lexer
