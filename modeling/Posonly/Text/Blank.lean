import Posonly.Text.Basic

/-!
# Blanks and letter case

Two notions of blank are in use. Around option values and on whole lines every white space of the
Unicode standard counts, line breaks and the byte order mark included. Inside a line of source only
spaces and tabs do.
-/

namespace Posonly.Text

def tab : UInt16 := 0x09
def lineFeed : UInt16 := 0x0A
def formFeed : UInt16 := 0x0C
def carriageReturn : UInt16 := 0x0D
def space : UInt16 := 0x20

def isBlank (u : UInt16) : Bool :=
  (0x09 ≤ u && u ≤ 0x0D) || u == 0x20 || u == 0xA0 || u == 0x1680 || (0x2000 ≤ u && u ≤ 0x200A) ||
    u == 0x2028 || u == 0x2029 || u == 0x202F || u == 0x205F || u == 0x3000 || u == 0xFEFF

def isSpaceOrTab (u : UInt16) : Bool := u == space || u == tab

/-- Whether a unit ends a line: a line feed, a carriage return, or one of the two separators that
the Unicode standard adds. -/
def isTerminator (u : UInt16) : Bool :=
  u == lineFeed || u == carriageReturn || u == 0x2028 || u == 0x2029

def isAllBlank (t : Text) : Bool := t.all isBlank

def trimStart (t : Text) : Text := t.dropWhile isBlank

def trimEnd (t : Text) : Text := (t.reverse.dropWhile isBlank).reverse

def trim (t : Text) : Text := t.trimStart.trimEnd

def indentOf (t : Text) : Text := t.takeWhile isSpaceOrTab

/-- The small form of an ASCII capital; other units stay. -/
def lowerUnit (u : UInt16) : UInt16 := if 0x41 ≤ u && u ≤ 0x5A then u + 0x20 else u

/-- A text with its ASCII capitals made small. Words of ASCII letters other than `k` are told apart
by this as by the full case mapping, since no other character alone becomes one of their letters. -/
def lower (t : Text) : Text := t.map lowerUnit

/-- Whether a text is a run of ASCII digits, at least one. -/
def isDigits (t : Text) : Bool := !t.isEmpty && t.all fun u => 0x30 ≤ u && u ≤ 0x39

def digitsValue (t : Text) : Nat := t.foldl (fun n u => 10 * n + (u.toNat - 0x30)) 0

end Posonly.Text
