import Posonly.Text.Basic

/-!
# String delimiters

Text that is generated inside the replacement fields of a format string must not use the quote
that delimits the string, or an older interpreter would end the literal there. This module reads
the opening delimiter of a literal and chooses a quote that is safe inside some literals.
-/

namespace Posonly

inductive QuoteMark where
  | single
  | double
deriving DecidableEq, Repr, Inhabited

namespace QuoteMark

def unit : QuoteMark → UInt16
  | single => 0x27
  | double => 0x22

def text (q : QuoteMark) : Text := [q.unit]

def other : QuoteMark → QuoteMark
  | single => double
  | double => single

def ofUnit? (u : UInt16) : Option QuoteMark :=
  if u == single.unit then some single else if u == double.unit then some double else none

end QuoteMark

structure Delimiter where
  letters : Text
  quote : QuoteMark
  triple : Bool
  start : Nat
deriving DecidableEq, Repr

namespace Delimiter

def isLetterUnit (u : UInt16) : Bool := (0x41 ≤ u && u ≤ 0x5A) || (0x61 ≤ u && u ≤ 0x7A)

/-- How much of a literal is looked at for its delimiter. -/
def width : Nat := 8

def read? (source : Text) (start : Nat) : Option Delimiter :=
  let head := source.slice start (start + width)
  let letters := head.takeWhile isLetterUnit
  match head.dropWhile isLetterUnit with
  | [] => none
  | u :: rest =>
    (QuoteMark.ofUnit? u).map fun quote =>
      { letters, quote, triple := Text.startsWith rest [u, u], start }

/-- The quote to use inside some literals, or none if each would close one of them. A quote that no
literal uses comes first, then one that only triple quotes use, since a lone quote does not end
those; of two such quotes the preferred one is taken. -/
def chooseQuote (delimiters : List Delimiter) (preferred : QuoteMark) : Option QuoteMark :=
  let used (q : QuoteMark) : Bool := delimiters.any fun d => d.quote == q
  let closes (q : QuoteMark) : Bool := delimiters.any fun d => d.quote == q && !d.triple
  if !used preferred then some preferred
  else if !used preferred.other then some preferred.other
  else if !closes preferred then some preferred
  else if !closes preferred.other then some preferred.other
  else none

/-- Whether a literal ends an enclosing literal when read by an interpreter that looks for the
closing quotes first. -/
def reuses (inner enclosing : Delimiter) : Bool :=
  inner.quote == enclosing.quote && (!enclosing.triple || inner.triple)

end Delimiter

/-- A name between quotes. Names hold neither quotes nor backslashes, so nothing is escaped. -/
def quoteName (name : Text) (q : QuoteMark) : Text := q.text ++ name ++ q.text

end Posonly
