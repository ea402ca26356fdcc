import Posonly.Text.Line

/-!
# Locations

A location gives a range of offsets together with the line and column of its start. Offsets of a
location may lie outside the text, even before its start: such a start is on the first line, that
many columns to the left.
-/

namespace Posonly

structure Location where
  start : Int
  stop : Int
  line : Nat
  /-- The column of the start, from zero. -/
  column : Int
deriving DecidableEq, Repr

def locate (source : Text) (start stop : Int) : Location :=
  let p := source.position start.toNat
  { start, stop, line := p.line, column := if start < 0 then start else p.column }

end Posonly
