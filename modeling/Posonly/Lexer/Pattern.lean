import Posonly.Text.Basic

/-!
# Patterns

Regular expressions over code units, matched by taking derivatives: the derivative of a pattern by a
unit matches what may follow that unit.
-/

namespace Posonly.Lexer

inductive Pattern where
  | never
  | empty
  /-- Matches one unit that lies in one of the ranges, both ends included. -/
  | one (ranges : List (UInt16 × UInt16))
  | seq (p q : Pattern)
  | alt (p q : Pattern)
  | many (p : Pattern)
deriving Repr, Inhabited

namespace Pattern

def andThen : Pattern → Pattern → Pattern
  | never, _ => never
  | empty, q => q
  | p, q => seq p q

def orElse : Pattern → Pattern → Pattern
  | never, q => q
  | p, never => p
  | p, q => alt p q

def nullable : Pattern → Bool
  | never => false
  | empty => true
  | one _ => false
  | seq p q => p.nullable && q.nullable
  | alt p q => p.nullable || q.nullable
  | many _ => true

def derivative (u : UInt16) : Pattern → Pattern
  | never => never
  | empty => never
  | one ranges => if ranges.any fun (lo, hi) => lo ≤ u && u ≤ hi then empty else never
  | seq p q =>
    let after := (p.derivative u).andThen q
    if p.nullable then after.orElse (q.derivative u) else after
  | alt p q => (p.derivative u).orElse (q.derivative u)
  | many p => (p.derivative u).andThen (many p)

def isNever : Pattern → Bool
  | never => true
  | _ => false

/-! ## Building patterns -/

/-- Any of the characters of a string, all below U+10000. -/
def anyOf (chars : String) : Pattern :=
  one (chars.toList.map fun c => (c.toNat.toUInt16, c.toNat.toUInt16))

def range (lo hi : Char) : Pattern := one [(lo.toNat.toUInt16, hi.toNat.toUInt16)]

def lit (s : String) : Pattern :=
  (Text.ofString s).foldr (fun u p => (one [(u, u)]).andThen p) empty

def all (ps : List Pattern) : Pattern := ps.foldr andThen empty

def any (ps : List Pattern) : Pattern := ps.foldr orElse never

def opt (p : Pattern) : Pattern := p.orElse empty

def some (p : Pattern) : Pattern := seq p (many p)

def pair : Pattern := seq (one [(0xD800, 0xDBFF)]) (one [(0xDC00, 0xDFFF)])

/-- A character other than the given ones, which are in increasing order. -/
def noneOf (chars : List Char) : Pattern :=
  let gaps := chars.foldl (fun (ranges, from') c =>
    let u := c.toNat.toUInt16
    (if from' < u then ranges ++ [(from', u - 1)] else ranges, u + 1)) ([], 0)
  (one (gaps.1 ++ [(gaps.2, 0xD7FF), (0xE000, 0xFFFF)])).orElse pair

end Pattern

/-- The longest match of any of some patterns at an offset, with what it was tagged with. -/
def longestMatch {α : Type} (text : Array UInt16) (alive : List (α × Pattern)) (offset : Nat)
    (best : Option (α × Nat)) : Option (α × Nat) :=
  if h : offset < text.size then
    let next := alive.filterMap fun (tag, p) =>
      let q := p.derivative text[offset]
      if q.isNever then none else some (tag, q)
    if next.isEmpty then best
    else
      let best := match next.find? (·.2.nullable) with
        | some (tag, _) => some (tag, offset + 1)
        | none => best
      longestMatch text next (offset + 1) best
  else best
termination_by text.size - offset

end Posonly.Lexer
