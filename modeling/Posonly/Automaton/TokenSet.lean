import Posonly.Grammar.Token

/-!
# Sets of tokens

Tokens are numbered by their place in `Token.all`; there are fewer than 128 of them, so two machine
words hold a set.
-/

namespace Posonly.Automaton

open Posonly.Grammar (Token)

/-- A set of token numbers below 128. -/
structure TokenSet where
  low : UInt64 := 0
  high : UInt64 := 0
deriving BEq, Hashable, Inhabited, Repr

namespace TokenSet

def insert (s : TokenSet) (t : Nat) : TokenSet :=
  if t < 64 then { s with low := s.low ||| (1 <<< t.toUInt64) }
  else { s with high := s.high ||| (1 <<< (t - 64).toUInt64) }

def contains (s : TokenSet) (t : Nat) : Bool :=
  if t < 64 then s.low &&& (1 <<< t.toUInt64) != 0
  else s.high &&& (1 <<< (t - 64).toUInt64) != 0

def union (s u : TokenSet) : TokenSet := ⟨s.low ||| u.low, s.high ||| u.high⟩

def inter (s u : TokenSet) : TokenSet := ⟨s.low &&& u.low, s.high &&& u.high⟩

def isEmpty (s : TokenSet) : Bool := s.low == 0 && s.high == 0

def ofList (ts : List Nat) : TokenSet := ts.foldl insert {}

/-- The members, in increasing order. -/
def toList (s : TokenSet) : List Nat := (List.range Token.all.size).filter s.contains

end TokenSet

end Posonly.Automaton
