/-!
# Text

Every offset in this library counts UTF-16 code units, so text is a list of those. A list need not
be well formed: a cut through a surrogate pair leaves text that no string spells, and such text is
carried along unchanged.
-/

namespace Posonly

/-- Text as UTF-16 code units. -/
abbrev Text := List UInt16

namespace Text

/-- What holds of all units of a text is decided along the text, and not by trying every unit. -/
instance (priority := 1100) (t : Text) (p : UInt16 → Prop) [DecidablePred p] :
    Decidable (∀ u ∈ t, p u) :=
  List.decidableBAll p t

def ofChar (c : Char) : Text :=
  let n := c.toNat
  if n < 0x10000 then [n.toUInt16]
  else [(0xD800 + (n - 0x10000) / 0x400).toUInt16, (0xDC00 + (n - 0x10000) % 0x400).toUInt16]

def ofString (s : String) : Text := s.toList.flatMap ofChar

instance : Coe String Text := ⟨ofString⟩

def isHighSurrogate (u : UInt16) : Bool := 0xD800 ≤ u && u ≤ 0xDBFF

def isLowSurrogate (u : UInt16) : Bool := 0xDC00 ≤ u && u ≤ 0xDFFF

def pairCode (high low : UInt16) : Nat :=
  0x10000 + (high.toNat - 0xD800) * 0x400 + (low.toNat - 0xDC00)

/-- The code points of a text; a surrogate without its partner stands for itself. -/
def codePoints : Text → List Nat
  | [] => []
  | [u] => [u.toNat]
  | u :: v :: rest =>
    if isHighSurrogate u && isLowSurrogate v then pairCode u v :: codePoints rest
    else u.toNat :: codePoints (v :: rest)

def isSurrogateCode (n : Nat) : Bool := 0xD800 ≤ n && n ≤ 0xDFFF

/-- The string that a text spells, if every surrogate has its partner. -/
def toString? (t : Text) : Option String :=
  let codes := t.codePoints
  if codes.any isSurrogateCode then none
  else some (String.ofList (codes.map Char.ofNat))

def slice (t : Text) (start stop : Nat) : Text := (t.take stop).drop start

def startsWith (t p : Text) : Bool := p.isPrefixOf t

def endsWith (t s : Text) : Bool := s.isSuffixOf t

def occursIn (p : Text) : Text → Bool
  | [] => p.isEmpty
  | u :: rest => p.isPrefixOf (u :: rest) || occursIn p rest

def ofNat (n : Nat) : Text := ofString (toString n)

def joined (separator : Text) : List Text → Text
  | [] => []
  | [t] => t
  | t :: ts => t ++ separator ++ joined separator ts

/-- The pieces of a text between the places where a unit stands; always at least one. -/
def splitOn (separator : UInt16) : Text → List Text
  | [] => [[]]
  | u :: rest =>
    if u == separator then [] :: splitOn separator rest
    else match splitOn separator rest with
      | [] => [[u]]
      | first :: others => (u :: first) :: others

end Text

end Posonly
