import Posonly.Text.Basic

/-!
# Encodings

Text is stored as bytes in one of a few encodings, some of which go by several names. Decoding
never fails: bytes that are not valid stand for replacement characters. Encoding never fails either:
what an encoding cannot express is cut down to what it can.
-/

namespace Posonly

abbrev Bytes := List UInt8

inductive Encoding where
  | ascii
  | utf8
  | utf8Dashed
  | utf16le
  | ucs2
  | ucs2Dashed
  | latin1
  | binary
deriving DecidableEq, Repr, Inhabited

inductive Encoding.Scheme where
  /-- One unit a byte; the high bit is lost in decoding. -/
  | sevenBit
  /-- One unit a byte. -/
  | eightBit
  /-- One code point in one to four bytes. -/
  | utf8
  /-- One unit in two bytes, the low one first. -/
  | utf16
deriving DecidableEq, Repr, Inhabited

namespace Encoding

def text : Encoding → Text
  | ascii => "ascii"
  | utf8 => "utf8"
  | utf8Dashed => "utf-8"
  | utf16le => "utf16le"
  | ucs2 => "ucs2"
  | ucs2Dashed => "ucs-2"
  | latin1 => "latin1"
  | binary => "binary"

def ofText? (t : Text) : Option Encoding :=
  [ascii, utf8, utf8Dashed, utf16le, ucs2, ucs2Dashed, latin1, binary].find? fun e => e.text == t

def scheme : Encoding → Scheme
  | ascii => .sevenBit
  | utf8 | utf8Dashed => .utf8
  | utf16le | ucs2 | ucs2Dashed => .utf16
  | latin1 | binary => .eightBit

/-! ## UTF-8 -/

/-- What stands in for bytes that are not valid, and for a surrogate without its partner. -/
def replacement : Nat := 0xFFFD

def encodeCode (n : Nat) : Bytes :=
  let n := if Text.isSurrogateCode n then replacement else n
  let tail (k : Nat) : UInt8 := (0x80 + k % 0x40).toUInt8
  if n < 0x80 then [n.toUInt8]
  else if n < 0x800 then [(0xC0 + n / 0x40).toUInt8, tail n]
  else if n < 0x10000 then [(0xE0 + n / 0x1000).toUInt8, tail (n / 0x40), tail n]
  else [(0xF0 + n / 0x40000).toUInt8, tail (n / 0x1000), tail (n / 0x40), tail n]

def unitsOfCode (n : Nat) : Text :=
  if n < 0x10000 then [n.toUInt16]
  else [(0xD800 + (n - 0x10000) / 0x400).toUInt16, (0xDC00 + (n - 0x10000) % 0x400).toUInt16]

/-- What is known of a code point after its first bytes. -/
structure Partial where
  code : Nat
  /-- How many bytes are still to come, at least one. -/
  missing : Nat
  low : UInt8
  high : UInt8

/-- How a code point starts with a byte: it is complete, it goes on, or it cannot start so. -/
def startCode (b : UInt8) : Option (Nat ⊕ Partial) :=
  let n := b.toNat
  if n < 0x80 then some (.inl n)
  else if n < 0xC2 then none
  else if n < 0xE0 then some (.inr ⟨n - 0xC0, 1, 0x80, 0xBF⟩)
  else if n < 0xF0 then
    let low := if n = 0xE0 then 0xA0 else 0x80
    let high := if n = 0xED then 0x9F else 0xBF
    some (.inr ⟨n - 0xE0, 2, low, high⟩)
  else if n < 0xF5 then
    let low := if n = 0xF0 then 0x90 else 0x80
    let high := if n = 0xF4 then 0x8F else 0xBF
    some (.inr ⟨n - 0xF0, 3, low, high⟩)
  else none

/-- Takes in a byte between two code points: the units it completes, and what has been started. -/
def stepFresh (b : UInt8) : Text × Option Partial :=
  match startCode b with
  | none => (unitsOfCode replacement, none)
  | some (.inl code) => (unitsOfCode code, none)
  | some (.inr p) => ([], some p)

/-- Takes in a byte. Bytes that start a code point as far as they go and are then broken off stand
for one replacement character together. -/
def step : Option Partial → UInt8 → Text × Option Partial
  | none, b => stepFresh b
  | some p, b =>
    if p.low ≤ b && b ≤ p.high then
      let code := 0x40 * p.code + (b.toNat - 0x80)
      if p.missing ≤ 1 then (unitsOfCode code, none)
      else ([], some ⟨code, p.missing - 1, 0x80, 0xBF⟩)
    else
      let (units, started) := stepFresh b
      (unitsOfCode replacement ++ units, started)

/-- Decodes bytes, in the middle of a code point or between two. -/
def decodeUtf8 : Option Partial → Bytes → Text
  | none, [] => []
  | some _, [] => unitsOfCode replacement
  | s, b :: rest =>
    let (units, started) := step s b
    units ++ decodeUtf8 started rest

/-! ## All schemes -/

/-- Pairs of bytes as units, the low byte first; an odd byte at the end is dropped. -/
def decodeUtf16 : Bytes → Text
  | low :: high :: rest => (0x100 * high.toNat + low.toNat).toUInt16 :: decodeUtf16 rest
  | _ => []

def decode (e : Encoding) (bytes : Bytes) : Text :=
  match e.scheme with
  | .sevenBit => bytes.map fun b => (b.toNat % 0x80).toUInt16
  | .eightBit => bytes.map fun b => b.toUInt16
  | .utf8 => decodeUtf8 none bytes
  | .utf16 => decodeUtf16 bytes

def encode (e : Encoding) (t : Text) : Bytes :=
  match e.scheme with
  | .sevenBit | .eightBit => t.map fun u => u.toUInt8
  | .utf8 => t.codePoints.flatMap encodeCode
  | .utf16 => t.flatMap fun (u : UInt16) => [u.toUInt8, (u >>> 8).toUInt8]

end Encoding

end Posonly
