import Posonly.Text.Basic

/-!
# Quoted text

Messages and manifests show text between double quotes, in the notation of JSON: quotes, backslashes
and control characters are escaped, and so is a surrogate without its partner.
-/

namespace Posonly.Text

def hexDigit (n : Nat) : UInt16 := (if n < 10 then 0x30 + n else 0x57 + n).toUInt16

def escapeHex (u : UInt16) : Text :=
  let n := u.toNat
  [0x5C, 0x75, hexDigit (n / 0x1000), hexDigit (n / 0x100 % 0x10), hexDigit (n / 0x10 % 0x10),
    hexDigit (n % 0x10)]

def quoteUnit (u : UInt16) : Text :=
  if u == 0x22 || u == 0x5C then [0x5C, u]
  else if u == 0x08 then [0x5C, 0x62]
  else if u == 0x09 then [0x5C, 0x74]
  else if u == 0x0A then [0x5C, 0x6E]
  else if u == 0x0C then [0x5C, 0x66]
  else if u == 0x0D then [0x5C, 0x72]
  else if u < 0x20 then escapeHex u
  else [u]

def escaped : Text → Text
  | [] => []
  | [u] => if isHighSurrogate u || isLowSurrogate u then escapeHex u else quoteUnit u
  | u :: v :: rest =>
    if isHighSurrogate u && isLowSurrogate v then u :: v :: escaped rest
    else (if isHighSurrogate u || isLowSurrogate u then escapeHex u else quoteUnit u) ++
      escaped (v :: rest)

def quoted (t : Text) : Text := 0x22 :: (t.escaped ++ [0x22])

end Posonly.Text
