import Posonly.Text.Quoted

/-!
# JSON

The lines of a manifest are JSON texts. A value keeps the fields of an object in order and a number
as it is written. Strings are texts, so an escape may stand for a surrogate without its partner.
-/

namespace Posonly

inductive Json where
  | null
  | bool (b : Bool)
  | number (literal : Text)
  | string (t : Text)
  | array (items : List Json)
  | object (fields : List (Text × Json))
deriving Repr, Inhabited

namespace Json

/-! ## Leaves -/

def isSpace (u : UInt16) : Bool := u == 0x20 || u == 0x09 || u == 0x0A || u == 0x0D

def skipSpace (t : Text) : Text := t.dropWhile isSpace

def isDigit (u : UInt16) : Bool := 0x30 ≤ u && u ≤ 0x39

def hexValue? (u : UInt16) : Option Nat :=
  if isDigit u then some (u.toNat - 0x30)
  else if 0x41 ≤ u && u ≤ 0x46 then some (u.toNat - 0x37)
  else if 0x61 ≤ u && u ≤ 0x66 then some (u.toNat - 0x57)
  else none

def hexUnit? (a b c d : UInt16) : Option UInt16 := do
  let a ← hexValue? a
  let b ← hexValue? b
  let c ← hexValue? c
  let d ← hexValue? d
  return (0x1000 * a + 0x100 * b + 0x10 * c + d).toUInt16

/-- The unit that a letter stands for behind a backslash. -/
def escapeUnit? (u : UInt16) : Option UInt16 :=
  if u == 0x22 || u == 0x5C || u == 0x2F then some u
  else if u == 0x62 then some 0x08
  else if u == 0x66 then some 0x0C
  else if u == 0x6E then some 0x0A
  else if u == 0x72 then some 0x0D
  else if u == 0x74 then some 0x09
  else none

/-- Reads a string behind its opening quote, up to the closing one and past it. -/
def readString? : Text → Option (Text × Text)
  | [] => none
  | u :: rest =>
    if u == 0x22 then some ([], rest)
    else if u == 0x5C then
      match rest with
      | [] => none
      | e :: rest =>
        if e == 0x75 then
          match rest with
          | a :: b :: c :: d :: rest => do
            let v ← hexUnit? a b c d
            let (s, rest) ← readString? rest
            return (v :: s, rest)
          | _ => none
        else do
          let v ← escapeUnit? e
          let (s, rest) ← readString? rest
          return (v :: s, rest)
    else if u < 0x20 then none
    else do
      let (s, rest) ← readString? rest
      return (u :: s, rest)

def readDigits? (t : Text) : Option (Text × Text) :=
  let digits := t.takeWhile isDigit
  if digits.isEmpty then none else some (digits, t.dropWhile isDigit)

/-- Reads the whole part of a number, which has no needless zero ahead. -/
def readWhole? (t : Text) : Option (Text × Text) :=
  match t with
  | 0x30 :: rest => some ([0x30], rest)
  | _ => readDigits? t

def readFraction? (t : Text) : Option (Text × Text) :=
  match t with
  | [] => some ([], t)
  | u :: rest =>
    if u == 0x2E then (readDigits? rest).map fun (digits, rest) => (u :: digits, rest)
    else some ([], t)

def readExponent? (t : Text) : Option (Text × Text) :=
  match t with
  | [] => some ([], t)
  | u :: rest =>
    if u == 0x65 || u == 0x45 then
      let sign := rest.takeWhile (fun v => v == 0x2B || v == 0x2D) |>.take 1
      (readDigits? (rest.drop sign.length)).map fun (digits, rest) => (u :: (sign ++ digits), rest)
    else some ([], t)

def readNumber? (t : Text) : Option (Text × Text) := do
  let sign := if t.head? == some 0x2D then t.take 1 else []
  let (whole, rest) ← readWhole? (t.drop sign.length)
  let (fraction, rest) ← readFraction? rest
  let (exponent, rest) ← readExponent? rest
  return (sign ++ whole ++ fraction ++ exponent, rest)

def readWord? (t : Text) : Option (Json × Text) :=
  if Text.startsWith t "null" then some (null, t.drop 4)
  else if Text.startsWith t "true" then some (bool true, t.drop 4)
  else if Text.startsWith t "false" then some (bool false, t.drop 5)
  else none

/-! ## Values -/

mutual

/-- Reads a value at the start of a text. Each call gets past a unit, so the length of the text is
fuel enough. -/
def readValue? : Nat → Text → Option (Json × Text)
  | 0, _ => none
  | fuel + 1, t =>
    match skipSpace t with
    | [] => none
    | u :: rest =>
      if u == 0x22 then (readString? rest).map fun (s, rest) => (string s, rest)
      else if u == 0x5B then
        match skipSpace rest with
        | 0x5D :: rest => some (array [], rest)
        | rest => (readItems? fuel rest).map fun (items, rest) => (array items, rest)
      else if u == 0x7B then
        match skipSpace rest with
        | 0x7D :: rest => some (object [], rest)
        | rest => (readFields? fuel rest).map fun (fields, rest) => (object fields, rest)
      else if u == 0x2D || isDigit u then
        (readNumber? (u :: rest)).map fun (n, rest) => (number n, rest)
      else readWord? (u :: rest)

def readItems? : Nat → Text → Option (List Json × Text)
  | 0, _ => none
  | fuel + 1, t => do
    let (item, rest) ← readValue? fuel t
    match skipSpace rest with
    | 0x2C :: rest =>
      let (items, rest) ← readItems? fuel rest
      return (item :: items, rest)
    | 0x5D :: rest => return ([item], rest)
    | _ => none

def readFields? : Nat → Text → Option (List (Text × Json) × Text)
  | 0, _ => none
  | fuel + 1, t =>
    match skipSpace t with
    | 0x22 :: rest => do
      let (key, rest) ← readString? rest
      match skipSpace rest with
      | 0x3A :: rest =>
        let (value, rest) ← readValue? fuel rest
        match skipSpace rest with
        | 0x2C :: rest =>
          let (fields, rest) ← readFields? fuel rest
          return ((key, value) :: fields, rest)
        | 0x7D :: rest => return ([(key, value)], rest)
        | _ => none
      | _ => none
    | _ => none

end

def parse? (t : Text) : Option Json := do
  let (value, rest) ← readValue? (2 * t.length + 2) t
  if (skipSpace rest).isEmpty then some value else none

/-- The field of an object with a name; of several the last counts. -/
def field? (j : Json) (name : Text) : Option Json :=
  match j with
  | object fields => (fields.reverse.find? fun f => f.1 == name).map (·.2)
  | _ => none

def string? : Json → Option Text
  | string t => some t
  | _ => none

/-! ## Writing -/

mutual

/-- A value as text, without blanks. -/
def write : Json → Text
  | null => "null"
  | bool true => "true"
  | bool false => "false"
  | number literal => literal
  | string t => t.quoted
  | array items => "[" ++ writeItems items ++ "]"
  | object fields => "\x7b" ++ writeFields fields ++ "\x7d"

def writeItems : List Json → Text
  | [] => []
  | [item] => write item
  | item :: items => write item ++ "," ++ writeItems items

def writeFields : List (Text × Json) → Text
  | [] => []
  | [(key, value)] => key.quoted ++ ":" ++ write value
  | (key, value) :: fields => key.quoted ++ ":" ++ write value ++ "," ++ writeFields fields

end

end Json

end Posonly
