import Posonly.Grammar.Token
import Posonly.Lexer.Pattern

/-!
# How tokens are spelled

The patterns of the tokens that are read by their spelling, and the words that are read as
identifiers first.
-/

namespace Posonly.Lexer

open Posonly.Grammar Pattern

def digits : Pattern := seq (range '0' '9') (many (alt (range '0' '9') (lit "_")))

def identifierStart : Pattern :=
  alt (one [(65, 90), (95, 95), (97, 122), (0xA1, 0xD7FF), (0xE000, 0xFFFF)]) pair

def identifier : Pattern := seq identifierStart (many (alt (range '0' '9') identifierStart))

def number : Pattern :=
  any
    [ all [any [all [digits, opt (all [lit ".", digits])], all [lit ".", digits]],
        opt (all [anyOf "eE", opt (anyOf "+-"), digits]), opt (anyOf "jJ")],
      all [lit "0", anyOf "bB", some (anyOf "_01")],
      all [lit "0", anyOf "oO", some (anyOf "_01234567")],
      all [lit "0", anyOf "xX", some (anyOf "_0123456789abcdefABCDEF")]]

def comparison : Pattern :=
  any [lit "<", lit ">", all [anyOf "<>=!", lit "="], lit "<>"]

def update : Pattern :=
  all [any [anyOf "+-@%&|^", lit "<<", lit ">>", all [lit "*", opt (lit "*")],
    all [lit "/", opt (lit "/")]], lit "="]

def stringLetters (o : Opening) : Pattern :=
  match o.format, o.raw with
  | false, false => opt (anyOf "uUbB")
  | false, true => any [all [anyOf "rR", opt (anyOf "bB")], all [anyOf "bB", anyOf "rR"]]
  | true, false => anyOf "fF"
  | true, true => any [all [anyOf "rR", anyOf "fF"], all [anyOf "fF", anyOf "rR"]]

def openingQuotes (o : Opening) : String :=
  let quote := if o.double then "\"" else "'"
  if o.long then quote ++ quote ++ quote else quote

def spelling : Token → Pattern
  | .symbol s => lit s
  | .decorator => lit "@"
  | .comparison => comparison
  | .update => update
  | .number => number
  | .identifier | .property => identifier
  | .comment => all [lit "#", many (noneOf ['\n', '\r'])]
  | .space => some (alt (anyOf " \t\x0c") (all [lit "\\", anyOf "\n\r"]))
  | .stringStart o => all [stringLetters o, lit (openingQuotes o)]
  | .conversion => all [lit "!", anyOf "sra"]
  | .specText => some (noneOf ['\x7b', '\x7d'])
  | _ => never

def words : List (Text × Token) :=
  let truths := ["True", "False"].map fun s => (Text.ofString s, Token.truth)
  Token.all.toList.filterMap (fun
    | .word s => Option.some (Text.ofString s, Token.word s)
    | _ => none) ++ truths

/-- The token that a word stands for, and whether it may still be read as an identifier. -/
def reserved? (word : Text) : Option (Token × Bool) :=
  (words.find? (·.1 == word)).map fun (_, t) =>
    (t, match t with
      | .word s => Token.isSoft s
      | _ => false)

end Posonly.Lexer
