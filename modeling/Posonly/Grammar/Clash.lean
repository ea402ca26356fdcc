import Posonly.Grammar.Token

/-!
# Tokens that cannot be read side by side

Most tokens are read by taking the longest match among all that are spelled out in the text. Two
tokens clash when the longest match would hide one of them where only the other makes sense. A
parser state reads with a set of tokens in which no two clash.
-/

namespace Posonly.Grammar.Token

/-- Whether a token is read by matching its spelling, and under which token: a reserved word is
read as an identifier first. -/
def lexical? : Token → Option Token
  | word _ | truth | identifier => some identifier
  | print | indent | dedent | newline | blankLine | lineJoin | endOfText | stringContent | escape
  | replacement | stringEnd => none
  | t => some t

/-- Half of the clash relation, the token with the wider spelling first. -/
def hides : Token → Token → Bool
  | specText, t => t != specText && t != symbol "\x7b" && t != symbol "\x7d" && t != finish
  | property, identifier => true
  | property, stringStart _ => true
  | number, t => t == symbol "."
  | symbol "->", t => t == symbol "-"
  | decorator, t => t == symbol "@" || t == update
  | _, _ => false

def clashes (a b : Token) : Bool := hides a b || hides b a

end Posonly.Grammar.Token
