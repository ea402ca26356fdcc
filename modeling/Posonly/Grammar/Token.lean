import Posonly.Syntax.Kind

/-!
# Tokens

The terminals of the grammar. `Token.all` lists them in the order in which the parser considers them
when it looks for a token whose insertion would mend the text: first those that show up as nodes of
the tree, in the order in which the grammar first mentions them, then the others.
-/

namespace Posonly.Grammar

/-- How a string literal opens: which prefix letters and which quotes. -/
structure Opening where
  /-- Replacement fields are recognised. -/
  format : Bool := false
  /-- A backslash stands for itself. -/
  raw : Bool := false
  long : Bool := false
  double : Bool := false
deriving DecidableEq, Repr, Inhabited, Hashable

inductive Token where
  /-- A reserved word, or one that is reserved at the start of certain statements only. -/
  | word (spelling : String)
  | truth
  | symbol (spelling : String)
  | decorator
  | comparison
  | update
  | number
  | identifier
  /-- A name after a dot, where reserved words are names too. -/
  | property
  /-- The word `print` where it opens a statement without brackets. -/
  | print
  | comment
  | space
  | stringStart (opening : Opening)
  | stringContent
  | escape
  | stringEnd
  | replacement
  /-- The conversion of a replacement field, such as `!r`. -/
  | conversion
  /-- Plain text in the format part of a replacement field. -/
  | specText
  | indent
  | dedent
  | newline
  /-- The start of a line that holds nothing but blanks and a comment. -/
  | blankLine
  /-- A line break inside brackets. -/
  | lineJoin
  /-- The end of the text, where a statement may end. -/
  | endOfText
  /-- The lookahead after a complete parse. -/
  | finish
deriving DecidableEq, Repr, Inhabited, Hashable

namespace Token

/-- The sixteen ways to open a string literal. -/
def openings : List Opening :=
  [false, true].flatMap fun format => [false, true].flatMap fun raw =>
    [false, true].flatMap fun long => [false, true].map fun double => { format, raw, long, double }

/-- All tokens, in the order in which insertions are tried. -/
def all : Array Token :=
  (#[print, escape, replacement, comment, symbol "*", symbol "@", symbol "**", word "await",
    symbol ")", symbol "(", word "or", word "and", comparison, word "in", word "not", word "is",
    word "if", word "else", word "lambda", symbol ",", symbol ":", word "yield", word "from",
    word "async", word "for", symbol "]", symbol "[", symbol "\x7d",
    symbol "\x7b", symbol ".", number,
    conversion, symbol "...", word "None", truth, update, word "del", word "pass", word "break",
    word "continue", word "return", word "raise", word "import", word "as", word "global",
    word "nonlocal", word "assert", word "type", symbol ";", word "elif", word "while", word "try",
    word "except", word "finally", word "with", word "def", word "class", decorator, word "match",
    word "case", finish, indent, dedent, newline, blankLine, lineJoin, endOfText, stringContent,
    stringEnd, space, symbol "|", symbol "^", symbol "&", symbol "<<", symbol ">>", symbol "+",
    symbol "-", symbol "/", symbol "%", symbol "//", symbol "~", identifier, symbol "=",
    symbol ":=", property] : Array Token)
  ++ (openings.map stringStart).toArray ++ #[specText, symbol "->"]

def code (t : Token) : Nat := all.idxOf t

/-- The kind of the leaf that a token makes, if it makes one. -/
def kind? : Token → Option Kind
  | word "except" => some .exceptKeyword
  | word spelling => some (.other spelling)
  | truth => some (.other "Boolean")
  | symbol "..." => some (.other "Ellipsis")
  | symbol spelling =>
    if ["(", ")", "[", "]", "\x7b", "\x7d", ".", ",", ";", ":", "@", "*",
        "**"].contains spelling then
      some (.other spelling)
    else none
  | decorator => some (.other "At")
  | comparison => some (.other "CompareOp")
  | update => some (.other "UpdateOp")
  | number => some (.other "Number")
  | print => some (.other "print")
  | comment => some .comment
  | escape => some (.other "Escape")
  | replacement => some (.other "\x7b")
  | conversion => some (.other "FormatConversion")
  | _ => none

/-- Words that are names everywhere else and reserved only where a statement of theirs can start. -/
def isSoft (spelling : String) : Bool := ["match", "case", "type"].contains spelling

end Token

end Posonly.Grammar
