import Posonly.Syntax.Tree
import Posonly.Text.Blank
import Posonly.Text.Letter

/-!
# Tokens of a parameter list

A parameter list is read as a flat sequence of tokens: its child nodes, and whatever stands in the
gaps between them. It does not matter which punctuation the grammar keeps as nodes, and a marker
that the parser could only skip as an error counts like any other.
-/

namespace Posonly.Signature

inductive TokenKind where
  | name
  | punctuation
  /-- Anything that is neither a name nor punctuation, such as a default value. -/
  | node
  | comment
deriving DecidableEq, Repr, Inhabited

structure Token where
  kind : TokenKind
  text : Text
  start : Nat
  stop : Nat
deriving DecidableEq, Repr, Inhabited

def punctuation : List Text := ["(", ")", ",", "/", "*", "**", ":", "="]

def isPunctuation (t : Text) : Bool := punctuation.contains t

def Token.isPunct (t : Token) (text : Text) : Bool := t.kind == .punctuation && t.text == text

def Token.range (t : Token) : Range := ⟨t.start, t.stop⟩

def Token.isComment (t : Token) : Bool := t.kind == .comment

/-! ## Child nodes -/

/-- The token of a child node. An error node gives the punctuation in it, or nothing if it is
blank. -/
def classify (source : Text) (node : Tree) : Option Token :=
  let text := source.slice node.start node.stop
  if node.kind = .comment then some ⟨.comment, text, node.start, node.stop⟩
  else if node.kind = .error then
    let trimmed := text.trim
    if trimmed.isEmpty then none
    else if isPunctuation trimmed then
      let start := node.start + (text.takeWhile Text.isBlank).length
      some ⟨.punctuation, trimmed, start, start + trimmed.length⟩
    else some ⟨.node, text, node.start, node.stop⟩
  else if node.kind = .variableName then some ⟨.name, text, node.start, node.stop⟩
  else if isPunctuation text then some ⟨.punctuation, text, node.start, node.stop⟩
  else some ⟨.node, text, node.start, node.stop⟩

/-! ## Gaps -/

/-- Whether a unit only separates the tokens of a gap: a blank of a source line, a line break, or
the backslash that joins two lines. -/
def isGapBlank (u : UInt16) : Bool :=
  u == Text.space || u == Text.tab || u == Text.lineFeed || u == Text.carriageReturn ||
    u == Text.formFeed || u == 0x5C

/-- The identifier at an offset. An offset between the halves of a surrogate pair stands for the
pair, so the identifier then starts one unit earlier. -/
def identifierAt (source : Text) (offset : Nat) : Text :=
  let between := 0 < offset && (source[offset]?).any Text.isLowSurrogate &&
    (source[offset - 1]?).any Text.isHighSurrogate
  let rest := source.drop (if between then offset - 1 else offset)
  rest.take (Text.identifierLength rest)

/-- The token at an offset of a gap that ends at `stop`, or none at a separating unit. What is no
token by itself is taken unit by unit. -/
def lexeme (source : Text) (start stop : Nat) : Option Token :=
  match source.drop start with
  | [] => none
  | u :: rest =>
    if isGapBlank u then none
    else if u == 0x23 then
      let text := (source.slice start stop).takeWhile fun v =>
        v != Text.lineFeed && v != Text.carriageReturn
      some ⟨.comment, text, start, start + text.length⟩
    else if u == 0x2A && rest.head? == some 0x2A && start + 1 < stop then
      some ⟨.punctuation, "**", start, start + 2⟩
    else if isPunctuation [u] then some ⟨.punctuation, [u], start, start + 1⟩
    else
      let name := identifierAt source start
      if !name.isEmpty && start + name.length ≤ stop then
        some ⟨.name, name, start, start + name.length⟩
      else some ⟨.node, [u], start, start + 1⟩

/-- The tokens from an offset of a gap on. Every step gets past a unit, so the length of the gap
is fuel enough. -/
def gapTokensFrom (source : Text) (stop : Nat) : Nat → Nat → List Token
  | 0, _ => []
  | fuel + 1, start =>
    if stop ≤ start then []
    else match lexeme source start stop with
      | none => gapTokensFrom source stop fuel (start + 1)
      | some t => t :: gapTokensFrom source stop fuel t.stop

def gapTokens (source : Text) (start stop : Nat) : List Token :=
  gapTokensFrom source stop (stop - start) start

/-- The tokens of a range, given the child nodes in it. A child that starts before the end of an
earlier one is passed over. -/
def tokenize (source : Text) (start stop : Nat) : List Tree → List Token
  | [] => gapTokens source start stop
  | child :: rest =>
    if child.start < start then tokenize source start stop rest
    else gapTokens source start child.start ++ (classify source child).toList ++
      tokenize source (max start child.stop) stop rest

end Posonly.Signature
