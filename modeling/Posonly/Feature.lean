import Posonly.Delimiter
import Posonly.Syntax.Tree
import Posonly.Text.Letter
import Posonly.Text.Line
import Posonly.Version

/-!
# Syntax by version

The grammar takes in the newest syntax. What came into the language after the declared version of a
source is found here, so that it can be reported.
-/

namespace Posonly

inductive Construct where
  | matchStatement
  /-- A handler for exception groups. -/
  | exceptStar
  | typeParameters
  /-- A string inside a format string that uses the quotes of the latter. -/
  | nestedQuote
  | typeAlias
deriving DecidableEq, Repr, Inhabited

namespace Construct

def text : Construct → Text
  | matchStatement => "match statement"
  | exceptStar => "except* clause"
  | typeParameters => "type parameter list"
  | nestedQuote => "nested string reusing the enclosing quote"
  | typeAlias => "type alias statement"

def since : Construct → PythonVersion
  | matchStatement => .v310
  | exceptStar => .v311
  | typeParameters => .v312
  | nestedQuote => .v312
  | typeAlias => .v312

end Construct

structure Feature where
  range : Range
  construct : Construct
deriving DecidableEq, Repr

namespace Feature

/-! ## Soft keywords

Two statements start with a word that is no keyword elsewhere. In code that the parser took for
something else they are known by the shape of their first line. -/

/-- How much of a statement is looked at. -/
def headWidth : Nat := 240

def headLine (source : Text) (start : Nat) : Text :=
  Text.firstLine (source.slice start (start + headWidth))

/-- Whether a line defines a type alias: the word, blanks, an identifier, and an opening bracket or
an equals sign. -/
def isTypeAlias (line : Text) : Bool :=
  let rest := line.drop 4
  let name := rest.dropWhile Text.isSpaceOrTab
  let length := Text.identifierLength name
  let after := (name.drop length).dropWhile Text.isSpaceOrTab
  Text.startsWith line "type" && rest.head?.any Text.isSpaceOrTab && decide (0 < length) &&
    after.head?.any fun u => u == 0x5B || u == 0x3D

/-- Whether nothing but blanks and a comment follows. -/
def isEndOfHeader (t : Text) : Bool :=
  match t.dropWhile Text.isSpaceOrTab with
  | [] => true
  | u :: rest => u == 0x23 && rest.all fun v => !Text.isTerminator v

/-- Whether a line has a colon at its end, comments aside. -/
def endsInColon : Text → Bool
  | [] => false
  | u :: rest => (u == 0x3A && isEndOfHeader rest) || (!Text.isTerminator u && endsInColon rest)

/-- Whether a line opens a match statement: the word, a blank or a bracket, and a colon at the
end. -/
def isMatchHeader (line : Text) : Bool :=
  let rest := line.drop 5
  Text.startsWith line "match" &&
    rest.head?.any (fun u => Text.isSpaceOrTab u || u == 0x28 || u == 0x5B || u == 0x7B) &&
    endsInColon (rest.drop 1)

def isStarred (source : Text) (stop : Nat) : Bool :=
  ((source.slice stop (stop + 8)).dropWhile Text.isSpaceOrTab).head? == some 0x2A

/-! ## The search -/

def holdsStatements (parent : Option Kind) : Bool :=
  parent == some .script || parent == some .body

/-- The construct that a node is, given the kind of its parent and the delimiter of the format
string around it. -/
def construct? (source : Text) (parent : Option Kind) (enclosing : Option Delimiter) (kind : Kind)
    (range : Range) : Option Construct :=
  match kind with
  | .matchStatement => some .matchStatement
  | .exceptKeyword => if isStarred source range.stop then some .exceptStar else none
  | .typeParamList => some .typeParameters
  | .plainString | .formatString =>
    match Delimiter.read? source range.start, enclosing with
    | some inner, some outer => if inner.reuses outer then some .nestedQuote else none
    | _, _ => none
  | kind =>
    if !holdsStatements parent then none
    else if isTypeAlias (headLine source range.start) then some .typeAlias
    else if kind ≠ .expressionStatement ∧ isMatchHeader (headLine source range.start) then
      some .matchStatement
    else none

mutual

def search (source : Text) (parent : Option Kind) (enclosing : Option Delimiter) :
    Tree → List Feature
  | .node kind range children =>
    let inside := if kind = .formatString then Delimiter.read? source range.start <|> enclosing
      else enclosing
    ((construct? source parent enclosing kind range).map (⟨range, ·⟩)).toList ++
      searchAll source (some kind) inside children

def searchAll (source : Text) (parent : Option Kind) (enclosing : Option Delimiter) :
    List Tree → List Feature
  | [] => []
  | t :: rest => search source parent enclosing t ++ searchAll source parent enclosing rest

end

def newerThan (source : Text) (tree : Tree) (version : PythonVersion) : List Feature :=
  (search source none none tree).filter fun f => f.construct.since.isAfter version

end Feature

end Posonly
