import Posonly.Scope
import Posonly.Signature.Token

/-!
# Extraction of positional-only parameters

The tokens of a parameter list fall into groups at the commas, and the head of a group tells what it
is: a parameter, a star, or the marker. An extraction gives the names ahead of the marker and the
part of the text that has to go so that the rest is still a parameter list.
-/

namespace Posonly.Signature

structure Parameter where
  name : Text
  start : Nat
  stop : Nat
deriving DecidableEq, Repr

structure Extraction where
  target : Target
  /-- The positional-only parameters, in order. -/
  names : List Parameter
  marker : Range
  /-- The text to delete. -/
  span : Range
  scope : ScopeKind
deriving DecidableEq, Repr

/-- The ways in which a marker can be misplaced, each with the marker in question. -/
inductive MarkerFault where
  | duplicate (marker : Range)
  | afterStar (star : Text) (marker : Range)
  | withoutParameters (marker : Range)
deriving DecidableEq, Repr

namespace MarkerFault

def message : MarkerFault → Text
  | duplicate _ => "duplicate positional-only marker"
  | afterStar star _ => "positional-only marker after " ++ star.quoted
  | withoutParameters _ => "positional-only marker without preceding parameters"

def range : MarkerFault → Range
  | duplicate r => r
  | afterStar _ r => r
  | withoutParameters r => r

end MarkerFault

/-! ## The text to delete -/

/-- Whether a text is one line break, after spaces and tabs if any. -/
def isBlankToBreak (t : Text) : Bool :=
  let rest := t.dropWhile Text.isSpaceOrTab
  rest == [Text.carriageReturn, Text.lineFeed] || rest == [Text.carriageReturn] ||
    rest == [Text.lineFeed]

/-- The line that a range stands on, its break included, if nothing else is on it. -/
def wholeLine? (source : Text) (start stop : Nat) : Option Range :=
  let first := source.lineStart start
  if !(source.slice first start).all Text.isSpaceOrTab then none
  else match source.nextLineStart? stop with
    | none => none
    | some last =>
      if isBlankToBreak (source.slice stop last) then some ⟨first, last⟩ else none

/-- The first offset from another on that has neither a space nor a tab. -/
def skipBlanks (source : Text) (offset : Nat) : Nat :=
  offset + ((source.drop offset).takeWhile Text.isSpaceOrTab).length

/-- Whether a line goes on at an offset with something that is not a comment. -/
def lineGoesOn (source : Text) (offset : Nat) : Bool :=
  match source[offset]? with
  | none => false
  | some u => !(u == Text.carriageReturn || u == Text.lineFeed || u == 0x23 || u == 0x5C)

/-- A token, if it is a comma with nothing but spaces and tabs between it and an offset. -/
def commaBefore? (source : Text) (offset : Nat) (previous : Option Token) : Option Token :=
  previous.filter fun p => p.isPunct "," && (source.slice p.stop offset).all Text.isSpaceOrTab

/-- The text to delete with a marker, given the tokens beside it. The marker takes one comma along,
the one behind it if there is one, and the blanks or the line that would otherwise be left over. -/
def markerSpan (source : Text) (previous : Option Token) (marker : Token)
    (following : Option Token) : Range :=
  match following.filter (·.isPunct ",") with
  | some comma =>
    match wholeLine? source marker.start comma.stop with
    | some line => line
    | none =>
      let probe := skipBlanks source comma.stop
      if lineGoesOn source probe then ⟨marker.start, probe⟩
      else match commaBefore? source marker.start previous with
        | some earlier => ⟨earlier.stop, comma.stop⟩
        | none => ⟨marker.start, comma.stop⟩
  | none =>
    match wholeLine? source marker.start marker.stop with
    | some line => line
    | none =>
      match commaBefore? source marker.start previous with
      | some earlier => ⟨earlier.start, marker.stop⟩
      | none => marker.range

def markerSpanAt (source : Text) (tokens : List Token) (index : Nat) : Option Range :=
  (tokens[index]?).map fun marker =>
    markerSpan source (if index = 0 then none else tokens[index - 1]?) marker tokens[index + 1]?

/-! ## Groups -/

/-- Cuts a list at the elements with a property. -/
def cutAt {α : Type} (cut : α → Bool) : List α → List (List α)
  | [] => [[]]
  | a :: rest =>
    if cut a then [] :: cutAt cut rest
    else match cutAt cut rest with
      | [] => [[a]]
      | g :: gs => (a :: g) :: gs

/-- The groups of a token list: comments left out, cut at the commas. -/
def groups (tokens : List Token) : List (List Token) :=
  cutAt (·.isPunct ",") (tokens.filter fun t => !t.isComment)

/-- The heads of the groups, each with its index in the token list. -/
def heads (tokens : List Token) : List (Token × Nat) :=
  (cutAt (fun p => p.1.isPunct ",") (tokens.zipIdx.filter fun p => !p.1.isComment)).filterMap
    List.head?

structure Found where
  names : List Parameter := []
  marker : Option (Token × Nat) := none
  star : Option Token := none
deriving Repr

def Found.step (f : Found) (head : Token × Nat) : Except MarkerFault Found :=
  let (t, _) := head
  if t.isPunct "/" then
    if f.marker.isSome then .error (.duplicate t.range) else .ok { f with marker := some head }
  else if t.isPunct "*" || t.isPunct "**" then .ok { f with star := f.star <|> some t }
  else if t.kind == .name && f.marker.isNone then
    .ok { f with names := f.names ++ [⟨t.text, t.start, t.stop⟩] }
  else .ok f

def Found.steps (f : Found) : List (Token × Nat) → Except MarkerFault Found
  | [] => .ok f
  | head :: rest =>
    match f.step head with
    | .error e => .error e
    | .ok f => f.steps rest

/-- The extraction of a parameter list, or none if it has no marker. -/
def extract (source : Text) (tokens : List Token) (target : Target) (scope : ScopeKind) :
    Except MarkerFault (Option Extraction) :=
  match ({} : Found).steps (heads tokens) with
  | .error e => .error e
  | .ok found =>
    match found.marker with
    | none => .ok none
    | some (marker, index) =>
      match found.star.filter fun star => star.start < marker.start with
      | some star => .error (.afterStar star.text marker.range)
      | none =>
        if found.names.isEmpty then .error (.withoutParameters marker.range)
        else
          .ok (some
            { target
              names := found.names
              marker := marker.range
              span := (markerSpanAt source tokens index).getD marker.range
              scope })

/-! ## Signatures -/

/-- Takes a given punctuation off the front of a token list, where comments may stand ahead of it.
-/
def dropFirst (text : Text) : List Token → List Token
  | [] => []
  | t :: rest =>
    if t.isComment then t :: dropFirst text rest
    else if t.isPunct text then rest else t :: rest

/-- The tokens between the brackets of a parameter list. -/
def inner (tokens : List Token) : List Token :=
  (dropFirst ")" (dropFirst "(" tokens).reverse).reverse

def extractFunction (source : Text) (params : Tree) (scope : ScopeKind) :
    Except MarkerFault (Option Extraction) :=
  extract source (inner (tokenize source params.start params.stop params.children)) .function scope

/-- The nodes among which the parameters of a lambda stand: those of a parameter list are taken out
of it. -/
def lambdaRegion (nodes : List Tree) : List Tree :=
  nodes.flatMap fun n => if n.kind = .paramList then n.children else [n]

/-- Extracts from a lambda. Its parameters stand between the keyword and the first colon. -/
def extractLambda (source : Text) (lambda : Tree) (scope : ScopeKind) :
    Except MarkerFault (Option Extraction) :=
  match lambda.children.filter fun c => c.kind ≠ .comment with
  | keyword :: second :: others =>
    let body := (second :: others).getLast (by simp)
    let region := lambdaRegion (second :: others).dropLast
    let tokens := tokenize source keyword.stop body.start region
    extract source (tokens.takeWhile fun t => !t.isPunct ":") .lambda scope
  | _ => .ok none

end Posonly.Signature
