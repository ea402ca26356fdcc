import Posonly.Diagnostic

/-!
# Edits

A conversion never touches the text it reads. It collects edits against it, each a range and the
text to put there, and applies them all in one pass. Edits must not overlap, and insertions at one
offset keep the order in which they were added.
-/

namespace Posonly

inductive Origin where
  | marker
  /-- A decorator line is put above a function. -/
  | decorator
  /-- A call is opened ahead of a lambda. -/
  | wrapOpen
  /-- The call is closed behind the lambda. -/
  | wrapClose
  | definition
deriving DecidableEq, Repr, Inhabited

def Origin.text : Origin → Text
  | .marker => "marker"
  | .decorator => "decorator"
  | .wrapOpen => "wrap-open"
  | .wrapClose => "wrap-close"
  | .definition => "definition"

/-- A change that is asked for; its range has not been looked at. -/
structure Change where
  start : Int
  stop : Int
  text : Text
  origin : Origin
deriving DecidableEq, Repr

/-- A change that has been taken in. -/
structure Edit where
  start : Nat
  stop : Nat
  text : Text
  origin : Origin
  /-- How many edits were taken in before. -/
  seq : Nat
deriving DecidableEq, Repr

structure Insertion where
  offset : Nat
  text : Text
deriving DecidableEq, Repr

inductive EditFault where
  | invalidRange (start stop : Int)
  | overlap (first second : Edit)
  | pastEnd (stop : Nat)
deriving DecidableEq, Repr

namespace EditFault

def rangeText (start stop : Int) : Text :=
  "[" ++ Diagnostic.intText start ++ ", " ++ Diagnostic.intText stop ++ ")"

def message : EditFault → Text
  | invalidRange start stop => "invalid edit range " ++ rangeText start stop
  | overlap a b =>
    "overlapping edits: " ++ a.origin.text ++ " " ++ rangeText a.start a.stop ++ " and " ++
      b.origin.text ++ " " ++ rangeText b.start b.stop
  | pastEnd stop => "edit past end of source at " ++ Text.ofNat stop

/-- Where a fault is shown: an overlap at its second edit, the others nowhere. -/
def location (source : Text) : EditFault → Option Location
  | overlap _ b => some (locate source b.start b.stop)
  | _ => none

end EditFault

namespace Edit

def isInsertion (e : Edit) : Bool := e.start == e.stop

/-- Whether an edit must be applied ahead of another: it starts earlier, or at the same offset it
is an insertion and the other is not. -/
def precedes (a b : Edit) : Bool :=
  a.start < b.start || (a.start == b.start && a.isInsertion && !b.isInsertion)

/-- Puts an edit into a list in application order, ahead of those that need not precede it. -/
def place (e : Edit) : List Edit → List Edit
  | [] => [e]
  | f :: rest => if f.precedes e then f :: place e rest else e :: f :: rest

/-- Edits in application order; where neither of two must be first they keep their order. -/
def inOrder : List Edit → List Edit
  | [] => []
  | e :: rest => place e (inOrder rest)

/-- The first two neighbours that overlap, in a list in application order. -/
def firstOverlap : List Edit → Option (Edit × Edit)
  | a :: b :: rest => if b.start < a.stop then some (a, b) else firstOverlap (b :: rest)
  | _ => none

/-- Copies a text from an offset on and puts the text of each edit in place of its range. -/
def spliceFrom (source : Text) (pos : Nat) : List Edit → Text
  | [] => source.drop pos
  | e :: rest => source.slice pos e.start ++ e.text ++ spliceFrom source e.stop rest

def splice (source : Text) (edits : List Edit) : Text := spliceFrom source 0 edits

end Edit

/-- The edits taken in so far, in the order of arrival. -/
structure EditSet where
  edits : List Edit := []
deriving DecidableEq, Repr

namespace EditSet

def size (s : EditSet) : Nat := s.edits.length

/-- The edit that a change becomes if its range is a range. -/
def admit? (s : EditSet) (c : Change) : Except EditFault Edit :=
  if c.start < 0 ∨ c.stop < c.start then .error (.invalidRange c.start c.stop)
  else .ok ⟨c.start.toNat, c.stop.toNat, c.text, c.origin, s.size⟩

def add (s : EditSet) (c : Change) : Except EditFault (Edit × EditSet) :=
  (s.admit? c).map fun e => (e, ⟨s.edits ++ [e]⟩)

/-- Takes in changes up to the first bad one, and tells what is wrong with that. -/
def addAll (s : EditSet) : List Change → EditSet × Option EditFault
  | [] => (s, none)
  | c :: rest =>
    match s.add c with
    | .ok (_, s) => s.addAll rest
    | .error f => (s, some f)

/-- Edits in application order, unless two of them overlap. -/
def ordered (edits : List Edit) : Except EditFault (List Edit) :=
  let sorted := Edit.inOrder edits
  match Edit.firstOverlap sorted with
  | some (a, b) => .error (.overlap a b)
  | none => .ok sorted

def sorted (s : EditSet) : Except EditFault (List Edit) := ordered s.edits

def definitionEdit (i : Insertion) : Edit := ⟨i.offset, i.offset, i.text, .definition, 0⟩

/-- Applies all edits to a text. The definition, if there is one, goes ahead of all other
insertions at its offset. -/
def apply (s : EditSet) (source : Text) (definition : Option Insertion) : Except EditFault Text :=
  match ordered ((definition.map definitionEdit).toList ++ s.edits) with
  | .error f => .error f
  | .ok edits =>
    match edits.find? fun e => source.length < e.stop with
    | some e => .error (.pastEnd e.stop)
    | none => .ok (Edit.splice source edits)

end EditSet

end Posonly
