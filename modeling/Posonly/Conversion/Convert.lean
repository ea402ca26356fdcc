import Posonly.Conversion.Walk
import Posonly.Options.Resolve

/-!
# Conversion

A conversion walks through the tree of a source, checks that the source is valid in its declared
version, and applies the edits. A marker that the parser could only skip as an error is no error
here. With linting the result is parsed and walked through again.

The parser is an argument of everything that parses, so that nothing here hangs on how it works.
-/

namespace Posonly.Conversion

open Posonly.Signature

inductive State where
  | unchanged
  | assembled
deriving DecidableEq, Repr, Inhabited

def State.text : State → Text
  | .unchanged => "unchanged"
  | .assembled => "assembled"

structure Result where
  text : Text
  state : State
  /-- The edits in application order, without the definition of the decorator. -/
  edits : List Edit
  definition : Option Insertion
  options : Options
deriving DecidableEq, Repr

def Job.advance (j : Job) (before after : Phase) : Except Failure Phase :=
  if before.successors.contains after then .ok after else .error (j.failure (.phase before after))

/-! ## Checks of the source -/

/-- Whether a range lies within the deleted text of a signature. -/
def withinSpan (r : Range) (e : Extraction) : Bool :=
  e.span.start ≤ r.start && r.stop ≤ e.span.stop

def Job.assertParsed (j : Job) (errors : List Range) : Except Failure Unit :=
  match Cause.ofErrors? j.options.version errors with
  | none => .ok ()
  | some cause => .error (j.failure cause)

def Job.assertVersion (j : Job) (tree : Tree) : Except Failure Unit :=
  let version := j.options.version
  match Cause.ofFeatures? version (Feature.newerThan j.source tree version) with
  | none => .ok ()
  | some cause => .error (j.failure cause)

/-! ## The definition of the decorator -/

/-- Blank lines ahead of the definition and behind it. -/
def spacing : Nat := 2

/-- Where the definition of the decorator goes and its text with the blank lines around it, if the
source does not have it already. It goes ahead of the line of the statement that needs it first. -/
def Job.definitionInsertion (j : Job) (definitionAt : Option Nat) : Option Insertion :=
  match definitionAt with
  | none => none
  | some start =>
    let block := Decorator.definition j.options.style
    let offset := j.source.lineStart start
    if Text.occursIn block (j.source.take offset) then none
    else
      let blank (n : Nat) : Text := Printer.times n j.options.lineSeparator.text
      let before := if j.options.pep8 ∧ 0 < offset then
        blank (spacing - j.source.blankLinesAbove offset) else []
      let after := if j.options.pep8 then blank spacing else []
      some ⟨offset, before ++ block ++ after⟩

/-! ## Conversion -/

def Job.run (j : Job) (tree : Tree) : Except Failure Result := do
  let phase ← j.advance .parsed .scanning
  let scan ← visitScript j tree
  if scan.scopes.depth ≠ 0 then .error (j.failure (.scope (.leftOver scan.scopes.depth)))
  j.assertParsed (tree.errors.filter fun r => !scan.extractions.any (withinSpan r))
  j.assertVersion tree
  if scan.edits.size = 0 then
    let _ ← j.advance phase .unchanged
    return ⟨j.source, .unchanged, [], none, j.options⟩
  let phase ← j.advance phase .editing
  let definition := j.definitionInsertion scan.definitionAt
  let edited {α : Type} (r : Except EditFault α) := r.mapError fun f => j.failure (.edit f)
  let text ← edited (scan.edits.apply j.source definition)
  let _ ← j.advance phase .assembled
  let edits ← edited scan.edits.sorted
  return ⟨text, .assembled, edits, definition, j.options⟩

/-- Checks a converted text: it must parse and have no marker. -/
def verify (parse : Text → Tree) (text : Text) (options : Options) : Except Failure Unit := do
  let j : Job := ⟨text, { options with lint := false }⟩
  let tree := parse text
  match tree.errors with
  | first :: _ => .error (j.failure (.unparsable first))
  | [] =>
    let again ← j.run tree
    match again.state with
    | .unchanged => return ()
    | .assembled => .error (j.failure (.stillMarked again.edits.head?))

def convertResolved (parse : Text → Tree) (source : Text) (options : Options) :
    Except Failure Result := do
  let result ← Job.run ⟨source, options⟩ (parse source)
  if options.lint ∧ result.state = .assembled then verify parse result.text options
  return result

/-- What can go wrong in a conversion: the options do not resolve, or the source does not convert.
-/
inductive Error where
  | options (e : OptionError)
  | failed (f : Failure)

def convert (parse : Text → Tree) (source : Text) (values : OptionValues) : Except Error Result :=
  match values.resolve source with
  | .error e => .error (.options e)
  | .ok options => (convertResolved parse source options).mapError .failed

end Posonly.Conversion
