import Posonly.Options.Basic

/-!
# Failures of a conversion

A failure keeps its cause, the text it was found in and the name of the source. The diagnostic that
is shown for it is worked out from these.
-/

namespace Posonly

inductive Phase where
  | parsed
  | scanning
  | unchanged
  | editing
  | assembled
  | failed
deriving DecidableEq, Repr, Inhabited

namespace Phase

def text : Phase → Text
  | parsed => "parsed"
  | scanning => "scanning"
  | unchanged => "unchanged"
  | editing => "rewriting"
  | assembled => "assembled"
  | failed => "failed"

def successors : Phase → List Phase
  | parsed => [scanning]
  | scanning => [unchanged, editing]
  | editing => [assembled]
  | unchanged | assembled | failed => []

end Phase

inductive Cause where
  /-- The source does not parse; there is at least one error. -/
  | invalidSyntax (version : PythonVersion) (first : Range) (others : List Range)
  | newerSyntax (version : PythonVersion) (first : Feature) (others : List Feature)
  | marker (fault : Signature.MarkerFault)
  | placement (fault : Decorator.PlacementFault) (range : Range)
  | scope (fault : ScopeFault)
  | edit (fault : EditFault)
  | phase (before after : Phase)
  | unparsable (error : Range)
  | stillMarked (edit : Option Edit)

structure Failure where
  cause : Cause
  /-- The text that ranges of the cause refer to. -/
  source : Text
  filename : Text

namespace Cause

def kind : Cause → FailureKind
  | invalidSyntax .. | newerSyntax .. => .parse
  | marker _ | placement .. => .malformed
  | scope _ | edit _ | phase .. | unparsable _ | stillMarked _ => .internal

/-- The cause that syntax errors are, if there are any. -/
def ofErrors? (version : PythonVersion) : List Range → Option Cause
  | [] => none
  | first :: others => some (invalidSyntax version first others)

/-- The cause that constructs of later versions are, if there are any. -/
def ofFeatures? (version : PythonVersion) : List Feature → Option Cause
  | [] => none
  | first :: others => some (newerSyntax version first others)

def shownLength : Nat := 40

/-- How many units are shown where an error is empty. -/
def shownAhead : Nat := 20

/-- The place of an error as messages show it: its text, or the rest of the line if it is empty. -/
def near (source : Text) (r : Range) : Text :=
  let text := source.slice r.start r.stop
  if text.isEmpty then
    let ahead := Text.firstLine (source.slice r.start (r.start + shownAhead))
    if ahead.isEmpty then "end of line" else ahead.quoted
  else if shownLength < text.length then Text.quoted (text.take shownLength ++ "...")
  else text.quoted

def placeOf (source : Text) (r : Range) : Location := locate source r.start r.stop

def message (source : Text) : Cause → Text
  | invalidSyntax version first _ =>
    "invalid syntax (Python " ++ version.text ++ ") near " ++ near source first
  | newerSyntax version first _ =>
    first.construct.text ++ " requires Python " ++ first.construct.since.text ++
      " (input declared as Python " ++ version.text ++ ")"
  | marker fault => fault.message
  | placement fault _ => fault.message
  | scope fault => fault.message
  | edit fault => fault.message
  | phase before after =>
    "invalid conversion state change " ++ before.text ++ " -> " ++ after.text
  | unparsable _ => "converted source does not parse"
  | stillMarked _ => "converted source still contains a positional-only marker"

def location (source : Text) : Cause → Option Location
  | invalidSyntax _ first _ => some (placeOf source first)
  | newerSyntax _ first _ => some (placeOf source first.range)
  | marker fault => some (placeOf source fault.range)
  | placement _ range => some (placeOf source range)
  | scope _ | phase .. => none
  | edit fault => fault.location source
  | unparsable error => some (placeOf source error)
  | stillMarked found => found.map fun e => locate source e.start e.stop

/-- What is told about a cause beside its message: the errors after the first. -/
def notes (source : Text) : Cause → List Note
  | invalidSyntax _ _ others =>
    others.map fun r => ⟨"invalid syntax near " ++ near source r, some (placeOf source r)⟩
  | newerSyntax _ _ others =>
    others.map fun f =>
      ⟨f.construct.text ++ " requires Python " ++ f.construct.since.text,
        some (placeOf source f.range)⟩
  | _ => []

end Cause

def Failure.diagnostic (f : Failure) : Diagnostic :=
  { kind := f.cause.kind
    message := f.cause.message f.source
    filename := f.filename
    location := f.cause.location f.source
    notes := f.cause.notes f.source }

end Posonly
