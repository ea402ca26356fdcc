import Posonly.Location
import Posonly.Text.Quoted
import Posonly.Version

/-!
# Diagnostics

A failed conversion is reported with the family of its cause, a message, the name of the source,
and where it is known a location; further findings follow as notes.
-/

namespace Posonly

inductive FailureKind where
  /-- The source is not valid in the declared version of the language. -/
  | parse
  /-- A marker stands where it cannot be removed. -/
  | malformed
  /-- The conversion broke one of its own rules. -/
  | internal
deriving DecidableEq, Repr, Inhabited

namespace FailureKind

def text : FailureKind → Text
  | parse => "parse"
  | malformed => "malformed"
  | internal => "internal"

def title : FailureKind → Text
  | parse => "ParseFailure"
  | malformed => "MalformedConstruct"
  | internal => "InternalConsistencyFault"

end FailureKind

structure Note where
  message : Text
  location : Option Location
deriving DecidableEq, Repr

structure Diagnostic where
  kind : FailureKind
  message : Text
  filename : Text
  location : Option Location := none
  notes : List Note := []
deriving DecidableEq, Repr

def unknownFilename : Text := "<unknown>"

namespace Diagnostic

def intText (n : Int) : Text :=
  if n < 0 then "-" ++ Text.ofNat n.natAbs else Text.ofNat n.natAbs

def noteLine (n : Note) : Text :=
  let place : Text := match n.location with
    | some l => Text.ofNat l.line ++ ":" ++ intText l.column ++ ": "
    | none => []
  "  note: " ++ place ++ n.message

/-- A diagnostic as lines of text: the place, the family and the message, then the notes. -/
def format (d : Diagnostic) : Text :=
  let place : Text := match d.location with
    | some l => d.filename ++ ":" ++ Text.ofNat l.line ++ ":" ++ intText l.column
    | none => d.filename
  Text.joined "\n" ((place ++ ": " ++ d.kind.title ++ ": " ++ d.message) :: d.notes.map noteLine)

end Diagnostic

end Posonly
