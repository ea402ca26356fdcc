import Posonly.Options.Value
import Posonly.Text.Encoding

/-!
# Options in the environment

Every option can be set by a variable of the environment. A variable that is empty counts as unset.
-/

namespace Posonly

abbrev Environment := List (Text × Text)

def Environment.names : List Text :=
  ["POSONLY_QUIET", "POSONLY_ENCODING", "POSONLY_VERSION", "POSONLY_LINESEP",
    "POSONLY_INDENTATION", "POSONLY_DISMISS", "POSONLY_PEP8", "POSONLY_LINT", "POSONLY_DECORATOR",
    "POSONLY_MANGLING", "POSONLY_ARCHIVE", "POSONLY_CONCURRENCY"]

/-- The value of a variable that is set and not empty. -/
def Environment.get? (env : Environment) (name : Text) : Option Text :=
  ((env.find? fun entry => entry.1 == name).map (·.2)).filter fun value => !value.isEmpty

def Environment.read {α : Type} (env : Environment) (name : Text)
    (reader : Text → Except OptionError α) : Except OptionError (Option α) :=
  match env.get? name with
  | none => .ok none
  | some value => (reader value).map some

def Environment.optionValues (env : Environment) : Except OptionError OptionValues := do
  let indentation ← env.read "POSONLY_INDENTATION" readIndentation
  let lineSeparator ← env.read "POSONLY_LINESEP" readLineSeparator
  let pep8 ← env.read "POSONLY_PEP8" (readBoolean "POSONLY_PEP8")
  let version ← env.read "POSONLY_VERSION" readVersion
  let decorator ← env.read "POSONLY_DECORATOR" readDecorator
  let dismiss ← env.read "POSONLY_DISMISS" (readBoolean "POSONLY_DISMISS")
  let lint ← env.read "POSONLY_LINT" (readBoolean "POSONLY_LINT")
  let mangling ← env.read "POSONLY_MANGLING" readManglePolicy
  return {
    indentation
    lineSeparator := lineSeparator.map (·.text)
    pep8
    version := version.map (·.text)
    decorator
    dismiss
    lint
    mangling := mangling.map (·.text) }

/-- Reads an encoding, by its name in any case. -/
def readEncoding (value : Text) : Except OptionError Encoding :=
  match Encoding.ofText? value.lower with
  | some encoding => .ok encoding
  | none => .error ⟨"encoding", .unsupportedEncoding value⟩

/-- Settings of a run that do not reach the conversion. -/
structure RunSettings where
  quiet : Bool
  encoding : Encoding
  concurrency : Option Concurrency
deriving DecidableEq, Repr

def Environment.runSettings (env : Environment) : Except OptionError RunSettings := do
  let quiet ← env.read "POSONLY_QUIET" (readBoolean "POSONLY_QUIET")
  let encoding ← env.read "POSONLY_ENCODING" readEncoding
  let concurrency ← env.read "POSONLY_CONCURRENCY" readConcurrency
  return { quiet := quiet.getD false, encoding := encoding.getD .utf8, concurrency }

end Posonly
