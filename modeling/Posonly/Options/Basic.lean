import Posonly.Decorator
import Posonly.Feature

/-!
# Options of a conversion

Options are given as text, by a caller, in the environment or on the command line, and every value
may be left out. Resolving them checks what is given and fills in what is not.
-/

namespace Posonly

inductive LineSeparator where
  | lf
  | crlf
  | cr
deriving DecidableEq, Repr, Inhabited

def LineSeparator.text : LineSeparator → Text
  | .lf => "\n"
  | .crlf => "\r\n"
  | .cr => "\r"

/-- What is found under a name that every table inherits: a function or an object, and never a value
of the table. -/
inductive Inherited where
  | function
  | object
deriving DecidableEq, Repr

/-- What a look-up in a table yields. -/
inductive TableValue (α : Type) where
  | own (value : α)
  | inherited (i : Inherited)
deriving DecidableEq, Repr

instance {α : Type} : Coe α (TableValue α) := ⟨.own⟩

def TableValue.text : TableValue LineSeparator → TableValue Text
  | .own separator => .own separator.text
  | .inherited i => .inherited i

/-- Options whose line separator is of a type `σ`. -/
structure OptionsWith (σ : Type) where
  indentation : Text
  lineSeparator : σ
  /-- Whether blank lines are kept around the definition of the decorator. -/
  pep8 : Bool
  filename : Text
  /-- The version of the language that the source is declared to be written in. -/
  version : PythonVersion
  decorator : Text
  /-- Whether markers are taken out without a check at run time. -/
  dismiss : Bool
  lint : Bool
  mangling : ManglePolicy
deriving DecidableEq, Repr

abbrev Options := OptionsWith LineSeparator

/-- Options that may hold something inherited in place of a line separator. -/
abbrev FoundOptions := OptionsWith (TableValue LineSeparator)

/-- Options as they are given: nothing is checked, and anything may be left out. A line separator
that was found elsewhere may be something inherited. -/
structure OptionValues where
  indentation : Option Text := none
  lineSeparator : Option (TableValue Text) := none
  pep8 : Option Bool := none
  filename : Option Text := none
  version : Option Text := none
  decorator : Option Text := none
  dismiss : Option Bool := none
  lint : Option Bool := none
  mangling : Option Text := none
deriving DecidableEq, Repr

def Options.style (o : Options) : Decorator.Style :=
  { decorator := o.decorator, indentation := o.indentation, separator := o.lineSeparator.text }

@[reducible]
def Options.found (o : Options) : FoundOptions := { o with lineSeparator := .own o.lineSeparator }

def FoundOptions.values (o : FoundOptions) : OptionValues :=
  { indentation := some o.indentation
    lineSeparator := some o.lineSeparator.text
    pep8 := some o.pep8
    filename := some o.filename
    version := some o.version.text
    decorator := some o.decorator
    dismiss := some o.dismiss
    lint := some o.lint
    mangling := some o.mangling.text }

/-- Values that give way to others where those are given. -/
def OptionValues.overriddenBy (base given : OptionValues) : OptionValues :=
  { indentation := given.indentation <|> base.indentation
    lineSeparator := given.lineSeparator <|> base.lineSeparator
    pep8 := given.pep8 <|> base.pep8
    filename := given.filename <|> base.filename
    version := given.version <|> base.version
    decorator := given.decorator <|> base.decorator
    dismiss := given.dismiss <|> base.dismiss
    lint := given.lint <|> base.lint
    mangling := given.mangling <|> base.mangling }

/-! ## Errors -/

inductive OptionProblem where
  | invalidLineSeparator (value : Text)
  /-- Something inherited stands where a text is read. -/
  | notAText
  | zeroWidth
  | invalidIndentation (value : Text)
  /-- More blanks are asked for than a text can hold. -/
  | hugeWidth
  | unsupportedVersion (value : Text)
  | invalidPolicy (value : Text)
  | notAnIdentifier (value : Text)
  | invalidBoolean (value : Text)
  | unsupportedEncoding (value : Text)
  | notAPositiveInteger (value : Text)
  | missingValue
  | unknownOption
  | noSources
deriving DecidableEq, Repr

structure OptionError where
  option : Text
  problem : OptionProblem
deriving DecidableEq, Repr

def OptionProblem.message : OptionProblem → Text
  | invalidLineSeparator value => "invalid line separator " ++ value.quoted
  | notAText => "value.toLowerCase is not a function"
  | zeroWidth => "width must be positive"
  | invalidIndentation value => "invalid indentation " ++ value.quoted
  | hugeWidth => "width is too large"
  | unsupportedVersion value =>
    "unsupported version " ++ value.quoted ++ " (expected one of " ++
      Text.joined ", " (PythonVersion.all.map (·.text)) ++ ")"
  | invalidPolicy value => "invalid policy " ++ value.quoted
  | notAnIdentifier value => value.quoted ++ " is not a Python identifier"
  | invalidBoolean value => "invalid boolean " ++ value.quoted
  | unsupportedEncoding value => "unsupported encoding " ++ value.quoted
  | notAPositiveInteger value => "expected a positive integer, got " ++ value.quoted
  | missingValue => "requires a value"
  | unknownOption => "unknown option"
  | noSources => "no source files or folders given"

/-- The wording of an error: the option, then the problem. What is not a text is found out where no
option is named. -/
def OptionError.message (e : OptionError) : Text :=
  if e.problem = .notAText then e.problem.message else e.option ++ ": " ++ e.problem.message

end Posonly
