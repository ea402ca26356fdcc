import Posonly.Options.Basic

/-!
# Reading option values

Each kind of value has a reader of its own that takes the text as given and names the option in its
error.
-/

namespace Posonly

/-- What every table finds under a name, whatever its entries are. -/
def Inherited.ofName? (name : Text) : Option Inherited :=
  if name == "constructor" then some .function
  else if name == "__proto__" then some .object
  else none

/-- Looks a name up: the entries of the table come first, then what it inherits. -/
def lookUp? {α : Type} (entries : List (Text × α)) (name : Text) : Option (TableValue α) :=
  match entries.find? fun entry => entry.1 == name with
  | some (_, value) => some (.own value)
  | none => (Inherited.ofName? name).map .inherited

def LineSeparator.aliases : List (Text × LineSeparator) :=
  [("\n", .lf), ("\r\n", .crlf), ("\r", .cr), ("lf", .lf), ("crlf", .crlf), ("cr", .cr),
    ("\\n", .lf), ("\\r\\n", .crlf), ("\\r", .cr)]

/-- Reads a line separator: the separator itself, its name in any case, or its escapes. A name that
is inherited is not refused. -/
def readLineSeparator (value : Text) : Except OptionError (TableValue LineSeparator) :=
  match lookUp? LineSeparator.aliases value.lower with
  | some found => .ok found
  | none => .error ⟨"linesep", .invalidLineSeparator value⟩

/-- Reads a line separator that was itself found by a look-up. -/
def readFoundSeparator : TableValue Text → Except OptionError (TableValue LineSeparator)
  | .own value => readLineSeparator value
  | .inherited _ => .error ⟨"linesep", .notAText⟩

def longestIndentation : Nat := 536870888

/-- Reads an indentation: a number of spaces, the word `tab` in any case or its escape, or spaces
and tabs themselves. -/
def readIndentation (value : Text) : Except OptionError Text :=
  if value.isDigits then
    let width := value.digitsValue
    if width = 0 then .error ⟨"indentation", .zeroWidth⟩
    else if longestIndentation < width then .error ⟨"indentation", .hugeWidth⟩
    else .ok (List.replicate width Text.space)
  else if value.lower == "tab" || value == "\\t" then .ok [Text.tab]
  else if value.isEmpty || !value.all Text.isSpaceOrTab then
    .error ⟨"indentation", .invalidIndentation value⟩
  else .ok value

def readVersion (value : Text) : Except OptionError PythonVersion :=
  match PythonVersion.ofText? value with
  | some version => .ok version
  | none => .error ⟨"pythonVersion", .unsupportedVersion value⟩

def readManglePolicy (value : Text) : Except OptionError ManglePolicy :=
  match ManglePolicy.ofText? value with
  | some policy => .ok policy
  | none => .error ⟨"mangling", .invalidPolicy value⟩

def keywords : List Text :=
  (["False", "None", "True", "and", "as", "assert", "async", "await", "break", "class", "continue",
    "def", "del", "elif", "else", "except", "finally", "for", "from",
    "global", "if", "import", "in",
    "is", "lambda", "nonlocal", "not", "or", "pass", "raise", "return", "try", "while", "with",
    "yield"] : List String).map Text.ofString

def readDecorator (value : Text) : Except OptionError Text :=
  if value.isIdentifier && !keywords.contains value then .ok value
  else .error ⟨"decorator", .notAnIdentifier value⟩

/-- Reads a truth value: a digit or a word in any case, with white space around it if any. What is
inherited counts as true. -/
def readBoolean (option value : Text) : Except OptionError Bool :=
  let states : List (Text × Bool) :=
    [("1", true), ("0", false), ("yes", true), ("no", false), ("true", true), ("false", false),
      ("on", true), ("off", false)]
  match lookUp? states value.trim.lower with
  | some (.own state) => .ok state
  | some (.inherited _) => .ok true
  | none => .error ⟨option, .invalidBoolean value⟩

/-- A number kept to 53 significant binary digits, a tie going to the even neighbour. -/
def roundedTo53 (n : Nat) : Nat :=
  let excess := n.log2 + 1 - 53
  let unit := Nat.pow 2 excess
  let low := n % unit
  let down := n / unit
  if 2 * low < unit || (2 * low == unit && down % 2 == 0) then down * unit else (down + 1) * unit

inductive Concurrency where
  | limit (n : Rat)
  | unlimited
deriving DecidableEq, Repr

/-- Reads a concurrency. Beyond 53 significant binary digits it is rounded, and a number of more
than 1024 binary digits is no limit at all. -/
def readConcurrency (value : Text) : Except OptionError Concurrency :=
  if !value.isDigits || value.digitsValue = 0 then
    .error ⟨"concurrency", .notAPositiveInteger value⟩
  else
    let n := roundedTo53 value.digitsValue
    .ok (if n < Nat.pow 2 1024 then .limit n else .unlimited)

end Posonly
