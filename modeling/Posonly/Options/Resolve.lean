import Posonly.Options.Detect
import Posonly.Options.Value

/-!
# Resolving options

Options that are given are read, and the others take their defaults. The indentation and the line
separator are by default those of the source. A name that the table of separators inherits passes
for a separator until a conversion needs one.
-/

namespace Posonly

def defaultIndentation : Text := "    "

def defaultDecorator : Text := "__posonly_decorator"

def defaultVersion : PythonVersion := .v312

/-- The options that some values stand for, for a given source. -/
def OptionValues.look (v : OptionValues) (source : Text) : Except OptionError FoundOptions := do
  let detected := (detectIndentation? source).getD defaultIndentation
  let indentation ← readIndentation (v.indentation.getD detected)
  let separator := (detectLineSeparator? source).getD .lf
  let lineSeparator ← readFoundSeparator (v.lineSeparator.getD separator.text)
  let version ← readVersion (v.version.getD defaultVersion.text)
  let decorator ← readDecorator (v.decorator.getD defaultDecorator)
  let mangling ← readManglePolicy (v.mangling.getD ManglePolicy.all.text)
  return {
    indentation
    lineSeparator
    pep8 := v.pep8.getD true
    filename := v.filename.getD unknownFilename
    version
    decorator
    dismiss := v.dismiss.getD false
    lint := v.lint.getD false
    mangling }

/-- The options of a conversion: those that are found, if their line separator is one. -/
def OptionValues.resolve (v : OptionValues) (source : Text) : Except OptionError Options := do
  let o ← v.look source
  match o.lineSeparator with
  | .own separator => return { o with lineSeparator := separator }
  | .inherited _ => .error ⟨"linesep", .notAText⟩

end Posonly
