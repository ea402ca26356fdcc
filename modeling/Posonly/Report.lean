import Posonly.Batch.Run

/-!
# Reports

What the program prints while it runs and at its end. Parts of a line are set off by colours, which
are sequences of control characters around the text.
-/

namespace Posonly

inductive Colour where
  | red
  | green
  | yellow
  | cyan
  | grey
deriving DecidableEq, Repr

def Colour.number : Colour → Nat
  | red => 31
  | green => 32
  | yellow => 33
  | cyan => 36
  | grey => 90

def Colour.usual : Nat := 39

def Colour.select (number : Nat) : Text := "\x1b[" ++ Text.ofNat number ++ "m"

def Colour.paint (c : Colour) (t : Text) : Text :=
  Colour.select c.number ++ t ++ Colour.select Colour.usual

namespace Report

open Colour

def say (t : Text) : Line := ⟨.output, t⟩

def remark (t : Text) : Line := ⟨.error, t⟩

def fatal (message : Text) : Line := remark (red.paint ("Error: " ++ message))

def missing (path : Text) : Line :=
  remark (yellow.paint ("Warning: no such file or directory: " ++ path))

def edit (outcome : FileOutcome) (e : Edit) : Line :=
  let place := locate outcome.source e.start e.stop
  let change : Text :=
    if e.start = e.stop then "insert " ++ e.text.quoted
    else "delete " ++ (outcome.source.slice e.start e.stop).quoted
  say ("  " ++ outcome.file ++ ":" ++ Text.ofNat place.line ++ ":" ++
    Diagnostic.intText place.column ++ ": " ++ cyan.paint e.origin.text ++ " " ++ change)

def outcome (dryRun : Bool) (o : FileOutcome) : List Line :=
  match o.state with
  | .unchanged => [say (grey.paint ("unchanged " ++ o.file))]
  | .assembled =>
    let verb : Text := if dryRun then "would convert" else "converted"
    let count := "(" ++ Text.ofNat o.edits.length ++ " edits)"
    say (green.paint verb ++ " " ++ o.file ++ " " ++ grey.paint count) ::
      (if dryRun then o.edits.map (edit o) else [])

def errorText (file : Text) : TaskError → Text
  | .conversion (.failed f) => f.diagnostic.format
  | .conversion (.options e) => file ++ ": " ++ e.message
  | .file e => file ++ ": " ++ e.message

def failure (file : Text) (e : TaskError) : Line := remark (red.paint (errorText file e))

/-- The last line of a run: how many files had each fate. -/
def totals (s : BatchSummary) : Line :=
  let part (n : Nat) (word : Text) : Text := Text.ofNat n ++ " " ++ word
  let parts := [part s.converted.length "converted", part s.unchanged.length "unchanged",
    part s.failed.length "failed"]
  let skipped := if s.skipped.isEmpty then [] else [part s.skipped.length "skipped"]
  remark (Text.joined ", " (parts ++ skipped))

def recovered (e : ArchiveEntry) : Line := say (green.paint "recovered" ++ " " ++ e.file)

def recoveredTotal (count : Nat) (archivePath : Text) : Line :=
  remark ("Recovered " ++ Text.ofNat count ++ " file(s) from " ++ archivePath)

end Report

end Posonly
