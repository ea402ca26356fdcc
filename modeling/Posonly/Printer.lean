import Posonly.Text.Line

/-!
# A line printer

Generated code is printed line by line: each line that holds anything starts with the indentation
of the level in force when its first character is written, and lines end with one separator,
whatever breaks the printed contents use.
-/

namespace Posonly

structure Printer where
  indentation : Text := "    "
  separator : Text := "\n"
  level : Nat := 0
  /-- Whether nothing is on the current line yet. -/
  atLineStart : Bool := true
  output : Text := []
deriving DecidableEq, Repr

namespace Printer

def times (n : Nat) (t : Text) : Text := (List.replicate n t).flatten

def segment (p : Printer) (t : Text) : Printer :=
  if t.isEmpty then p
  else
    let indent := if p.atLineStart then times p.level p.indentation else []
    { p with output := p.output ++ indent ++ t, atLineStart := false }

def newline (p : Printer) : Printer :=
  { p with output := p.output ++ p.separator, atLineStart := true }

/-- Prints a text; each of its line breaks ends a line. -/
def write (p : Printer) (t : Text) : Printer :=
  match t.lines with
  | [] => p
  | first :: rest => rest.foldl (fun p line => p.newline.segment line) (p.segment first)

def writeLine (p : Printer) (t : Text) : Printer := (p.write t).newline

def indent (p : Printer) : Printer := { p with level := p.level + 1 }

def dedent (p : Printer) : Printer := { p with level := p.level - 1 }

end Printer

end Posonly
