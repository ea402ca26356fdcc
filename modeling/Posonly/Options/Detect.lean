import Posonly.Options.Basic

/-!
# Detection of line separators and indentation

Generated code looks like the source around it: it ends lines as most lines of the source end, and
it is indented as the first block of the source is.
-/

namespace Posonly

structure SeparatorCounts where
  lf : Nat := 0
  crlf : Nat := 0
  cr : Nat := 0
deriving DecidableEq, Repr

def countSeparators : Text → SeparatorCounts
  | [] => {}
  | [u] =>
    if u == Text.lineFeed then { lf := 1 }
    else if u == Text.carriageReturn then { cr := 1 } else {}
  | u :: v :: rest =>
    if u == Text.carriageReturn && v == Text.lineFeed then
      let c := countSeparators rest
      { c with crlf := c.crlf + 1 }
    else
      let c := countSeparators (v :: rest)
      if u == Text.lineFeed then { c with lf := c.lf + 1 }
      else if u == Text.carriageReturn then { c with cr := c.cr + 1 } else c

/-- The line separator that a text uses most, if it has any; of equals a line feed, then a carriage
return with a line feed, comes first. -/
def detectLineSeparator? (source : Text) : Option LineSeparator :=
  let c := countSeparators source
  if c.lf = 0 ∧ c.crlf = 0 ∧ c.cr = 0 then none
  else if c.crlf ≤ c.lf ∧ c.cr ≤ c.lf then some .lf
  else if c.cr ≤ c.crlf then some .crlf else some .cr

/-- Whether nothing but white space and a comment is left of a line. -/
def isLineTail (t : Text) : Bool :=
  match t.dropWhile Text.isBlank with
  | [] => true
  | u :: rest => u == 0x23 && rest.all fun v => !Text.isTerminator v

/-- Whether a line has a colon with only white space and a comment behind it. -/
def hasFinalColon : Text → Bool
  | [] => false
  | u :: rest => (u == 0x3A && isLineTail rest) || hasFinalColon rest

def opensBlock (line : Text) : Bool :=
  hasFinalColon line && !(line.head?.any Text.isSpaceOrTab)

/-- The indentation of the first indented line right below one that opens a block, where lines that
are blank or hold only a comment are passed over. -/
def detectIndentationIn (opened : Bool) : List Text → Option Text
  | [] => none
  | line :: rest =>
    let trimmed := Text.trim line
    if trimmed.isEmpty || trimmed.head? == some 0x23 then detectIndentationIn opened rest
    else
      let indent := Text.indentOf line
      if opened && !indent.isEmpty then some indent
      else detectIndentationIn (opensBlock line) rest

/-- The indentation that a text uses, if it has an indented block at the top level. -/
def detectIndentation? (source : Text) : Option Text := detectIndentationIn false source.lines

end Posonly
