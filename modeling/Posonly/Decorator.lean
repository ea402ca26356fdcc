import Posonly.Edit
import Posonly.Printer
import Posonly.Signature.Extraction

/-!
# The decorator

A signature loses its marker and gains a check at run time: a decorator that knows the names of the
positional-only parameters. A function gets a decorator line above it; a lambda is wrapped in a
call. The decorator is an ordinary function that is defined once per source.
-/

namespace Posonly

namespace Decorator

inductive Block where
  | line (text : Text)
  | nested (blocks : List Block)

mutual

def Block.print (p : Printer) : Block → Printer
  | .line text => p.writeLine text
  | .nested blocks => (Block.printAll p.indent blocks).dedent

def Block.printAll (p : Printer) : List Block → Printer
  | [] => p
  | b :: rest => Block.printAll (b.print p) rest

end

def code (name : Text) : List Block :=
  [.line ("def " ++ name ++ "(*posonly):"),
    .nested
      [.line "\"\"\"Positional-only parameters runtime checker.",
        .line [],
        .line "Args:",
        .nested [.line "*posonly: names of the positional-only parameters"],
        .line [],
        .line "\"\"\"",
        .line "import functools",
        .line [],
        .line "def caller(func):",
        .nested
          [.line "@functools.wraps(func)",
            .line "def wrapper(*args, **kwargs):",
            .nested
              [.line "names = set(posonly).intersection(kwargs)",
                .line "if names:",
                .nested
                  [.line "raise TypeError(",
                    .nested
                      [.line
                        "'%s() got some positional-only arguments passed as keyword arguments: %r'",
                        .line "% (func.__name__, ', '.join(sorted(names))))"]],
                .line "return func(*args, **kwargs)"],
            .line "return wrapper"],
        .line "return caller"]]

structure Style where
  decorator : Text
  indentation : Text
  separator : Text
deriving DecidableEq, Repr

/-- The definition of the decorator; it ends with a line separator. -/
def definition (style : Style) : Text :=
  let printer : Printer := { indentation := style.indentation, separator := style.separator }
  (Block.printAll printer (code style.decorator)).output

def call (decorator : Text) (names : List Text) (quote : QuoteMark) : Text :=
  decorator ++ "(" ++ Text.joined ", " (names.map (quoteName · quote)) ++ ")"

/-! ## Edits -/

structure Context where
  source : Text
  style : Style
  dismiss : Bool
  mangleClass : Option Text
  /-- The delimiters of the format strings around the signature, outermost first. -/
  delimiters : List Delimiter

inductive PlacementFault where
  | definitionInString
  | definitionInsideLine
  | noFreeQuote
deriving DecidableEq, Repr

def PlacementFault.message : PlacementFault → Text
  | definitionInString => "function definition inside a format string"
  | definitionInsideLine => "function definition does not start its line"
  | noFreeQuote => "no quote character is free inside the enclosing format strings"

/-- The names of a signature as they are known where it stands. -/
def emittedNames (e : Signature.Extraction) (ctx : Context) : List Text :=
  e.names.map fun p => mangle p.name ctx.mangleClass

def markerChange (e : Signature.Extraction) : Change := ⟨e.span.start, e.span.stop, [], .marker⟩

/-- Whether a text is the word `async` and blanks. -/
def isAsync (t : Text) : Bool :=
  Text.startsWith t "async" && !(t.drop 5).isEmpty && (t.drop 5).all Text.isSpaceOrTab

def functionChanges (e : Signature.Extraction) (range : Range) (ctx : Context) :
    Except PlacementFault (List Change) :=
  if ctx.dismiss then .ok [markerChange e]
  else if !ctx.delimiters.isEmpty then .error .definitionInString
  else
    let start := ctx.source.lineStart range.start
    let before := ctx.source.slice start range.start
    let indent := before.takeWhile Text.isSpaceOrTab
    let rest := before.dropWhile Text.isSpaceOrTab
    if !rest.isEmpty && !isAsync rest then .error .definitionInsideLine
    else
      let call := call ctx.style.decorator (emittedNames e ctx) .single
      .ok [markerChange e, ⟨start, start, indent ++ "@" ++ call ++ ctx.style.separator, .decorator⟩]

def lambdaChanges (e : Signature.Extraction) (range : Range) (ctx : Context) :
    Except PlacementFault (List Change) :=
  if ctx.dismiss then .ok [markerChange e]
  else match Delimiter.chooseQuote ctx.delimiters .single with
    | none => .error .noFreeQuote
    | some quote =>
      let call := call ctx.style.decorator (emittedNames e ctx) quote
      .ok [⟨range.start, range.start, call ++ "(", .wrapOpen⟩, markerChange e,
        ⟨range.stop, range.stop, ")", .wrapClose⟩]

end Decorator

end Posonly
