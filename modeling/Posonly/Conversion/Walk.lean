import Posonly.Conversion.Failure

/-!
# The walk through a source

The walk goes through the tree in document order, keeps the stack of scopes, and collects the edits
of every signature that has a marker. The edits of a signature are added after those inside it, so
that of several parentheses closed at one place the inner ones come first.
-/

namespace Posonly.Conversion

open Posonly.Signature

structure Job where
  source : Text
  options : Options

/-- What the walk has gathered so far. -/
structure Scan where
  scopes : ScopeStack := {}
  edits : EditSet := {}
  /-- The signatures with a marker, in the order in which they were left. -/
  extractions : List Extraction := []
  /-- The start of the first top-level statement that needs the decorator. -/
  definitionAt : Option Nat := none

def Job.failure (j : Job) (cause : Cause) : Failure := ⟨cause, j.source, j.options.filename⟩

def Job.scoped {α : Type} (j : Job) (r : Except ScopeFault α) : Except Failure α :=
  r.mapError fun f => j.failure (.scope f)

def Scan.enter (scan : Scan) (j : Job) (kind : ScopeKind) (name : Option Text)
    (delimiter : Option Delimiter) : Except Failure (ScopeHandle × Scan) := do
  let (handle, scopes) ← j.scoped (scan.scopes.enter kind name delimiter)
  return (handle, { scan with scopes })

def Scan.exit (scan : Scan) (j : Job) (handle : ScopeHandle) : Except Failure Scan := do
  let scopes ← j.scoped (scan.scopes.exit handle)
  return { scan with scopes }

def Scan.context (scan : Scan) (j : Job) (target : Target) : Except Failure Decorator.Context := do
  let mangleClass ← j.scoped (scan.scopes.mangleClassFor target j.options.mangling)
  return {
    source := j.source
    style := j.options.style
    dismiss := j.options.dismiss
    mangleClass
    delimiters := scan.scopes.delimiters }

def Scan.record (scan : Scan) (j : Job) (e : Extraction) (range : Range)
    (changes : Except Decorator.PlacementFault (List Change)) : Except Failure Scan := do
  let changes ← changes.mapError fun f => j.failure (.placement f range)
  match scan.edits.addAll changes with
  | (edits, none) => return { scan with edits, extractions := scan.extractions ++ [e] }
  | (_, some f) => .error (j.failure (.edit f))

def Job.functionExtraction (j : Job) (params : Option Tree) (scope : ScopeKind) :
    Except Failure (Option Extraction) :=
  match params with
  | none => .ok none
  | some params =>
    (extractFunction j.source params scope).mapError fun f => j.failure (.marker f)

def Job.lambdaExtraction (j : Job) (lambda : Tree) (scope : ScopeKind) :
    Except Failure (Option Extraction) :=
  (extractLambda j.source lambda scope).mapError fun f => j.failure (.marker f)

def nameOf (source : Text) (children : List Tree) : Option Text :=
  (children.find? (·.kind = .variableName)).map fun n => source.slice n.start n.stop

mutual

def visit (j : Job) (scan : Scan) : Tree → Except Failure Scan
  | .node .classDefinition _ children => do
    let (handle, scan) ← scan.enter j .classBody (nameOf j.source children) none
    let scan ← visitAll j scan children
    scan.exit j handle
  | .node .functionDefinition range children => do
    let scope ← j.scoped scan.scopes.current
    let extraction ← j.functionExtraction (children.find? (·.kind = .paramList)) scope.kind
    let ctx ← scan.context j .function
    let (handle, scan) ← scan.enter j .function (nameOf j.source children) none
    let scan ← visitAll j scan children
    let scan ← scan.exit j handle
    match extraction with
    | none => return scan
    | some e => scan.record j e range (Decorator.functionChanges e range ctx)
  | .node .lambdaExpression range children => do
    let scope ← j.scoped scan.scopes.current
    let extraction ← j.lambdaExtraction (.node .lambdaExpression range children) scope.kind
    let ctx ← scan.context j .lambda
    let (handle, scan) ← scan.enter j .lambda none none
    let scan ← visitAll j scan children
    let scan ← scan.exit j handle
    match extraction with
    | none => return scan
    | some e => scan.record j e range (Decorator.lambdaChanges e range ctx)
  | .node .formatString range children => do
    let (handle, scan) ← scan.enter j .string none (Delimiter.read? j.source range.start)
    let scan ← visitAll j scan children
    scan.exit j handle
  | .node _ _ children => visitAll j scan children

def visitAll (j : Job) (scan : Scan) : List Tree → Except Failure Scan
  | [] => return scan
  | t :: rest => do visitAll j (← visit j scan t) rest

end

/-- Goes through a statement at the top level. The first one with a marker in it needs the
definition of the decorator, unless checks are dismissed. -/
def visitStatement (j : Job) (scan : Scan) (statement : Tree) : Except Failure Scan := do
  let before := scan.extractions.length
  let scan ← visit j scan statement
  if before < scan.extractions.length ∧ !j.options.dismiss then
    let (first, scopes) ← j.scoped scan.scopes.scheduleDefinition
    let scan := { scan with scopes }
    return if first then { scan with definitionAt := some statement.start } else scan
  else return scan

def visitStatements (j : Job) (scan : Scan) : List Tree → Except Failure Scan
  | [] => return scan
  | t :: rest => do visitStatements j (← visitStatement j scan t) rest

def visitScript (j : Job) (tree : Tree) : Except Failure Scan := do
  let (handle, scan) ← ({} : Scan).enter j .module none none
  let scan ← visitStatements j scan tree.children
  scan.exit j handle

end Posonly.Conversion
