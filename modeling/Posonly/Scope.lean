import Posonly.Delimiter
import Posonly.Diagnostic

/-!
# Scopes

The walk through a source keeps a stack of the scopes it is in: the module at the bottom, then
classes, functions, lambdas and format strings. From the stack come the class that private names
are mangled with and the delimiters of the format strings around a place.
-/

namespace Posonly

inductive ScopeKind where
  | module
  | classBody
  | function
  | lambda
  | string
deriving DecidableEq, Repr, Inhabited

def ScopeKind.text : ScopeKind → Text
  | .module => "module"
  | .classBody => "class"
  | .function => "function"
  | .lambda => "lambda"
  | .string => "string"

inductive Target where
  | function
  | lambda
deriving DecidableEq, Repr, Inhabited

def Target.text : Target → Text
  | .function => "function"
  | .lambda => "lambda"

/-- Which signatures have the private names in them mangled. -/
inductive ManglePolicy where
  /-- Functions and lambdas. -/
  | all
  /-- Functions only. -/
  | functions
  | none
deriving DecidableEq, Repr, Inhabited

def ManglePolicy.text : ManglePolicy → Text
  | .all => "all"
  | .functions => "functions"
  | .none => "none"

def ManglePolicy.ofText? (t : Text) : Option ManglePolicy :=
  [ManglePolicy.all, .functions, .none].find? fun p => p.text == t

def ManglePolicy.covers : ManglePolicy → Target → Bool
  | .all, _ => true
  | .functions, .function => true
  | .functions, .lambda => false
  | .none, _ => false

/-! ## Private names -/

/-- A name as it is known inside a class: a private name, one with two underscores ahead and not
behind, gets the name of the class put ahead of it, which loses its own leading underscores. -/
def mangle (name : Text) (className : Option Text) : Text :=
  match className with
  | none => name
  | some className =>
    if !Text.startsWith name "__" || Text.endsWith name "__" then name
    else
      let stem := className.dropWhile (· == 0x5F)
      if stem.isEmpty then name else "_" ++ stem ++ name

/-! ## The stack -/

structure Scope where
  /-- Which of all scopes entered so far this one is. -/
  id : Nat
  kind : ScopeKind
  name : Option Text
  parent : Option Nat
  /-- The class that private names are mangled with. -/
  mangleClass : Option Text
  /-- The opening delimiter of a format string. -/
  delimiter : Option Delimiter
  /-- Whether the definition of the decorator has been scheduled; kept on the module. -/
  definitionScheduled : Bool
deriving DecidableEq, Repr

/-- What is needed to leave a scope again. -/
structure ScopeHandle where
  /-- The depth of the stack with the scope on top. -/
  depth : Nat
  scope : Scope
deriving DecidableEq, Repr

inductive ScopeFault where
  | moduleTwice
  | outsideModule (kind : ScopeKind)
  | exitEmpty (kind : ScopeKind)
  | exitMismatch (kind : ScopeKind) (depth : Nat) (innermost : ScopeKind) (innermostDepth : Nat)
  | noScope
  | scheduledOutsideModule
  | leftOver (depth : Nat)
deriving DecidableEq, Repr

def ScopeFault.message : ScopeFault → Text
  | moduleTwice => "module scope entered twice"
  | outsideModule kind => kind.text ++ " scope entered outside a module"
  | exitEmpty kind => "exit of " ++ kind.text ++ " scope with an empty stack"
  | exitMismatch kind depth innermost innermostDepth =>
    "exit of " ++ kind.text ++
      " scope at depth " ++ Text.ofNat depth ++ ", but the innermost is " ++
      innermost.text ++ " at depth " ++ Text.ofNat innermostDepth
  | noScope => "no active scope"
  | scheduledOutsideModule => "decorator definition scheduled outside a module"
  | leftOver depth => "scope stack not empty after traversal (" ++ Text.ofNat depth ++ ")"

structure ScopeStack where
  scopes : List Scope := []
  entered : Nat := 0
deriving DecidableEq, Repr

namespace ScopeStack

def depth (s : ScopeStack) : Nat := s.scopes.length

def current (s : ScopeStack) : Except ScopeFault Scope :=
  match s.scopes with
  | [] => .error .noScope
  | top :: _ => .ok top

def next (s : ScopeStack) (kind : ScopeKind) (name : Option Text) (delimiter : Option Delimiter) :
    Scope :=
  let parent := s.scopes.head?
  { id := s.entered
    kind
    name
    parent := parent.map (·.id)
    mangleClass := if kind = .classBody then name else parent.bind (·.mangleClass)
    delimiter
    definitionScheduled := false }

/-- Enters a scope: a module at the bottom and only there. -/
def enter (s : ScopeStack) (kind : ScopeKind) (name : Option Text) (delimiter : Option Delimiter) :
    Except ScopeFault (ScopeHandle × ScopeStack) :=
  if kind = .module ∧ s.scopes ≠ [] then .error .moduleTwice
  else if kind ≠ .module ∧ s.scopes = [] then .error (.outsideModule kind)
  else
    let scope := s.next kind name delimiter
    .ok (⟨s.depth + 1, scope⟩, { scopes := scope :: s.scopes, entered := s.entered + 1 })

/-- Leaves the innermost scope, which must be the one of the handle. -/
def exit (s : ScopeStack) (h : ScopeHandle) : Except ScopeFault ScopeStack :=
  match s.scopes with
  | [] => .error (.exitEmpty h.scope.kind)
  | top :: rest =>
    if s.depth = h.depth ∧ top.id = h.scope.id then .ok { s with scopes := rest }
    else .error (.exitMismatch h.scope.kind h.depth top.kind s.depth)

/-- The delimiters of the format strings around a place, outermost first. -/
def delimiters (s : ScopeStack) : List Delimiter := s.scopes.reverse.filterMap (·.delimiter)

/-- Schedules the definition of the decorator; true only the first time in a module. -/
def scheduleDefinition (s : ScopeStack) : Except ScopeFault (Bool × ScopeStack) :=
  match s.scopes.reverse with
  | [] => .error .scheduledOutsideModule
  | root :: rest =>
    if root.kind ≠ .module then .error .scheduledOutsideModule
    else if root.definitionScheduled then .ok (false, s)
    else
      let root := { root with definitionScheduled := true }
      .ok (true, { s with scopes := (root :: rest).reverse })

/-- The class that the names in a signature of the current scope are mangled with. -/
def mangleClassFor (s : ScopeStack) (target : Target) (policy : ManglePolicy) :
    Except ScopeFault (Option Text) :=
  if policy.covers target then s.current.map (·.mangleClass) else .ok none

def parentOf (s : ScopeStack) (scope : Scope) : Option Scope :=
  scope.parent.bind fun id => s.scopes.find? fun other => other.id == id

end ScopeStack

end Posonly
