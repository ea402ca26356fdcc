import Posonly.Signature.Extraction

/-!
# All signatures of a source

A flat list of the signatures of a tree, in document order and at any depth, each with what is
extracted from it.
-/

namespace Posonly.Signature

/-- A signature and what is extracted from it. -/
structure Finding where
  target : Target
  start : Nat
  result : Except MarkerFault (Option Extraction)

/-- What is extracted from a node, if it has a signature: a function has one if it has a parameter
list, a lambda always. -/
def finding? (source : Text) (scope : ScopeKind) (node : Tree) : Option Finding :=
  if node.kind = .functionDefinition then
    (node.child? .paramList).map fun params =>
      ⟨.function, node.start, extractFunction source params scope⟩
  else if node.kind = .lambdaExpression then
    some ⟨.lambda, node.start, extractLambda source node scope⟩
  else none

def survey (source : Text) (scope : ScopeKind) (tree : Tree) : List Finding :=
  tree.preorder.filterMap (finding? source scope)

end Posonly.Signature
