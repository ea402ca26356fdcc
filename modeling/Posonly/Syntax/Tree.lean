import Posonly.Syntax.Kind

/-!
# Syntax trees

A tree gives the shape of a source: each node has a kind, the range of offsets it covers, and its
children in source order. Text between the children of a node belongs to no child.
-/

namespace Posonly

structure Range where
  start : Nat
  stop : Nat
deriving DecidableEq, Repr, Inhabited

inductive Tree where
  | node (kind : Kind) (range : Range) (children : List Tree)
deriving Repr, Inhabited

namespace Tree

def kind : Tree → Kind
  | node kind _ _ => kind

def range : Tree → Range
  | node _ range _ => range

def children : Tree → List Tree
  | node _ _ children => children

def start (t : Tree) : Nat := t.range.start

def stop (t : Tree) : Nat := t.range.stop

def child? (t : Tree) (k : Kind) : Option Tree :=
  t.children.find? (·.kind = k)

mutual

/-- All nodes of a tree in document order, a node ahead of its children. -/
def preorder : Tree → List Tree
  | node kind range children => node kind range children :: preorderAll children

def preorderAll : List Tree → List Tree
  | [] => []
  | t :: ts => preorder t ++ preorderAll ts

end

def errors (t : Tree) : List Range :=
  (t.preorder.filter (·.kind = .error)).map range

end Tree

end Posonly
