import Posonly.Syntax.Tree

/-!
# Records of a parse

While it runs, the parser notes the nodes that it makes in a flat list, each after the nodes it
holds. A record says how many records its node takes up, itself included, so the list can be folded
into a tree at the end. Among the nodes stand records without a node, which keep two nodes apart
that would otherwise be taken as neighbours.
-/

namespace Posonly.Parser

inductive Mark where
  | node (kind : Kind)
  /-- Two stretches of a repetition, joined; no node of the tree. -/
  | stretch
  /-- The surroundings of the text have changed. -/
  | layout
  /-- The text has been looked at far ahead. -/
  | ahead
deriving DecidableEq, Repr, Inhabited

structure Record where
  mark : Mark
  start : Nat
  stop : Nat
  /-- How many records the node takes up. -/
  size : Nat := 1
deriving Repr, Inhabited

namespace Record

def isNode (r : Record) : Bool :=
  match r.mark with
  | .node _ | .stretch => true
  | .layout | .ahead => false

def isError (r : Record) : Bool := r.mark == .node .error

/-- Splits off, from the newest on, as many trees as make up a number of records. -/
def takeRecords : Nat → List (Nat × List Tree) → List Tree → List Tree × List (Nat × List Tree)
  | _, [], taken => (taken, [])
  | 0, rest, taken => (taken, rest)
  | n + 1, (size, trees) :: rest, taken => takeRecords (n + 1 - size) rest (trees ++ taken)

/-- Folds records, oldest first, into trees; what has been folded so far is kept newest first, with
the number of records that each part takes up. -/
def foldTrees : List Record → List (Nat × List Tree) → List Tree
  | [], done => done.reverse.flatMap (·.2)
  | r :: rest, done =>
    let (children, before) := takeRecords (r.size - 1) done []
    match r.mark with
    | .node kind => foldTrees rest ((r.size, [.node kind ⟨r.start, r.stop⟩ children]) :: before)
    | .stretch => foldTrees rest ((r.size, children) :: before)
    | .layout | .ahead => foldTrees rest ((1, []) :: done)

end Record

end Posonly.Parser
