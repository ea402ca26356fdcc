import Posonly.Delimiter
import Posonly.Proofs.Syntax.Shape

/-!
# What stands above a node

Which class a node belongs to and which format strings are around it can be read off the nodes above
it. `lineages` lists the nodes of a tree in document order, each together with these. It is a plain
recursion that keeps all it has come through, so it says what a walk that keeps less has to agree
with.
-/

open List

namespace Posonly

/-- A node and the nodes above it, the innermost first. -/
structure Lineage where
  above : List Tree
  node : Tree

namespace Tree

mutual

/-- The nodes of a tree in document order with what stands above them. -/
def lineages (above : List Tree) : Tree → List Lineage
  | .node kind range children =>
    ⟨above, .node kind range children⟩ :: lineagesAll (.node kind range children :: above) children

/-- The nodes of some trees that have the same nodes above them. -/
def lineagesAll (above : List Tree) : List Tree → List Lineage
  | [] => []
  | t :: rest => lineages above t ++ lineagesAll above rest

end

theorem lineages_eq (above : List Tree) (t : Tree) :
    t.lineages above = ⟨above, t⟩ :: lineagesAll (t :: above) t.children := by
  cases t
  rw [lineages]
  rfl

theorem mem_lineagesAll {above ts : List Tree} {x : Lineage} :
    x ∈ lineagesAll above ts ↔ ∃ t ∈ ts, x ∈ t.lineages above := by
  induction ts with
  | nil => simp [lineagesAll]
  | cons t ts ih => simp [lineagesAll, ih]

/-- The opening delimiter of a format string that can be read. -/
def delimiter? (source : Text) (n : Tree) : Option Delimiter :=
  if n.kind = .formatString then Delimiter.read? source n.start else none

end Tree

/-- The delimiters of the format strings above a place, outermost first. -/
def delimitersAround (source : Text) (above : List Tree) : List Delimiter :=
  (above.filterMap (Tree.delimiter? source)).reverse

theorem delimitersAround_cons (source : Text) (n : Tree) (above : List Tree) :
    delimitersAround source (n :: above) =
      delimitersAround source above ++ (n.delimiter? source).toList := by
  unfold delimitersAround
  cases hd : n.delimiter? source with
  | none => rw [filterMap_cons_none hd, Option.toList_none, append_nil]
  | some d => rw [filterMap_cons_some hd, reverse_cons, Option.toList_some]

/-- The innermost class above a place, in whichever part of the class the place is. -/
def classAround? (above : List Tree) : Option Tree := above.find? (·.kind = .classDefinition)

/-- The innermost class above a place that has the place in its body. -/
def bodyClass? : List Tree → Option Tree
  | part :: c :: outer =>
    if part.kind = .body ∧ c.kind = .classDefinition then some c else bodyClass? (c :: outer)
  | _ => none

section

variable {inner outer : List Tree} {c : Tree} (hinner : ∀ a ∈ inner, a.kind ≠ .classDefinition)
  (hc : c.kind = .classDefinition)

include hinner hc

theorem classAround?_append : classAround? (inner ++ c :: outer) = some c := by
  have hnone : inner.find? (fun a => decide (a.kind = .classDefinition)) = none :=
    find?_eq_none.mpr fun a ha => by simpa using hinner a ha
  rw [classAround?, find?_append, hnone, find?_cons_of_pos (by simpa using hc)]
  rfl

/-- A place in the body of the innermost class above it belongs to that class. One in another part
of it belongs to the next class outside. -/
theorem bodyClass?_append : bodyClass? (inner ++ c :: outer) =
    if inner.getLast?.any (·.kind = .body) then some c else bodyClass? outer := by
  induction inner with
  | nil =>
    cases outer with
    | nil => rfl
    | cons o outer => simp [bodyClass?, hc]
  | cons a inner ih =>
    have ih := ih fun b hb => hinner b (.tail _ hb)
    -- only the last of the inner nodes is a part of the class
    cases inner with
    | nil => by_cases ha : a.kind = .body <;> simp_all [bodyClass?]
    | cons b inner =>
      have hb : b.kind ≠ .classDefinition := hinner b (by simp)
      rw [getLast?_cons_cons, ← ih]
      simp [bodyClass?, hb]

end

end Posonly
