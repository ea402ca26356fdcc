import Posonly.Text.Encoding

/-!
# File trees

A file tree says what stands at each place: a file with its bytes, a directory, or a symbolic link.
A place is given by the names that lead to it from the root, so it has no links and no dots in it.
-/

namespace Posonly

inductive FileKind where
  | file
  | directory
  | link
deriving DecidableEq, Repr, Inhabited

inductive FileNode where
  | file (bytes : Bytes)
  | directory
  | link (target : Text)
deriving DecidableEq, Repr, Inhabited

def FileNode.kind : FileNode → FileKind
  | .file _ => .file
  | .directory => .directory
  | .link _ => .link

/-- The names that lead to a place from the root. -/
abbrev Place := List Text

/-- What stands at each place other than the root, which is a directory. -/
structure FileTree where
  nodes : List (Place × FileNode) := []
deriving DecidableEq, Repr, Inhabited

namespace FileTree

def get? (t : FileTree) (p : Place) : Option FileNode :=
  if p.isEmpty then some .directory else (t.nodes.find? fun entry => entry.1 == p).map (·.2)

def put (t : FileTree) (p : Place) (n : FileNode) : FileTree :=
  ⟨t.nodes.filter (fun entry => entry.1 != p) ++ [(p, n)]⟩

def erase (t : FileTree) (p : Place) : FileTree :=
  ⟨t.nodes.filter fun entry => entry.1 != p⟩

def children (t : FileTree) (p : Place) : List (Text × FileNode) :=
  t.nodes.filterMap fun (place, n) =>
    match place.getLast? with
    | some name => if place.dropLast == p then some (name, n) else none
    | none => none

end FileTree

end Posonly
