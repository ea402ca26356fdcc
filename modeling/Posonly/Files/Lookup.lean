import Posonly.Files.Error
import Posonly.Files.Tree
import Posonly.Path

/-!
# Looking up paths

A path is followed name by name. Whatever it leads through must be a directory, two dots lead to the
directory that holds it, and a link sends the search on to its target. Only the last name of a path
may be one that is not there yet.
-/

namespace Posonly

def longestName : Nat := 255

/-- A path has fewer bytes than this. -/
def pathLimit : Nat := 4096

def linkLimit : Nat := 40

def pathBytes (t : Text) : Nat := (Encoding.utf8.encode t).length

/-- The text that a path keeps: a surrogate without its partner is replaced. -/
def storedText (t : Text) : Text := Encoding.utf8.decode (Encoding.utf8.encode t)

/-- Where a path leads, and what stands there. -/
structure Spot where
  place : Place
  node : Option FileNode
deriving DecidableEq, Repr

/-- How far a path leads without following a link. -/
inductive Walk where
  | arrived (spot : Spot)
  /-- A link was met: from a place, these names are to be followed. -/
  | sentOn (place : Place) (names : List Text)
deriving DecidableEq, Repr

namespace FileTree

/-- Follows names from a place up to the first link. A link at the end is followed only if that is
asked for. -/
def walk (t : FileTree) (followLast : Bool) (place : Place) :
    List Text → Except FileCause Walk
  | [] => .ok (.arrived ⟨place, t.get? place⟩)
  | name :: rest =>
    match t.get? place with
    | none => .error .noEntry
    | some (.file _) | some (.link _) => .error .notDirectory
    | some .directory =>
      if name.isEmpty || name == [Path.dot] then walk t followLast place rest
      else if name == Path.up then walk t followLast place.dropLast rest
      else if longestName < pathBytes name then .error .nameTooLong
      else
        let next := place ++ [name]
        match t.get? next with
        | none => if rest.isEmpty then .ok (.arrived ⟨next, none⟩) else .error .noEntry
        | some (.link target) =>
          if rest.isEmpty && !followLast then .ok (.arrived ⟨next, some (.link target)⟩)
          else
            .ok (.sentOn (if Path.isAbsolute target then [] else place)
              (Path.components target ++ rest))
        | some _ => walk t followLast next rest

/-- Follows names from a place, and so many links at most. -/
def follow (t : FileTree) (followLast : Bool) : Nat → Place → List Text → Except FileCause Spot
  | links, place, names =>
    match t.walk followLast place names with
    | .error cause => .error cause
    | .ok (.arrived spot) => .ok spot
    | .ok (.sentOn place names) =>
      match links with
      | 0 => .error .tooManyLinks
      | links + 1 => follow t followLast links place names

/-- The place that an absolute path without dots names. -/
def placeOf (path : Text) : Place := Path.simplify false path

def locate (t : FileTree) (directory path : Text) (followLast : Bool) : Except FileCause Spot :=
  let path := storedText path
  if path.contains 0 then .error .zeroInPath
  else if path.isEmpty then .error .noEntry
  else if pathLimit ≤ pathBytes path then .error .nameTooLong
  else
    let start := if Path.isAbsolute path then [] else placeOf directory
    t.follow followLast linkLimit start (Path.components path)

def locateNode (t : FileTree) (directory path : Text) (followLast : Bool) :
    Except FileCause (Place × FileNode) := do
  let spot ← t.locate directory path followLast
  match spot.node with
  | some node => return (spot.place, node)
  | none => .error .noEntry

end FileTree

end Posonly
