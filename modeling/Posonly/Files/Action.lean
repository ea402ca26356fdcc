import Posonly.Files.Lookup

/-!
# File actions

An action is one request to the file system that happens at once: no other action comes in between.
What each does to a file tree is said here. A failed action leaves the tree as it is, with two
exceptions: directories that were made on the way to one that cannot be made stay, and a copy that
breaks off takes its target away.
-/

namespace Posonly

/-- The requests that tasks make of the file system, by path. -/
inductive FileAction where
  | read (path : Text)
  | makeDirectories (path : Text)
  /-- Copies a file over another, which is made if it is not there. -/
  | copy (source target : Text)
  /-- Puts bytes at the end of a file, which is made if it is not there. -/
  | append (path : Text) (bytes : Bytes)
  | check (path : Text)
  /-- Gives a file new bytes; it is made if it is not there. -/
  | write (path : Text) (bytes : Bytes)
  /-- Moves a file to a path, over whatever file or link is there. -/
  | rename (source target : Text)
  | remove (path : Text)
deriving DecidableEq, Repr

/-- What an action gives: the bytes it reads, if it reads any. -/
abbrev FileReply := Except FileError Bytes

namespace FileTree

/-- A place to write a file to: nothing stands there, or a file does. -/
def locateTarget (t : FileTree) (directory path : Text) : Except FileCause (Place × Bytes) := do
  let spot ← t.locate directory path true
  match spot.node with
  | some (.file bytes) => return (spot.place, bytes)
  | some .directory => .error .isDirectory
  | some (.link _) => .error .tooManyLinks
  | none => return (spot.place, [])

/-! ## Looking -/

def kind (t : FileTree) (directory path : Text) : Except FileError FileKind :=
  match t.locateNode directory path true with
  | .ok (_, node) => .ok node.kind
  | .error cause => .error ⟨cause, "stat", [path]⟩

def list (t : FileTree) (directory path : Text) : Except FileError (List (Text × FileKind)) :=
  match t.locateNode directory path true with
  | .ok (place, .directory) => .ok ((t.children place).map fun (name, n) => (name, n.kind))
  | .ok _ => .error ⟨.notDirectory, "scandir", [path]⟩
  | .error cause => .error ⟨cause, "scandir", [path]⟩

def read (t : FileTree) (directory path : Text) : Except FileError Bytes :=
  match t.locateNode directory path true with
  | .ok (_, .file bytes) => .ok bytes
  | .ok _ => .error ⟨.isDirectory, "read", []⟩
  | .error cause => .error ⟨cause, "open", [path]⟩

/-! ## Changing -/

/-- Makes directories along some names from a place, where they are missing. -/
def makeAlong (t : FileTree) (place : Place) : List Text → Option FileCause × FileTree
  | [] => (none, t)
  | name :: rest =>
    let next := place ++ [name]
    let onTheWay (cause : FileCause) := if rest.isEmpty then cause else .notDirectory
    if longestName < pathBytes name then (some .nameTooLong, t)
    else match t.get? next with
      | none => makeAlong (t.put next .directory) next rest
      | some .directory => makeAlong t next rest
      | some (.file _) => (some (onTheWay .alreadyExists), t)
      | some (.link _) =>
        match t.follow true linkLimit place [name] with
        | .ok ⟨target, some .directory⟩ => makeAlong t target rest
        | .ok ⟨_, some _⟩ => (some (onTheWay .alreadyExists), t)
        | .ok ⟨_, none⟩ | .error .noEntry => (some (onTheWay .noEntry), t)
        | .error cause => (some cause, t)

def makeDirectories (t : FileTree) (directory path : Text) : Option FileCause × FileTree :=
  let path := storedText path
  if path.contains 0 then (some .zeroInPath, t)
  else if pathLimit ≤ pathBytes path then (some .nameTooLong, t)
  else t.makeAlong [] (placeOf (Path.resolve directory path))

/-- Copies a file over another. A copy onto itself does nothing. A directory can be opened like a
file but not copied, and then the target that was opened is taken away again. -/
def copy (t : FileTree) (directory source target : Text) : Option FileCause × FileTree :=
  if source.contains 0 || target.contains 0 then (some .zeroInPath, t)
  else match t.locateNode directory source true, t.locateTarget directory target with
  | .error cause, _ => (some cause, t)
  | _, .error cause => (some cause, t)
  | .ok (origin, .file bytes), .ok (place, _) =>
    if origin == place then (none, t) else (none, t.put place (.file bytes))
  | .ok _, .ok _ =>
    match t.locateNode directory target false with
    | .ok (place, _) => (some .isDirectory, t.erase place)
    | .error _ => (some .isDirectory, t)

/-- Gives a file new bytes, which may depend on the ones it has. -/
def modify (t : FileTree) (directory path : Text) (f : Bytes → Bytes) :
    Option FileCause × FileTree :=
  match t.locateTarget directory path with
  | .ok (place, bytes) => (none, t.put place (.file (f bytes)))
  | .error cause => (some cause, t)

def rename (t : FileTree) (directory source target : Text) : Option FileCause × FileTree :=
  match t.locateNode directory source false, t.locate directory target false with
  | .error cause, _ => (some cause, t)
  | _, .error cause => (some cause, t)
  | .ok _, .ok ⟨_, some .directory⟩ => (some .isDirectory, t)
  | .ok (origin, node), .ok ⟨place, _⟩ => (none, (t.erase origin).put place node)

def remove (t : FileTree) (directory path : Text) : Option FileCause × FileTree :=
  match t.locateNode directory path false with
  | .ok (_, .directory) => (some .isDirectory, t)
  | .ok (place, _) => (none, t.erase place)
  | .error .noEntry => (none, t)
  | .error cause => (some cause, t)

def settled (request : Text) (paths : List Text) :
    Option FileCause × FileTree → FileReply × FileTree
  | (none, t) => (.ok [], t)
  | (some cause, t) => (.error ⟨cause, request, paths⟩, t)

/-- Carries out an action. Paths that are not absolute start at the working directory. -/
def perform (t : FileTree) (directory : Text) : FileAction → FileReply × FileTree
  | .read path => (t.read directory path, t)
  | .check path => ((t.kind directory path).map fun _ => [], t)
  | .makeDirectories path => settled "mkdir" [path] (t.makeDirectories directory path)
  | .copy source target => settled "copyfile" [source, target] (t.copy directory source target)
  | .append path bytes => settled "open" [path] (t.modify directory path (· ++ bytes))
  | .write path bytes => settled "open" [path] (t.modify directory path fun _ => bytes)
  | .rename source target => settled "rename" [source, target] (t.rename directory source target)
  | .remove path => settled "lstat" [path] (t.remove directory path)

end FileTree

end Posonly
