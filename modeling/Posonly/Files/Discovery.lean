import Posonly.Files.Host

/-!
# Discovery of sources

Files and directories are expanded to the Python sources they hold. Directories are searched to any
depth, but symbolic links in them are passed over.
-/

namespace Posonly

def sourceExtensions : List Text := [".py", ".pyw"]

def isSource (file : Text) : Bool := sourceExtensions.contains (Path.extension file).lower

structure SourceList where
  /-- The sources, in order and each once. -/
  files : List Text := []
  missing : List Text := []
deriving DecidableEq, Repr

def Text.precedes : Text → Text → Bool
  | _, [] => false
  | [], _ :: _ => true
  | u :: t, v :: s => u < v || (u == v && precedes t s)

def Text.insertSorted (t : Text) : List Text → List Text
  | [] => [t]
  | s :: rest =>
    if t == s then s :: rest
    else if t.precedes s then t :: s :: rest
    else s :: insertSorted t rest

def SourceList.add (l : SourceList) (files : List Text) : SourceList :=
  { l with files := files.foldl (fun found file => file.insertSorted found) l.files }

def SourceList.addMissing (l : SourceList) (path : Text) : SourceList :=
  { l with missing := l.missing ++ [path] }

def FileError.isMissing (e : FileError) : Bool :=
  e.cause == .noEntry || e.cause == .notDirectory

section

variable {m : Type → Type} [Monad m]

/-- The sources in a directory and below it, down to a depth. -/
def sourcesBelow (host : Host m) : Nat → Text → ExceptT FileError m (List Text)
  | 0, _ => pure []
  | depth + 1, directory => do
    let entries ← ExceptT.mk (host.list directory)
    entries.foldlM (fun found (name, kind) => do
      let path := Path.join directory name
      match kind with
      | .link => pure found
      | .directory => return found ++ (← sourcesBelow host depth path)
      | .file => return if isSource path then found ++ [path] else found) []

/-- Takes in a path. Each level below a directory makes the path longer, so the limit on paths is
depth enough. -/
def SourceList.addPath (host : Host m) (l : SourceList) (path : Text) :
    ExceptT FileError m SourceList := do
  let kind : Except FileError FileKind ← ExceptT.lift (host.kind path)
  match kind with
  | .error e => if e.isMissing then return l.addMissing path else throw e
  | .ok .directory => return l.add (← sourcesBelow host pathLimit path)
  | .ok _ => return if isSource path then l.add [Path.normalize path] else l

def findSources (host : Host m) (paths : List Text) : m (Except FileError SourceList) :=
  (paths.foldlM (SourceList.addPath host) ({} : SourceList)).run

end

end Posonly
