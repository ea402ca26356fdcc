import Posonly.Archive.Manifest
import Posonly.Files.Host

/-!
# Archives

Before a file is replaced, a copy of it goes into the archive under a name that no other copy has,
and an entry is put at the end of the manifest. To recover is to copy each file back from its
earliest entry, which is the one that was made before any conversion.
-/

namespace Posonly

structure Archive where
  root : Text
deriving DecidableEq, Repr

namespace Archive

def manifestName : Text := "manifest.jsonl"

def manifest (a : Archive) : Text := Path.join a.root manifestName

def copyPath (a : Archive) (archived : Text) : Text := Path.join a.root archived

/-- The name of a copy: that of the file, with a token ahead of its extension. -/
def copyName (file token : Text) : Text := Path.stem file ++ "-" ++ token ++ Path.extension file

end Archive

/-! ## Storing -/

inductive StoreStage where
  | making
  | copying (archived : Text)
  | recording (entry : ArchiveEntry)
  | stored (entry : ArchiveEntry)
  | failed (error : FileError)
deriving DecidableEq, Repr

namespace StoreStage

def action? (a : Archive) (file : Text) : StoreStage → Option FileAction
  | making => some (.makeDirectories a.root)
  | copying archived => some (.copy file (a.copyPath archived))
  | recording entry => some (.append a.manifest (Encoding.utf8.encode entry.line))
  | stored _ | failed _ => none

def advance (directory file : Text) : StoreStage → FileReply → Supply → StoreStage
  | making, .ok _, supply => .copying (Archive.copyName file supply.token)
  | copying archived, .ok _, supply =>
    .recording ⟨Path.resolve directory file, archived, supply.time⟩
  | recording entry, .ok _, _ => .stored entry
  | making, .error e, _ | copying _, .error e, _ | recording _, .error e, _ => .failed e
  | stored entry, _, _ => .stored entry
  | failed e, _, _ => .failed e

/-- The most actions that storing takes. -/
def longest : Nat := 3

end StoreStage

namespace Archive

def storing (a : Archive) (directory file : Text) : Procedure StoreStage where
  action? := StoreStage.action? a file
  advance := StoreStage.advance directory file

variable {m : Type → Type} [Monad m]

def store (a : Archive) (host : Host m) (file : Text) : m StoreStage :=
  (a.storing host.directory file).run host StoreStage.longest .making

end Archive

/-! ## Recovering -/

inductive ArchiveError where
  | file (e : FileError)
  | manifest (path : Text) (fault : ManifestFault)
deriving DecidableEq, Repr

def ArchiveError.message : ArchiveError → Text
  | file e => e.message
  | manifest _ .notJson => "not a JSON text"
  | manifest path (.malformed line) => path ++ ":" ++ Text.ofNat line ++ ": malformed archive entry"

namespace Archive

variable {m : Type → Type} [Monad m]

def act (host : Host m) (action : FileAction) : ExceptT ArchiveError m Bytes :=
  ExceptT.mk do return (← host.perform action).mapError .file

/-- The entries of an archive in the order in which they were put in. An archive without a manifest
has none. -/
def entries (a : Archive) (host : Host m) : ExceptT ArchiveError m (List ArchiveEntry) := do
  let reply : FileReply ← ExceptT.lift (host.perform (.read a.manifest))
  match reply with
  | .error e => if e.cause = .noEntry then return [] else throw (.file e)
  | .ok bytes =>
    match Manifest.read (Encoding.utf8.decode bytes) with
    | .ok entries => return entries
    | .error fault => throw (.manifest a.manifest fault)

def restore (a : Archive) (host : Host m) (entry : ArchiveEntry) : ExceptT ArchiveError m Unit := do
  let _ ← act host (.makeDirectories (Path.dirname entry.file))
  let _ ← act host (.copy (a.copyPath entry.archived) entry.file)

/-- Copies every file back from its earliest entry. -/
def recover (a : Archive) (host : Host m) : ExceptT ArchiveError m (List ArchiveEntry) := do
  let entries := Manifest.earliest (← a.entries host)
  for entry in entries do a.restore host entry
  return entries

end Archive

end Posonly
