import Posonly.Clock
import Posonly.Parser.Parse
import Posonly.Program
import Std.Time.DateTime.Timestamp

/-!
# The program on a real machine

The host that works on the files of the machine, and the entry point.
-/

namespace Posonly.Machine

def string (t : Text) : String := (storedText t).toString?.getD ""

/-- The cause of an error, by its number where the kind of error is too wide. -/
def causeOf : IO.Error → FileCause
  | .noFileOrDirectory .. => .noEntry
  | .alreadyExists .. => .alreadyExists
  | .inappropriateType _ 20 _ => .notDirectory
  | .inappropriateType _ 21 _ => .isDirectory
  | .invalidArgument _ 36 _ => .nameTooLong
  | .invalidArgument _ 40 _ => .tooManyLinks
  | e => .other "EIO" (toString e)

def attempt {α : Type} (request : Text) (paths : List Text) (work : IO α) :
    IO (Except FileError α) := do
  try
    return .ok (← work)
  catch e =>
    return .error ⟨causeOf e, request, paths⟩

def kindOf : IO.FS.FileType → FileKind
  | .dir => .directory
  | .symlink => .link
  | _ => .file

def kind (path : Text) : IO (Except FileError FileKind) :=
  attempt "stat" [path] do
    let root ← IO.currentDir
    return kindOf (← (root / string path).metadata).type

def list (path : Text) : IO (Except FileError (List (Text × FileKind))) :=
  attempt "scandir" [path] do
    let root ← IO.currentDir
    let entries ← (root / string path).readDir
    entries.toList.mapM fun entry => do
      return (Text.ofString entry.fileName, kindOf (← entry.path.symlinkMetadata).type)

def readBytes (path : Text) : IO Bytes := do
  return (← IO.FS.readBinFile (string path)).toList

def writeBytes (path : Text) (bytes : Bytes) : IO Unit :=
  IO.FS.writeBinFile (string path) ⟨bytes.toArray⟩

def perform : FileAction → IO FileReply
  | .read path => attempt "open" [path] (readBytes path)
  | .makeDirectories path =>
    attempt "mkdir" [path] do
      IO.FS.createDirAll (string path)
      return []
  | .copy source target =>
    attempt "copyfile" [source, target] do
      writeBytes target (← readBytes source)
      return []
  | .append path bytes =>
    attempt "open" [path] do
      let handle ← IO.FS.Handle.mk (string path) .append
      handle.write ⟨bytes.toArray⟩
      handle.flush
      return []
  | .check path => do return (← kind path).map fun _ => []
  | .write path bytes =>
    attempt "open" [path] do
      writeBytes path bytes
      return []
  | .rename source target =>
    attempt "rename" [source, target] do
      IO.FS.rename (string source) (string target)
      return []
  | .remove path => do
    match ← attempt "unlink" [path] (IO.FS.removeFile (string path)) with
    | .ok () => return .ok []
    | .error e => return if e.cause = .noEntry then .ok [] else .error e

/-- A random token: 32 hexadecimal digits in five groups, two of them fixed by the format. -/
def token : IO Text := do
  let bytes := (← IO.getRandomBytes 16).toList
  let digits := bytes.flatMap fun b => [b.toNat / 16, b.toNat % 16]
  let digits := (digits.set 12 4).set 16 (8 + (digits.getD 16 0) % 4)
  let shown := digits.map Text.hexDigit
  let group (start stop : Nat) : Text := Text.slice shown start stop
  return Text.joined "-" [group 0 8, group 8 12, group 12 16, group 16 20, group 20 32]

def supply : IO Supply := do
  let now ← Std.Time.Timestamp.now
  return ⟨← token, Clock.text now.toMillisecondsSinceUnixEpoch.val.toNat⟩

def print (line : Line) : IO Unit := do
  let stream ← match line.channel with
    | .output => IO.getStdout
    | .error => IO.getStderr
  stream.putStrLn (string line.text)

def parallelism : Nat := 4

def host : IO (Host IO) := do
  let root ← IO.currentDir
  return {
    directory := Text.ofString root.toString
    parallelism
    parse := Parser.parse Parser.python
    kind, list, perform, supply, print }

def environment : IO Environment := do
  let found ← Environment.names.mapM fun name => do
    return (← IO.getEnv (string name)).map fun value => (name, Text.ofString value)
  return found.filterMap id

end Posonly.Machine

def main (args : List String) : IO UInt32 := do
  let host ← Posonly.Machine.host
  let env ← Posonly.Machine.environment
  match ← Posonly.Program.run host (args.map Posonly.Text.ofString) env with
  | .ok code => return code.toUInt32
  | .error e =>
    host.print ⟨.error, e.message⟩
    return 1
