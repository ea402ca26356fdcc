import Posonly.Archive.Store
import Posonly.Conversion.Convert

/-!
# Conversion of one file

A file is read and converted. If that changes it, it is stored in the archive, the new bytes go to a
temporary file beside it, and the temporary file is moved over it. So the file has either its old
bytes or all of the new ones. If writing or moving fails, the temporary file is taken away again.
-/

namespace Posonly

structure TaskOptions where
  values : OptionValues := {}
  encoding : Encoding := .utf8
  /-- Where files are stored before they are replaced. -/
  archive : Option Archive := none
  /-- Whether nothing is to be written. -/
  dryRun : Bool := false
deriving DecidableEq, Repr

structure FileOutcome where
  file : Text
  state : Conversion.State
  source : Text
  edits : List Edit
  written : Bool
  archived : Option ArchiveEntry := none
deriving DecidableEq, Repr

inductive TaskError where
  | file (e : FileError)
  | conversion (e : Conversion.Error)

structure Task where
  file : Text
  options : TaskOptions
  directory : Text
  parse : Text → Tree

structure Replacement where
  source : Text
  result : Conversion.Result
  archived : Option ArchiveEntry
  temporary : Text

inductive Stage where
  | reading
  | archiving (source : Text) (result : Conversion.Result) (stage : StoreStage)
  | checking (r : Replacement)
  | writing (r : Replacement)
  | moving (r : Replacement)
  /-- The temporary file is to be taken away after an error. -/
  | cleaning (r : Replacement) (error : FileError)
  | finished (outcome : Except TaskError FileOutcome)

namespace Task

/-- The path of the temporary file, which lies beside the file. -/
def temporaryPath (t : Task) (token : Text) : Text :=
  Path.join (Path.dirname t.file) ("." ++ Path.basename t.file ++ "." ++ token ++ ".tmp")

def bytes (t : Task) (r : Replacement) : Bytes := t.options.encoding.encode r.result.text

def action? (t : Task) : Stage → Option FileAction
  | .reading => some (.read t.file)
  | .archiving _ _ stage =>
    t.options.archive.bind fun archive => stage.action? archive t.file
  | .checking _ => some (.check t.file)
  | .writing r => some (.write r.temporary (t.bytes r))
  | .moving r => some (.rename r.temporary t.file)
  | .cleaning r _ => some (.remove r.temporary)
  | .finished _ => none

def failed (e : FileError) : Stage := .finished (.error (.file e))

/-- Where a conversion leads that changes nothing, or is to write nothing. -/
def unwritten (t : Task) (source : Text) (result : Conversion.Result) : Stage :=
  .finished (.ok
    { file := t.file, state := result.state, source, edits := result.edits, written := false })

def written (t : Task) (r : Replacement) : Stage :=
  .finished (.ok
    { file := t.file, state := r.result.state, source := r.source, edits := r.result.edits
      written := true, archived := r.archived })

def replace (t : Task) (source : Text) (result : Conversion.Result) (archived : Option ArchiveEntry)
    (supply : Supply) : Stage :=
  .checking ⟨source, result, archived, t.temporaryPath supply.token⟩

def converted (t : Task) (source : Text) (supply : Supply) : Stage :=
  match Conversion.convert t.parse source { t.options.values with filename := some t.file } with
  | .error e => .finished (.error (.conversion e))
  | .ok result =>
    if result.state = .unchanged ∨ t.options.dryRun then t.unwritten source result
    else if t.options.archive.isSome then .archiving source result .making
    else t.replace source result none supply

def advance (t : Task) : Stage → FileReply → Supply → Stage
  | .reading, .ok bytes, supply => t.converted (t.options.encoding.decode bytes) supply
  | .reading, .error e, _ => failed e
  | .archiving source result stage, reply, supply =>
    match stage.advance t.directory t.file reply supply with
    | .stored entry => t.replace source result (some entry) supply
    | .failed e => failed e
    | stage => .archiving source result stage
  | .checking r, .ok _, _ => .writing r
  | .checking _, .error e, _ => failed e
  | .writing r, .ok _, _ => .moving r
  | .moving r, .ok _, _ => t.written r
  | .writing r, .error e, _ | .moving r, .error e, _ => .cleaning r e
  | .cleaning _ e, .ok _, _ => failed e
  | .cleaning _ _, .error e, _ => failed e
  | .finished outcome, _, _ => .finished outcome

def procedure (t : Task) : Procedure Stage where
  action? := t.action?
  advance := t.advance

/-- The most actions that the conversion of a file takes: reading, storing, checking, writing,
moving and cleaning. -/
def longest : Nat := 5 + StoreStage.longest

variable {m : Type → Type} [Monad m]

def run (t : Task) (host : Host m) : m Stage := t.procedure.run host longest .reading

end Task

def Stage.outcome? : Stage → Option (Except TaskError FileOutcome)
  | .finished outcome => some outcome
  | _ => none

end Posonly
