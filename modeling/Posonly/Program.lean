import Posonly.CommandLine
import Posonly.Files.Discovery
import Posonly.Report

/-!
# The program

The program reads its arguments, does what they ask for, and ends with a code: zero if all went
well, one if some file was not converted, two if the arguments cannot be followed.
-/

namespace Posonly

inductive ProgramError where
  | option (e : OptionError)
  | file (e : FileError)
  | archive (e : ArchiveError)

def ProgramError.message : ProgramError → Text
  | option e => e.message
  | file e => e.message
  | archive e => e.message

namespace Program

variable {m : Type → Type} [Monad m]

def print (host : Host m) (lines : List Line) : m Unit := lines.forM host.print

/-- How the files of a run are converted. A dry run has no archive. -/
def batchOptions (host : Host m) (o : CommandLine.RunOptions) : BatchOptions where
  values := o.values
  encoding := o.encoding
  archive :=
    if o.archive && !o.dryRun then some ⟨Path.resolve host.directory o.archivePath⟩ else none
  dryRun := o.dryRun
  concurrency := o.concurrency.getD (.limit host.parallelism)
  failFast := o.failFast

/-- Prints what became of a file, unless the run is quiet. -/
def report (host : Host m) (o : CommandLine.RunOptions) : Batch.Hook m := fun _ outcome => do
  match outcome with
  | .ok outcome => if o.quiet then pure () else print host (Report.outcome o.dryRun outcome)
  | .error _ => pure ()
  return false

def conclude (host : Host m) (o : CommandLine.RunOptions) (s : BatchSummary) : m Nat := do
  print host (s.failed.map fun (file, e) => Report.failure file e)
  if !o.quiet || !s.failed.isEmpty then print host [Report.totals s]
  return if s.failed.isEmpty && s.skipped.isEmpty then 0 else 1

def convert (host : Host m) (o : CommandLine.RunOptions) : m (Except ProgramError Nat) := do
  match ← findSources host o.paths with
  | .error e => return .error (.file e)
  | .ok sources =>
    print host (sources.missing.map Report.missing)
    if sources.files.isEmpty then
      print host [Report.fatal "no valid source file found"]
      return .ok 2
    else
      let batch ← Batch.run host (report host o) sources.files (batchOptions host o) false
      return .ok (← conclude host o batch.summary)

def recover (host : Host m) (archivePath : Text) (quiet : Bool) : m (Except ProgramError Nat) := do
  match ← (Archive.recover ⟨Path.resolve host.directory archivePath⟩ host).run with
  | .error e => return .error (.archive e)
  | .ok restored =>
    if !quiet then print host (restored.map Report.recovered)
    print host [Report.recoveredTotal restored.length archivePath]
    return .ok 0

def execute (host : Host m) : CommandLine.Command → m (Except ProgramError Nat)
  | .help => do
    print host [Report.say (CommandLine.help host.directory)]
    return .ok 0
  | .version => do
    print host [Report.say CommandLine.programVersion]
    return .ok 0
  | .recover archivePath quiet => recover host archivePath quiet
  | .run options => convert host options

/-- Runs the program: gives its code, or the error that broke it off. -/
def run (host : Host m) (args : List Text) (env : Environment) : m (Except ProgramError Nat) := do
  match CommandLine.read args env host.directory with
  | .ok command => execute host command
  | .error e =>
    if e.problem = .hugeWidth then return .error (.option e)
    else
      print host [Report.fatal e.message, Report.remark "Run with --help for usage."]
      return .ok 2

end Program

end Posonly
