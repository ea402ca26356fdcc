import Posonly.Batch.Task
import Posonly.Pool

/-!
# Conversion of many files

A batch converts files, a bounded number at once. The tasks of files that are under way can act in
any order, so a run of a batch is a sequence of events: a task acts, the pool learns that a task has
ended, or the batch is aborted.
-/

namespace Posonly

structure BatchOptions extends TaskOptions where
  concurrency : Concurrency
  /-- Whether no file is to be started after the first failure. -/
  failFast : Bool := false

inductive BatchEvent where
  /-- A task carries out its next action. -/
  | act (index : Nat)
  /-- The pool learns that a task has ended. -/
  | settle (index : Nat)
  | abort
deriving DecidableEq, Repr

/-- What happens in a batch, in more detail: the worker of a task goes on some time after the task
has ended, and in between there may be other moves. -/
inductive BatchMove where
  | act (index : Nat)
  | finish (index : Nat)
  | resume (worker : Nat)
  | abort
deriving DecidableEq, Repr

/-- A batch that is under way. Files are known by their index. -/
structure Batch where
  tasks : List Task
  stages : List Stage
  pool : Pool FileOutcome TaskError

/-- What became of the files of a batch, each list in the order of the files. -/
structure BatchSummary where
  converted : List FileOutcome := []
  unchanged : List FileOutcome := []
  failed : List (Text × TaskError) := []
  skipped : List Text := []

namespace BatchSummary

/-- Puts what became of a file ahead of what became of others. -/
def add (s : BatchSummary) (task : Task) : Outcome FileOutcome TaskError → BatchSummary
  | .settled (.fulfilled o) =>
    if o.state = .assembled then { s with converted := o :: s.converted }
    else { s with unchanged := o :: s.unchanged }
  | .settled (.rejected e) => { s with failed := (task.file, e) :: s.failed }
  | .skipped => { s with skipped := task.file :: s.skipped }

def of (results : List (Task × Outcome FileOutcome TaskError)) : BatchSummary :=
  results.foldr (fun (task, outcome) s => s.add task outcome) {}

end BatchSummary

def settlementOf : Except TaskError FileOutcome → Settlement FileOutcome TaskError
  | .ok outcome => .fulfilled outcome
  | .error e => .rejected e

namespace Batch

/-- Starts a batch, which may be aborted from the beginning. -/
def start (files : List Text) (options : BatchOptions) (directory : Text) (parse : Text → Tree)
    (aborted : Bool) : Batch where
  tasks := files.map fun file => ⟨file, options.toTaskOptions, directory, parse⟩
  stages := files.map fun _ => .reading
  pool := .start options.concurrency files.length options.failFast aborted

def outcome? (b : Batch) (index : Nat) : Option (Except TaskError FileOutcome) :=
  (b.stages[index]?).bind Stage.outcome?

def settle (b : Batch) (index : Nat) : Batch :=
  match b.outcome? index with
  | some outcome =>
    if b.pool.isRunning index then { b with pool := b.pool.settle index (settlementOf outcome) }
    else b
  | none => b

def abort (b : Batch) : Batch := { b with pool := b.pool.abort }

def summary (b : Batch) : BatchSummary := .of (b.tasks.zip b.pool.outcomes)

def startedSince (b : Batch) (count : Nat) : List Nat := b.pool.started.drop count

variable {m : Type → Type} [Monad m]

def act (b : Batch) (host : Host m) (index : Nat) : m Batch := do
  match b.tasks[index]?, b.stages[index]? with
  | some task, some stage =>
    if b.pool.isRunning index then
      let stage ← task.procedure.step host stage
      return { b with stages := b.stages.set index stage }
    else return b
  | _, _ => return b

def handle (host : Host m) (b : Batch) : BatchEvent → m Batch
  | .act index => b.act host index
  | .settle index => return b.settle index
  | .abort => return b.abort

def handleAll (host : Host m) (b : Batch) (events : List BatchEvent) : m Batch :=
  events.foldlM (handle host) b

/-- Hears of each task that has ended, before the pool does. The answer says whether to abort. -/
abbrev Hook (m : Type → Type) := Task → Except TaskError FileOutcome → m Bool

def tell (hook : Hook m) (b : Batch) (index : Nat) : m Batch := do
  match b.tasks[index]?, b.outcome? index with
  | some task, some outcome => if ← hook task outcome then return b.abort else return b
  | _, _ => return b

/-- A running task that has ended is told of, first to the hook and then to the pool. -/
def finish (hook : Hook m) (b : Batch) (index : Nat) : m Batch := do
  match b.outcome? index with
  | some outcome =>
    if b.pool.isRunning index then
      let b ← b.tell hook index
      return { b with pool := b.pool.finish index (settlementOf outcome) }
    else return b
  | none => return b

def move (host : Host m) (hook : Hook m) (b : Batch) : BatchMove → m Batch
  | .act index => b.act host index
  | .finish index => b.finish hook index
  | .resume worker => return { b with pool := b.pool.resume worker }
  | .abort => return b.abort

def moveAll (host : Host m) (hook : Hook m) (b : Batch) (moves : List BatchMove) : m Batch :=
  moves.foldlM (move host hook) b

/-- Runs a batch for so many actions, or fewer if the end comes before. The tasks that are under way
take turns. -/
def drive (host : Host m) (hook : Hook m) : Nat → List Nat → Batch → m Batch
  | 0, _, b => pure b
  | _ + 1, [], b => pure b
  | n + 1, index :: waiting, b => do
    let b ← b.act host index
    if (b.outcome? index).isNone then drive host hook n (waiting ++ [index]) b
    else
      let before := b.pool.started.length
      let b := (← b.tell hook index).settle index
      drive host hook n (waiting ++ b.startedSince before) b

def run (host : Host m) (hook : Hook m) (files : List Text) (options : BatchOptions)
    (aborted : Bool) : m Batch :=
  let b := start files options host.directory host.parse aborted
  drive host hook (Task.longest * files.length) (b.startedSince 0) b

end Batch

end Posonly
