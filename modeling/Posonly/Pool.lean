import Posonly.Options.Value

/-!
# A bounded pool of tasks

A pool runs one task for each item of a list, a bounded number at a time. Each worker takes the next
item, runs its task, and comes back for another one. After a stop (the pool is aborted, or a task
has failed and the pool is to fail fast) no worker takes a further item, but tasks that run go on to
their end.

The tasks themselves are not part of a pool: it only learns when one has ended. If its worker goes
on at once, a run of a pool is a sequence of steps: the task of an item is settled, or the pool is
aborted. But a worker may take note some time later, and other tasks may end in between. Then a run
is a sequence of events: a task ends, a worker goes on, or the pool is aborted.
-/

namespace Posonly

inductive Settlement (α ε : Type) where
  | fulfilled (value : α)
  | rejected (reason : ε)
deriving DecidableEq, Repr

def Settlement.isRejected {α ε : Type} : Settlement α ε → Bool
  | .fulfilled _ => false
  | .rejected _ => true

inductive Outcome (α ε : Type) where
  | settled (s : Settlement α ε)
  | skipped
deriving DecidableEq, Repr

/-- The number of workers for a number of items: as many as allowed, at least one, and no more than
there are items. -/
def Concurrency.workers (c : Concurrency) (items : Nat) : Nat :=
  match c with
  | .limit n => max 1 (min n.floor.toNat items)
  | .unlimited => max 1 items

/-- What a worker of a pool is doing. Items are known by their index. -/
inductive Worker (α ε : Type) where
  | fresh
  | busy (index : Nat)
  /-- Its task has ended, which it has yet to take note of. -/
  | back (index : Nat) (s : Settlement α ε)
  | gone
deriving DecidableEq, Repr

namespace Worker

variable {α ε : Type}

def isBusy (index : Nat) : Worker α ε → Bool
  | .busy other => other == index
  | _ => false

/-- Whether a worker can go on. -/
def isPending : Worker α ε → Bool
  | .fresh | .back _ _ => true
  | .busy _ | .gone => false

def isGone : Worker α ε → Bool
  | .gone => true
  | _ => false

end Worker

structure Pool (α ε : Type) where
  size : Nat
  /-- Whether the first failed task stops the pool. -/
  failFast : Bool
  aborted : Bool
  /-- Whether a worker has seen its task fail. -/
  failed : Bool := false
  next : Nat := 0
  workers : List (Worker α ε)
  /-- The items whose tasks have been started, in the order in which they were. -/
  started : List Nat := []
  /-- How tasks have ended, as far as their workers have taken note. -/
  noted : List (Nat × Settlement α ε) := []

inductive PoolEvent (α ε : Type) where
  | finish (index : Nat) (s : Settlement α ε)
  | resume (worker : Nat)
  | abort
deriving DecidableEq, Repr

/-- What happens to a pool whose workers go on at once. -/
inductive PoolStep (α ε : Type) where
  | settle (index : Nat) (s : Settlement α ε)
  | abort
deriving DecidableEq, Repr

namespace Pool

variable {α ε : Type}

/-- A pool whose workers have all to begin. -/
def waiting (concurrency : Concurrency) (size : Nat) (failFast aborted : Bool) : Pool α ε where
  size
  failFast
  aborted
  workers := List.replicate (concurrency.workers size) .fresh

def stopped (p : Pool α ε) : Bool := p.aborted || (p.failFast && p.failed)

def put (p : Pool α ε) (worker : Nat) (w : Worker α ε) : Pool α ε :=
  { p with workers := p.workers.set worker w }

/-- A worker takes the next item, if it may and there is one, and starts its task. -/
def take (p : Pool α ε) (worker : Nat) : Pool α ε :=
  if p.stopped then p.put worker .gone
  else if p.next < p.size then
    { p.put worker (.busy p.next) with next := p.next + 1, started := p.started ++ [p.next] }
  else { p.put worker .gone with next := p.next + 1 }

def note (p : Pool α ε) (index : Nat) (s : Settlement α ε) : Pool α ε :=
  { p with noted := p.noted ++ [(index, s)], failed := p.failed || s.isRejected }

/-- A worker goes on, if it is not waiting for a task. -/
def resume (p : Pool α ε) (worker : Nat) : Pool α ε :=
  match p.workers[worker]? with
  | some .fresh => p.take worker
  | some (.back index s) => (p.note index s).take worker
  | _ => p

def workerOn? (p : Pool α ε) (index : Nat) : Option Nat :=
  p.workers.findIdx? (Worker.isBusy index)

/-- The task of an item ends, if it is running. -/
def finish (p : Pool α ε) (index : Nat) (s : Settlement α ε) : Pool α ε :=
  match p.workerOn? index with
  | some worker => p.put worker (.back index s)
  | none => p

def abort (p : Pool α ε) : Pool α ε := { p with aborted := true }

def isRunning (p : Pool α ε) (index : Nat) : Bool := p.workers.any (Worker.isBusy index)

/-- Whether a worker can go on. -/
def isPending (p : Pool α ε) : Bool := p.workers.any Worker.isPending

def isFinished (p : Pool α ε) : Bool := p.workers.all Worker.isGone

/-- How a task ended, if its worker has taken note of that. -/
def settlement? (p : Pool α ε) (index : Nat) : Option (Settlement α ε) :=
  (p.noted.find? fun entry => entry.1 == index).map (·.2)

def outcomes (p : Pool α ε) : List (Outcome α ε) :=
  (List.range p.size).map fun index =>
    match p.settlement? index with
    | some s => .settled s
    | none => .skipped

/-! ## Events -/

def allows (p : Pool α ε) : PoolEvent α ε → Bool
  | .finish index _ => p.isRunning index
  | .resume worker => (p.workers[worker]?).any Worker.isPending
  | .abort => true

def handle (p : Pool α ε) : PoolEvent α ε → Pool α ε
  | .finish index s => p.finish index s
  | .resume worker => p.resume worker
  | .abort => p.abort

/-- A pool whose workers have taken their first items. -/
def start (concurrency : Concurrency) (size : Nat) (failFast aborted : Bool) : Pool α ε :=
  (List.range (concurrency.workers size)).foldl resume
    (waiting concurrency size failFast aborted)

/-- A running task ends, and its worker goes on at once. -/
def settle (p : Pool α ε) (index : Nat) (s : Settlement α ε) : Pool α ε :=
  match p.workerOn? index with
  | some worker => (p.put worker (.back index s)).resume worker
  | none => p

/-- What a step does, if it can happen: only a running task is settled. -/
def step? (p : Pool α ε) : PoolStep α ε → Option (Pool α ε)
  | .settle index s => if p.isRunning index then some (p.settle index s) else none
  | .abort => some p.abort

def stepAll? (p : Pool α ε) (steps : List (PoolStep α ε)) : Option (Pool α ε) :=
  steps.foldlM step? p

end Pool

end Posonly
