import Posonly.Files.Action
import Posonly.Syntax.Tree

/-!
# Hosts and procedures

The program works through a host, which looks at files, carries out actions, hands out what must be
new each time, and prints. What runs on a real machine and what runs on a file tree in memory
differs in its host only.

A procedure is a piece of work that takes several actions. It is a state machine: each state says
which action is to come next, and what the action gave leads to the next state. Several procedures
can so be under way at once, their actions in any order.
-/

namespace Posonly

inductive Channel where
  | output
  | error
deriving DecidableEq, Repr, Inhabited

structure Line where
  channel : Channel
  text : Text
deriving DecidableEq, Repr

/-- What an action may use up: a token that no other action has, and the time. -/
structure Supply where
  token : Text
  time : Text
deriving DecidableEq, Repr

structure Host (m : Type → Type) where
  /-- The working directory, an absolute path. -/
  directory : Text
  /-- How many files to work on at once if nobody says. -/
  parallelism : Nat
  parse : Text → Tree
  /-- The kind of what a path leads to, links followed. -/
  kind : Text → m (Except FileError FileKind)
  /-- The names in a directory, and the kind of what each stands for. -/
  list : Text → m (Except FileError (List (Text × FileKind)))
  perform : FileAction → m FileReply
  supply : m Supply
  print : Line → m Unit

/-- A piece of work that takes several actions. -/
structure Procedure (σ : Type) where
  /-- The action that a state asks for; a state without one is an end. -/
  action? : σ → Option FileAction
  /-- Where an action leads that gave a reply. -/
  advance : σ → FileReply → Supply → σ

namespace Procedure

variable {m : Type → Type} [Monad m] {σ : Type}

def step (p : Procedure σ) (host : Host m) (s : σ) : m σ := do
  match p.action? s with
  | none => return s
  | some action =>
    let reply ← host.perform action
    return p.advance s reply (← host.supply)

/-- Carries out so many actions, or fewer if the end comes before. -/
def run (p : Procedure σ) (host : Host m) : Nat → σ → m σ
  | 0, s => pure s
  | n + 1, s => do run p host n (← p.step host s)

end Procedure

end Posonly
