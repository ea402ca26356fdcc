import Posonly.Files.Host

/-!
# Hosts in memory

A host whose files are a file tree. It can be told which of the coming actions fail.
-/

namespace Posonly

structure Fault where
  error : FileError
  /-- What a failed write leaves in the file, if it leaves anything. -/
  leftover : Option Bytes := none
deriving DecidableEq, Repr

/-- Everything that a host in memory can change. -/
structure World where
  tree : FileTree
  /-- Which of the coming actions fail; those beyond the list do not. -/
  faults : List (Option Fault) := []
  supplied : Nat := 0
  printed : List Line := []
deriving DecidableEq, Repr

structure Premises where
  directory : Text
  parallelism : Nat := 1
  parse : Text → Tree
  /-- The supplies, in the order in which they are handed out. -/
  supply : Nat → Supply

namespace World

def afterFault (w : World) (directory : Text) (action : FileAction) (f : Fault) : FileTree :=
  match action, f.leftover with
  | .write path _, some bytes => (w.tree.modify directory path fun _ => bytes).2
  | _, _ => w.tree

def perform (w : World) (directory : Text) (action : FileAction) : FileReply × World :=
  let rest := { w with faults := w.faults.drop 1 }
  match w.faults.head?.join with
  | some f => (.error f.error, { rest with tree := w.afterFault directory action f })
  | none =>
    let (reply, tree) := w.tree.perform directory action
    (reply, { rest with tree })

end World

def Premises.host (p : Premises) : Host (StateM World) where
  directory := p.directory
  parallelism := p.parallelism
  parse := p.parse
  kind path := fun w => (w.tree.kind p.directory path, w)
  list path := fun w => (w.tree.list p.directory path, w)
  perform action := fun w => w.perform p.directory action
  supply := fun w => (p.supply w.supplied, { w with supplied := w.supplied + 1 })
  print line := fun w => ((), { w with printed := w.printed ++ [line] })

end Posonly
