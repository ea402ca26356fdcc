import Posonly.Automaton.Core

/-!
# Parser states

A state is a core together with the tokens that may follow each item of its kernel. States that
differ in lookahead only are kept apart here and merged later, where they behave alike.
-/

namespace Posonly.Automaton

open Posonly.Grammar

structure State where
  core : Nat
  /-- Targets of shifts, by token. -/
  shifts : Array (Nat × Nat)
  /-- Productions to reduce, by token. -/
  reduces : Array (Nat × Nat)
  /-- Targets after a reduction, by rule. -/
  gotos : Array (Nat × Nat)
  /-- Where each move of the core leads, whether or not it is ever taken. -/
  targets : Array Nat
  /-- The production reduced whatever comes next, if there is only that to do. -/
  default : Option Nat
deriving Inhabited

def Core.lookahead (c : Core) (kernelAhead : Array TokenSet) : Array TokenSet := Id.run do
  let mut ahead : Array TokenSet := Array.replicate c.opened.size {}
  for (r, tokens, passed) in c.seeds do
    let given := match passed with
      | some j => tokens.union kernelAhead[j]!
      | none => tokens
    ahead := ahead.modify r (·.union given)
  -- Lookahead passes along a chain of rules of at most this length.
  for _ in [0:c.opened.size + 1] do
    let mut changed := false
    for h : r in [0:c.links.size] do
      let own := ahead[r]!
      for (target, tokens, passed) in c.links[r] do
        let old := ahead[target]!
        let new := old.union (if passed then tokens.union own else tokens)
        unless new == old do
          ahead := ahead.set! target new
          changed := true
    unless changed do break
  return ahead

def Spec.sameReduction (s : Spec) (p q : Nat) : Bool :=
  (s.production p).head == (s.production q).head &&
    (s.production p).body.size == (s.production q).body.size && s.joins p == s.joins q

/-- What a state does, given where its moves lead. A completed item reduces on its lookahead, unless
a shift goes first; of two completed items the one that binds more strongly is reduced. -/
def Core.state (s : Spec) (core : Nat) (c : Core) (isStart : Nat → Bool) (ahead : Array TokenSet)
    (targets : Array Nat) : State := Id.run do
  let mut shifts : Array (Nat × Nat) := #[]
  let mut gotos : Array (Nat × Nat) := #[]
  for (m, target) in c.moves.zip targets do
    match m.symbol with
    | .token t => shifts := shifts.push (t, target)
    | .rule r => gotos := gotos.push (r, target)
  shifts := shifts.qsort fun a b => a.1 < b.1
  let shiftTokens := TokenSet.ofList (shifts.toList.map (·.1))
  let mut chosen : Array (Option (Nat × Nat)) := Array.replicate Token.all.size none
  let mut clash := false
  let mut dropped : TokenSet := {}
  for d in c.completions do
    unless isStart (s.production d.production).head do
      for t in ahead[d.source]!.toList do
        if shiftTokens.contains t then
          clash := true
          unless d.shiftFirst.contains t do
            dropped := dropped.insert t
            chosen := chosen.set! t (some (d.strength, d.production))
        else match chosen[t]! with
          | some (strength, _) =>
            clash := true
            if strength < d.strength then
              chosen := chosen.set! t (some (d.strength, d.production))
          | none => chosen := chosen.set! t (some (d.strength, d.production))
  shifts := shifts.filter fun (t, _) => !dropped.contains t
  if clash then
    let kept := TokenSet.ofList (shifts.toList.map (·.1))
    gotos := gotos.filter fun (r, _) => !(s.first[r]!.inter kept).isEmpty
  let reduces := (chosen.mapIdx fun t r => r.map fun (_, p) => (t, p)).filterMap id
  let default := match reduces[0]? with
    | some (_, p) =>
      if shifts.isEmpty && reduces.all (fun (_, q) => s.sameReduction p q) then some p else none
    | none => none
  return { core, shifts, reduces, gotos, targets, default }

/-- All states that can be reached from the start rules, theirs first. -/
def Spec.states (s : Spec) (cores : Array Core) (starts : List Nat) : Array State := Id.run do
  let finish := TokenSet.ofList [Token.finish.code]
  let mut found : Array (Nat × Array TokenSet) := #[]
  let mut known : Std.HashMap (Nat × Array TokenSet) Nat := {}
  for (_, core) in starts.zipIdx do
    let ahead := cores[core]!.kernel.map fun _ => finish
    known := known.insert (core, ahead) found.size
    found := found.push (core, ahead)
  let mut states : Array State := #[]
  let isFile (r : Nat) : Bool := starts.head? == some r
  for i in [0:coreLimit] do
    if i ≥ found.size then break
    let (core, kernelAhead) := found[i]!
    let c := cores[core]!
    let ahead := kernelAhead ++ c.lookahead kernelAhead
    let mut targets : Array Nat := #[]
    for m in c.moves do
      let key := (m.target, m.sources.map fun j => ahead[j]!)
      match known[key]? with
      | some t => targets := targets.push t
      | none =>
        targets := targets.push found.size
        known := known.insert key found.size
        found := found.push key
    states := states.push (c.state s core isFile ahead targets)
  return states

end Posonly.Automaton
