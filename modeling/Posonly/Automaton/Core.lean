import Posonly.Automaton.TokenSet
import Posonly.Grammar.Expr
import Std.Data.HashMap

/-!
# Item sets without lookahead

A dotted production is an item. A *core* is a set of items that a parser can have in progress at one
time, without regard to what may follow: its kernel, the rules that the kernel opens, and where each
symbol leads. What depends on the lookahead is added in `Posonly.Automaton.Lookahead`; here
everything about it that is the same for all states with one core is computed once.
-/

namespace Posonly.Automaton

open Posonly.Grammar

/-- A grammar with the tables that the construction looks things up in. -/
structure Spec where
  grammar : Plain
  /-- The number of the first item of each production; the items of a production are consecutive. -/
  offsets : Array Nat
  /-- The production and the dot of each item. -/
  items : Array (Nat × Nat)
  productionsOf : Array (Array Nat)
  /-- Whether each rule derives the empty text. -/
  nullable : Array Bool
  /-- The tokens that each rule can start with. -/
  first : Array TokenSet
deriving Inhabited

/-- An item of a kernel: its number, and whether blanks may follow its production. -/
structure Item where
  number : Nat
  spacedAfter : Bool
deriving BEq, Hashable, Inhabited

namespace Spec

def nullableRules (g : Plain) : Array Bool := Id.run do
  let mut nullable := Array.replicate g.heads.size false
  for _ in [0:g.heads.size] do
    for p in g.productions do
      let empty := p.body.all fun
        | .token _ => false
        | .rule r => nullable[r]!
      if empty then nullable := nullable.set! p.head true
  return nullable

/-- The tokens that each rule can start with. -/
def firstTokens (g : Plain) (nullable : Array Bool) : Array TokenSet := Id.run do
  let mut first : Array TokenSet := Array.replicate g.heads.size {}
  for _ in [0:g.heads.size] do
    let before := first
    for p in g.productions do
      for s in p.body do
        match s with
        | .token t =>
          first := first.modify p.head (·.insert t)
          break
        | .rule r =>
          first := first.modify p.head (·.union first[r]!)
          unless nullable[r]! do break
    if first == before then break
  return first

def ofGrammar (grammar : Plain) : Spec := Id.run do
  let mut offsets := #[]
  let mut items := #[]
  let mut productionsOf := Array.replicate grammar.heads.size #[]
  for h : p in [0:grammar.productions.size] do
    let production := grammar.productions[p]
    offsets := offsets.push items.size
    for dot in [0:production.body.size + 1] do
      items := items.push (p, dot)
    productionsOf := productionsOf.modify production.head (·.push p)
  let nullable := nullableRules grammar
  return { grammar, offsets, items, productionsOf, nullable, first := firstTokens grammar nullable }

def production (s : Spec) (p : Nat) : Production := s.grammar.productions[p]!

def next? (s : Spec) (item : Nat) : Option Symbol :=
  let (p, dot) := s.items[item]!
  (s.production p).body[dot]?

/-- How strongly the place of the dot binds. -/
def strength (s : Spec) (item : Nat) : Nat :=
  let (p, dot) := s.items[item]!
  (s.production p).strength[dot]!

def head (s : Spec) (item : Nat) : Nat := (s.production s.items[item]!.1).head

/-- Whether a production joins two stretches of a repetition. -/
def joins (s : Spec) (p : Nat) : Bool :=
  let production := s.production p
  production.body.size == 2 && production.body[0]! == .rule production.head &&
    s.grammar.heads[production.head]!.repeats

/-- The tokens that can follow the symbol after the dot, as far as the production tells, and whether
what follows the whole production can follow it too. -/
def follow (s : Spec) (p dot : Nat) : TokenSet × Bool := Id.run do
  let body := (s.production p).body
  let mut found : TokenSet := {}
  for i in [dot + 1:body.size] do
    match body[i]! with
    | .token t => return (found.insert t, false)
    | .rule r =>
      found := found.union s.first[r]!
      unless s.nullable[r]! do return (found, false)
  return (found, true)

end Spec

/-- Where a symbol leads. The lookahead of each item of the target's kernel is that of one of the
items here, named in `sources`: a kernel item by its place, an opened rule by its place after them.
-/
structure Move where
  symbol : Symbol
  target : Nat
  sources : Array Nat
deriving Inhabited

/-- A completed item: the lookahead under which its production is reduced, and the tokens on which
a shift goes first all the same. -/
structure Completion where
  production : Nat
  source : Nat
  strength : Nat
  shiftFirst : TokenSet
deriving Inhabited

/-- An item set without lookahead. -/
structure Core where
  kernel : Array Item
  /-- The rules opened by the items, directly or through each other. -/
  opened : Array Nat
  /-- Whether blanks are skipped here. -/
  spaced : Bool
  /-- Lookahead that the kernel gives to opened rules: which rule, which tokens, and the kernel item
  whose own lookahead is passed on, if any. -/
  seeds : Array (Nat × TokenSet × Option Nat)
  /-- Lookahead that each opened rule gives to others: which rule, which tokens, and whether its own
  lookahead is passed on. -/
  links : Array (Array (Nat × TokenSet × Bool))
  moves : Array Move
  completions : Array Completion
deriving Inhabited

structure Entry where
  item : Item
  source : Nat
deriving Inhabited

/-- The rules opened by a kernel, with whether blanks may follow each. -/
def openedRules (s : Spec) (kernel : Array Item) : Array (Nat × Bool) := Id.run do
  let mut seen := Array.replicate s.grammar.heads.size false
  let mut opened : Array (Nat × Bool) := #[]
  for item in kernel do
    let (p, dot) := s.items[item.number]!
    if let some (.rule r) := s.next? item.number then
      unless seen[r]! do
        let production := s.production p
        let after := if dot + 1 == production.body.size then item.spacedAfter else production.spaced
        seen := seen.set! r true
        opened := opened.push (r, after)
  for i in [0:s.grammar.heads.size] do
    if i ≥ opened.size then break
    let (r, after) := opened[i]!
    for p in s.productionsOf[r]! do
      let production := s.production p
      if let some (Symbol.rule r') := production.body[0]? then
        unless seen[r']! do
          seen := seen.set! r' true
          opened := opened.push (r', if production.body.size == 1 then after else production.spaced)
  return opened

def entries (s : Spec) (kernel : Array Item) (opened : Array (Nat × Bool)) :
    Array Entry := Id.run do
  let mut all : Array Entry := #[]
  for h : j in [0:kernel.size] do
    all := all.push { item := kernel[j], source := j }
  for h : i in [0:opened.size] do
    let (r, after) := opened[i]
    for p in s.productionsOf[r]! do
      all := all.push
        { item := { number := s.offsets[p]!, spacedAfter := after }, source := kernel.size + i }
  return all.qsort fun a b => a.item.number < b.item.number

/-- The items reached over each symbol, in the order in which the symbols come up. -/
def successors (s : Spec) (all : Array Entry) : Array (Symbol × Array Entry) := Id.run do
  let mut found : Array (Symbol × Array Entry) := #[]
  for e in all do
    if let some symbol := s.next? e.item.number then
      let moved := { e with item.number := e.item.number + 1 }
      match found.findIdx? (·.1 == symbol) with
      | some i => found := found.modify i fun (sym, es) => (sym, es.push moved)
      | none => found := found.push (symbol, #[moved])
  return found

def before (moved : Array (Symbol × Array Entry)) (symbol : Symbol) : List Nat :=
  match moved.find? (·.1 == symbol) with
  | some (_, es) => es.toList.map (·.item.number - 1)
  | none => []

/-- The items that led to some items: those that stand before the rule of an item that is just
starting, and so on. -/
def origins (s : Spec) (moved : Array (Symbol × Array Entry)) (start : List Nat) : List Nat :=
  Id.run do
    let mut found := start.toArray
    for i in [0:s.items.size] do
      if i ≥ found.size then break
      let item := found[i]!
      if (s.items[item]!).2 == 0 then
        for origin in before moved (.rule (s.head item)) do
          unless found.contains origin do found := found.push origin
    return found.toList

def strengthOf (s : Spec) (items : List Nat) : Nat := (items.map s.strength).foldl max 0

/-- Completed items, with the tokens on which a shift goes first. Joining two stretches of a
repetition goes before starting another stretch; otherwise the side that binds more strongly wins.
-/
def completions (s : Spec) (all : Array Entry) (moved : Array (Symbol × Array Entry)) :
    Array Completion :=
  let done := all.filter fun e => (s.next? e.item.number).isNone
  if done.isEmpty then #[] else
    let shifts := moved.toList.filterMap fun (symbol, _) =>
      match symbol with
      | .token t => some (t, origins s moved (before moved symbol))
      | .rule _ => none
    done.map fun e =>
      let p := (s.items[e.item.number]!).1
      let strength := strengthOf s (origins s moved [e.item.number])
      let shiftFirst := shifts.filter fun (_, items) =>
        !(s.joins p && items.any fun i => s.head i == (s.production p).head) &&
          strength < strengthOf s items
      { production := p, source := e.source, strength,
        shiftFirst := .ofList (shiftFirst.map (·.1)) }

/-- The lookahead that a kernel gives to the rules it opens. -/
def seeds (s : Spec) (kernel : Array Item) (opened : Array Nat) :
    Array (Nat × TokenSet × Option Nat) := Id.run do
  let mut found := #[]
  for h : j in [0:kernel.size] do
    let number := kernel[j].number
    if let some (.rule r) := s.next? number then
      let (p, dot) := s.items[number]!
      let (tokens, pass) := s.follow p dot
      found := found.push (opened.idxOf r, tokens, if pass then some j else none)
  return found

/-- The lookahead that opened rules give each other. -/
def links (s : Spec) (opened : Array Nat) : Array (Array (Nat × TokenSet × Bool)) :=
  opened.map fun r => Id.run do
    let mut found : Array (Nat × TokenSet × Bool) := #[]
    for p in s.productionsOf[r]! do
      if let some (Symbol.rule r') := (s.production p).body[0]? then
        let target := opened.idxOf r'
        let (tokens, pass) := s.follow p 0
        match found.findIdx? (·.1 == target) with
        | some i => found := found.modify i fun (t, ts, b) => (t, ts.union tokens, b || pass)
        | none => found := found.push (target, tokens, pass)
    return found

def spacedAt (s : Spec) (item : Item) : Bool :=
  let (p, dot) := s.items[item.number]!
  if dot == (s.production p).body.size then item.spacedAfter else (s.production p).spaced

/-- More item sets than any grammar of this size has. -/
def coreLimit : Nat := 100000

/-- All cores that can be reached from the start rules; theirs come first, in the given order. -/
def Spec.cores (s : Spec) (starts : List Nat) : Array Core := Id.run do
  let mut kernels : Array (Array Item) := #[]
  let mut known : Std.HashMap (Array Item) Nat := {}
  for r in starts do
    let productions := s.productionsOf[r]!
    let spacedAfter := (s.production (productions[0]!)).spaced
    let kernel := productions.map fun p => { number := s.offsets[p]!, spacedAfter }
    known := known.insert kernel kernels.size
    kernels := kernels.push kernel
  let mut cores : Array Core := #[]
  for i in [0:coreLimit] do
    if i ≥ kernels.size then break
    let kernel := kernels[i]!
    let openedWith := openedRules s kernel
    let all := entries s kernel openedWith
    let opened := openedWith.map (·.1)
    let mut moves : Array Move := #[]
    let moved := successors s all
    for (symbol, es) in moved do
      let target := es.map (·.item)
      let sources := es.map (·.source)
      match known[target]? with
      | some t => moves := moves.push { symbol, target := t, sources }
      | none =>
        moves := moves.push { symbol, target := kernels.size, sources }
        known := known.insert target kernels.size
        kernels := kernels.push target
    cores := cores.push
      { kernel, opened, moves, spaced := (kernel[0]?.map (spacedAt s)).getD false,
        seeds := seeds s kernel opened, links := links s opened,
        completions := completions s all moved }
  return cores

end Posonly.Automaton
