import Posonly.Automaton.Lookahead
import Posonly.Grammar.Clash

/-!
# Parse tables

The table of a grammar has one entry for each group of states that behave alike. Two rounds of
merging make the groups: states with one core and one set of tokens to read are merged as long as
their targets are, then entries that do the same are merged whatever their cores. For each entry the
table also names a reduction that can be forced when the text does not go on as it should.
-/

namespace Posonly.Automaton

open Posonly.Grammar

/-- Replacing the topmost symbols of the stack by a rule. -/
structure Reduction where
  rule : Nat
  depth : Nat
  /-- It joins two stretches of a repetition. -/
  joins : Bool := false
  /-- It ends a blank line, after which the parser is where it was before. -/
  resumes : Bool := false
deriving BEq, Hashable, Inhabited, Repr

inductive Action where
  | shift (target : Nat)
  | reduce (r : Reduction)
  | skip
  | blank (target : Nat)
deriving BEq, Inhabited, Repr

structure Entry' where
  items : Array Nat
  spaced : Bool
  /-- The set of tokens to read with. -/
  reading : Option Nat
  default : Option Reduction
  shifts : Array (Nat × Nat)
  reduces : Array (Nat × Reduction)
  gotos : Array (Nat × Nat)
deriving Inhabited

/-! ## Sets of tokens to read -/

def clashSets : Array TokenSet :=
  Token.all.map fun a =>
    .ofList ((List.range Token.all.size).filter fun b => a.clashes Token.all[b]!)

/-- The tokens that a state has to tell apart by their spelling. -/
def State.lexical (c : Core) (st : State) : TokenSet :=
  let here := st.shifts.toList.map (·.1) ++ st.reduces.toList.map (·.1)
  let blanks := if c.spaced then [Token.space.code, Token.comment.code] else []
  .ofList ((here ++ blanks).filterMap fun t => (Token.all[t]!).lexical?.map Token.code)

/-- Sorts states by the set of tokens that they read with. A state joins the first set that has no
token clashing with its own; a state with a default reads nothing. -/
def readingSets (cores : Array Core) (states : Array State) :
    Array (Option Nat) × Array TokenSet := Id.run do
  let mut sets : Array TokenSet := #[]
  let mut chosen : Array (Option Nat) := #[]
  for st in states do
    let tokens := st.lexical cores[st.core]!
    if st.default.isSome || tokens.isEmpty then
      chosen := chosen.push none
    else
      let involved := TokenSet.ofList (tokens.toList.filter fun t => !(clashSets[t]!).isEmpty)
      let against := tokens.toList.foldl (fun acc t => acc.union clashSets[t]!) {}
      match sets.findIdx? fun set => (set.inter against).isEmpty with
      | some i =>
        sets := sets.modify i (·.union involved)
        chosen := chosen.push (some i)
      | none =>
        chosen := chosen.push (some sets.size)
        sets := sets.push involved
  return (chosen, sets)

/-! ## Merging -/

/-- Numbers the distinct keys of an array in order of first appearance. -/
def numberBy {α κ : Type} [BEq κ] [Hashable κ] (xs : Array α) (key : α → κ) : Array Nat × Nat :=
  Id.run do
    let mut known : Std.HashMap κ Nat := {}
    let mut numbers : Array Nat := #[]
    for x in xs do
      let k := key x
      match known[k]? with
      | some n => numbers := numbers.push n
      | none =>
        numbers := numbers.push known.size
        known := known.insert k known.size
    return (numbers, known.size)

/-- The coarsest grouping of states in which states of one group have one core, one reading set and
targets in the same groups. -/
def groupStates (states : Array State) (reading : Array (Option Nat)) : Array Nat × Nat := Id.run do
  let mut (group, count) := numberBy (states.zip reading) fun (st, r) => (st.core, r)
  for _ in [0:states.size] do
    let before := group
    let (refined, count') :=
      numberBy (states.zip before) fun (st, g) => (g, st.targets.map fun t => before[t]!)
    group := refined
    if count' == count then break
    count := count'
  return (group, count)

def Spec.reduction (s : Spec) (blank : Nat) (p : Nat) (depth : Nat) : Reduction :=
  let production := s.production p
  { rule := production.head, depth, joins := s.joins p && depth == 2,
    resumes := production.head == blank }

/-- Adds the pairs of `more` whose first component is new. -/
def addNew {α : Type} (pairs more : Array (Nat × α)) : Array (Nat × α) :=
  more.foldl (fun acc x => if acc.any (·.1 == x.1) then acc else acc.push x) pairs

def mergeGroups (s : Spec) (blank : Nat) (cores : Array Core) (states : Array State)
    (reading : Array (Option Nat)) (group : Array Nat) (count : Nat) : Array Entry' := Id.run do
  let mut merged : Array (Option Entry') := Array.replicate count none
  for h : i in [0:states.size] do
    let st := states[i]
    let core := cores[st.core]!
    let whole (p : Nat) : Reduction := s.reduction blank p (s.production p).body.size
    let shifts := st.shifts.map fun (t, target) => (t, group[target]!)
    let reduces := st.reduces.map fun (t, p) => (t, whole p)
    let gotos := st.gotos.map fun (r, target) => (r, group[target]!)
    let entry := match merged[group[i]!]! with
      | none =>
        { items := core.kernel.map (·.number), spaced := core.spaced, reading := reading[i]!,
          default := st.default.map whole, shifts, reduces, gotos : Entry' }
      | some e => { e with
          shifts := addNew e.shifts shifts, reduces := addNew e.reduces reduces,
          gotos := addNew e.gotos gotos }
    merged := merged.set! group[i]! (some entry)
  return merged.map (·.getD default)

/-- What an entry does, as a key: entries with equal keys are merged. -/
def Entry'.behaviour (e : Entry') :
    Option Reduction × Bool × Option Nat × Array (Nat × Nat) × Array (Nat × Reduction) ×
      Array (Nat × Nat) :=
  match e.default with
  | some r => (some r, false, none, #[], #[], #[])
  | none =>
    let byFirst {α : Type} [Inhabited α] (xs : Array (Nat × α)) := xs.qsort fun a b => a.1 < b.1
    (none, e.spaced, e.reading, byFirst e.shifts, byFirst e.reduces, byFirst e.gotos)

/-- Merges entries that behave alike, until none are left. Gives the new number of each old entry.
-/
def mergeAlike (entries : Array Entry') : Array Entry' × Array Nat := Id.run do
  let mut entries := entries
  let mut numbers := Array.range entries.size
  for _ in [0:entries.size] do
    let (renamed, count) := numberBy entries Entry'.behaviour
    if count == entries.size then break
    let mut kept : Array (Option Entry') := Array.replicate count none
    for h : i in [0:entries.size] do
      let e := entries[i]
      let entry := match kept[renamed[i]!]! with
        | none => { e with
            shifts := e.shifts.map fun (t, target) => (t, renamed[target]!)
            gotos := e.gotos.map fun (r, target) => (r, renamed[target]!) }
        | some k => { k with items := k.items ++ e.items.filter (!k.items.contains ·) }
      kept := kept.set! renamed[i]! (some entry)
    entries := kept.map (·.getD default)
    numbers := numbers.map fun n => renamed[n]!
  return (entries, numbers)

/-! ## Forced reductions -/

/-- Where a rule leads: each target with the set of entries that lead there, as a bit set. -/
def gotoEdges (heads : Nat) (entries : Array Entry') : Array (List (Nat × Nat)) := Id.run do
  let mut edges : Array (List (Nat × Nat)) := Array.replicate heads []
  for h : i in [0:entries.size] do
    for (r, target) in entries[i].gotos do
      edges := edges.modify r fun es =>
        if es.any (·.1 == target) then
          es.map fun (t, ps) => if t == target then (t, ps ||| (1 <<< i)) else (t, ps)
        else es ++ [(target, 1 <<< i)]
  return edges

/-- Whether forcing a rule of one symbol can come back to the entry `start` through other forced
reductions of one symbol, below one of the entries in `parents`. -/
def comesBack (edges : Array (List (Nat × Nat))) (single : Array (Option Nat)) (start : Nat) :
    Nat → Nat → Option Nat → Bool
  | 0, _, _ => true
  | fuel + 1, rule, parents =>
    edges[rule]!.any fun (target, ps) =>
      let below := match parents with
        | some qs => qs &&& ps
        | none => ps
      if below == 0 then false
      else if target == start then true
      else match single[target]! with
        | some rule' => comesBack edges single start fuel rule' (some below)
        | none => false

/-- The reduction to force in each entry: of the production that has come furthest, and of those the
shortest, but never one that could be forced again and again. Entries with few candidates choose
first. -/
def forcedReductions (s : Spec) (file blank : Nat) (entries : Array Entry') :
    Array (Option Reduction) := Id.run do
  let edges := gotoEdges s.grammar.heads.size entries
  let candidates := entries.map fun e =>
    let items := (e.items.qsort (· < ·)).toList.filter fun i =>
      (s.items[i]!).2 > 0 && s.head i != file
    (items.mergeSort fun a b =>
      let (p, dotA) := s.items[a]!
      let (q, dotB) := s.items[b]!
      dotA > dotB ||
        (dotA == dotB && (s.production p).body.size ≤ (s.production q).body.size)).toArray
  let mut forced : Array (Option Reduction) := entries.map fun e =>
    match e.default with
    | some r => if r.depth > 0 then some r else none
    | none => none
  let mut single : Array (Option Nat) := forced.map fun
    | some r => if r.depth == 1 then some r.rule else none
    | none => none
  let widest := candidates.foldl (fun n c => max n c.size) 0
  for size in [1:widest + 1] do
    for h : i in [0:entries.size] do
      if entries[i].default.isNone && (candidates[i]!).size == size then
        let choice := (candidates[i]!).find? fun item =>
          (s.items[item]!).2 != 1 || !comesBack edges single i entries.size (s.head item) none
        if let some item := choice then
          let (p, dot) := s.items[item]!
          forced := forced.set! i (some (s.reduction blank p dot))
          if dot == 1 then single := single.set! i (some (s.head item))
  return forced

/-! ## The table -/

structure Row where
  inBlank : Bool
  /-- A complete file may end here. -/
  accepting : Bool
  spaced : Bool
  /-- The set of tokens to read with. -/
  reading : Option Nat
  default : Option Reduction
  forced : Option Reduction
  /-- What to do on each token, in the order of the tokens, shifts ahead of reductions. -/
  actions : List (Nat × Action)
  /-- The same, looked up by token. -/
  actionOn : Array (Option Action)
  goto : Array (Option Nat)
  /-- Tokens with an action here or passed over as blanks. -/
  expected : TokenSet
deriving Inhabited

structure Table where
  rows : Array Row
  start : Nat
  blankStart : Nat
  readings : Array TokenSet
  /-- For each rule, the last entry it can lead to. -/
  lastGoto : Array Nat
  heads : Array Head
deriving Inhabited

def reachable (entries : Array Entry') (start : Nat) : Array Bool := Id.run do
  let mut seen := (Array.replicate entries.size false).set! start true
  let mut work := #[start]
  for i in [0:entries.size] do
    if i ≥ work.size then break
    let e := entries[work[i]!]!
    for (_, target) in e.shifts ++ e.gotos do
      unless seen[target]! do
        seen := seen.set! target true
        work := work.push target
  return seen

/-- The tokens that are passed over between the parts of a phrase. -/
def blankTokens : List Token := [.space, .lineJoin, .comment]

/-- Builds the table of a grammar: `file` is the rule for a whole file, `blank` the one for a blank
line. -/
def Table.build (grammar : Plain) (file blank : Nat) : Table :=
  let s := Spec.ofGrammar grammar
  let cores := s.cores [file, blank]
  let states := s.states cores [file, blank]
  let (reading, readings) := readingSets cores states
  let (group, count) := groupStates states reading
  let (entries, numbers) := mergeAlike (mergeGroups s blank cores states reading group count)
  let forced := forcedReductions s file blank entries
  let start := numbers[group[0]!]!
  let blankStart := numbers[group[1]!]!
  let inFile := reachable entries start
  let free := TokenSet.ofList
    ((List.range Token.all.size).filter fun t =>
      (Token.all[t]!).lexical? == some Token.all[t]! && (clashSets[t]!).isEmpty)
  let rows := entries.mapIdx fun i e =>
    let actions : List (Nat × Action) := if e.default.isSome then [] else
      (e.shifts.map fun (t, target) => (t, Action.shift target)).toList ++
        (e.reduces.map fun (t, r) => (t, Action.reduce r)).toList
    let skipped : List (Nat × Action) := if e.spaced then
        blankTokens.map (fun t => (t.code, Action.skip)) ++
          [(Token.blankLine.code, Action.blank blankStart)]
      else []
    { inBlank := !inFile[i]!, spaced := e.spaced, reading := e.reading, default := e.default,
      accepting := e.items.any fun item =>
        s.head item == file && (s.next? item).isNone,
      forced := forced[i]!, actions,
      actionOn := (actions.reverse ++ skipped.reverse).foldl
        (fun acc (t, a) => acc.set! t (some a)) (Array.replicate Token.all.size none),
      goto := e.gotos.foldl (fun acc (r, target) => acc.set! r (some target))
        (Array.replicate grammar.heads.size none),
      expected := .ofList ((actions ++ skipped).map (·.1)) }
  let lastGoto := entries.foldl (fun acc e =>
      e.gotos.foldl (fun acc (r, target) => acc.modify r (max target)) acc)
    (Array.replicate grammar.heads.size 0)
  { rows, start, blankStart, readings := readings.map (·.union free), lastGoto,
    heads := grammar.heads }

end Posonly.Automaton
