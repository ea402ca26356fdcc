import Posonly.Parser.Language
import Posonly.Parser.Record

/-!
# Parse stacks

A stack is one attempt at reading the text so far. Where the text can be read in several ways, or
has to be mended, several stacks run side by side and the one with the best score is kept in the
end. This file has the steps that a stack can take: shift a token, reduce by a rule, and the
three ways to get past an error (force a reduction, insert a token, delete a token).
-/

namespace Posonly.Parser

open Posonly.Grammar Posonly.Automaton Posonly.Lexer

structure Frame where
  state : Nat
  /-- Where the symbol above the state starts. -/
  start : Nat
  /-- How many records there were. -/
  records : Nat
deriving Inhabited

structure Stack where
  frames : List Frame := []
  depth : Nat := 0
  state : Nat
  /-- The end of what has been read, without trailing blanks. -/
  reducePos : Nat := 0
  pos : Nat := 0
  /-- Mending the text lowers the score. -/
  score : Int := 0
  records : List Record := []
  size : Nat := 0
  /-- The number of records that the stack has in common with the one it was split from. -/
  shared : Nat := 0
  layout : Layout := Layout.outermost
  lookAhead : Nat := 0
deriving Inhabited

/-- Watches for a phrase that grows to the left without end, as a long chain of operators does:
where it starts, how long it is, and how often it has been extended. -/
structure Growth where
  start : Option Nat := none
  size : Nat := 0
  count : Nat := 0
deriving Inhabited

/-- Steps of a parse, which keep an eye on growth. -/
abbrev Parsing := StateM Growth

namespace Stack

def row (l : Language) (s : Stack) : Row := l.table.rows[s.state]!

/-! ## Records -/

def push (s : Stack) (r : Record) : Stack :=
  { s with records := r :: s.records, size := s.size + 1 }

/-- The newest record, unless the stack has none of its own. -/
def newest? (s : Stack) : Option Record :=
  if s.shared < s.size then s.records.head? else none

def noteLayout (s : Stack) (layout : Layout) : Stack :=
  if layout.fingerprint == s.layout.fingerprint then { s with layout }
  else if s.newest?.any (·.mark == .layout) then { s with layout }
  else { s.push { mark := .layout, start := s.pos, stop := s.pos } with layout }

/-- Notes how far ahead the text has been looked at; says whether that was news. -/
def noteAhead (s : Stack) (lookAhead : Nat) : Stack × Bool :=
  if lookAhead ≤ s.lookAhead then (s, false)
  else
    let s' := if s.newest?.any (·.mark == .ahead) then s
      else s.push { mark := .ahead, start := s.pos, stop := s.pos }
    ({ s' with lookAhead }, true)

/-- The number of own records that end after an offset, from the newest on. -/
def trailing (s : Stack) (offset : Nat) : Nat :=
  ((s.records.take (s.size - s.shared)).takeWhile (·.stop > offset)).length

/-- Adds the record of an error, or widens the error just before it. -/
def pushError (s : Stack) (start stop size : Nat) : Stack :=
  let added := s.push { mark := .node .error, start, stop, size }
  let inFrame := match s.frames with
    | [] => true
    | f :: _ => f.records < s.size
  match s.records with
  | r :: rest =>
    if inFrame && r.isError then
      if start == stop then s
      else if r.stop ≥ start then { s with records := { r with stop } :: rest }
      else added
    else added
  | [] => added

/-- Adds the record of a node that ends before trailing blanks: records of what stands in those
blanks stay outside of it. -/
def sink (s : Stack) (r : Record) : Stack :=
  if s.pos == r.stop then s.push r
  else
    let moved := if s.newest?.any (!·.isError) then s.trailing r.stop else 0
    let (after, before) := s.records.splitAt moved
    if after.any (·.isNode) then
      let size := max 1 (r.size - moved)
      { s with records := after ++ { r with size } :: before, size := s.size + 1 }
    else s.push r

def noteGap (s : Stack) : Stack := s.pushError s.pos s.pos 1

/-! ## Shifting and reducing -/

def enter (s : Stack) (state start : Nat) : Stack :=
  { s with
    frames := { state := s.state, start, records := s.size } :: s.frames
    depth := s.depth + 1
    state }

def goto (l : Language) (state rule : Nat) : Nat :=
  (l.table.rows[state]!.goto[rule]!).getD l.table.lastGoto[rule]!

def watch (start size : Nat) : Parsing Unit :=
  modify fun g =>
    if g.start == some start then { g with count := g.count + 1, size }
    else if g.size < size then { start, size, count := 1 }
    else g

/-- A phrase of this length is watched for growth. -/
def longPhrase : Nat := 2000

/-- Looking ahead by more than this is noted. -/
def aheadMargin : Nat := 25

def reduce (l : Language) (s : Stack) (r : Reduction) : Parsing Stack := do
  let head := l.table.heads[r.rule]!
  let (s, noted) := if s.reducePos + aheadMargin < s.pos then s.noteAhead s.pos else (s, false)
  let settle (s : Stack) : Stack := s.noteLayout (l.reduceLayout s.layout r.rule)
  if r.depth == 0 then
    let s := s.enter (goto l s.state r.rule) s.reducePos
    let s := match head.kind with
      | some kind => s.sink { mark := .node kind, start := s.reducePos, stop := s.reducePos,
                              size := if noted then 2 else 1 }
      | none => s
    return settle s
  let dropped := r.depth - 1 + if r.resumes then 2 else 0
  let frames := s.frames.drop dropped
  let base := frames.headD { state := l.table.start, start := 0, records := 0 }
  let length := s.reducePos - base.start
  if length ≥ longPhrase && !head.repeats then watch base.start length
  let count := s.size - base.records
  let stop := if (s.row l).inBlank then s.pos else s.reducePos
  let store (mark : Mark) : Stack := s.sink { mark, start := base.start, stop, size := count + 1 }
  let stored := match head.kind with
    | some kind => store (.node kind)
    | none => if r.joins then store .stretch else s
  let state := if r.resumes then
      ((s.frames.drop r.depth).headD { state := l.table.start, start := 0, records := 0 }).state
    else goto l base.state r.rule
  return settle { stored with frames, state, depth := s.depth - dropped }

def shift (l : Language) (text : Array UInt16) (s : Stack) (action : Action) (code stop : Nat) :
    Stack :=
  let token := Token.all[code]!
  let start := s.pos
  let leaf (s : Stack) : Stack :=
    let s := s.noteLayout (shiftLayout text s.layout token start s.pos)
    match token.kind? with
    | some kind => s.push { mark := .node kind, start, stop }
    | none => s
  match action with
  | .blank target => s.enter target s.pos
  | .shift target =>
    let s := { s with pos := stop }
    if l.table.rows[target]!.inBlank then leaf (s.enter target start)
    else
      let s := if stop > start || token.kind?.isSome then { s with reducePos := stop } else s
      leaf (s.enter target (min start s.reducePos))
  | .skip => leaf { s with pos := stop }
  | .reduce _ => s

def apply (l : Language) (text : Array UInt16) (s : Stack) (action : Action) (code stop : Nat) :
    Parsing Stack :=
  match action with
  | .reduce r => s.reduce l r
  | _ => return s.shift l text action code stop

/-- A copy to go another way with. -/
def split (s : Stack) : Stack := { s with shared := s.size - s.trailing s.reducePos }

def sameStates (s u : Stack) : Bool :=
  s.state == u.state && s.depth == u.depth && s.frames.map (·.state) == u.frames.map (·.state)

/-- Whether a token can be shifted, after reductions perhaps. -/
def canShift (l : Language) (code : Nat) : Nat → List Nat → Nat → Bool
  | 0, _, _ => false
  | fuel + 1, below, state =>
    let row := l.table.rows[state]!
    let action := match row.default with
      | some r => some (Action.reduce r)
      | none => row.actionOn[code]!
    match action with
    | none => false
    | some (.reduce r) =>
      let below := if r.depth == 0 then state :: below else below.drop (r.depth - 1)
      canShift l code fuel below (goto l (below.headD l.table.start) r.rule)
    | some _ => true

/-! ## Getting past an error -/

/-- What mending costs. -/
def insertCost : Int := 200
def deleteCost : Int := 190
def forceCost : Int := 100

def insertLimit : Nat := 4

def deleteToken (s : Stack) (token : Option Token) (stop : Nat) : Stack :=
  let leaf? := token.bind Token.kind?
  let s' := match leaf? with
    | some kind => s.push { mark := .node kind, start := s.pos, stop }
    | none => s
  let s' := s'.pushError s.pos stop (if leaf?.isSome then 2 else 1)
  { s' with pos := stop, reducePos := stop, score := s.score - deleteCost }

/-- The states that a token leads to, each once, in the order of the tokens. -/
def shiftTargets (row : Row) : List (Nat × Nat) :=
  row.actions.foldl (fun found (t, action) =>
    match action with
    | .shift target => if found.any (·.2 == target) then found else found ++ [(t, target)]
    | _ => found) []

/-- Reads on as if a missing token were there. Where many tokens could be, those after which the
text goes on are tried first, and in a deep stack only those. -/
def insertToken (l : Language) (text : Array UInt16) (s : Stack) (next : Option Nat) : List Stack :=
  if s.depth ≥ 100 then []
  else
    let all := shiftTargets (s.row l)
    let deep := s.depth ≥ 40
    let fits (target : Nat) : Bool := match next with
      | some t => (l.table.rows[target]!.actionOn[t]!).isSome
      | none => false
    let tried :=
      if all.length ≤ insertLimit && !deep then all
      else
        let best := all.filter fun (_, target) => target != s.state && fits target
        if deep then best
        else
          let others := all.filter fun (_, target) => !best.any (·.2 == target)
          best ++ others.take (insertLimit - best.length)
    ((tried.filter fun (_, target) => target != s.state).take insertLimit).map fun (t, target) =>
      let s' := (s.split.enter target s.pos).noteGap
      let s' := s'.noteLayout (shiftLayout text s'.layout Token.all[t]! s.pos s.pos)
      { s' with reducePos := s.pos, score := s'.score - insertCost }

mutual

/-- Looks ahead from a state for a reduction that fits what is on the stack. Gives the states seen.
-/
def exploreState (l : Language) (frames : Array Frame) :
    Nat → Nat → Nat → List Nat → List Nat × Option Reduction
  | 0, _, _, seen => (seen, none)
  | fuel + 1, state, depth, seen =>
    if seen.contains state then (seen, none)
    else
      let row := l.table.rows[state]!
      let actions := match row.default with
        | some r => [Action.reduce r]
        | none => row.actions.map (·.2)
      exploreActions l frames fuel actions depth (state :: seen)

/-- The same, over the actions of a state. -/
def exploreActions (l : Language) (frames : Array Frame) :
    Nat → List Action → Nat → List Nat → List Nat × Option Reduction
  | _, [], _, seen => (seen, none)
  | fuel, .reduce r :: rest, depth, seen =>
    let left := r.depth - depth
    let fits := match frames[left - 1]? with
      | some f => (l.table.rows[f.state]!.goto[r.rule]!).isSome
      | none => false
    if !r.joins && !r.resumes && left > 1 && fits then
      (seen, some { rule := r.rule, depth := left })
    else exploreActions l frames fuel rest depth seen
  | fuel, .shift target :: rest, depth, seen =>
    match exploreState l frames fuel target (depth + 1) seen with
    | (seen, some r) => (seen, some r)
    | (seen, none) => exploreActions l frames fuel rest depth seen
  | fuel, _ :: rest, depth, seen => exploreActions l frames fuel rest depth seen

end

/-- A reduction that fits what is on the stack, found by looking ahead. -/
def findReduction (l : Language) (s : Stack) : Option Reduction :=
  (exploreState l s.frames.toArray l.table.rows.size s.state 0 []).2

def forceReduce (l : Language) (s : Stack) : Parsing (Option Stack) := do
  let row := s.row l
  match row.forced with
  | none => return none
  | some forced =>
    let regular := row.default == some forced || row.actions.any (·.2 == .reduce forced)
    if regular then
      return some (← { s with reducePos := s.pos }.reduce l forced)
    let fits := match s.frames[forced.depth - 1]? with
      | some f => (l.table.rows[f.state]!.goto[forced.rule]!).isSome
      | none => false
    match if fits then some forced else s.findReduction l with
    | none => return none
    | some r =>
      let s := { s.noteGap with score := s.score - forceCost }
      return some (← { s with reducePos := s.pos }.reduce l r)

def forceAll (l : Language) : Nat → Stack → Parsing Stack
  | 0, s => return s
  | fuel + 1, s => do
    if (s.row l).accepting then return s
    match ← s.forceReduce l with
    | some s => forceAll l fuel s
    | none => return s.noteGap

end Stack

end Posonly.Parser
