import Posonly.Parser.Stack

/-!
# Parsing

The stacks move through the text side by side, always the ones that are furthest behind. When all
are stuck the text is mended in every way that a stack allows; after a few tokens only the best of
the mended stacks is left. Parsing never fails: what cannot be taken in ends up in error nodes.
-/

namespace Posonly.Parser

open Posonly.Grammar Posonly.Automaton Posonly.Lexer

/-! ## Reading the next token -/

/-- The next token as a stack sees it: its number, unless nothing could be read, and its end. -/
structure Next where
  code : Option Nat
  stop : Nat
deriving Inhabited

/-- An action for the next token. -/
structure Choice where
  action : Action
  code : Nat
  stop : Nat
deriving Inhabited

/-- A way to read a token that depends on the surroundings. -/
abbrev Reader := Unit → Reading

/-- The readers that a state calls for, beside that of spellings. -/
def readers (l : Language) (text : Array UInt16) (s : Stack) : List Reader :=
  let expects (ts : List Token) : Bool := ts.any fun t => (s.row l).expected.contains t.code
  let blankAllowed (_ : Unit) : Bool :=
    Stack.canShift l Token.blankLine.code (s.depth * 20 + 1000) (s.frames.map (·.state)) s.state
  let candidates : List (List Token × Reader) :=
    [ ([.print], fun _ => readPrint text s.pos),
      ([.indent, .dedent], fun _ => readIndentation text s.layout s.pos),
      ([.newline, .blankLine, .lineJoin, .endOfText],
        fun _ => readNewline text s.layout blankAllowed s.pos),
      ([.stringContent, .escape, .replacement, .stringEnd],
        fun _ => readString text s.layout s.pos)]
  candidates.filterMap fun (ts, reader) => if expects ts then some reader else none

/-- Tries readers until one reads a token. Gives how far the text was looked at, if that was far. -/
def tryReaders (text : Array UInt16) (pos : Nat) : List Reader → Nat → Option (Token × Nat) × Nat
  | [], ahead => (none, ahead)
  | read :: rest, ahead =>
    let r := read ()
    let stop := match r.token with
      | some (_, stop) => stop
      | none => min (pos + 1) text.size
    let ahead := if r.seen > stop + Stack.aheadMargin then max ahead r.seen else ahead
    match r.token with
    | some t => (some t, ahead)
    | none => tryReaders text pos rest ahead

/-- Reads a token by its spelling. An identifier may be a reserved word, or be read as one too. -/
def readSpelling (l : Language) (text : Array UInt16) (s : Stack) :
    Option (Token × Nat × Option Token) := do
  let set ← (s.row l).reading
  let (code, stop) ← longestMatch text (← l.spellings[set]?) s.pos none
  let token ← Token.all[code]?
  if token == .identifier then
    match reserved? (text.extract s.pos stop).toList with
    | some (word, true) => return (token, stop, some word)
    | some (word, false) => return (word, stop, none)
    | none => return (token, stop, none)
  else return (token, stop, none)

/-- Reads the next token. Gives the token, where it ends, the reserved word that it may be too, and
how far the text was looked at. -/
def readToken (l : Language) (text : Array UInt16) (s : Stack) :
    Option (Token × Nat × Option Token) × Nat :=
  match tryReaders text s.pos (readers l text s) 0 with
  | (some (t, stop), ahead) => (some (t, stop, none), ahead)
  | (none, ahead) => (readSpelling l text s, ahead)

def choices (l : Language) (text : Array UInt16) (s : Stack) : Stack × List Choice × Next :=
  let row := s.row l
  let (read, ahead) := readToken l text s
  let s := if ahead > 0 then (s.noteAhead ahead).1 else s
  let actions (token : Token) (stop : Nat) : List Choice :=
    match row.actionOn[token.code]? with
    | some (some action) => [{ action, code := token.code, stop }]
    | _ => []
  match read with
  | some (token, stop, other) =>
    let first := match other with
      | some word => actions word stop
      | none => []
    (s, first ++ actions token stop, { code := token.code, stop })
  | none =>
    if s.pos == text.size then
      (s, actions .finish s.pos, { code := Token.finish.code, stop := s.pos })
    else (s, [], { code := none, stop := min (s.pos + 1) text.size })

/-! ## Moving stacks -/

inductive Progress where
  /-- It took a step; others were split off it, some of which have moved on in the text. -/
  | stepped (s : Stack) (moved waiting : List Stack)
  | stuck (s : Stack) (next : Next)

/-- How many steps are allowed without moving on in the text: more than a stack of any depth that
the text can build up ever takes. -/
def stepLimit (text : Array UInt16) : Nat := 64 * (text.size + 64)

/-- A stack deeper than this is cut down. -/
def cutDepth : Nat := 2800

def cutTo : Nat := 2000

/-- Forces reductions while the stack is too deep. -/
def cutDown (l : Language) : Nat → Stack → Parsing Stack
  | 0, s => return s
  | fuel + 1, s => do
    if s.depth ≤ cutTo then return s
    match ← s.forceReduce l with
    | some s => cutDown l fuel s
    | none => return s

/-- Takes one step. If `single`, only the first way to go on is taken. -/
def step (l : Language) (text : Array UInt16) (single : Bool) (s : Stack) : Parsing Progress := do
  match (s.row l).default with
  | some r => return .stepped (← s.reduce l r) [] []
  | none =>
    let s ← if s.depth ≥ cutDepth then cutDown l (stepLimit text) s else pure s
    let (s, found, next) := choices l text s
    let rec go : List Choice → List Stack → List Stack → Parsing Progress
      | [], _, _ => return .stuck s next
      | [c], moved, waiting => do
        return .stepped (← s.apply l text c.action c.code c.stop) moved waiting
      | c :: rest, moved, waiting => do
        let other ← s.split.apply l text c.action c.code c.stop
        if other.pos > s.pos then go rest (moved ++ [other]) waiting
        else go rest moved (waiting ++ [other])
    go (if single then found.take 1 else found) [] []

/-- Adds a stack, unless there is one in the same states at the same place with at least its score.
-/
def addBest (s : Stack) : List Stack → List Stack
  | [] => [s]
  | other :: rest =>
    if other.pos == s.pos && other.sameStates s then
      (if other.score < s.score then s else other) :: rest
    else other :: addBest s rest

/-- Moves a stack until it gets on in the text; gives the stack if it gets stuck instead. -/
def advanceFully (l : Language) (text : Array UInt16) (pos : Nat) :
    Nat → Stack → List Stack → Parsing (Option Stack × List Stack)
  | 0, s, moved => return (some s, moved)
  | fuel + 1, s, moved => do
    match ← step l text true s with
    | .stuck s _ => return (some s, moved)
    | .stepped s _ _ =>
      if s.pos > pos then return (none, addBest s moved)
      else advanceFully l text pos fuel s moved

/-- The state of a round: stacks that have moved on, and stacks that are stuck. -/
structure Round where
  moved : List Stack := []
  stuck : List (Stack × Next) := []

/-- Moves all stacks past an offset, or until they get stuck. -/
def advanceAll (l : Language) (text : Array UInt16) (pos : Nat) :
    Nat → List Stack → Round → Parsing Round
  | 0, _, round => return round
  | _, [], round => return round
  | fuel + 1, s :: rest, round => do
    if s.pos > pos then
      advanceAll l text pos fuel rest { round with moved := round.moved ++ [s] }
    else
      match ← step l text false s with
      | .stuck s next =>
        advanceAll l text pos fuel rest { round with stuck := round.stuck ++ [(s, next)] }
      | .stepped s moved waiting =>
        advanceAll l text pos fuel (s :: rest ++ waiting)
          { round with moved := round.moved ++ moved }

/-! ## Mending the text -/

def forceLimit : Nat := 10

/-- Forces reductions until the stack gets on. Gives the stack as it was left. -/
def forceOn (l : Language) (text : Array UInt16) :
    Nat → Stack → List Stack → Parsing (Stack × List Stack)
  | 0, s, moved => return (s, moved)
  | fuel + 1, s, moved => do
    match ← s.forceReduce l with
    | none => return (s, moved)
    | some s =>
      match ← advanceFully l text s.pos (stepLimit text) s moved with
      | (none, moved) => return (s, moved)
      | (some s, moved) => forceOn l text fuel s moved

/-- Mends the text for each stuck stack. At the end of the text, gives the best stack instead, with
reductions forced as far as they go. -/
def recover (l : Language) (text : Array UInt16) :
    List (Stack × Next) → List Stack → Option Stack → Parsing (Option Stack × List Stack)
  | [], moved, finished => return (finished, moved)
  | (s, next) :: rest, moved, finished => do
    let (forced, moved) ← forceOn l text forceLimit s.split moved
    let moved ← (s.insertToken l text next.code).foldlM (fun moved inserted => do
      return (← advanceFully l text inserted.pos (stepLimit text) inserted moved).2) moved
    if s.pos < text.size then
      let deleted := if next.stop == s.pos then s.deleteToken none (s.pos + 1)
        else s.deleteToken (next.code.bind fun code => Token.all[code]?) next.stop
      recover l text rest (addBest deleted moved) finished
    else
      let best := match finished with
        | some f => if f.score < forced.score then forced else f
        | none => forced
      recover l text rest moved (some best)

/-! ## Whole texts -/

def byScore (alive : List Stack) : List Stack := alive.mergeSort fun a b => b.score ≤ a.score

/-- A stack with more records of its own than this is compared by score alone. -/
def longRun : Nat := 125

/-- Drops a stack where another one is as good: both in the same states, or both a long way from
where they parted. -/
def prune : Nat → List Stack → List Stack → List Stack
  | 0, kept, rest => kept.reverse ++ rest
  | _, kept, [] => kept.reverse
  | fuel + 1, kept, s :: rest =>
    let own (s : Stack) : Nat := s.size - s.shared
    let rivals (other : Stack) : Bool :=
      s.sameStates other || (own s > longRun && own other > longRun)
    let better (other : Stack) : Bool :=
      decide (s.score > other.score) || (s.score == other.score && decide (own s > own other))
    let (ahead, behind) := rest.span fun other => !(rivals other && !better other)
    if behind.isEmpty then
      prune fuel (s :: kept) (rest.filter fun other => !rivals other)
    else prune fuel kept ((ahead.filter fun other => !rivals other) ++ behind)

def stackLimit : Nat := 12

/-- After an error, recovery lasts until this many tokens have been read. -/
def recoveryLength : Nat := 5

/-- The best of the stuck stacks that have read the whole text as a file. -/
def finishedBest (l : Language) (text : Array UInt16) (stuck : List (Stack × Next)) :
    Option Stack :=
  stuck.foldl (fun best (s, _) =>
    if s.pos == text.size && (s.row l).accepting then
      match best with
      | some b => if b.score < s.score then some s else best
      | none => some s
    else best) none

/-- A phrase that has grown this often is cut off. -/
def growthLimit : Nat := 300

/-- Forces reductions out of a phrase that starts at `start` or later. -/
def leavePhrase (l : Language) (start : Nat) : Nat → Stack → Parsing Stack
  | 0, s => return s
  | fuel + 1, s => do
    match ← s.forceReduce l with
    | none => return s
    | some s =>
      match s.frames with
      | f :: _ => if f.start ≥ start then leavePhrase l start fuel s else return s
      | [] => return s

/-- Moves the stacks through the text, round by round, until one is complete. Each round gets past
at least one more unit, so `fuel` is the length of the text. -/
def rounds (l : Language) (text : Array UInt16) :
    Nat → List Stack → Nat → Parsing Stack
  | 0, alive, _ => return alive.headD { state := l.table.start }
  | fuel + 1, alive, recovering => do
    let growth ← get
    let alive ← match alive with
      | [s] =>
        if growth.count > growthLimit then do
          let s ← leavePhrase l (growth.start.getD 0) (stepLimit text) s
          modify fun g => { g with count := 0, size := 0 }
          pure [s]
        else pure alive
      | _ => pure alive
    let pos := (alive.map (·.pos)).min?.getD 0
    let round ← advanceAll l text pos (stepLimit text) alive {}
    let finished := if round.moved.isEmpty then finishedBest l text round.stuck else none
    if let some s := finished then return s
    let recovering := if round.moved.isEmpty && recovering == 0 then recoveryLength else recovering
    let (finished, moved) ←
      if recovering > 0 then recover l text round.stuck round.moved none
      else pure (none, round.moved)
    if let some s := finished then return ← s.forceAll l (stepLimit text)
    if recovering > 0 then
      let most := if recovering == 1 then 1 else recovering * 3
      let kept := if moved.length > most then (byScore moved).take most else moved
      let recovering := if kept.any (·.reducePos > pos) then recovering - 1 else recovering
      rounds l text fuel kept recovering
    else
      let kept := prune moved.length [] moved
      let kept := if kept.length > stackLimit then (byScore kept).take stackLimit else kept
      rounds l text fuel kept 0

def parse (l : Language) (text : Text) : Tree :=
  let units := text.toArray
  let start : Stack := { state := l.table.start }
  let done := ((rounds l units (units.size + 2) [start] 0).run {}).1
  .node .script ⟨0, done.pos⟩ (Record.foldTrees done.records.reverse [])

end Posonly.Parser
