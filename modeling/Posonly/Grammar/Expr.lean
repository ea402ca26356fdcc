import Posonly.Grammar.Token

/-!
# Grammar rules and their productions

A grammar is a list of rules whose bodies are extended expressions: options, repetitions, choices
and lists separated by commas. `Plain.ofRules` turns them into plain productions. A repetition `e+`
becomes a rule `R` with the productions of `e` and `R → R R`; a comma-separated list becomes a rule
of its own; both are shared between equal expressions.
-/

namespace Posonly.Grammar

/-- How strongly an operator binds, and to which side. -/
structure Binding where
  level : Nat
  /-- What is added at the end of the operator's phrase: one more if it groups to the left, one
  less if it groups to the right. -/
  tilt : Int := 0
deriving BEq, Repr, Inhabited

inductive Expr where
  | token (t : Token)
  /-- A reference to a rule of the grammar. -/
  | rule (name : String)
  /-- A rule written in place, which makes a node. -/
  | node (kind : Kind) (body : Expr)
  /-- Items separated by commas, with an optional comma at the end. -/
  | list (item : Expr)
  | seq (parts : List Expr)
  | choice (parts : List Expr)
  | opt (body : Expr)
  | many (body : Expr)
  | some (body : Expr)
  /-- Says how strongly the place where it stands in a sequence binds. -/
  | binds (b : Binding)
deriving BEq, Repr, Inhabited

structure Rule where
  name : String
  kind : Option Kind := none
  /-- Whether blanks and comments may stand between the parts. -/
  spaced : Bool := true
  body : Expr
deriving Inhabited

inductive Symbol where
  | token (t : Nat)
  | rule (r : Nat)
deriving DecidableEq, Repr, Inhabited, Hashable

structure Head where
  kind : Option Kind := none
  /-- The rule repeats a phrase, and makes no node. -/
  repeats : Bool := false
deriving Inhabited

/-- A production. `strength` has an entry for each place between, before and after the symbols. -/
structure Production where
  head : Nat
  body : Array Symbol
  strength : Array Nat
  spaced : Bool
deriving Inhabited

structure Phrase where
  symbols : List Symbol := []
  strength : List Nat := [0]

namespace Phrase

def single (s : Symbol) : Phrase := ⟨[s], [0, 0]⟩

def bindEnd (p : Phrase) (n : Nat) : Phrase :=
  { p with strength := p.strength.dropLast ++ [max (p.strength.getLastD 0) n] }

/-- One phrase after the other; the place where they meet takes the greater strength. -/
def append (p q : Phrase) : Phrase :=
  ⟨p.symbols ++ q.symbols, (p.bindEnd (q.strength.headD 0)).strength ++ q.strength.drop 1⟩

end Phrase

/-- The phrases of a sequence, given those of its parts. The first choices vary slowest. -/
def Phrase.ofParts : List (Binding ⊕ List Phrase) → Phrase → Nat → List Phrase
  | [], start, atEnd => [start.bindEnd atEnd]
  | .inl b :: rest, start, atEnd =>
    ofParts rest (start.bindEnd (4 * b.level)) (max atEnd (4 * b.level + b.tilt).toNat)
  | .inr phrases :: rest, start, atEnd =>
    phrases.flatMap fun p => ofParts rest (start.append p) atEnd

structure Lowering where
  heads : Array Head
  productions : Array Production := #[]
  /-- Repetitions and lists that have a rule already. -/
  shared : List (Expr × Nat) := []

namespace Lowering

def fresh (h : Head) : StateM Lowering Nat :=
  modifyGet fun s => (s.heads.size, { s with heads := s.heads.push h })

def define (head : Nat) (spaced : Bool) (phrases : List Phrase) : StateM Lowering Unit :=
  modify fun s =>
    { s with productions := s.productions ++ (phrases.map fun p =>
        { head, spaced, body := p.symbols.toArray, strength := p.strength.toArray }).toArray }

/-- The rule number kept for an expression, or a new one that `build` fills. -/
def share (key : Expr) (h : Head) (build : Nat → StateM Lowering Unit) : StateM Lowering Nat := do
  match (← get).shared.find? (·.1 == key) with
  | .some (_, head) => return head
  | none =>
    let head ← fresh h
    modify fun s => { s with shared := (key, head) :: s.shared }
    build head
    return head

/-- The rule that repeats the phrases given by `item` once or more. -/
def repetition (key : Expr) (spaced : Bool) (item : StateM Lowering (List Phrase)) :
    StateM Lowering Phrase := do
  let head ← share (.some key) { repeats := true } fun head => do
    let phrases ← item
    define head spaced (phrases ++ [⟨[.rule head, .rule head], [0, 0, 0]⟩])
  return .single (.rule head)

end Lowering

open Lowering in
mutual

def Expr.lower (names : List String) (spaced : Bool) : Expr → StateM Lowering (List Phrase)
  | .token t => return [.single (.token t.code)]
  | .rule name => return [.single (.rule (names.idxOf name))]
  | .node kind body => do
    let head ← fresh { kind }
    define head spaced (← body.lower names spaced)
    return [.single (.rule head)]
  | .list item => do
    let comma := Expr.token (.symbol ",")
    let head ← share (.list item) {} fun head => do
      let first ← item.lower names true
      let more ← repetition (.seq [comma, item]) true do
        return (← item.lower names true).map (Phrase.single (.token (Token.symbol ",").code)).append
      define head true (Phrase.ofParts
        [.inr first, .inr [{}, more], .inr [{}, .single (.token (Token.symbol ",").code)]] {} 0)
    return [.single (.rule head)]
  | .seq parts => return Phrase.ofParts (← lowerParts names spaced parts) {} 0
  | .choice parts => lowerChoice names spaced parts
  | .opt body => return {} :: (← body.lower names spaced)
  | .many body => return [{}, ← repetition body spaced (body.lower names spaced)]
  | .some body => return [← repetition body spaced (body.lower names spaced)]
  | .binds _ => return [{}]

def Expr.lowerParts (names : List String) (spaced : Bool) :
    List Expr → StateM Lowering (List (Binding ⊕ List Phrase))
  | [] => return []
  | .binds b :: rest => return .inl b :: (← lowerParts names spaced rest)
  | e :: rest => return .inr (← e.lower names spaced) :: (← lowerParts names spaced rest)

def Expr.lowerChoice (names : List String) (spaced : Bool) :
    List Expr → StateM Lowering (List Phrase)
  | [] => return []
  | e :: rest => return (← e.lower names spaced) ++ (← lowerChoice names spaced rest)

end

/-- A grammar in plain productions. Rules are numbered: the named ones first, in their order. -/
structure Plain where
  heads : Array Head
  productions : Array Production
deriving Inhabited

def Plain.ofRules (rules : List Rule) : Plain :=
  let names := rules.map (·.name)
  let start : Lowering := { heads := (rules.map fun r => { kind := r.kind }).toArray }
  let run : StateM Lowering Unit := rules.zipIdx.forM fun (r, head) => do
    Lowering.define head r.spaced (← r.body.lower names r.spaced)
  let done := (run.run start).2
  { heads := done.heads, productions := done.productions }

end Posonly.Grammar
