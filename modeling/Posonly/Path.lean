import Posonly.Text.Blank

/-!
# Paths

A path is a text with slashes between its components. Empty components and single dots mean
nothing, two dots lead to the directory above.
-/

namespace Posonly.Path

def slash : UInt16 := 0x2F
def dot : UInt16 := 0x2E

def up : Text := [dot, dot]

/-- The components of a path, empty ones included. -/
def components (p : Text) : List Text := p.splitOn slash

def isAbsolute (p : Text) : Bool := p.head? == some slash

/-- Takes a component to a list of components that has the last one first. Two dots take the one
before away; where there is none they stay if the path may lead up from where it starts. -/
def push (mayLeadUp : Bool) (stack : List Text) (component : Text) : List Text :=
  if component.isEmpty || component == [dot] then stack
  else if component == up then
    match stack with
    | [] => if mayLeadUp then [up] else []
    | last :: rest => if last == up then up :: stack else rest
  else component :: stack

/-- The components of a path that are left when dots have been followed. -/
def simplify (mayLeadUp : Bool) (p : Text) : List Text :=
  ((components p).foldl (push mayLeadUp) []).reverse

def ofComponents (cs : List Text) : Text := Text.joined [slash] cs

/-- A path without needless components. A slash at its end stays. -/
def normalize (p : Text) : Text :=
  let trailing := p.getLast? == some slash
  let simple := ofComponents (simplify (!isAbsolute p) p)
  if p.isEmpty then [dot]
  else if simple.isEmpty then
    if isAbsolute p then [slash] else if trailing then [dot, slash] else [dot]
  else
    (if isAbsolute p then [slash] else []) ++ simple ++ (if trailing then [slash] else [])

def join (p q : Text) : Text :=
  if p.isEmpty then normalize q
  else if q.isEmpty then normalize p
  else normalize (p ++ [slash] ++ q)

/-- An absolute path for a path, which is taken to start at a base if it is not absolute. The base
is itself absolute: it is the working directory of a run. -/
def resolve (base p : Text) : Text :=
  let whole := if isAbsolute p then p else base ++ [slash] ++ p
  slash :: ofComponents (simplify false whole)

def dirname (p : Text) : Text :=
  let tail := (p.drop 1).reverse.dropWhile (· == slash)
  let stop := (tail.dropWhile (· != slash)).length
  if stop = 0 then (if isAbsolute p then [slash] else [dot])
  else if isAbsolute p ∧ stop = 1 then [slash, slash]
  else p.take stop

/-- The last component of a path, slashes at its end left out. -/
def basename (p : Text) : Text :=
  ((p.reverse.dropWhile (· == slash)).takeWhile (· != slash)).reverse

/-- The part of a name from its last dot on. A dot at the start of the name does not count, nor
does the name of two dots. -/
def extension (p : Text) : Text :=
  let name := basename p
  let suffix := (name.reverse.takeWhile (· != dot)).reverse
  let stem := name.take (name.length - suffix.length - 1)
  if suffix.length = name.length || stem.isEmpty || name == up then [] else dot :: suffix

/-- The last component of a path without its extension. -/
def stem (p : Text) : Text :=
  let name := basename p
  name.take (name.length - (extension p).length)

end Posonly.Path
