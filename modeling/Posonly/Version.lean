import Posonly.Text.Basic

/-!
# Versions of Python

The versions of the language that a source may be declared to be written in, oldest first.
-/

namespace Posonly

inductive PythonVersion where
  | v38
  | v39
  | v310
  | v311
  | v312
deriving DecidableEq, Repr, Inhabited

namespace PythonVersion

def all : List PythonVersion := [v38, v39, v310, v311, v312]

def text : PythonVersion → Text
  | v38 => "3.8"
  | v39 => "3.9"
  | v310 => "3.10"
  | v311 => "3.11"
  | v312 => "3.12"

def rank : PythonVersion → Nat
  | v38 => 0
  | v39 => 1
  | v310 => 2
  | v311 => 3
  | v312 => 4

def isAfter (v w : PythonVersion) : Bool := w.rank < v.rank

def ofText? (t : Text) : Option PythonVersion := all.find? fun v => v.text == t

end PythonVersion

end Posonly
