import Posonly.Automaton.Table
import Posonly.Grammar.Python
import Posonly.Lexer.Layout
import Posonly.Lexer.Spelling

/-!
# A language, ready to be parsed

What the parser needs to know of a language: its parse table, the spellings to read with in each
state, and which rules end a bracket or a string literal.
-/

namespace Posonly.Parser

open Posonly.Grammar Posonly.Automaton Posonly.Lexer

structure Language where
  table : Table
  /-- The spellings of each reading set, with the number of their token. -/
  spellings : Array (List (Nat × Pattern))
  /-- Whether each rule ends with a bracket that it opened. -/
  endsBracket : Array Bool
  endsString : Array Bool
deriving Inhabited

/-- Rules that end with the bracket with which they start. -/
def bracketRules : List String :=
  ["ParenthesizedExpression", "TupleExpression", "ComprehensionExpression", "importList", "ArgList",
    "ParamList", "ArrayExpression", "ArrayComprehensionExpression", "subscript", "SetExpression",
    "SetComprehensionExpression", "FormatString", "FormatReplacement", "nestedFormatReplacement",
    "DictionaryExpression", "DictionaryComprehensionExpression", "SequencePattern",
    "MappingPattern", "PatternArgList", "TypeParamList"]

/-- Which rules of a grammar are among those named. -/
def ruleFlags (count : Nat) (names : List String) : Array Bool :=
  (Array.range count).map fun r => names.any fun n => Python.ruleCode n == r

def python : Language :=
  let table := Table.build (Plain.ofRules Python.rules) (Python.ruleCode "Script")
    (Python.ruleCode "blank")
  { table
    spellings := table.readings.map fun set =>
      set.toList.filterMap fun t =>
        match spelling Token.all[t]! with
        | .never => none
        | p => some (t, p)
    endsBracket := ruleFlags table.heads.size bracketRules
    endsString := ruleFlags table.heads.size ["String", "FormatString"] }

/-- The surroundings after a token, which covers the text from `start` to `stop`. -/
def shiftLayout (text : Array UInt16) (layout : Layout) (token : Token)
    (start stop : Nat) : Layout :=
  match token with
  | .indent => layout.push { indent := indentWidth (text.extract start stop).toList }
  | .dedent => layout.pop
  | .symbol "(" | .symbol "[" | .symbol "\x7b" | .replacement => layout.push { bracketed := true }
  | .stringStart o => layout.push { bracketed := layout.top.bracketed, opening := o }
  | _ => layout

def Language.reduceLayout (l : Language) (layout : Layout) (rule : Nat) : Layout :=
  if (layout.top.bracketed && l.endsBracket[rule]!) ||
      (layout.top.opening.isSome && l.endsString[rule]!) then layout.pop
  else layout

end Posonly.Parser
