import Posonly.Grammar.Expr

/-!
# The Python grammar

The rules of Python's syntax, up to and including the newest constructs: whether a construct is too
new for a declared version is decided later, from the tree. The parameters of a lambda have no
positional-only marker here, so such a marker ends up in an error node; the parameters of a function
take one anywhere.
-/

namespace Posonly.Grammar.Python

open Posonly.Grammar.Expr (token rule list seq choice opt many some binds)

/-! ## Operators, from the one that binds strongest -/

def cond : Expr := binds { level := 14 }
def trail : Expr := binds { level := 13 }
def power : Expr := binds { level := 12, tilt := -1 }
def sign : Expr := binds { level := 11 }
def times : Expr := binds { level := 10, tilt := 1 }
def plus : Expr := binds { level := 9, tilt := 1 }
def shift : Expr := binds { level := 8, tilt := 1 }
def bitAnd : Expr := binds { level := 7, tilt := 1 }
def bitXor : Expr := binds { level := 6, tilt := 1 }
def bitOr : Expr := binds { level := 5, tilt := 1 }
def compare : Expr := binds { level := 4, tilt := 1 }
def naming : Expr := binds { level := 3, tilt := 1 }
def both : Expr := binds { level := 2, tilt := 1 }
def either : Expr := binds { level := 1, tilt := 1 }

/-! ## Abbreviations -/

def kw (spelling : String) : Expr := token (.word spelling)

def sym (spelling : String) : Expr := token (.symbol spelling)

def node (name : String) (body : Expr) : Expr := .node (.ofName name) body

/-- A rule that makes a node of its own name. -/
def nodeRule (name : String) (body : Expr) : Rule := { name, kind := Kind.ofName name, body }

/-- A rule that makes a node of another name. -/
def aliasRule (name kind : String) (body : Expr) : Rule := { name, kind := Kind.ofName kind, body }

def plainRule (name : String) (body : Expr) : Rule := { name, body }

/-- The same rule, without blanks between its parts. -/
def tight (r : Rule) : Rule := { r with spaced := false }

def name : Expr := rule "VariableName"
def test : Expr := rule "test"
def testInner : Expr := rule "testInner"
def testNamed : Expr := rule "testNamed"
def expression : Expr := rule "expression"
def pattern : Expr := rule "pattern"
def dottedName : Expr := rule "dottedName"
def bodyBlock : Expr := rule "Body"
def yieldExpression : Expr := rule "YieldExpression"
def typeParams : Expr := opt (rule "TypeParamList")
def compFor : Expr := rule "compFor"

def starred : Expr := seq [sym "*", expression]

def assign (spellings : List String) : Expr := node "AssignOp" (choice (spellings.map sym))

def lineEnd : Expr := choice [token .newline, token .endOfText]
def blockEnd : Expr := choice [token .dedent, token .endOfText]
def expressions : Expr := list (choice [starred, test])
def importedNames : Expr := list (choice [dottedName, seq [dottedName, kw "as", name]])
def elseClause : Expr := opt (seq [kw "else", bodyBlock])
def literalWord : List Expr := [kw "None", token .truth]
def anyString : Expr := choice [rule "String", rule "FormatString"]

def stringStarts (format : Bool) : Expr :=
  choice ((Token.openings.filter (·.format == format)).map fun o => token (.stringStart o))

def replacementField (start : Token) : Expr :=
  seq [token start, choice [yieldExpression, list (seq [opt (sym "*"), test])],
    opt (node "FormatSelfDoc" (sym "=")), opt (token .conversion),
    choice [rule "formatSpec", sym "\x7d"]]

/-! ## Rules -/

def statementRules : List Rule :=
  [ nodeRule "Script" (many (rule "statement")),
    plainRule "statement" (choice [rule "simpleStatement", rule "compoundStatement"]),
    plainRule "simpleStatement" (choice
      [ seq [rule "smallStatement", lineEnd],
        node "StatementGroup" (seq [rule "smallStatement",
          some (seq [sym ";", opt (rule "smallStatement")]), lineEnd])]),
    plainRule "smallStatement" (choice
      [ node "AssignStatement" (seq [expressions, choice
          [ seq [opt (rule "TypeDef"),
              some (seq [assign ["="], choice [yieldExpression, expressions]])],
            rule "TypeDef"]]),
        node "UpdateStatement"
          (seq [expressions, token .update, choice [yieldExpression, list test]]),
        node "ExpressionStatement" expressions,
        node "DeleteStatement" (seq [kw "del", list expression]),
        node "PassStatement" (kw "pass"),
        node "BreakStatement" (kw "break"),
        node "ContinueStatement" (kw "continue"),
        node "ReturnStatement" (seq [kw "return", opt (list (choice [test, starred]))]),
        node "YieldStatement" (rule "yield"),
        node "PrintStatement" (seq [token .print, test]),
        node "RaiseStatement" (seq [kw "raise", opt (seq [test, opt (choice
          [seq [kw "from", test], seq [sym ",", test, opt (seq [sym ",", test])]])])]),
        rule "ImportStatement",
        node "ScopeStatement" (seq [choice [kw "global", kw "nonlocal"], list name]),
        node "AssertStatement" (seq [kw "assert", list test]),
        node "TypeDefinition" (seq [kw "type", name, typeParams, sym "=", test])]),
    nodeRule "ImportStatement" (choice
      [ seq [kw "import", choice [rule "importList", importedNames]],
        seq [kw "from",
          choice [seq [some (choice [sym ".", sym "..."]), opt dottedName], dottedName],
          kw "import", choice [sym "*", rule "importList", importedNames]]]),
    plainRule "importList" (seq [sym "(", importedNames, sym ")"]),
    nodeRule "Body" (seq [sym ":", choice
      [ rule "simpleStatement",
        seq [token .newline, token .indent, some (rule "statement"), blockEnd]]]),
    plainRule "compoundStatement" (choice
      [ rule "IfStatement",
        node "WhileStatement" (seq [kw "while", testNamed, bodyBlock, elseClause]),
        node "ForStatement"
          (seq [opt (kw "async"), kw "for", list (seq [opt (sym "*"), expression]),
          kw "in", list test, bodyBlock, elseClause]),
        rule "TryStatement",
        node "WithStatement" (seq [opt (kw "async"), kw "with",
          list (seq [test, opt (seq [kw "as", name])]), bodyBlock]),
        rule "FunctionDefinition",
        rule "ClassDefinition",
        node "DecoratedStatement" (seq [some (rule "Decorator"),
          choice [rule "ClassDefinition", rule "FunctionDefinition"]]),
        rule "MatchStatement"]),
    nodeRule "IfStatement" (seq [kw "if", testNamed, bodyBlock,
      many (seq [kw "elif", opt testNamed, bodyBlock]), elseClause]),
    nodeRule "TryStatement" (seq [kw "try", bodyBlock,
      many (seq [kw "except", opt (sym "*"),
        opt (seq [test, opt (seq [choice [kw "as", sym ","], name])]), bodyBlock]),
      elseClause, opt (seq [kw "finally", bodyBlock])])]

def definitionRules : List Rule :=
  [ nodeRule "Decorator" (seq [token .decorator, dottedName, opt (rule "ArgList"), token .newline]),
    nodeRule "FunctionDefinition" (seq [opt (kw "async"), kw "def", name, typeParams,
      rule "ParamList", opt (node "TypeDef" (seq [sym "->", test])), bodyBlock]),
    nodeRule "ParamList" (seq [sym "(", opt (list (rule "param")), sym ")"]),
    plainRule "param" (choice
      [ seq [name, opt (rule "TypeDef"), opt (seq [assign ["="], test])],
        seq [sym "*", opt (seq [name, opt (rule "TypeDef")])],
        seq [sym "**", name, opt (rule "TypeDef")],
        sym "/"]),
    nodeRule "TypeDef" (seq [sym ":", test]),
    nodeRule "TypeParamList" (seq [sym "[", list (rule "TypeParam"), sym "]"]),
    nodeRule "TypeParam" (choice
      [seq [choice [sym "*", sym "**"], name], seq [name, opt (rule "TypeDef")]]),
    nodeRule "ClassDefinition"
      (seq [kw "class", name, typeParams, opt (rule "ArgList"), bodyBlock]),
    aliasRule "lambdaParams" "ParamList"
      (opt (seq [rule "lambdaParam", many (seq [sym ",", rule "lambdaParam"])])),
    plainRule "lambdaParam" (choice
      [ seq [name, opt (seq [assign ["="], test])],
        seq [sym "*", opt name],
        seq [sym "**", name]])]

def patternRules : List Rule :=
  [ nodeRule "MatchStatement" (seq [kw "match", opt (sym "*"), expression,
      node "MatchBody" (seq [sym ":", token .newline, token .indent, some (rule "MatchClause"),
        blockEnd])]),
    nodeRule "MatchClause" (seq [kw "case", list pattern, opt (node "Guard" (seq [kw "if", test])),
      bodyBlock]),
    plainRule "pattern" (choice
      [ node "CapturePattern" name,
        rule "LiteralPattern",
        node "AsPattern" (seq [pattern, naming, kw "as", name]),
        node "OrPattern" (seq [pattern,
          some (seq [either, node "LogicOp" (sym "|"), pattern])]),
        rule "AttributePattern",
        rule "SequencePattern",
        rule "MappingPattern",
        node "StarPattern" (seq [sym "*", sign, pattern]),
        node "ClassPattern" (seq [choice [name, rule "AttributePattern"], rule "PatternArgList"])]),
    nodeRule "AttributePattern" (seq [name, some (seq [sym ".", rule "PropertyName"])]),
    nodeRule "LiteralPattern" (choice
      ([ seq [opt (node "ArithOp" (sym "-")), token .number,
          opt (seq [node "ArithOp" (choice [sym "+", sym "-"]), token .number])],
        rule "String"] ++ literalWord)),
    nodeRule "PatternArgList" (seq [sym "(",
      list (choice [pattern, node "KeywordPattern" (seq [name, sym "=", pattern])]), sym ")"]),
    nodeRule "SequencePattern" (choice
      [seq [sym "[", list pattern, sym "]"], seq [sym "(", list pattern, sym ")"]]),
    nodeRule "MappingPattern" (seq [sym "\x7b",
      list (choice [seq [sym "**", pattern],
        seq [choice [name, rule "LiteralPattern"], sym ":", pattern]]), sym "\x7d"])]

def expressionRules : List Rule :=
  let item := choice [testNamed, starred]
  let pair := choice [seq [test, sym ":", test], seq [sym "**", expression]]
  [ plainRule "test" (choice
      [ testInner,
        node "ConditionalExpression" (seq [testInner, cond, kw "if", testInner, kw "else", test]),
        node "LambdaExpression" (seq [kw "lambda", rule "lambdaParams", sym ":", test])]),
    plainRule "testNoCond" (choice
      [ testInner,
        node "LambdaExpression" (seq [kw "lambda", rule "lambdaParams", sym ":",
          rule "testNoCond"])]),
    plainRule "testNamed"
      (choice [test, node "NamedExpression" (seq [test, assign [":="], test])]),
    plainRule "testInner" (choice [rule "binaryTest", rule "unaryTest", expression]),
    aliasRule "binaryTest" "BinaryExpression" (choice
      [ seq [testInner, either, kw "or", testInner],
        seq [testInner, both, kw "and", testInner],
        seq [testInner, compare, choice [token .comparison, kw "in", seq [kw "not", kw "in"],
          seq [kw "is", opt (kw "not")]], testInner]]),
    aliasRule "unaryTest" "UnaryExpression" (seq [kw "not", testInner]),
    plainRule "expression" (choice
      ([ rule "BinaryExpression",
        node "UnaryExpression" (seq [sign, choice [node "ArithOp" (choice [sym "+", sym "-"]),
          node "BitOp" (sym "~")], expression]),
        node "AwaitExpression" (seq [kw "await", expression]),
        rule "ParenthesizedExpression",
        rule "TupleExpression",
        rule "ComprehensionExpression",
        rule "ArrayExpression",
        rule "ArrayComprehensionExpression",
        rule "DictionaryExpression",
        rule "DictionaryComprehensionExpression",
        rule "SetExpression",
        rule "SetComprehensionExpression",
        node "CallExpression" (seq [expression, trail, rule "ArgList"]),
        node "MemberExpression" (seq [expression, trail,
          choice [rule "subscript", seq [sym ".", rule "PropertyName"]]]),
        name,
        token .number,
        anyString,
        node "ContinuedString" (seq [anyString, some anyString]),
        sym "..."] ++ literalWord)),
    nodeRule "BinaryExpression" (choice
      [ seq [expression, bitOr, node "BitOp" (sym "|"), expression],
        seq [expression, bitXor, node "BitOp" (sym "^"), expression],
        seq [expression, bitAnd, node "BitOp" (sym "&"), expression],
        seq [expression, shift, node "BitOp" (choice [sym "<<", sym ">>"]), expression],
        seq [expression, plus, node "ArithOp" (choice [sym "+", sym "-"]), expression],
        seq [expression, times,
          node "ArithOp" (choice [sym "*", sym "@", sym "/", sym "%", sym "//"]), expression],
        seq [expression, power, node "ArithOp" (sym "**"), expression]]),
    plainRule "subscript" (seq [sym "[", list (choice
      [ testNamed,
        seq [opt testNamed, sym ":", opt testNamed, opt (seq [sym ":", opt testNamed])]]),
      sym "]"]),
    nodeRule "ParenthesizedExpression"
      (seq [sym "(", choice [testNamed, starred, yieldExpression], sym ")"]),
    nodeRule "TupleExpression" (seq [sym "(", opt (seq [item, choice
      [seq [some (seq [sym ",", item]), opt (sym ",")], sym ","]]), sym ")"]),
    nodeRule "ComprehensionExpression" (seq [sym "(", item, compFor, sym ")"]),
    nodeRule "ArrayExpression" (seq [sym "[", opt (list item), sym "]"]),
    nodeRule "ArrayComprehensionExpression" (seq [sym "[", item, compFor, sym "]"]),
    nodeRule "DictionaryExpression" (seq [sym "\x7b", opt (list pair), sym "\x7d"]),
    nodeRule "DictionaryComprehensionExpression" (seq [sym "\x7b", pair, compFor, sym "\x7d"]),
    nodeRule "SetExpression" (seq [sym "\x7b", list (choice [test, starred]), sym "\x7d"]),
    nodeRule "SetComprehensionExpression"
      (seq [sym "\x7b", choice [test, starred], compFor, sym "\x7d"]),
    plainRule "yield" (seq [kw "yield",
      choice [seq [kw "from", test], list (choice [test, starred])]]),
    nodeRule "YieldExpression" (rule "yield"),
    nodeRule "ArgList" (seq [sym "(", opt (list (rule "argument")), sym ")"]),
    plainRule "argument" (choice
      [ seq [test, opt compFor],
        seq [name, assign ["=", ":="], test, opt compFor],
        seq [sym "**", test],
        seq [sym "*", test]]),
    plainRule "compFor" (seq [opt (kw "async"), kw "for", list expression, kw "in", testInner,
      opt (choice [compFor, rule "compIf"])]),
    plainRule "compIf" (seq [kw "if", rule "testNoCond", opt (choice [compFor, rule "compIf"])]),
    nodeRule "VariableName" (token .identifier),
    nodeRule "PropertyName" (token .property),
    plainRule "dottedName" (seq [name, many (seq [sym ".", name])])]

/-- String literals, inside which blanks are text, and blank lines. -/
def textRules : List Rule :=
  [ tight (nodeRule "String" (seq [stringStarts false,
      many (choice [token .stringContent, token .escape]), token .stringEnd])),
    tight (nodeRule "FormatString" (seq [stringStarts true,
      many (choice [token .stringContent, token .escape, rule "FormatReplacement"]),
      token .stringEnd])),
    tight (plainRule "formatSpec" (seq [node "FormatSpec" (seq [sym ":",
      many (choice [token .specText, rule "nestedFormatReplacement"])]), sym "\x7d"])),
    nodeRule "FormatReplacement" (rule "replacementField"),
    plainRule "replacementField" (replacementField .replacement),
    aliasRule "nestedFormatReplacement" "FormatReplacement" (rule "nestedReplacementField"),
    plainRule "nestedReplacementField" (replacementField (.symbol "\x7b")),
    tight (plainRule "blank" (rule "blankLine")),
    tight (plainRule "blankLine"
      (seq [token .blankLine, opt (token .space), opt (token .comment), lineEnd]))]

/-- All rules; the first one stands for a whole file. -/
def rules : List Rule :=
  statementRules ++ definitionRules ++ patternRules ++ expressionRules ++ textRules

def ruleCode (name : String) : Nat := (rules.map (·.name)).idxOf name

end Posonly.Grammar.Python
