/-!
# Kinds of syntax nodes

A syntax node is known by its kind. The conversion looks at a handful of kinds and treats all the
others alike, so those few are constructors and the rest share one constructor that carries the
name.
-/

namespace Posonly

inductive Kind where
  | script
  /-- The indented or one-line block of a compound statement. -/
  | body
  | classDefinition
  | functionDefinition
  | lambdaExpression
  /-- The parameters of a function, with their brackets, or of a lambda, without any. -/
  | paramList
  | typeParamList
  | variableName
  | comment
  /-- A string literal without replacement fields. -/
  | plainString
  /-- A string literal that may hold replacement fields. -/
  | formatString
  | matchStatement
  | expressionStatement
  | exceptKeyword
  /-- Text that no rule of the grammar could take in. -/
  | error
  /-- Any other kind, by name. -/
  | other (name : String)
deriving DecidableEq, Repr, Inhabited

namespace Kind

def name : Kind → String
  | script => "Script"
  | body => "Body"
  | classDefinition => "ClassDefinition"
  | functionDefinition => "FunctionDefinition"
  | lambdaExpression => "LambdaExpression"
  | paramList => "ParamList"
  | typeParamList => "TypeParamList"
  | variableName => "VariableName"
  | comment => "Comment"
  | plainString => "String"
  | formatString => "FormatString"
  | matchStatement => "MatchStatement"
  | expressionStatement => "ExpressionStatement"
  | exceptKeyword => "except"
  | error => "⚠"
  | other name => name

def ofName (name : String) : Kind :=
  ([script, body, classDefinition, functionDefinition, lambdaExpression, paramList, typeParamList,
    variableName, comment, plainString, formatString, matchStatement, expressionStatement,
    exceptKeyword, error].find? (·.name == name)).getD (other name)

end Kind

end Posonly
