import Scriptlet.Numeral
import Scriptlet.Text.Quoted
import Scriptlet.Tree.Basic

/-
  Trees as source text.

  Key declarations include:
    * `Expr.source`
    * `Stmt.source`

  Parentheses are written where the tree has groups and
  nowhere else, so the text parses back to the same shape.
-/

namespace Scriptlet

def Literal.source : Literal → String
  | .number x => Numeral.display x
  | .string text => String.ofList (Quoted.encode text.toList)
  | .bool true => "true"
  | .bool false => "false"
  | .nil => "nil"

def commaSeparated (parts : List String) : String := String.intercalate ", " parts

/- Statements in braces, blanks between them. -/
def braced (statements : List String) : String :=
  match statements with
  | [] => "\x7b \x7d"
  | statements =>
      "\x7b " ++ String.intercalate " " statements ++ " \x7d"

/-
  An operator before its operand.  A blank keeps two minus
  signs from joining.
-/
def signedText (operator operand : String) : String :=
  if operand.toList.head? = some '-' then
    operator ++ " " ++ operand
  else operator ++ operand

/- A function's name, if any, with its parameters. -/
def parameterText (name : Option Token) (params : List Token) : String :=
  (match name with
    | some token => token.lexeme
    | none => "") ++
    "(" ++ commaSeparated (params.map Token.lexeme) ++ ")"

mutual

def Expr.source : Expr → String
  | .literal value => value.source
  | .name _ name => name.lexeme
  | .assign _ name value =>
      name.lexeme ++ " = " ++ value.source
  | .compound target operator value =>
      target.source ++ " " ++ operator.lexeme ++ " " ++ value.source
  | .increment target operator true =>
      operator.lexeme ++ target.source
  | .increment target operator false =>
      target.source ++ operator.lexeme
  | .unary operator operand =>
      signedText operator.lexeme operand.source
  | .binary left operator right =>
      left.source ++ " " ++ operator.lexeme ++ " " ++ right.source
  | .logical left operator right =>
      left.source ++ " " ++ operator.lexeme ++ " " ++ right.source
  | .call callee _ arguments =>
      callee.source ++ "(" ++ commaSeparated (sourceExprs arguments) ++ ")"
  | .get object name => object.source ++ "." ++ name.lexeme
  | .set object name value =>
      object.source ++ "." ++ name.lexeme ++ " = " ++ value.source
  | .index object _ position =>
      object.source ++ "[" ++ position.source ++ "]"
  | .indexSet object _ position value =>
      object.source ++ "[" ++ position.source ++ "] = " ++ value.source
  | .self _ _ => "this"
  | .superMethod _ _ method => "super." ++ method.lexeme
  | .function function => "fn " ++ function.source
  | .group inner => "(" ++ inner.source ++ ")"
  | .array _ elements =>
      "[" ++ commaSeparated (sourceExprs elements) ++ "]"

def Stmt.source : Stmt → String
  | .expression expr => expr.source ++ ";"
  | .print _ value => "print " ++ value.source ++ ";"
  | .letDecl name none => "let " ++ name.lexeme ++ ";"
  | .letDecl name (some value) =>
      "let " ++ name.lexeme ++ " = " ++ value.source ++ ";"
  | .functionDecl function => "fn " ++ function.source
  | .classDecl name none methods =>
      "class " ++ name.lexeme ++ " \x7b" ++ sourceMethods methods ++ " \x7d"
  | .classDecl name (some superclass) methods =>
      "class " ++ name.lexeme ++ " < " ++ superclass.source ++ " \x7b" ++
        sourceMethods methods ++ " \x7d"
  | .block body => braced (sourceStmts body)
  | .conditional condition thenBranch none =>
      "if (" ++ condition.source ++ ") " ++ thenBranch.source
  | .conditional condition thenBranch (some elseBranch) =>
      "if (" ++ condition.source ++ ") " ++ thenBranch.source ++ " else " ++ elseBranch.source
  | .whileLoop condition body =>
      "while (" ++ condition.source ++ ") " ++ body.source
  | .breakLoop _ => "break;"
  | .returnValue _ none => "return;"
  | .returnValue _ (some value) =>
      "return " ++ value.source ++ ";"

/- Name, parameters and body. -/
def Function.source : Function → String
  | .mk name _ params body =>
      parameterText name params ++ " " ++ braced (sourceStmts body)

def sourceExprs : List Expr → List String
  | [] => []
  | first :: others => first.source :: sourceExprs others

def sourceStmts : List Stmt → List String
  | [] => []
  | first :: others => first.source :: sourceStmts others

/- Methods, each behind a blank. -/
def sourceMethods : List Function → String
  | [] => ""
  | first :: others =>
      " " ++ first.source ++ sourceMethods others

end

end Scriptlet
