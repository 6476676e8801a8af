import Scriptlet.Numeral
import Scriptlet.Tree.Basic

/-
  Trees as bracketed outlines, operator first.

  Key declarations include:
    * `Layout`
    * `Expr.outline`
    * `Stmt.outline`

  An outline leaves out node numbers and token places.
-/

namespace Scriptlet

/- Words, and parts in brackets, maybe behind a title. -/
inductive Layout where
  | leaf (isString : Bool) (text : String)
  | branch (title : String) (parts : List Layout)

namespace Layout

def word (text : String) : Layout := .leaf false text

/- Parts after a head. -/
def bracketed (head : String) (parts : List Layout) : Layout := .branch "" (word head :: parts)

mutual

/- Strings stand without quotes. -/
def text : Layout → String
  | .leaf _ text => text
  | .branch title parts => title ++ "(" ++ row parts

/- Blanks are between the parts, and a bracket at the end. -/
def row : List Layout → String
  | [] => ")"
  | first :: others => first.text ++ (if others.isEmpty then ")" else " " ++ row others)

end

end Layout

open Layout (word bracketed)

def Literal.layout : Literal → Layout
  | .number x => word (Numeral.oneDecimal x)
  | .string text => .leaf true text
  | .bool true => word "true"
  | .bool false => word "false"
  | .nil => word "nil"

/- A function's name, nothing for a literal, with its parameters. -/
def Function.heading (name : Option Token) (params : List Token) : Layout :=
  .branch (name.elim "" Token.lexeme) (params.map fun param => word param.lexeme)

mutual

def Expr.layout : Expr → Layout
  | .literal value => value.layout
  | .name _ name => word name.lexeme
  | .assign _ name value => bracketed "=" [word name.lexeme, value.layout]
  | .compound target operator value => bracketed operator.lexeme [target.layout, value.layout]
  | .increment target operator before =>
      bracketed ((if before then "pre" else "post") ++ operator.lexeme) [target.layout]
  | .unary operator operand => bracketed operator.lexeme [operand.layout]
  | .binary left operator right => bracketed operator.lexeme [left.layout, right.layout]
  | .logical left operator right => bracketed operator.lexeme [left.layout, right.layout]
  | .call callee _ arguments => bracketed "call" (callee.layout :: exprsLayout arguments)
  | .get object name => bracketed "." [object.layout, word name.lexeme]
  | .set object name value => bracketed ".=" [object.layout, word name.lexeme, value.layout]
  | .index object _ position => bracketed "[]" [object.layout, position.layout]
  | .indexSet object _ position value =>
      bracketed "[]=" [object.layout, position.layout, value.layout]
  | .self _ _ => word "this"
  | .superMethod _ _ method => bracketed "super" [word method.lexeme]
  | .function function => function.layout "fn"
  | .group inner => bracketed "group" [inner.layout]
  | .array _ elements => bracketed "array" (exprsLayout elements)

def Stmt.layout : Stmt → Layout
  | .expression expr => bracketed ";" [expr.layout]
  | .print _ value => bracketed "print" [value.layout]
  | .letDecl name none => bracketed "let" [word name.lexeme]
  | .letDecl name (some value) => bracketed "let" [word name.lexeme, value.layout]
  | .functionDecl function => function.layout "fn"
  | .classDecl name none methods => bracketed "class" (word name.lexeme :: methodsLayout methods)
  | .classDecl name (some superclass) methods =>
      bracketed "class"
        (word name.lexeme :: word "<" :: superclass.layout :: methodsLayout methods)
  | .block body => bracketed "block" (stmtsLayout body)
  | .conditional condition thenBranch none =>
      bracketed "if" [condition.layout, thenBranch.layout]
  | .conditional condition thenBranch (some elseBranch) =>
      bracketed "if" [condition.layout, thenBranch.layout, elseBranch.layout]
  | .whileLoop condition body => bracketed "while" [condition.layout, body.layout]
  | .breakLoop _ => bracketed "break" []
  | .returnValue _ none => bracketed "return" []
  | .returnValue _ (some value) => bracketed "return" [value.layout]

/- The head tells functions and methods apart. -/
def Function.layout (head : String) : Function → Layout
  | .mk name _ params body =>
      bracketed head [Function.heading name params, bracketed "block" (stmtsLayout body)]

def exprsLayout : List Expr → List Layout
  | [] => []
  | first :: others => first.layout :: exprsLayout others

def stmtsLayout : List Stmt → List Layout
  | [] => []
  | first :: others => first.layout :: stmtsLayout others

def methodsLayout : List Function → List Layout
  | [] => []
  | first :: others => first.layout "method" :: methodsLayout others

end

def Expr.outline (expr : Expr) : String := expr.layout.text

def Stmt.outline (stmt : Stmt) : String := stmt.layout.text

end Scriptlet
