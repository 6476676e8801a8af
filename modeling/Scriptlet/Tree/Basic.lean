import Scriptlet.Token.Basic

/-
  Expression and statement trees.

  Key declarations include:
    * `Literal`
    * `Expr`
    * `Stmt`
    * `Function`
    * `Expr.isAssignable`

  Every node that refers to a variable by name carries a
  number, its identity in the table of scope distances.
  Trees keep the tokens that faults are located at.
-/

namespace Scriptlet

inductive Literal where
  | number (value : Float)
  | string (text : String)
  | bool (value : Bool)
  | nil
  deriving DecidableEq, Repr

mutual

/- An expression. -/
inductive Expr where
  | literal (value : Literal)
  | name (id : Nat) (name : Token)
  | assign (id : Nat) (name : Token) (value : Expr)
  | compound (target : Expr) (operator : Token) (value : Expr)
  | increment (target : Expr) (operator : Token) (before : Bool)
  | unary (operator : Token) (operand : Expr)
  | binary (left : Expr) (operator : Token) (right : Expr)
  | logical (left : Expr) (operator : Token) (right : Expr)
  | call (callee : Expr) (paren : Token) (arguments : List Expr)
  | get (object : Expr) (name : Token)
  | set (object : Expr) (name : Token) (value : Expr)
  | index (object : Expr) (bracket : Token) (position : Expr)
  | indexSet (object : Expr) (bracket : Token) (position : Expr) (value : Expr)
  | self (id : Nat) (keyword : Token)
  | superMethod (id : Nat) (keyword : Token) (method : Token)
  | function (function : Function)
  | group (inner : Expr)
  | array (bracket : Token) (elements : List Expr)

/- A statement. -/
inductive Stmt where
  | expression (expr : Expr)
  | print (keyword : Token) (value : Expr)
  | letDecl (name : Token) (initializer : Option Expr)
  | functionDecl (function : Function)
  | classDecl (name : Token) (superclass : Option Expr) (methods : List Function)
  | block (body : List Stmt)
  | conditional (condition : Expr) (thenBranch : Stmt) (elseBranch : Option Stmt)
  | whileLoop (condition : Expr) (body : Stmt)
  | breakLoop (keyword : Token)
  | returnValue (keyword : Token) (value : Option Expr)

/-
  Parameters and body of a function or method.  A function
  literal has no name; the keyword locates faults.
-/
inductive Function where
  | mk (name : Option Token) (keyword : Token) (params : List Token) (body : List Stmt)

end

instance : Inhabited Expr := ⟨.literal .nil⟩

instance : Inhabited Stmt := ⟨.block []⟩

namespace Function

def name : Function → Option Token
  | .mk name _ _ _ => name

def keyword : Function → Token
  | .mk _ keyword _ _ => keyword

def params : Function → List Token
  | .mk _ _ params _ => params

def body : Function → List Stmt
  | .mk _ _ _ body => body

/- The name a function is shown and declared under. -/
def label (f : Function) : String :=
  match f.name with
  | some token => token.lexeme
  | none => "anonymous"

/- How many arguments a call passes. -/
def arity (f : Function) : Nat := f.params.length

end Function

namespace Expr

/-
  Variables, properties and elements can be assigned to.
-/
def isAssignable : Expr → Bool
  | .name .. => true
  | .get .. => true
  | .index .. => true
  | _ => false

/- The literal that loops without condition test. -/
def always : Expr := .literal (.bool true)

end Expr

end Scriptlet
