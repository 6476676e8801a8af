import Scriptlet.Scope.Walk
import Scriptlet.Tree.Basic

/-
  Resolving the names of a program.

  Key declarations include:
    * `Scope.Context`
    * `Expr.resolve`
    * `Stmt.resolve`
    * `Scope.resolveProgram`
    * `Scope.resolveExpression`

  One walk over the tree records for each reference how many
  scopes outward its declaration lies, and every misuse.  A
  block is a scope, and so are the parameters of a function
  together with its body.  A class body is a scope for
  `this` inside a scope for `super` if it has a superclass.
-/

namespace Scriptlet

namespace Scope

/- The innermost class around a node. -/
inductive ClassContext where
  | none
  | root
  | derived
  deriving DecidableEq, Repr

/- What encloses a node. -/
structure Context where
  inFunction : Bool := false
  inLoop : Bool := false
  classContext : ClassContext := .none
  initializing : Option String := .none
  deriving DecidableEq, Repr

/-
  Is the name read while its own initializer is resolved?
-/
def Context.readsEarly (ctx : Context) (walk : Walk) (name : String) : Bool :=
  match walk.scopes with
  | [] => ctx.initializing = some name
  | names :: _ => names.awaits name

/- The context inside a function body. -/
def Context.body (ctx : Context) : Context := { ctx with inFunction := true, inLoop := false }

/- The context of a top-level initializer. -/
def Context.initializer (ctx : Context) (walk : Walk) (name : Token) : Context :=
  match walk.scopes with
  | [] => { ctx with initializing := some name.lexeme }
  | _ => ctx

/- Declare parameters in order. -/
def Walk.parameters (walk : Walk) (params : List Token) : Walk :=
  params.foldl (fun walk param => (walk.declare param).define param) walk

/- Declare a function that has a name. -/
def Walk.declareFunction (walk : Walk) (f : Function) : Walk :=
  match f.name with
  | some name => (walk.declare name).define name
  | none => walk

/- A class that names itself as its superclass. -/
def Walk.checkSuperclass (walk : Walk) (name : Token) (superclass : Expr) : Walk :=
  match superclass with
  | .name _ parent =>
      if parent.lexeme = name.lexeme then
        walk.fault parent .ownSuperclass
      else walk
  | _ => walk

/- A use of the current object. -/
def Walk.self (walk : Walk) (ctx : Context) (id : Nat) (keyword : Token) : Walk :=
  match ctx.classContext with
  | .none => walk.fault keyword .selfOutsideClass
  | _ => walk.reference id keyword

/- A use of a superclass method. -/
def Walk.superMethod (walk : Walk) (ctx : Context) (id : Nat) (keyword : Token) : Walk :=
  match ctx.classContext with
  | .none => walk.fault keyword .superOutsideClass
  | .root => walk.fault keyword .superWithoutSuperclass
  | .derived => walk.reference id keyword

/- A read of a variable. -/
def Walk.read (walk : Walk) (ctx : Context) (id : Nat) (name : Token) : Walk :=
  let walk :=
    if ctx.readsEarly walk name.lexeme then
      walk.fault name .ownInitializer
    else walk
  walk.reference id name

end Scope

open Scope

mutual

def Expr.resolve (ctx : Context) : Expr → Walk → Walk
  | .literal _, walk => walk
  | .name id name, walk => walk.read ctx id name
  | .assign id name value, walk =>
      (value.resolve ctx walk).reference id name
  | .compound target _ value, walk =>
      value.resolve ctx (target.resolve ctx walk)
  | .increment target _ _, walk => target.resolve ctx walk
  | .unary _ operand, walk => operand.resolve ctx walk
  | .binary left _ right, walk =>
      right.resolve ctx (left.resolve ctx walk)
  | .logical left _ right, walk =>
      right.resolve ctx (left.resolve ctx walk)
  | .call callee _ arguments, walk =>
      resolveExprs ctx arguments (callee.resolve ctx walk)
  | .get object _, walk => object.resolve ctx walk
  | .set object _ value, walk =>
      value.resolve ctx (object.resolve ctx walk)
  | .index object _ position, walk =>
      position.resolve ctx (object.resolve ctx walk)
  | .indexSet object _ position value, walk =>
      value.resolve ctx (position.resolve ctx (object.resolve ctx walk))
  | .self id keyword, walk => walk.self ctx id keyword
  | .superMethod id keyword _, walk =>
      walk.superMethod ctx id keyword
  | .function function, walk => function.resolve ctx walk
  | .group inner, walk => inner.resolve ctx walk
  | .array _ elements, walk => resolveExprs ctx elements walk

def Stmt.resolve (ctx : Context) : Stmt → Walk → Walk
  | .expression expr, walk => expr.resolve ctx walk
  | .print _ value, walk => value.resolve ctx walk
  | .letDecl name none, walk =>
      (walk.declare name).define name
  | .letDecl name (some value), walk =>
      let declared := walk.declare name
      let inside := ctx.initializer declared name
      (value.resolve inside declared).define name
  | .functionDecl function, walk =>
      function.resolve ctx (walk.declareFunction function)
  | .classDecl name none methods, walk =>
      let declared := (walk.declare name).define name
      let inside := { ctx with classContext := .root }
      let object := declared.enter [("this", true)]
      (resolveMethods inside methods object).leave
  | .classDecl name (some superclass) methods, walk =>
      let declared := (walk.declare name).define name
      let checked := declared.checkSuperclass name superclass
      let inside := { ctx with classContext := .derived }
      let parent := superclass.resolve inside checked
      let object :=
        (parent.enter [("super", true)]).enter [("this", true)]
      (resolveMethods inside methods object).leave.leave
  | .block body, walk =>
      (resolveStmts ctx body (walk.enter [])).leave
  | .conditional condition thenBranch none, walk =>
      thenBranch.resolve ctx (condition.resolve ctx walk)
  | .conditional condition thenBranch (some elseBranch), walk =>
      elseBranch.resolve ctx (thenBranch.resolve ctx (condition.resolve ctx walk))
  | .whileLoop condition body, walk =>
      body.resolve { ctx with inLoop := true } (condition.resolve ctx walk)
  | .breakLoop keyword, walk =>
      if ctx.inLoop then walk
      else walk.fault keyword .breakOutsideLoop
  | .returnValue keyword none, walk =>
      if ctx.inFunction then walk
      else walk.fault keyword .returnOutsideFunction
  | .returnValue keyword (some value), walk =>
      value.resolve ctx
        (if ctx.inFunction then walk
          else walk.fault keyword .returnOutsideFunction)

/- Parameters and body share one scope. -/
def Function.resolve (ctx : Context) : Function → Walk → Walk
  | .mk _ _ params body, walk =>
      let bound := (walk.enter []).parameters params
      (resolveStmts ctx.body body bound).leave

def resolveExprs (ctx : Context) : List Expr → Walk → Walk
  | [], walk => walk
  | first :: others, walk =>
      resolveExprs ctx others (first.resolve ctx walk)

def resolveStmts (ctx : Context) : List Stmt → Walk → Walk
  | [], walk => walk
  | first :: others, walk =>
      resolveStmts ctx others (first.resolve ctx walk)

def resolveMethods (ctx : Context) : List Function → Walk → Walk
  | [], walk => walk
  | first :: others, walk =>
      resolveMethods ctx others (first.resolve ctx walk)

end

namespace Scope

/- Resolve the statements of a program. -/
def resolveProgram (body : List Stmt) : Walk := resolveStmts {} body {}

/- Resolve a single expression at top level. -/
def resolveExpression (expr : Expr) : Walk := expr.resolve {} {}

end Scope

end Scriptlet
