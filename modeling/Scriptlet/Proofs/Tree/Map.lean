import Scriptlet.Tree.Basic

/-
  The reference nodes of trees, and trees with other tokens.

  Key declarations include:
    * `Reference`
    * `Expr.references`
    * `Expr.map`
    * `Stmt.map`
-/

namespace Scriptlet

/- How a node refers to a variable. -/
inductive Role where
  | name
  | assign
  | self
  | superMethod
  deriving DecidableEq, Repr

/- A node that refers to a variable by name. -/
structure Reference where
  role : Role
  id : Nat
  token : Token
  deriving DecidableEq, Repr

mutual

/- The reference nodes of an expression. -/
def Expr.references : Expr → List Reference
  | .literal _ => []
  | .name id name => [⟨.name, id, name⟩]
  | .assign id name value => value.references ++ [⟨.assign, id, name⟩]
  | .compound target _ value => target.references ++ value.references
  | .increment target _ _ => target.references
  | .unary _ operand => operand.references
  | .binary left _ right => left.references ++ right.references
  | .logical left _ right => left.references ++ right.references
  | .call callee _ arguments => callee.references ++ exprsReferences arguments
  | .get object _ => object.references
  | .set object _ value => object.references ++ value.references
  | .index object _ position => object.references ++ position.references
  | .indexSet object _ position value =>
    object.references ++ (position.references ++ value.references)
  | .self id keyword => [⟨.self, id, keyword⟩]
  | .superMethod id keyword _ => [⟨.superMethod, id, keyword⟩]
  | .function f => f.references
  | .group inner => inner.references
  | .array _ elements => exprsReferences elements

def Stmt.references : Stmt → List Reference
  | .expression expr => expr.references
  | .print _ value => value.references
  | .letDecl _ none => []
  | .letDecl _ (some value) => value.references
  | .functionDecl f => f.references
  | .classDecl _ none methods => functionsReferences methods
  | .classDecl _ (some superclass) methods => superclass.references ++ functionsReferences methods
  | .block body => stmtsReferences body
  | .conditional condition thenBranch none => condition.references ++ thenBranch.references
  | .conditional condition thenBranch (some elseBranch) =>
    condition.references ++ (thenBranch.references ++ elseBranch.references)
  | .whileLoop condition body => condition.references ++ body.references
  | .breakLoop _ => []
  | .returnValue _ none => []
  | .returnValue _ (some value) => value.references

def Function.references : Function → List Reference
  | .mk _ _ _ body => stmtsReferences body

def exprsReferences : List Expr → List Reference
  | [] => []
  | first :: others => first.references ++ exprsReferences others

def stmtsReferences : List Stmt → List Reference
  | [] => []
  | first :: others => first.references ++ stmtsReferences others

def functionsReferences : List Function → List Reference
  | [] => []
  | first :: others => first.references ++ functionsReferences others

end

/- Is it a declaration? -/
def Stmt.declares : Stmt → Bool
  | .letDecl .. => true
  | .functionDecl _ => true
  | .classDecl .. => true
  | _ => false

/- A superclass is given by a name. -/
def Expr.isName : Expr → Bool
  | .name .. => true
  | _ => false

/- A function that is known by its first token. -/
def Function.IsNamed (f : Function) : Prop := f.name = some f.keyword

section

variable (g : Token → Token) (k : Nat)

mutual

/- Other tokens, and node numbers moved on by `k`. -/
def Expr.map : Expr → Expr
  | .literal value => .literal value
  | .name id name => .name (id + k) (g name)
  | .assign id name value => .assign (id + k) (g name) value.map
  | .compound target operator value => .compound target.map (g operator) value.map
  | .increment target operator before => .increment target.map (g operator) before
  | .unary operator operand => .unary (g operator) operand.map
  | .binary left operator right => .binary left.map (g operator) right.map
  | .logical left operator right => .logical left.map (g operator) right.map
  | .call callee paren arguments => .call callee.map (g paren) (exprsMap arguments)
  | .get object name => .get object.map (g name)
  | .set object name value => .set object.map (g name) value.map
  | .index object bracket position => .index object.map (g bracket) position.map
  | .indexSet object bracket position value =>
    .indexSet object.map (g bracket) position.map value.map
  | .self id keyword => .self (id + k) (g keyword)
  | .superMethod id keyword method => .superMethod (id + k) (g keyword) (g method)
  | .function f => .function f.map
  | .group inner => .group inner.map
  | .array bracket elements => .array (g bracket) (exprsMap elements)

def Stmt.map : Stmt → Stmt
  | .expression expr => .expression expr.map
  | .print keyword value => .print (g keyword) value.map
  | .letDecl name none => .letDecl (g name) none
  | .letDecl name (some value) => .letDecl (g name) (some value.map)
  | .functionDecl f => .functionDecl f.map
  | .classDecl name none methods => .classDecl (g name) none (functionsMap methods)
  | .classDecl name (some parent) methods =>
    .classDecl (g name) (some parent.map) (functionsMap methods)
  | .block body => .block (stmtsMap body)
  | .conditional condition thenBranch none => .conditional condition.map thenBranch.map none
  | .conditional condition thenBranch (some elseBranch) =>
    .conditional condition.map thenBranch.map (some elseBranch.map)
  | .whileLoop condition body => .whileLoop condition.map body.map
  | .breakLoop keyword => .breakLoop (g keyword)
  | .returnValue keyword none => .returnValue (g keyword) none
  | .returnValue keyword (some value) => .returnValue (g keyword) (some value.map)

def Function.map : Function → Function
  | .mk name keyword params body => .mk (name.map g) (g keyword) (params.map g) (stmtsMap body)

def exprsMap : List Expr → List Expr
  | [] => []
  | first :: others => first.map :: exprsMap others

def stmtsMap : List Stmt → List Stmt
  | [] => []
  | first :: others => first.map :: stmtsMap others

def functionsMap : List Function → List Function
  | [] => []
  | first :: others => first.map :: functionsMap others

end

theorem exprsMap_eq_map : exprsMap g k = List.map (Expr.map g k) := by
  funext exprs
  induction exprs with
  | nil => rfl
  | cons first others ih => simp only [exprsMap, List.map, ih]

@[simp] theorem Expr.isAssignable_map (expr : Expr) :
    (expr.map g k).isAssignable = expr.isAssignable := by
  cases expr <;> rfl

end

end Scriptlet
