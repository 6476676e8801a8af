import Scriptlet.Proofs.Scope.Known

/-
  Where the nodes and tokens of a program stand.

  Key declarations include:
    * `Scope.Binders`
    * `Occurrence`
    * `Expr.occurrences`
    * `Scope.Position`
    * `Scope.Misused`
    * `Scope.IsInnermost`

  A token declares a local variable, refers to a name or does
  neither.  A reference belongs to the declaration of its name
  in the innermost scope that has one so far.  Tokens are told
  apart by their lines, so the tokens of a program are to be
  numbered through in place of their lines.  A position is a
  node together with all that is around it in its program.
  What a node must not be, and which scope its name belongs
  to, depends on its position alone.
-/

namespace Scriptlet

section

namespace Scope

/-
  The names declared in the open scopes, innermost first, and
  where they are declared.
-/
abbrev Binders := List (List (String × Nat))

namespace Binders

/- Declare a name in the innermost scope. -/
def declare (binders : Binders) (name : Token) : Binders :=
  binders.modifyHead ((name.lexeme, name.line) :: ·)

/- Where a name is declared that is not global. -/
def find? (binders : Binders) (name : String) : Option Nat :=
  binders.findSome? fun scope => scope.lookup name

end Binders

end Scope

open Scope

/- The name that a statement declares around it. -/
def Stmt.declared? : Stmt → Option Token
  | .letDecl name _ => some name
  | .functionDecl f => f.name
  | .classDecl name _ _ => some name
  | _ => none

theorem Stmt.declared?_of_declares {stmt : Stmt} (h : stmt.declares = false) :
    stmt.declared? = none := by
  cases stmt with
  | letDecl => cases h
  | functionDecl => cases h
  | classDecl => cases h
  | _ => rfl

theorem Stmt.not_declared {stmt : Stmt} {name : Token} {P : Prop} (h : stmt.declares = false)
    (hName : stmt.declared? = some name) : P := by
  rw [Stmt.declared?_of_declares h] at hName
  cases hName

/- The declarations that are known after a statement. -/
def Stmt.binders (stmt : Stmt) (binders : Binders) : Binders :=
  stmt.declared?.elim binders binders.declare

/- The names that statements declare around them. -/
def stmtsDeclared (stmts : List Stmt) : List Token := stmts.filterMap Stmt.declared?

/- What a token stands for. -/
inductive Occurrence.Use where
  | variable
  | reference (declaration : Option Nat)
  | other
  deriving DecidableEq, Repr

/- A token of a tree. -/
structure Occurrence where
  token : Token
  use : Occurrence.Use
  deriving DecidableEq, Repr

/- Is it a declaration or a reference that belongs to it? -/
def Occurrence.follows (declaration : Nat) (occurrence : Occurrence) : Bool :=
  match occurrence.use with
  | .variable => occurrence.token.line = declaration
  | .reference found => found = some declaration
  | .other => false

namespace Token

/- A reference from these scopes. -/
def refer (binders : Binders) (name : Token) : Occurrence :=
  ⟨name, .reference (binders.find? name.lexeme)⟩

/- A variable of the innermost scope, if it is not global. -/
def bind (binders : Binders) (name : Token) : Occurrence :=
  ⟨name, if binders.isEmpty then .other else .variable⟩

def other (token : Token) : Occurrence := ⟨token, .other⟩

end Token

mutual

/- The occurrences of tokens in an expression. -/
def Expr.occurrences (binders : Binders) :
    Expr → List Occurrence
  | .literal _ => []
  | .name _ name => [name.refer binders]
  | .assign _ name value => name.refer binders :: value.occurrences binders
  | .compound target operator value =>
    operator.other :: (target.occurrences binders ++ value.occurrences binders)
  | .increment target operator _ => operator.other :: target.occurrences binders
  | .unary operator operand => operator.other :: operand.occurrences binders
  | .binary left operator right =>
    operator.other :: (left.occurrences binders ++ right.occurrences binders)
  | .logical left operator right =>
    operator.other :: (left.occurrences binders ++ right.occurrences binders)
  | .call callee paren arguments =>
    paren.other :: (callee.occurrences binders ++ exprsOccurrences binders arguments)
  | .get object name => name.other :: object.occurrences binders
  | .set object name value =>
    name.other :: (object.occurrences binders ++ value.occurrences binders)
  | .index object bracket position =>
    bracket.other :: (object.occurrences binders ++ position.occurrences binders)
  | .indexSet object bracket position value =>
    bracket.other ::
      (object.occurrences binders ++ (position.occurrences binders ++ value.occurrences binders))
  | .self _ keyword => [keyword.refer binders]
  | .superMethod _ keyword method => [keyword.refer binders, method.other]
  | .function f => f.occurrences binders
  | .group inner => inner.occurrences binders
  | .array bracket elements => bracket.other :: exprsOccurrences binders elements

/-
  The same for a statement.  A class declares `this` inside
  it, and `super` if it has a superclass.
-/
def Stmt.occurrences (binders : Binders) :
    Stmt → List Occurrence
  | .expression expr => expr.occurrences binders
  | .print keyword value => keyword.other :: value.occurrences binders
  | .letDecl name none => [name.bind binders]
  | .letDecl name (some value) => name.bind binders :: value.occurrences (binders.declare name)
  | .functionDecl f => f.occurrences (f.name.elim binders binders.declare)
  | .classDecl name none methods =>
    name.other :: methodsOccurrences ([("this", name.line)] :: binders.declare name) methods
  | .classDecl name (some superclass) methods =>
    name.other ::
      (superclass.occurrences (binders.declare name) ++ methodsOccurrences
          ([("this", name.line)] :: [("super", name.line)] :: binders.declare name) methods)
  | .block body => stmtsOccurrences ([] :: binders) body
  | .conditional condition thenBranch none =>
    condition.occurrences binders ++ thenBranch.occurrences binders
  | .conditional condition thenBranch (some elseBranch) =>
    condition.occurrences binders ++
      (thenBranch.occurrences binders ++ elseBranch.occurrences binders)
  | .whileLoop condition body => condition.occurrences binders ++ body.occurrences binders
  | .breakLoop keyword => [keyword.other]
  | .returnValue keyword none => [keyword.other]
  | .returnValue keyword (some value) => keyword.other :: value.occurrences binders

/- The first token of a function, its parameters and body. -/
def Function.occurrences (binders : Binders) :
    Function → List Occurrence
  | .mk _ keyword params body =>
    let inside := params.foldl Binders.declare ([] :: binders)
    keyword.other :: (params.map (Token.bind ([] :: binders)) ++ stmtsOccurrences inside body)

def exprsOccurrences (binders : Binders) :
    List Expr → List Occurrence
  | [] => []
  | first :: others => first.occurrences binders ++ exprsOccurrences binders others

def stmtsOccurrences (binders : Binders) :
    List Stmt → List Occurrence
  | [] => []
  | first :: others => first.occurrences binders ++ stmtsOccurrences (first.binders binders) others

def methodsOccurrences (binders : Binders) :
    List Function → List Occurrence
  | [] => []
  | first :: others => first.occurrences binders ++ methodsOccurrences binders others

end

@[simp] theorem Stmt.binders_nil (stmt : Stmt) : stmt.binders [] = [] := by
  unfold Stmt.binders
  cases stmt.declared? <;> rfl

/-
  What a statement declares is one of its tokens.  At top
  level it is no local variable.
-/
theorem Stmt.declared?_occurs {stmt : Stmt} {name : Token}
    (hTree : stmt.Sensible) (h : stmt.declared? = some name) (binders : Binders) :
    ∃ occurrence ∈ stmt.occurrences binders, occurrence.token = name ∧
        (binders = [] → occurrence.use = .other) := by
  cases stmt with
  | letDecl other value =>
    cases h
    have hUse : binders = [] → (name.bind binders).use = .other := by
      rintro rfl
      rfl
    cases value <;>
      simp only [Stmt.occurrences] <;>
      exact ⟨_, List.mem_cons_self .., rfl, hUse⟩
  | functionDecl f =>
    have hName : some name = some f.keyword := h.symm.trans hTree.1
    cases f with
    | mk _ keyword params body =>
      exact ⟨_, List.mem_cons_self .., (Option.some.inj hName).symm, fun _ => rfl⟩
  | classDecl other parent methods =>
    cases h
    cases parent <;>
      simp only [Stmt.occurrences] <;>
      exact ⟨_, List.mem_cons_self .., rfl, fun _ => rfl⟩
  | _ => cases h

theorem stmtsDeclared_occurs {stmts : List Stmt} {name : Token}
    (hTree : stmtsSensible stmts) (h : name ∈ stmtsDeclared stmts) (binders : Binders) :
    ∃ occurrence ∈ stmtsOccurrences binders stmts, occurrence.token = name ∧
        (binders = [] → occurrence.use = .other) := by
  induction stmts generalizing binders with
  | nil => cases h
  | cons first others ih =>
    simp only [stmtsOccurrences, List.mem_append]
    rcases List.mem_filterMap.mp h with ⟨stmt, hMem, hName⟩
    rcases List.mem_cons.mp hMem with rfl | hMem
    · rcases Stmt.declared?_occurs hTree.1 hName binders with ⟨occurrence, hOccurs, hToken⟩
      exact ⟨occurrence, .inl hOccurs, hToken⟩
    · have hLater : name ∈ stmtsDeclared others := List.mem_filterMap.mpr ⟨stmt, hMem, hName⟩
      rcases ih hTree.2 hLater (first.binders binders) with ⟨occurrence, hOccurs, hToken, hUse⟩
      refine ⟨occurrence, .inr hOccurs, hToken, ?_⟩
      rintro rfl
      exact hUse first.binders_nil

section Naming

variable (place : Nat) (name : String)

/- A token at this place declares a variable of this name. -/
def Occurrence.Declares (occurrence : Occurrence) : Prop :=
  occurrence.token.line = place → occurrence.use = .variable ∧ occurrence.token.lexeme = name

/- What is declared at this place has this name. -/
def Scope.Binders.Named (binders : Binders) : Prop :=
  ∀ scope ∈ binders, ∀ entry ∈ scope, entry.2 = place → entry.1 = name

/-
  Given the declaration, the references that belong to it
  have its name.
-/
def Occurrence.Named (occurrences : List Occurrence) : Prop :=
  (∀ occurrence ∈ occurrences, occurrence.Declares place name) →
      ∀ occurrence ∈ occurrences, occurrence.follows place = true → occurrence.token.lexeme = name

variable {place name} {binders : Binders} {os ps : List Occurrence}

theorem Occurrence.Declares.ne_of_use {occurrence : Occurrence}
    (h : occurrence.Declares place name) (hUse : occurrence.use = .other) :
    occurrence.token.line ≠ place := by
  intro hPlace
  have hVariable := (h hPlace).1
  rw [hUse] at hVariable
  cases hVariable

namespace Scope.Binders.Named

theorem cons {scope : List (String × Nat)}
    (hScope : ∀ entry ∈ scope, entry.2 = place → entry.1 = name) (h : binders.Named place name) :
    Binders.Named place name (scope :: binders) := List.forall_mem_cons.mpr ⟨hScope, h⟩

variable (h : binders.Named place name)

include h

theorem block : Binders.Named place name ([] :: binders) := h.cons fun _ hMem => nomatch hMem

/- A scope for a keyword, declared by another token. -/
theorem word {other : Nat} (hOther : other ≠ place) (keyword : String) :
    Binders.Named place name ([(keyword, other)] :: binders) := by
  refine h.cons fun entry hMem hPlace => ?_
  cases List.mem_singleton.mp hMem
  exact absurd hPlace hOther

theorem declare {token : Token} (hToken : token.line = place → token.lexeme = name) :
    (binders.declare token).Named place name := by
  cases binders with
  | nil => exact h
  | cons scope binders =>
    rw [Named, List.forall_mem_cons] at h
    refine cons ?_ h.2
    exact List.forall_mem_cons.mpr ⟨hToken, h.1⟩

theorem find {lexeme : String} (hFound : binders.find? lexeme = some place) :
    lexeme = name := by
  rcases List.exists_of_findSome?_eq_some hFound with ⟨scope, hMem, hLookup⟩
  rcases List.lookup_eq_some_iff.mp hLookup with ⟨before, after, rfl, _⟩
  exact h _ hMem (lexeme, place) (by simp) rfl

end Scope.Binders.Named

namespace Occurrence.Named

theorem nil : Named place name [] := fun _ _ hMem => nomatch hMem

/- What follows may depend on what is declared first. -/
theorem append (h₁ : Named place name os)
    (h₂ : (∀ occurrence ∈ os, occurrence.Declares place name) →
        Named place name ps) : Named place name (os ++ ps) := by
  intro hDeclares
  rw [List.forall_mem_append] at hDeclares ⊢
  exact ⟨h₁ hDeclares.1, h₂ hDeclares.1 hDeclares.2⟩

theorem other (token : Token) (h : token.line ≠ place → Named place name os) :
    Named place name (token.other :: os) := by
  intro hDeclares
  rw [List.forall_mem_cons] at hDeclares ⊢
  refine ⟨fun hFollows => ?_, h (hDeclares.1.ne_of_use rfl) hDeclares.2⟩
  cases hFollows

theorem refer (hBinders : binders.Named place name) (token : Token) (h : Named place name os) :
    Named place name (token.refer binders :: os) := by
  intro hDeclares
  rw [List.forall_mem_cons] at hDeclares ⊢
  refine ⟨fun hFollows => ?_, h hDeclares.2⟩
  simp only [Token.refer, Occurrence.follows, decide_eq_true_eq] at hFollows
  exact hBinders.find hFollows

theorem bind (token : Token) (binders : Binders)
    (h : (token.line = place → token.lexeme = name) → Named place name os) :
    Named place name (token.bind binders :: os) := by
  intro hDeclares
  rw [List.forall_mem_cons] at hDeclares ⊢
  have hName : token.line = place → token.lexeme = name := fun hPlace => (hDeclares.1 hPlace).2
  refine ⟨fun hFollows => hName ?_, h hName hDeclares.2⟩
  unfold Occurrence.follows at hFollows
  split at hFollows
  · exact of_decide_eq_true hFollows
  · rename_i hUse
    simp only [Token.bind] at hUse
    split at hUse <;> cases hUse
  · cases hFollows

end Occurrence.Named

/- Nor do statements declare another name there. -/
theorem Stmt.binders_named {stmt : Stmt} (hBinders : binders.Named place name)
    (hTree : stmt.Sensible)
    (h : ∀ occurrence ∈ stmt.occurrences binders, occurrence.Declares place name) :
    (stmt.binders binders).Named place name := by
  unfold Stmt.binders
  cases hName : stmt.declared? with
  | none => exact hBinders
  | some token =>
    rcases stmt.declared?_occurs hTree hName binders with ⟨occurrence, hMem, rfl, _⟩
    exact hBinders.declare fun hPlace => (h occurrence hMem hPlace).2

/- Parameters come before the body of a function. -/
theorem Occurrence.Named.params {scopes : Binders} (params : List Token)
    (hBinders : binders.Named place name)
    (h : (params.foldl Binders.declare binders).Named place name → Named place name os) :
    Named place name (params.map (Token.bind scopes) ++ os) := by
  induction params generalizing binders with
  | nil => exact h hBinders
  | cons token params ih => exact .bind token scopes fun hToken => ih (hBinders.declare hToken) h

/-
  By induction on trees.  What is declared at the place has
  the name in all scopes on the way.
-/
theorem trees_named :
    (∀ expr : Expr, ∀ {binders : Binders}, binders.Named place name → expr.Sensible →
      Occurrence.Named place name (expr.occurrences binders)) ∧
    (∀ f : Function, ∀ {binders : Binders}, (f.keyword.line ≠ place → binders.Named place name) →
      f.Sensible → Occurrence.Named place name (f.occurrences binders)) ∧
    (∀ stmts, ∀ {binders : Binders}, binders.Named place name → stmtsSensible stmts →
      Occurrence.Named place name (stmtsOccurrences binders stmts)) ∧
    (∀ stmt : Stmt, ∀ {binders : Binders}, binders.Named place name → stmt.Sensible →
      Occurrence.Named place name (stmt.occurrences binders)) ∧
    (∀ methods, ∀ {binders : Binders}, binders.Named place name → functionsSensible methods →
      Occurrence.Named place name (methodsOccurrences binders methods)) ∧
    ∀ exprs, ∀ {binders : Binders}, binders.Named place name → exprsSensible exprs →
      Occurrence.Named place name (exprsOccurrences binders exprs) := by
  apply Expr.references.mutual_induct
  case case33 =>
    intro fname keyword params body ih binders hBinders hTree
    exact .other keyword fun hOther =>
      .params params (hBinders hOther).block fun hInside => ih hInside hTree.2
  case case23 =>
    intro f ih binders hBinders hTree
    have hName : f.name = some f.keyword := hTree.1
    simp only [Stmt.occurrences, hName]
    exact ih (fun hOther => hBinders.declare fun hPlace => absurd hPlace hOther) hTree.2
  case case24 =>
    intro token methods ih binders hBinders hTree
    refine .other token fun hOther => ?_
    have hInside := hBinders.declare fun hPlace => absurd hPlace hOther
    exact ih (hInside.word hOther "this") hTree.2
  case case25 =>
    intro token superclass methods ihParent ihMethods binders hBinders hTree
    refine .other token fun hOther => ?_
    have hInside := hBinders.declare fun hPlace => absurd hPlace hOther
    refine .append (ihParent hInside hTree.2.1.2) fun _ => ?_
    exact ihMethods ((hInside.word hOther "super").word hOther "this") hTree.2.2
  case case39 =>
    intro first others ihFirst ihOthers binders hBinders hTree
    exact .append (ihFirst hBinders hTree.1) fun hDeclares =>
      ihOthers (first.binders_named hBinders hTree.1 hDeclares) hTree.2
  all_goals
    intros
    grind [Expr.occurrences, Stmt.occurrences, exprsOccurrences, stmtsOccurrences,
      methodsOccurrences, Expr.Sensible, Stmt.Sensible, exprsSensible, stmtsSensible,
      functionsSensible, Occurrence.Named.append, Occurrence.Named.other, Occurrence.Named.refer,
      Occurrence.Named.bind, Occurrence.Named.nil, Binders.Named.declare, Binders.Named.block]

end Naming

end

------------------------------------------------------------
-- Positions
------------------------------------------------------------

namespace Scope

/-
  What may be around a node: the body of a loop, the
  initializer of a variable, the methods of a class, and a
  block or the body of a function with the names that are
  declared in it so far.
-/
inductive Layer where
  | loop
  | initializer (name : Token)
  | methods (derived : Bool)
  | scope (ofFunction : Bool) (names : List Token)

/- Is the nearest loop nearer than the nearest function? -/
def inLoop : List Layer → Bool
  | [] => false
  | .loop :: _ => true
  | .scope true _ :: _ => false
  | _ :: outer => inLoop outer

def inFunction : List Layer → Bool
  | [] => false
  | .scope true _ :: _ => true
  | _ :: outer => inFunction outer

/- The nearest class. -/
def classAround : List Layer → ClassContext
  | [] => .none
  | .methods derived :: _ => if derived then .derived else .root
  | _ :: outer => classAround outer

/- The variable whose initializer is nearest of all layers. -/
def pending? : List Layer → Option Token
  | .initializer name :: _ => some name
  | _ => none

/-
  The names of the scopes, innermost first.  A class is a
  scope for `this`, within one for `super` if it has a
  superclass.
-/
def scopesAround : List Layer → List (List String)
  | [] => []
  | .scope _ names :: outer => names.map Token.lexeme :: scopesAround outer
  | .methods true :: outer => ["this"] :: ["super"] :: scopesAround outer
  | .methods false :: outer => ["this"] :: scopesAround outer
  | _ :: outer => scopesAround outer

/- The scope so far outward is the first that has a name. -/
def IsInnermost (scopes : List (List String)) (name : String) (distance : Nat) : Prop :=
  (∃ names, scopes[distance]? = some names ∧ name ∈ names) ∧
    ∀ names ∈ scopes.take distance, name ∉ names

inductive Node where
  | expr (expr : Expr)
  | stmt (stmt : Stmt)
  | function (f : Function)

/- A node and what is around it, innermost first. -/
structure Position where
  around : List Layer
  node : Node

/- How a node refers to a variable. -/
def Node.reference? : Node → Option Reference
  | .expr (.name id name) => some ⟨.name, id, name⟩
  | .expr (.assign id name _) => some ⟨.assign, id, name⟩
  | .expr (.self id keyword) => some ⟨.self, id, keyword⟩
  | .expr (.superMethod id keyword _) => some ⟨.superMethod, id, keyword⟩
  | _ => none

/-
  Statements of one scope, each with the names that are
  declared before it and its own.
-/
def scopePositions (ofFunction : Bool) (around : List Layer) :
    List Token → List Stmt → List Position
  | _, [] => []
  | names, first :: others =>
    let declared := names ++ first.declared?.toList
    ⟨.scope ofFunction declared :: around, .stmt first⟩ ::
      scopePositions ofFunction around declared others

/- The direct parts of a node, where they stand. -/
def Position.parts : Position → List Position
  | ⟨around, .expr expr⟩ =>
    match expr with
    | .assign _ _ operand
    | .increment operand _ _
    | .unary _ operand
    | .get operand _
    | .group operand => [⟨around, .expr operand⟩]
    | .compound left _ right
    | .binary left _ right
    | .logical left _ right
    | .set left _ right
    | .index left _ right => [⟨around, .expr left⟩, ⟨around, .expr right⟩]
    | .indexSet object _ position value =>
      [⟨around, .expr object⟩, ⟨around, .expr position⟩, ⟨around, .expr value⟩]
    | .call callee _ arguments =>
      ⟨around, .expr callee⟩ :: arguments.map fun argument => ⟨around, .expr argument⟩
    | .array _ elements => elements.map fun element => ⟨around, .expr element⟩
    | .function f => [⟨around, .function f⟩]
    | _ => []
  | ⟨around, .stmt stmt⟩ =>
    match stmt with
    | .expression value
    | .print _ value
    | .returnValue _ (some value) => [⟨around, .expr value⟩]
    | .letDecl name (some value) => [⟨.initializer name :: around, .expr value⟩]
    | .functionDecl f => [⟨around, .function f⟩]
    | .classDecl _ none methods => methods.map fun f => ⟨.methods false :: around, .function f⟩
    | .classDecl _ (some superclass) methods =>
      ⟨around, .expr superclass⟩ :: methods.map fun f => ⟨.methods true :: around, .function f⟩
    | .block body => scopePositions false around [] body
    | .conditional condition thenBranch none =>
      [⟨around, .expr condition⟩, ⟨around, .stmt thenBranch⟩]
    | .conditional condition thenBranch (some elseBranch) =>
      [⟨around, .expr condition⟩, ⟨around, .stmt thenBranch⟩, ⟨around, .stmt elseBranch⟩]
    | .whileLoop condition body => [⟨around, .expr condition⟩, ⟨.loop :: around, .stmt body⟩]
    | _ => []
  | ⟨around, .function f⟩ => scopePositions true around f.params f.body

/- One of these positions, or one within them. -/
inductive Inside : List Position → Position → Prop where
  | here {starts : List Position} {p : Position} : p ∈ starts → Inside starts p
  | part {starts : List Position} {outer p : Position} :
    outer ∈ starts → Inside outer.parts p → Inside starts p

/- A position in a program. -/
def InProgram (body : List Stmt) : Position → Prop :=
  Inside (body.map fun stmt => ⟨[], .stmt stmt⟩)

/- Its scope has the name from an earlier declaration. -/
def Redeclared (around : List Layer) (name : Token) : Prop :=
  ∃ ofFunction before outer, around = .scope ofFunction (before ++ [name]) :: outer ∧
    name.lexeme ∈ before.map Token.lexeme

/- What is not allowed where it stands. -/
inductive Misused : Position → Fault → Prop where
  | breakLoop {around : List Layer} {keyword : Token} : inLoop around = false →
    Misused ⟨around, .stmt (.breakLoop keyword)⟩ ⟨.breakOutsideLoop, keyword⟩
  | returnValue {around : List Layer} {keyword : Token} {value : Option Expr} :
    inFunction around = false →
    Misused ⟨around, .stmt (.returnValue keyword value)⟩ ⟨.returnOutsideFunction, keyword⟩
  | self {around : List Layer} {id : Nat} {keyword : Token} : classAround around = .none →
    Misused ⟨around, .expr (.self id keyword)⟩ ⟨.selfOutsideClass, keyword⟩
  | superOutside {around : List Layer} {id : Nat} {keyword method : Token} :
    classAround around = .none →
    Misused ⟨around, .expr (.superMethod id keyword method)⟩ ⟨.superOutsideClass, keyword⟩
  | superRoot {around : List Layer} {id : Nat} {keyword method : Token} :
    classAround around = .root →
    Misused ⟨around, .expr (.superMethod id keyword method)⟩ ⟨.superWithoutSuperclass, keyword⟩
  | declared {around : List Layer} {name : Token} {stmt : Stmt} : stmt.declared? = some name →
    Redeclared around name → Misused ⟨around, .stmt stmt⟩ ⟨.redeclared, name⟩
  | parameter {around : List Layer} {f : Function} {before after : List Token} {name : Token} :
    f.params = before ++ name :: after → name.lexeme ∈ before.map Token.lexeme →
    Misused ⟨around, .function f⟩ ⟨.redeclared, name⟩
  -- No function is between the initializer and the node.
  | initializer {outer : List Layer} {own name : Token} {id : Nat} : own.lexeme = name.lexeme →
    Misused ⟨.initializer own :: outer, .expr (.name id name)⟩ ⟨.ownInitializer, name⟩
  | superclass {around : List Layer} {name parent : Token} {id : Nat} {methods : List Function} :
    parent.lexeme = name.lexeme →
    Misused ⟨around, .stmt (.classDecl name (some (.name id parent)) methods)⟩
      ⟨.ownSuperclass, parent⟩

/- A node that is allowed everywhere. -/
def Node.isPlain : Node → Bool
  | .expr (.name ..) => false
  | .expr (.self ..) => false
  | .expr (.superMethod ..) => false
  | .expr _ => true
  | .stmt (.breakLoop _) => false
  | .stmt (.returnValue ..) => false
  | .stmt other => !other.declares
  | .function _ => false

theorem not_misused {p : Position} {fault : Fault} (h : p.node.isPlain = true) :
    ¬ Misused p fault := by
  intro hMisused
  cases hMisused with
  | @declared _ _ stmt hName =>
    cases stmt with
    | letDecl => cases h
    | functionDecl => cases h
    | classDecl => cases h
    | _ => cases hName
  | _ => cases h

variable {p q : Position}

theorem not_inside_nil : ¬ Inside [] q
  | .here hMem => nomatch hMem
  | .part hMem _ => nomatch hMem

/- A position itself comes before its parts. -/
theorem inside_singleton : Inside [p] q ↔ q = p ∨ Inside p.parts q := by
  constructor
  · rintro (hMem | ⟨hMem, hInside⟩)
    · exact .inl (List.mem_singleton.mp hMem)
    · rw [List.mem_singleton.mp hMem] at hInside
      exact .inr hInside
  · rintro (rfl | hInside)
    · exact .here (List.mem_singleton.mpr rfl)
    · exact .part (List.mem_singleton.mpr rfl) hInside

theorem inside_cons {others : List Position} :
    Inside (p :: others) q ↔ Inside [p] q ∨ Inside others q := by
  constructor
  · rintro (hMem | ⟨hMem, hInside⟩)
    · rcases List.mem_cons.mp hMem with rfl | hMem
      · exact .inl (.here (List.mem_singleton.mpr rfl))
      · exact .inr (.here hMem)
    · rcases List.mem_cons.mp hMem with rfl | hMem
      · exact .inl (.part (List.mem_singleton.mpr rfl) hInside)
      · exact .inr (.part hMem hInside)
  · rintro (h | h)
    · rcases inside_singleton.mp h with rfl | hInside
      · exact .here (List.mem_cons_self ..)
      · exact .part (List.mem_cons_self ..) hInside
    · rcases h with hMem | ⟨hMem, hInside⟩
      · exact .here (List.mem_cons_of_mem _ hMem)
      · exact .part (List.mem_cons_of_mem _ hMem) hInside

end Scope

end Scriptlet
