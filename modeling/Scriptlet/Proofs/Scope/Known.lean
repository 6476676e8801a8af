import Scriptlet.Proofs.Grammar.Trees
import Scriptlet.Proofs.Scope.Sites

/-
  Trees with the scopes they stand in.

  Key declarations include:
    * `Stmt.Known`
    * `Scope.Clear`
    * `Function.supers`
    * `Function.Known.among`
    * `Scope.Site.Owned`

  A tree is known in some scopes if all of its sites are.
  This says of trees without the walk what the walk says of
  trees without faults.

  The `super` nodes of a method are those of its body, with
  all blocks, loops and functions in it, but without those of
  classes declared inside.  A use of `this` has the scope of
  an object around it, and a use of `super` that of a
  superclass directly outside the scope of an object.
-/

namespace Scriptlet

section

namespace Scope

namespace Walk

variable (walk : Walk) (name : Token)

theorem declare_scopes :
    (walk.declare name).scopes = walk.scopes.modifyHead (·.await name.lexeme) := by
  unfold Walk.declare
  cases hScopes : walk.scopes with
  | nil => exact hScopes
  | cons names outer =>
    simp only [List.modifyHead_cons, Names.await]
    split
    · exact hScopes
    · rfl

theorem define_scopes :
    (walk.define name).scopes = walk.scopes.modifyHead (·.ready name.lexeme) := by
  unfold Walk.define
  cases hScopes : walk.scopes with
  | nil => exact hScopes
  | cons names outer => rfl

theorem declared_scopes :
    ((walk.declare name).define name).scopes = walk.scopes.modifyHead (·.settle name.lexeme) := by
  rw [define_scopes, declare_scopes]
  cases walk.scopes <;> rfl

theorem parameters_scopes (names : Names) (outer : List Names)
    (params : List Token) (h : walk.scopes = names :: outer) :
    (walk.parameters params).scopes = params.foldl
        (fun names param => names.settle param.lexeme) names :: outer := by
  induction params generalizing walk names with
  | nil => exact h
  | cons param others ih =>
    apply ih
    rw [declared_scopes, h]
    rfl

end Walk

end Scope

open Scope

/- The open scopes after a statement. -/
def Stmt.after : Stmt → List Names → List Names
  | .letDecl name _, scopes => scopes.modifyHead (·.settle name.lexeme)
  | .functionDecl f, scopes =>
    match f.name with
    | some name => scopes.modifyHead (·.settle name.lexeme)
    | none => scopes
  | .classDecl name _ _, scopes => scopes.modifyHead (·.settle name.lexeme)
  | _, scopes => scopes

theorem Stmt.after_of_declares {stmt : Stmt} (h : stmt.declares = false)
    (scopes : List Names) : stmt.after scopes = scopes := by
  cases stmt with
  | letDecl => cases h
  | functionDecl => cases h
  | classDecl => cases h
  | _ => rfl

/- No scope is open at top level. -/
theorem Stmt.after_nil (stmt : Stmt) : stmt.after [] = [] := by
  cases stmt with
  | functionDecl f =>
    simp only [Stmt.after]
    split <;> rfl
  | _ => rfl

mutual

/- All sites of an expression in these scopes are in `P`. -/
def Expr.Known (P : Site → Prop) (kinds : List Kind) : Expr → List Names → Prop
  | .literal _, _ => True
  | .name id name, scopes => P ⟨⟨.name, id, name⟩, kinds, scopes⟩
  | .assign id name value, scopes =>
    value.Known P kinds scopes ∧ P ⟨⟨.assign, id, name⟩, kinds, scopes⟩
  | .compound target _ value, scopes => target.Known P kinds scopes ∧ value.Known P kinds scopes
  | .increment target _ _, scopes => target.Known P kinds scopes
  | .unary _ operand, scopes => operand.Known P kinds scopes
  | .binary left _ right, scopes => left.Known P kinds scopes ∧ right.Known P kinds scopes
  | .logical left _ right, scopes => left.Known P kinds scopes ∧ right.Known P kinds scopes
  | .call callee _ arguments, scopes =>
    callee.Known P kinds scopes ∧ exprsKnown P kinds arguments scopes
  | .get object _, scopes => object.Known P kinds scopes
  | .set object _ value, scopes => object.Known P kinds scopes ∧ value.Known P kinds scopes
  | .index object _ position, scopes => object.Known P kinds scopes ∧ position.Known P kinds scopes
  | .indexSet object _ position value, scopes =>
    object.Known P kinds scopes ∧ position.Known P kinds scopes ∧ value.Known P kinds scopes
  | .self id keyword, scopes => P ⟨⟨.self, id, keyword⟩, kinds, scopes⟩
  | .superMethod id keyword _, scopes => P ⟨⟨.superMethod, id, keyword⟩, kinds, scopes⟩
  | .function f, scopes => f.Known P kinds scopes
  | .group inner, scopes => inner.Known P kinds scopes
  | .array _ elements, scopes => exprsKnown P kinds elements scopes

/-
  The same for a statement.  A superclass is not the class
  itself.
-/
def Stmt.Known (P : Site → Prop) (kinds : List Kind) : Stmt → List Names → Prop
  | .expression expr, scopes => expr.Known P kinds scopes
  | .print _ value, scopes => value.Known P kinds scopes
  | .letDecl _ none, _ => True
  | .letDecl name (some value), scopes =>
    value.Known P kinds (scopes.modifyHead (·.await name.lexeme))
  | .functionDecl f, scopes => f.Known P kinds (Stmt.after (.functionDecl f) scopes)
  | .classDecl name none methods, scopes =>
    methodsKnown P (.self :: kinds) methods
      ([("this", true)] :: scopes.modifyHead (·.settle name.lexeme))
  | .classDecl name (some superclass) methods, scopes =>
    let declared := scopes.modifyHead (·.settle name.lexeme)
    (∃ id parent, superclass = .name id parent ∧ parent.lexeme ≠ name.lexeme ∧
        P ⟨⟨.name, id, parent⟩, kinds, declared⟩) ∧
      methodsKnown P (.self :: .superclass :: kinds) methods
        ([("this", true)] :: [("super", true)] :: declared)
  | .block body, scopes => stmtsKnown P (.block :: kinds) body ([] :: scopes)
  | .conditional condition thenBranch none, scopes =>
    condition.Known P kinds scopes ∧ thenBranch.Known P kinds scopes ∧ thenBranch.declares = false
  | .conditional condition thenBranch (some elseBranch), scopes =>
    condition.Known P kinds scopes ∧
      (thenBranch.Known P kinds scopes ∧ thenBranch.declares = false) ∧
          elseBranch.Known P kinds scopes ∧ elseBranch.declares = false
  | .whileLoop condition body, scopes =>
    condition.Known P kinds scopes ∧ body.Known P kinds scopes ∧ body.declares = false
  | .breakLoop _, _ => True
  | .returnValue _ none, _ => True
  | .returnValue _ (some value), scopes => value.Known P kinds scopes

def Function.Known (P : Site → Prop) (kinds : List Kind) : Function → List Names → Prop
  | .mk _ _ params body, scopes =>
    stmtsKnown P (.function :: kinds) body (Names.ofParams params :: scopes)

def exprsKnown (P : Site → Prop) (kinds : List Kind) : List Expr → List Names → Prop
  | [], _ => True
  | first :: others, scopes => first.Known P kinds scopes ∧ exprsKnown P kinds others scopes

def stmtsKnown (P : Site → Prop) (kinds : List Kind) : List Stmt → List Names → Prop
  | [], _ => True
  | first :: others, scopes =>
    first.Known P kinds scopes ∧ stmtsKnown P kinds others (first.after scopes)

def methodsKnown (P : Site → Prop) (kinds : List Kind) : List Function → List Names → Prop
  | [], _ => True
  | first :: others, scopes => first.Known P kinds scopes ∧ methodsKnown P kinds others scopes

end

theorem Function.Known.body {P : Site → Prop} {kinds : List Kind}
    {scopes : List Names} {f : Function} (h : f.Known P kinds scopes) :
    stmtsKnown P (.function :: kinds) f.body (Names.ofParams f.params :: scopes) := by
  cases f with
  | mk name keyword params body =>
    exact h

namespace Scope

variable {P : Site → Prop}

/-
  A walk goes on without a fault, and the sites on its way
  are in `P`.
-/
structure Clear (P : Site → Prop) (walk walk' : Walk) (sites : List Site) : Prop where
  faults : Clean walk walk'
  sites : ∀ site ∈ sites, P site

namespace Clear

variable {first second third : Walk} {sites sites' : List Site}
variable {nodes nodes' : List Reference}

theorem split (h : Clear P first third (sites ++ sites'))
    (h₁ : Records first second sites nodes) (h₂ : Records second third sites' nodes') :
    Clear P first second sites ∧ Clear P second third sites' := by
  rcases h₁.faults_eq h₂ h.faults with ⟨hSecond, hThird⟩
  refine ⟨⟨hSecond, ?_⟩, ⟨hThird, ?_⟩⟩
  · intro site hMem
    exact h.sites site (List.mem_append_left _ hMem)
  · intro site hMem
    exact h.sites site (List.mem_append_right _ hMem)

end Clear

end Scope

------------------------------------------------------------
-- Scopes after Statements
------------------------------------------------------------

theorem Scope.Walk.declareFunction_scopes (walk : Walk) (f : Function) :
    (walk.declareFunction f).scopes = Stmt.after (.functionDecl f) walk.scopes := by
  cases hName : f.name with
  | some name =>
    simp only [Walk.declareFunction, Stmt.after, hName]
    exact walk.declared_scopes name
  | none => simp only [Walk.declareFunction, Stmt.after, hName]

theorem Stmt.resolve_after :
    (stmt : Stmt) → stmt.Sensible → ∀ (ctx : Context) (walk : Walk),
        (stmt.resolve ctx walk).scopes = stmt.after walk.scopes
  | .expression expr, _, ctx, walk
  | .print _ expr, _, ctx, walk => expr.resolve_scopes ctx walk
  | .letDecl name none, _, _, walk => walk.declared_scopes name
  | .letDecl name (some value), _, _, walk => by
      simp only [Stmt.resolve, Stmt.after]
      rw [Walk.define_scopes, value.resolve_scopes, ← Walk.define_scopes]
      exact walk.declared_scopes name
  | .functionDecl f, _, ctx, walk => by
      simp only [Stmt.resolve]
      rw [f.resolve_scopes, walk.declareFunction_scopes]
  | .classDecl name none methods, _, _, walk => by
      simp only [Stmt.resolve, Stmt.after, Walk.leave,
        resolveMethods_scopes, Walk.enter, List.tail_cons]
      exact walk.declared_scopes name
  | .classDecl name (some parent) methods, _, _, walk => by
      simp only [Stmt.resolve, Stmt.after, Walk.leave,
        resolveMethods_scopes, Walk.enter, List.tail_cons,
        parent.resolve_scopes, Walk.checkSuperclass_scopes]
      exact walk.declared_scopes name
  | .block body, _, ctx, walk => by
      have hBody := resolveStmts_grows ctx body (walk.enter [])
      exact hBody.tail
  | .conditional condition thenBranch none, hTree, ctx, walk
  | .whileLoop condition thenBranch, hTree, ctx, walk => by
      simp only [Stmt.resolve, Stmt.after]
      rw [thenBranch.resolve_after hTree.2.1, after_of_declares hTree.2.2, condition.resolve_scopes]
  | .conditional condition thenBranch (some elseBranch), hTree, ctx, walk => by
      rcases hTree with ⟨_, hThen, hElse⟩
      simp only [Stmt.resolve, Stmt.after]
      rw [elseBranch.resolve_after hElse.1, after_of_declares hElse.2,
        thenBranch.resolve_after hThen.1, after_of_declares hThen.2, condition.resolve_scopes]
  | .breakLoop _, _, ctx, walk
  | .returnValue _ none, _, ctx, walk => by
      simp only [Stmt.resolve, Stmt.after]
      split <;> rfl
  | .returnValue _ (some value), _, ctx, walk => by
      simp only [Stmt.resolve, Stmt.after, value.resolve_scopes]
      split <;> rfl

end

section

open Scope

mutual

/- The `super` nodes of an expression by number. -/
def Expr.supers : Expr → List Nat
  | .literal _ => []
  | .name _ _ => []
  | .assign _ _ value => value.supers
  | .compound target _ value => target.supers ++ value.supers
  | .increment target _ _ => target.supers
  | .unary _ operand => operand.supers
  | .binary left _ right => left.supers ++ right.supers
  | .logical left _ right => left.supers ++ right.supers
  | .call callee _ arguments => callee.supers ++ exprsSupers arguments
  | .get object _ => object.supers
  | .set object _ value => object.supers ++ value.supers
  | .index object _ position => object.supers ++ position.supers
  | .indexSet object _ position value => object.supers ++ (position.supers ++ value.supers)
  | .self _ _ => []
  | .superMethod id _ _ => [id]
  | .function f => f.supers
  | .group inner => inner.supers
  | .array _ elements => exprsSupers elements

/- A class has those of its own methods for itself. -/
def Stmt.supers : Stmt → List Nat
  | .expression expr => expr.supers
  | .print _ value => value.supers
  | .letDecl _ none => []
  | .letDecl _ (some value) => value.supers
  | .functionDecl f => f.supers
  | .classDecl _ _ _ => []
  | .block body => stmtsSupers body
  | .conditional condition thenBranch none => condition.supers ++ thenBranch.supers
  | .conditional condition thenBranch (some elseBranch) =>
    condition.supers ++ (thenBranch.supers ++ elseBranch.supers)
  | .whileLoop condition body => condition.supers ++ body.supers
  | .breakLoop _ => []
  | .returnValue _ none => []
  | .returnValue _ (some value) => value.supers

def Function.supers : Function → List Nat
  | .mk _ _ _ body => stmtsSupers body

def exprsSupers : List Expr → List Nat
  | [] => []
  | first :: others => first.supers ++ exprsSupers others

def stmtsSupers : List Stmt → List Nat
  | [] => []
  | first :: others => first.supers ++ stmtsSupers others

end

namespace Scope

/- How many classes are around. -/
def classDepth (kinds : List Kind) : Nat := kinds.count .self

/- So deep in classes, the `super` nodes are among these. -/
def Site.Among (depth : Nat) (ids : List Nat) (site : Site) : Prop :=
  site.reference.role = .superMethod → classDepth site.kinds = depth → site.reference.id ∈ ids

end Scope

section

variable {P : Site → Prop} {depth : Nat} {ids : List Nat}

/-
  What a part has at this depth the whole has, unless the
  part is deeper in classes already.
-/
structure Allowed (depth : Nat) (ids : List Nat) (kinds : List Kind)
    (supers : List Nat) : Prop where
  deep : depth ≤ classDepth kinds
  among : classDepth kinds = depth → supers ⊆ ids

namespace Allowed

variable {kinds : List Kind} {supers supers' : List Nat}

theorem left (h : Allowed depth ids kinds (supers ++ supers')) :
    Allowed depth ids kinds supers where
  deep := h.deep
  among hDepth := (List.append_subset.mp (h.among hDepth)).1

theorem right (h : Allowed depth ids kinds (supers ++ supers')) :
    Allowed depth ids kinds supers' where
  deep := h.deep
  among hDepth := (List.append_subset.mp (h.among hDepth)).2

/- A scope that is not that of an object. -/
theorem enter {kind : Kind} (h : Allowed depth ids kinds supers)
    (hKind : kind ≠ .self) : Allowed depth ids (kind :: kinds) supers := by
  have hSame : classDepth (kind :: kinds) = classDepth kinds := List.count_cons_of_ne hKind
  exact ⟨hSame ▸ h.deep, hSame ▸ h.among⟩

/- A method is deeper than what its class is declared in. -/
theorem method {kinds' : List Kind} (h : Allowed depth ids kinds supers)
    (hKinds : classDepth kinds' = classDepth kinds) (others : List Nat) :
    Allowed depth ids (.self :: kinds') others := by
  have hDeeper : classDepth (.self :: kinds') = classDepth kinds + 1 := by
    rw [← hKinds]
    exact List.count_cons_self
  have hDeep := h.deep
  exact ⟨by omega, fun hSame => by omega⟩

end Allowed

variable {Q : Site → Prop}

/-
  The sites of a tree are among what is allowed.  Methods of
  a class inside are deeper than that.
-/
theorem trees_known_map (hQ : ∀ site, P site → site.Among depth ids → Q site) :
    (∀ (expr : Expr) kinds scopes, Allowed depth ids kinds expr.supers →
      expr.Known P kinds scopes → expr.Known Q kinds scopes) ∧
    (∀ (f : Function) kinds scopes, Allowed depth ids kinds f.supers →
      f.Known P kinds scopes → f.Known Q kinds scopes) ∧
    (∀ stmts kinds scopes, Allowed depth ids kinds (stmtsSupers stmts) →
      stmtsKnown P kinds stmts scopes → stmtsKnown Q kinds stmts scopes) ∧
    (∀ (stmt : Stmt) kinds scopes, Allowed depth ids kinds stmt.supers →
      stmt.Known P kinds scopes → stmt.Known Q kinds scopes) ∧
    (∀ methods kinds scopes, (∀ supers, Allowed depth ids kinds supers) →
      methodsKnown P kinds methods scopes → methodsKnown Q kinds methods scopes) ∧
    ∀ exprs kinds scopes, Allowed depth ids kinds (exprsSupers exprs) →
      exprsKnown P kinds exprs scopes → exprsKnown Q kinds exprs scopes := by
  apply Expr.references.mutual_induct
  case case2 | case14 => exact fun _ _ _ _ _ h => hQ _ h (by rintro ⟨⟩)
  case case3 =>
    exact fun _ _ _ ih _ _ hIds h => ⟨ih _ _ hIds h.1, hQ _ h.2 (by rintro ⟨⟩)⟩
  case case15 =>
    exact fun id _ _ _ _ hIds h =>
      hQ _ h fun _ hDepth => hIds.among hDepth (List.mem_singleton_self id)
  case case24 => exact fun _ _ ih _ _ hIds => ih _ _ (hIds.method rfl)
  case case25 =>
    rintro _ _ methods - ih kinds _ hIds ⟨⟨id, parent, hParent, hName, hSite⟩, h⟩
    have hKinds : classDepth (.superclass :: kinds) = classDepth kinds :=
      List.count_cons_of_ne (by decide)
    exact ⟨⟨id, parent, hParent, hName, hQ _ hSite (by rintro ⟨⟩)⟩,
      ih _ _ (hIds.method hKinds) h⟩
  case case26 => exact fun _ ih _ _ hIds => ih _ _ (hIds.enter (by decide))
  case case33 => exact fun _ _ _ _ ih _ _ hIds => ih _ _ (hIds.enter (by decide))
  all_goals grind [Allowed.left, Allowed.right, Expr.supers, Stmt.supers, exprsSupers, stmtsSupers,
    Expr.Known, Stmt.Known, exprsKnown, stmtsKnown, methodsKnown]

/- So are those of a method. -/
theorem Function.Known.among (f : Function) {kinds : List Kind} {scopes : List Names}
    (hIds : Allowed depth ids kinds f.supers) (h : f.Known P kinds scopes) :
    f.Known (fun site => P site ∧ site.Among depth ids) kinds scopes :=
  (trees_known_map fun _ => And.intro).2.1 f kinds scopes hIds h

/- All is allowed that there is. -/
theorem Allowed.all (kinds : List Kind) (supers : List Nat) : Allowed 0 supers kinds supers :=
  ⟨Nat.zero_le _, fun _ => List.Subset.refl _⟩

section

variable (hSites : ∀ site, P site → Q site) {kinds : List Kind} {scopes : List Names}
include hSites

theorem Expr.Known.mono (expr : Expr) (h : expr.Known P kinds scopes) :
    expr.Known Q kinds scopes :=
  (trees_known_map fun site hSite _ => hSites site hSite).1 expr kinds scopes (.all kinds _) h

theorem Function.Known.mono (f : Function) (h : f.Known P kinds scopes) :
    f.Known Q kinds scopes :=
  (trees_known_map fun site hSite _ => hSites site hSite).2.1 f kinds scopes (.all kinds _) h

theorem stmtsKnown_mono (stmts : List Stmt) (h : stmtsKnown P kinds stmts scopes) :
    stmtsKnown Q kinds stmts scopes :=
  (trees_known_map fun site hSite _ => hSites site hSite).2.2.1 stmts kinds scopes (.all kinds _) h

theorem methodsKnown_mono (methods : List Function) (h : methodsKnown P kinds methods scopes) :
    methodsKnown Q kinds methods scopes := by
  induction methods with
  | nil => simp only [methodsKnown]
  | cons first others ih =>
    exact ⟨Function.Known.mono hSites first h.1, ih h.2⟩

end

end

end

namespace Scope

variable {kind : Kind} {name : String} {keyword : Token}

/- The nearest scope of a kind is at this distance. -/
def IsNearest (kind : Kind) (kinds : List Kind) (distance : Nat) : Prop :=
  kinds.findIdx? (decide <| · = kind) = some distance

/-
  What lies at the distance of a node: the nearest object for
  `this`, and the nearest superclass, which is right around
  that object, for `super`.
-/
def Serves (kinds : List Kind) :
    Role → Option Nat → Prop
  | .self, distance? => ∃ d, distance? = some d ∧ IsNearest .self kinds d
  | .superMethod, distance? =>
    ∃ d, distance? = some (d + 1) ∧ IsNearest .self kinds d ∧ IsNearest .superclass kinds (d + 1)
  | _, _ => True

theorem IsNearest.at_distance {kinds : List Kind} {distance : Nat}
    (h : IsNearest kind kinds distance) : kinds[distance]? = some kind := by
  rcases List.findIdx?_eq_some_iff_getElem.mp h with ⟨hLt, hKind, _⟩
  rw [List.getElem?_eq_getElem hLt]
  exact congrArg some (of_decide_eq_true hKind)

/- It is one further if a scope of another kind is entered. -/
theorem IsNearest.cons {other : Kind} {kinds : List Kind} {distance : Nat}
    (h : IsNearest kind kinds distance) (hNe : other ≠ kind) :
    IsNearest kind (other :: kinds) (distance + 1) := by
  unfold IsNearest at h ⊢
  rw [List.findIdx?_cons, decide_eq_false hNe, h]
  rfl

/- The distance of a site is that of what it refers to. -/
def Site.Owned (site : Site) : Prop := Serves site.kinds site.reference.role site.distance?

/- A site in `P` with what it refers to around it. -/
def Site.OwnedIn (P : Site → Prop) (site : Site) : Prop := P site ∧ site.Owned

/- Only scopes of classes declare `this` and `super`. -/
structure Marks (kind : Kind) (names : Names) : Prop where
  self : names.declares "this" = decide (kind = .self)
  superclass : names.declares "super" = decide (kind = .superclass)

/-
  The scopes around a node in a class, or in none.  In a class
  with a superclass, the nearest scope for `super` is directly
  outside the nearest one for `this`.
-/
structure Surrounds (around : ClassContext) (kinds : List Kind) (scopes : List Names) : Prop where
  marked : List.Forall₂ Marks kinds scopes
  self : around ≠ .none → ∃ d, IsNearest .self kinds d
  superclass : around = .derived → ∃ d, IsNearest .self kinds d ∧
        IsNearest .superclass kinds (d + 1)

theorem Marks.ordinary {names names' : Names} (h : Marks kind names) (hName : Ordinary name)
    (hNames : ∀ other, names'.declares other = true ↔
        other = name ∨ names.declares other = true) : Marks kind names' := by
  have hOther {other : String} (hNe : name ≠ other) :
      names'.declares other = names.declares other := by
    rw [Bool.eq_iff_iff, hNames other]
    exact or_iff_right hNe.symm
  exact ⟨(hOther hName.ne_this).trans h.self, (hOther hName.ne_super).trans h.superclass⟩

namespace Surrounds

variable {around : ClassContext} {kinds : List Kind} {scopes : List Names}

theorem top : Surrounds .none [] [] where
  marked := .nil
  self h := absurd rfl h
  superclass h := by cases h

/- A name is declared in the innermost scope. -/
theorem declare (h : Surrounds around kinds scopes) (hName : Ordinary name)
    {change : Names → Names}
    (hChange : ∀ names other, (change names).declares other = true ↔
        other = name ∨ names.declares other = true) :
    Surrounds around kinds (scopes.modifyHead change) := by
  refine { h with marked := ?_ }
  cases h.marked with
  | nil => exact .nil
  | cons hFirst hOthers => exact .cons (hFirst.ordinary hName (hChange _)) hOthers

theorem settle (h : Surrounds around kinds scopes) (hName : Ordinary name) :
    Surrounds around kinds (scopes.modifyHead (·.settle name)) :=
  h.declare hName fun names other => names.declares_settle name other

/- What is ready makes no difference. -/
theorem redeclare {names names' : Names} (h : Surrounds around kinds (names :: scopes))
    (hNames : ∀ other, names'.declares other = names.declares other) :
    Surrounds around kinds (names' :: scopes) := by
  refine { h with marked := ?_ }
  cases h.marked with
  | cons hFirst hOthers =>
    exact .cons ⟨(hNames _).trans hFirst.self, (hNames _).trans hFirst.superclass⟩ hOthers

section

variable (h : Surrounds around kinds scopes)

include h

/- One scope further in. -/
theorem enter {names : Names}
    (hMarks : Marks kind names) (hSelf : kind ≠ .self) (hSuper : kind ≠ .superclass) :
    Surrounds around (kind :: kinds) (names :: scopes) where
  marked := .cons hMarks h.marked
  self hAround := by
    rcases h.self hAround with ⟨d, hNearest⟩
    exact ⟨d + 1, hNearest.cons hSelf⟩
  superclass hAround := by
    rcases h.superclass hAround with ⟨d, hNearest, hFound⟩
    exact ⟨d + 1, hNearest.cons hSelf, hFound.cons hSuper⟩

theorem rootClass : Surrounds .root (.self :: kinds) ([("this", true)] :: scopes) where
  marked := .cons ⟨rfl, rfl⟩ h.marked
  self _ := ⟨0, rfl⟩
  superclass hAround := by cases hAround

theorem derivedClass :
    Surrounds .derived (.self :: .superclass :: kinds)
      ([("this", true)] :: [("super", true)] :: scopes) where
  marked := .cons ⟨rfl, rfl⟩ (.cons ⟨rfl, rfl⟩ h.marked)
  self _ := ⟨0, rfl⟩
  superclass _ := ⟨0, rfl, rfl⟩

/- A marked name is found in the nearest scope of its kind. -/
theorem findIdx?_declares
    (hName : ∀ {k names}, Marks k names → names.declares name = decide (k = kind)) :
    scopes.findIdx? (·.declares name) = kinds.findIdx? (decide <| · = kind) := by
  have hMarked := h.marked
  clear h
  induction hMarked with
  | nil => rfl
  | cons hFirst _ ih => rw [List.findIdx?_cons, List.findIdx?_cons, hName hFirst, ih]

/- A use of the current object. -/
theorem owned_self (hAround : around ≠ .none) (id : Nat) (hWord : keyword.lexeme = "this") :
    Site.Owned ⟨⟨.self, id, keyword⟩, kinds, scopes⟩ := by
  rcases h.self hAround with ⟨d, hNearest⟩
  refine ⟨d, ?_, hNearest⟩
  simp only [Site.distance?, hWord]
  rw [h.findIdx?_declares Marks.self, hNearest]

end

/- A use of a superclass method. -/
theorem owned_superMethod (h : Surrounds .derived kinds scopes) (id : Nat)
    (hWord : keyword.lexeme = "super") :
    Site.Owned ⟨⟨.superMethod, id, keyword⟩, kinds, scopes⟩ := by
  rcases h.superclass rfl with ⟨d, hNearest, hFound⟩
  refine ⟨d, ?_, hNearest, hFound⟩
  simp only [Site.distance?, hWord]
  rw [h.findIdx?_declares Marks.superclass, hFound]

end Surrounds

end Scope

end Scriptlet
