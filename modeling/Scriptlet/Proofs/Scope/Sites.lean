import Scriptlet.Proofs.Tree.Map
import Scriptlet.Scope.Resolve

/-
  The reference nodes of a tree and the scopes around them.

  Key declarations include:
    * `Scope.Grows`
    * `Stmt.resolve_grows`
    * `Scope.Site`
    * `Expr.sites`
    * `Expr.resolve_records`

  An expression leaves the open scopes as they are.  A
  statement may add names to the innermost one.

  A site is a reference node with the scopes that are open
  when the walk of name resolution comes to it.  The
  distances that the walk records are those of its sites.
-/

namespace Scriptlet

namespace Scope

namespace Names

/- Declare a name whose initializer is to come. -/
def await (names : Names) (name : String) : Names :=
  if names.declares name then names
  else (name, false) :: names

/- Declare a name that is ready. -/
def settle (names : Names) (name : String) : Names := (names.await name).ready name

/- The names of parameters. -/
def ofParams (params : List Token) : Names :=
  params.foldl (fun names param => names.settle param.lexeme) []

theorem declares_cons (names : Names) (entry : String × Bool) (name : String) :
    Names.declares (entry :: names) name = true ↔ entry.1 = name ∨ names.declares name = true := by
  simp [Names.declares]

theorem declares_await (names : Names) (name other : String) :
    (names.await name).declares other = true ↔ other = name ∨ names.declares other = true := by
  unfold await
  split
  · rename_i hDeclared
    constructor
    · exact .inr
    · rintro (rfl | h)
      · exact hDeclared
      · exact h
  · rw [declares_cons]
    exact or_congr_left eq_comm

theorem declares_ready_iff (names : Names) (name other : String) :
    (names.ready name).declares other = true ↔ other = name ∨ names.declares other = true := by
  induction names with
  | nil =>
    simp only [ready, declares_cons]
    exact or_congr_left eq_comm
  | cons entry others ih =>
    simp only [ready]
    split
    · rename_i hSame
      rw [declares_cons, declares_cons, hSame]
      constructor
      · rintro (h | h)
        · exact .inl h.symm
        · exact .inr (.inr h)
      · rintro (h | h | h)
        · exact .inl h.symm
        · exact .inl h
        · exact .inr h
    · rw [declares_cons, ih, declares_cons]
      exact or_left_comm

theorem declares_settle (names : Names) (name other : String) :
    (names.settle name).declares other = true ↔ other = name ∨ names.declares other = true := by
  rw [settle, declares_ready_iff, declares_await, ← or_assoc, or_self]

variable {name other : String}

theorem awaits_await (names : Names) (h : other ≠ name) :
    (names.await name).awaits other = names.awaits other := by
  unfold await
  split
  · rfl
  · simp only [awaits, List.lookup_cons, beq_eq_false_iff_ne.mpr h]

theorem lookup_ready (names : Names) (h : other ≠ name) :
    List.lookup other (names.ready name) = List.lookup other names := by
  induction names with
  | nil => simp only [ready, List.lookup_cons, beq_eq_false_iff_ne.mpr h]
  | cons entry others ih =>
    rcases entry with ⟨key, isReady⟩
    by_cases hKey : key = name
    · subst hKey
      simp only [ready, if_true, List.lookup_cons, beq_eq_false_iff_ne.mpr h]
    · simp only [ready, hKey, if_false, List.lookup_cons, ih]

theorem awaits_ready (names : Names) (h : other ≠ name) :
    (names.ready name).awaits other = names.awaits other := by
  simp only [awaits, lookup_ready names h]

theorem awaits_settle (names : Names) (h : other ≠ name) :
    (names.settle name).awaits other = names.awaits other := by
  rw [settle, awaits_ready _ h, awaits_await _ h]

theorem lookup_ready_self (names : Names) :
    List.lookup name (names.ready name) = some true := by
  induction names with
  | nil => simp [ready]
  | cons entry others ih =>
    rcases entry with ⟨key, isReady⟩
    by_cases hKey : key = name
    · simp [ready, hKey]
    · simp only [ready, hKey, if_false, List.lookup_cons, beq_eq_false_iff_ne.mpr (Ne.symm hKey),
        ih]

/- A settled name awaits nothing. -/
theorem awaits_settle_self (names : Names) : (names.settle name).awaits name = false := by
  rw [awaits, settle, lookup_ready_self]
  rfl

theorem awaits_word (word other : String) : awaits [(word, true)] other = false := by
  cases hWord : other == word <;> simp [awaits, List.lookup_cons, hWord]

/- The names of parameters are those of their tokens. -/
theorem mem_of_declares_ofParams {params : List Token}
    (h : (ofParams params).declares name = true) : name ∈ params.map Token.lexeme := by
  have hFrom : ∀ (params : List Token) (names : Names),
        (params.foldl (fun names param => names.settle param.lexeme)
            names).declares name = true → names.declares name = true ∨
            name ∈ params.map Token.lexeme := by
    intro params
    induction params with
    | nil => exact fun _ => .inl
    | cons param others ih =>
      intro names h
      rcases ih _ h with h | h
      · rcases (declares_settle _ _ _).mp h with rfl | h
        · exact .inr (List.mem_cons_self ..)
        · exact .inl h
      · exact .inr (List.mem_cons_of_mem _ h)
  rcases hFrom params [] h with h | h
  · cases h
  · exact h

end Names

end Scope

section

namespace Scope

/-
  The innermost scope may have more names; all others are
  the same.
-/
inductive Grows : List Names → List Names → Prop where
  | top : Grows [] []
  | inner {names names' outer} :
      (∀ name, names.declares name = true → names'.declares name = true) →
      Grows (names :: outer) (names' :: outer)

namespace Grows

theorem refl (scopes : List Names) : Grows scopes scopes := by
  cases scopes with
  | nil => exact .top
  | cons names outer => exact .inner fun _ h => h

theorem trans {first second third : List Names} (h₁ : Grows first second)
    (h₂ : Grows second third) : Grows first third := by
  cases h₁ with
  | top => exact h₂
  | inner hNames =>
    cases h₂ with
    | inner hNames' => exact .inner fun name h => hNames' name (hNames name h)

/- A scope that was entered is the one to leave. -/
theorem tail {names : Names} {outer scopes : List Names}
    (h : Grows (names :: outer) scopes) : scopes.tail = outer := by
  cases h with
  | inner => rfl

theorem of_nil {scopes : List Names} (h : Grows [] scopes) : scopes = [] := by
  cases h with
  | top => rfl

end Grows

namespace Walk

variable (walk : Walk) (name : Token)

theorem declare_grows : Grows walk.scopes (walk.declare name).scopes := by
  unfold Walk.declare
  split
  · exact .refl _
  · rename_i names outer hScopes
    split
    · exact .refl _
    · rw [hScopes]
      refine .inner fun other h => ?_
      simp only [Names.declares, List.any_cons, Bool.or_eq_true]
      exact .inr h

theorem define_grows : Grows walk.scopes (walk.define name).scopes := by
  unfold Walk.define
  split
  · exact .refl _
  · rename_i names outer hScopes
    rw [hScopes]
    exact .inner fun other h => (names.declares_ready_iff _ other).mpr (.inr h)

theorem declared_grows : Grows walk.scopes ((walk.declare name).define name).scopes :=
  (walk.declare_grows name).trans (define_grows _ name)

theorem parameters_grows (params : List Token) :
    Grows walk.scopes (walk.parameters params).scopes := by
  induction params generalizing walk with
  | nil => exact .refl _
  | cons param others ih => exact (walk.declared_grows param).trans (ih _)

theorem declareFunction_grows (f : Function) :
    Grows walk.scopes (walk.declareFunction f).scopes := by
  unfold Walk.declareFunction
  split
  · exact walk.declared_grows _
  · exact .refl _

theorem reference_scopes (id : Nat) : (walk.reference id name).scopes = walk.scopes := by
  unfold Walk.reference
  split <;> rfl

theorem read_scopes (ctx : Context) (id : Nat) :
    (walk.read ctx id name).scopes = walk.scopes := by
  simp only [Walk.read]
  rw [reference_scopes]
  split <;> rfl

theorem self_scopes (ctx : Context) (id : Nat) :
    (walk.self ctx id name).scopes = walk.scopes := by
  unfold Walk.self
  split
  · rfl
  · exact walk.reference_scopes name id

theorem superMethod_scopes (ctx : Context) (id : Nat) :
    (walk.superMethod ctx id name).scopes = walk.scopes := by
  unfold Walk.superMethod
  split
  · rfl
  · rfl
  · exact walk.reference_scopes name id

theorem checkSuperclass_scopes (parent : Expr) :
    (walk.checkSuperclass name parent).scopes = walk.scopes := by
  unfold Walk.checkSuperclass
  split
  · split <;> rfl
  · rfl

end Walk

end Scope

open Scope

mutual

theorem Expr.resolve_scopes (ctx : Context) :
    (expr : Expr) → ∀ (walk : Walk), (expr.resolve ctx walk).scopes = walk.scopes
  | .literal _, walk => by simp only [Expr.resolve]
  | .name id name, walk => walk.read_scopes name ctx id
  | .assign id name value, walk => by
      simp only [Expr.resolve, Walk.reference_scopes]
      exact value.resolve_scopes ctx walk
  | .compound left _ right, walk
  | .binary left _ right, walk
  | .logical left _ right, walk
  | .set left _ right, walk
  | .index left _ right, walk => by
      simp only [Expr.resolve]
      rw [right.resolve_scopes, left.resolve_scopes]
  | .increment operand _ _, walk
  | .unary _ operand, walk
  | .get operand _, walk
  | .function operand, walk
  | .group operand, walk => operand.resolve_scopes ctx walk
  | .call callee _ arguments, walk => by
      simp only [Expr.resolve]
      rw [resolveExprs_scopes ctx arguments, callee.resolve_scopes]
  | .indexSet object _ position value, walk => by
      simp only [Expr.resolve]
      rw [value.resolve_scopes, position.resolve_scopes, object.resolve_scopes]
  | .self id keyword, walk => walk.self_scopes keyword ctx id
  | .superMethod id keyword _, walk => walk.superMethod_scopes keyword ctx id
  | .array _ elements, walk => resolveExprs_scopes ctx elements walk

theorem Stmt.resolve_grows (ctx : Context) :
    (stmt : Stmt) → ∀ (walk : Walk), Grows walk.scopes (stmt.resolve ctx walk).scopes
  | .expression expr, walk
  | .print _ expr, walk => by
      simp only [Stmt.resolve, expr.resolve_scopes]
      exact .refl _
  | .letDecl name none, walk => walk.declared_grows name
  | .letDecl name (some value), walk => by
      refine .trans ?_ (Walk.define_grows _ name)
      rw [value.resolve_scopes]
      exact walk.declare_grows name
  | .functionDecl f, walk => by
      simp only [Stmt.resolve, f.resolve_scopes]
      exact walk.declareFunction_grows f
  | .classDecl name none methods, walk => by
      simp only [Stmt.resolve, Walk.leave, resolveMethods_scopes, Walk.enter, List.tail_cons]
      exact walk.declared_grows name
  | .classDecl name (some parent) methods, walk => by
      simp only [Stmt.resolve, Walk.leave, resolveMethods_scopes, Walk.enter, List.tail_cons,
        parent.resolve_scopes, Walk.checkSuperclass_scopes]
      exact walk.declared_grows name
  | .block body, walk => by
      have hBody := resolveStmts_grows ctx body (walk.enter [])
      simp only [Stmt.resolve, Walk.leave, hBody.tail]
      exact .refl _
  | .conditional condition thenBranch none, walk => by
      rw [← condition.resolve_scopes ctx walk]
      exact thenBranch.resolve_grows ctx _
  | .conditional condition thenBranch (some elseBranch), walk => by
      rw [← condition.resolve_scopes ctx walk]
      exact (thenBranch.resolve_grows ctx _).trans (elseBranch.resolve_grows ctx _)
  | .whileLoop condition body, walk => by
      rw [← condition.resolve_scopes ctx walk]
      exact body.resolve_grows _ _
  | .breakLoop _, walk
  | .returnValue _ none, walk => by
      simp only [Stmt.resolve]
      split <;> exact .refl _
  | .returnValue _ (some value), walk => by
      simp only [Stmt.resolve, value.resolve_scopes]
      split <;> exact .refl _

theorem Function.resolve_scopes (ctx : Context) :
    (f : Function) → ∀ (walk : Walk), (f.resolve ctx walk).scopes = walk.scopes
  | .mk _ _ params body, walk =>
    (((walk.enter []).parameters_grows params).trans (resolveStmts_grows _ body _)).tail

theorem resolveExprs_scopes (ctx : Context) :
    (exprs : List Expr) → ∀ (walk : Walk), (resolveExprs ctx exprs walk).scopes = walk.scopes
  | [], walk => by simp only [resolveExprs]
  | first :: others, walk => by
      simp only [resolveExprs]
      rw [resolveExprs_scopes ctx others, first.resolve_scopes]

theorem resolveStmts_grows (ctx : Context) :
    (stmts : List Stmt) → ∀ (walk : Walk), Grows walk.scopes (resolveStmts ctx stmts walk).scopes
  | [], _ => .refl _
  | first :: others, walk => (first.resolve_grows ctx walk).trans (resolveStmts_grows ctx others _)

theorem resolveMethods_scopes (ctx : Context) :
    (methods : List Function) → ∀ (walk : Walk),
      (resolveMethods ctx methods walk).scopes = walk.scopes
  | [], walk => by simp only [resolveMethods]
  | first :: others, walk => by
      simp only [resolveMethods]
      rw [resolveMethods_scopes ctx others, first.resolve_scopes]

end

/- Statements are resolved one after another. -/
theorem resolveStmts_append (ctx : Context) (body others : List Stmt) (walk : Walk) :
    resolveStmts ctx (body ++ others) walk = resolveStmts ctx others
        (resolveStmts ctx body walk) := by
  induction body generalizing walk with
  | nil => simp only [List.nil_append, resolveStmts]
  | cons first rest ih =>
    exact ih _

/- No scope is open after a program. -/
theorem resolveProgram_scopes (body : List Stmt) :
    (resolveProgram body).scopes = [] := (resolveStmts_grows {} body {}).of_nil

namespace Scope

theorem Distances.extend_append (table : Distances) (found others : List (Nat × Nat)) :
    table.extend (found ++ others) = (table.extend found).extend others := by
  simp only [Distances.extend, List.foldl_append]

/- What is found for other nodes changes nothing. -/
theorem Distances.extend_of_ne {found : List (Nat × Nat)} {id : Nat}
    (hFound : ∀ entry ∈ found, entry.1 ≠ id) (table : Distances) :
    (table.extend found)[id]? = table[id]? := by
  induction found generalizing table with
  | nil => rfl
  | cons entry others ih =>
    have hFirst := hFound entry (List.mem_cons_self ..)
    have hOthers := fun other hMem => hFound other (List.mem_cons_of_mem entry hMem)
    have hStep := ih hOthers (table.insert entry.1 entry.2)
    simp only [Distances.extend, List.foldl_cons] at hStep ⊢
    rw [hStep, Std.TreeMap.getElem?_insert, if_neg]
    simp only [Nat.compare_eq_eq]
    exact hFirst

end Scope

end

namespace Scope

/- What a scope belongs to. -/
inductive Kind where
  | block
  | function
  | self
  | superclass
  deriving DecidableEq, Repr

/-
  A reference node with the scopes open there, innermost
  first: what they belong to, and the names in them.
-/
structure Site where
  reference : Reference
  kinds : List Kind
  scopes : List Names
  deriving DecidableEq, Repr

namespace Site

/- How many scopes outward the name is declared. -/
def distance? (site : Site) : Option Nat :=
  site.scopes.findIdx? fun names => names.declares site.reference.token.lexeme

/- What is recorded of a site, unless its name is global. -/
def record? (site : Site) : Option (Nat × Nat) :=
  site.distance?.map fun distance => (site.reference.id, distance)

end Site

/- A reference node at this point of a walk. -/
def Walk.site (walk : Walk) (kinds : List Kind)
    (reference : Reference) : Site := ⟨reference, kinds, walk.scopes⟩

end Scope

------------------------------------------------------------
-- Sites of Trees
------------------------------------------------------------

open Scope

mutual

/- The sites of an expression in the order of the walk. -/
def Expr.sites (ctx : Context) (kinds : List Kind) : Expr → Walk → List Site
  | .literal _, _ => []
  | .name id name, walk => [walk.site kinds ⟨.name, id, name⟩]
  | .assign id name value, walk =>
    value.sites ctx kinds walk ++ [(value.resolve ctx walk).site kinds ⟨.assign, id, name⟩]
  | .compound target _ value, walk =>
    target.sites ctx kinds walk ++ value.sites ctx kinds (target.resolve ctx walk)
  | .increment target _ _, walk => target.sites ctx kinds walk
  | .unary _ operand, walk => operand.sites ctx kinds walk
  | .binary left _ right, walk =>
    left.sites ctx kinds walk ++ right.sites ctx kinds (left.resolve ctx walk)
  | .logical left _ right, walk =>
    left.sites ctx kinds walk ++ right.sites ctx kinds (left.resolve ctx walk)
  | .call callee _ arguments, walk =>
    callee.sites ctx kinds walk ++ exprsSites ctx kinds arguments (callee.resolve ctx walk)
  | .get object _, walk => object.sites ctx kinds walk
  | .set object _ value, walk =>
    object.sites ctx kinds walk ++ value.sites ctx kinds (object.resolve ctx walk)
  | .index object _ position, walk =>
    object.sites ctx kinds walk ++ position.sites ctx kinds (object.resolve ctx walk)
  | .indexSet object _ position value, walk =>
    let middle := object.resolve ctx walk
    object.sites ctx kinds walk ++
      (position.sites ctx kinds middle ++ value.sites ctx kinds (position.resolve ctx middle))
  | .self id keyword, walk => [walk.site kinds ⟨.self, id, keyword⟩]
  | .superMethod id keyword _, walk => [walk.site kinds ⟨.superMethod, id, keyword⟩]
  | .function f, walk => f.sites ctx kinds walk
  | .group inner, walk => inner.sites ctx kinds walk
  | .array _ elements, walk => exprsSites ctx kinds elements walk

def Stmt.sites (ctx : Context) (kinds : List Kind) : Stmt → Walk → List Site
  | .expression expr, walk => expr.sites ctx kinds walk
  | .print _ value, walk => value.sites ctx kinds walk
  | .letDecl _ none, _ => []
  | .letDecl name (some value), walk =>
    let declared := walk.declare name
    let inside := ctx.initializer declared name
    value.sites inside kinds declared
  | .functionDecl f, walk => f.sites ctx kinds (walk.declareFunction f)
  | .classDecl name none methods, walk =>
    let declared := (walk.declare name).define name
    let inside := { ctx with classContext := .root }
    methodsSites inside (.self :: kinds) methods (declared.enter [("this", true)])
  | .classDecl name (some superclass) methods, walk =>
    let declared := (walk.declare name).define name
    let checked := declared.checkSuperclass name superclass
    let inside := { ctx with classContext := .derived }
    let parent := superclass.resolve inside checked
    superclass.sites inside kinds checked ++
      methodsSites inside (.self :: .superclass :: kinds) methods
        ((parent.enter [("super", true)]).enter [("this", true)])
  | .block body, walk => stmtsSites ctx (.block :: kinds) body (walk.enter [])
  | .conditional condition thenBranch none, walk =>
    condition.sites ctx kinds walk ++ thenBranch.sites ctx kinds (condition.resolve ctx walk)
  | .conditional condition thenBranch (some elseBranch), walk =>
    let tested := condition.resolve ctx walk
    condition.sites ctx kinds walk ++
      (thenBranch.sites ctx kinds tested ++ elseBranch.sites ctx kinds
          (thenBranch.resolve ctx tested))
  | .whileLoop condition body, walk =>
    condition.sites ctx kinds walk ++ body.sites { ctx with inLoop := true } kinds
        (condition.resolve ctx walk)
  | .breakLoop _, _ => []
  | .returnValue _ none, _ => []
  | .returnValue keyword (some value), walk =>
    value.sites ctx kinds
      (if ctx.inFunction then walk
        else walk.fault keyword .returnOutsideFunction)

def Function.sites (ctx : Context) (kinds : List Kind) : Function → Walk → List Site
  | .mk _ _ params body, walk =>
    stmtsSites ctx.body (.function :: kinds) body ((walk.enter []).parameters params)

def exprsSites (ctx : Context) (kinds : List Kind) : List Expr → Walk → List Site
  | [], _ => []
  | first :: others, walk =>
    first.sites ctx kinds walk ++ exprsSites ctx kinds others (first.resolve ctx walk)

def stmtsSites (ctx : Context) (kinds : List Kind) : List Stmt → Walk → List Site
  | [], _ => []
  | first :: others, walk =>
    first.sites ctx kinds walk ++ stmtsSites ctx kinds others (first.resolve ctx walk)

def methodsSites (ctx : Context) (kinds : List Kind) : List Function → Walk → List Site
  | [], _ => []
  | first :: others, walk =>
    first.sites ctx kinds walk ++ methodsSites ctx kinds others (first.resolve ctx walk)

end

namespace Scope

/- The sites of a program. -/
def programSites (body : List Stmt) : List Site := stmtsSites {} [] body {}

/- The sites of an expression at top level. -/
def expressionSites (expr : Expr) : List Site := expr.sites {} [] {}

/- A walk goes on and finds no fault. -/
def Clean (walk walk' : Walk) : Prop := walk'.faults = walk.faults

/- A fault is a fault. -/
theorem Walk.fault_unclean (walk : Walk) (token : Token) (cause : Cause) :
    ¬ Clean walk (walk.fault token cause) := by
  intro h
  have hLength := congrArg List.length h
  simp [Walk.fault] at hLength

variable {first second third : Walk}

/- A walk without faults has none in its parts. -/
theorem Clean.split (h : Clean first third) (h₁ : first.faults <+: second.faults)
    (h₂ : second.faults <+: third.faults) : Clean first second ∧ Clean second third := by
  have hLe := h₁.length_le
  have hLe' := h₂.length_le
  have hSame := congrArg List.length h
  have hSecond := h₁.eq_of_length (by omega)
  exact ⟨hSecond.symm, h.trans hSecond⟩

/-
  A walk goes on to another one over sites of these nodes.
  If it finds no fault on the way it records their distances.
-/
structure Records (walk walk' : Walk) (sites : List Site) (nodes : List Reference) : Prop where
  faults : walk.faults <+: walk'.faults
  found : Clean walk walk' → walk'.found = walk.found ++ sites.filterMap Site.record?
  nodes : sites.map Site.reference = nodes

variable {sites sites' : List Site} {nodes nodes' : List Reference}

namespace Records

/- Between reference nodes nothing is recorded. -/
theorem of_found {walk walk' : Walk} (hFaults : walk.faults <+: walk'.faults)
    (hFound : walk'.found = walk.found) : Records walk walk' [] [] :=
  ⟨hFaults, fun _ => by simp [hFound], rfl⟩

theorem refl (walk : Walk) : Records walk walk [] [] := .of_found (List.prefix_refl _) rfl

theorem faults_eq (h₁ : Records first second sites nodes)
    (h₂ : Records second third sites' nodes') (h : Clean first third) :
    Clean first second ∧ Clean second third := h.split h₁.faults h₂.faults

theorem trans (h₁ : Records first second sites nodes)
    (h₂ : Records second third sites' nodes') :
    Records first third (sites ++ sites') (nodes ++ nodes') := by
  refine ⟨h₁.faults.trans h₂.faults, fun h => ?_, ?_⟩
  · rcases faults_eq h₁ h₂ h with ⟨hSecond, hThird⟩
    rw [h₂.found hThird, h₁.found hSecond, List.filterMap_append, List.append_assoc]
  · rw [List.map_append, h₁.nodes, h₂.nodes]

/- First a walk goes on over no site. -/
theorem after (h₁ : Records first second [] []) (h₂ : Records second third sites nodes) :
    Records first third sites nodes := h₁.trans h₂

/- At last a walk goes on over no site. -/
theorem before (h₁ : Records first second sites nodes)
    (h₂ : Records second third [] []) : Records first third sites nodes := by
  simpa using h₁.trans h₂

end Records

namespace Walk

variable (walk : Walk) (name : Token)

theorem fault_records (cause : Cause) : Records walk (walk.fault name cause) [] [] :=
  .of_found (List.prefix_append _ _) rfl

theorem declare_records : Records walk (walk.declare name) [] [] := by
  unfold Walk.declare
  split
  · exact .refl walk
  · split
    · exact walk.fault_records name _
    · exact .of_found (List.prefix_refl _) rfl

theorem define_records : Records walk (walk.define name) [] [] := by
  unfold Walk.define
  split
  · exact .refl walk
  · exact .of_found (List.prefix_refl _) rfl

theorem declared_records : Records walk ((walk.declare name).define name) [] [] :=
  (walk.declare_records name).after (define_records _ name)

theorem enter_records (names : Names) : Records walk (walk.enter names) [] [] :=
  .of_found (List.prefix_refl _) rfl

theorem leave_records : Records walk walk.leave [] [] := .of_found (List.prefix_refl _) rfl

theorem parameters_records (params : List Token) :
    Records walk (walk.parameters params) [] [] := by
  induction params generalizing walk with
  | nil => exact .refl walk
  | cons param others ih => exact (walk.declared_records param).after (ih _)

theorem declareFunction_records (f : Function) :
    Records walk (walk.declareFunction f) [] [] := by
  unfold Walk.declareFunction
  split
  · exact walk.declared_records _
  · exact .refl walk

theorem checkSuperclass_records (parent : Expr) :
    Records walk (walk.checkSuperclass name parent) [] [] := by
  unfold Walk.checkSuperclass
  split
  · split
    · exact walk.fault_records _ _
    · exact .refl walk
  · exact .refl walk

theorem reference_records (kinds : List Kind) (role : Role) (id : Nat) :
    Records walk (walk.reference id name) [walk.site kinds ⟨role, id, name⟩]
      [⟨role, id, name⟩] := by
  unfold Walk.reference
  cases hDistance : walk.distance? name.lexeme with
  | none =>
    refine ⟨List.prefix_refl _, fun _ => ?_, rfl⟩
    have hEntry : (walk.site kinds ⟨role, id, name⟩).record? = none :=
      congrArg (Option.map _) hDistance
    simp [hEntry]
  | some distance =>
    refine ⟨List.prefix_refl _, fun _ => ?_, rfl⟩
    have hEntry : (walk.site kinds ⟨role, id, name⟩).record? =
          some (id, distance) := congrArg (Option.map _) hDistance
    simp [hEntry]

theorem read_records (ctx : Context) (kinds : List Kind) (id : Nat) :
    Records walk (walk.read ctx id name) [walk.site kinds ⟨.name, id, name⟩]
      [⟨.name, id, name⟩] := by
  simp only [Walk.read]
  split
  · exact (walk.fault_records name _).after (reference_records _ name kinds .name id)
  · exact walk.reference_records name kinds .name id

/- A misplaced keyword is a fault. -/
theorem misplaced_records (cause : Cause) :
    Records walk (walk.fault name cause) sites (sites.map Site.reference) :=
  ⟨List.prefix_append _ _, fun h => absurd h (walk.fault_unclean name cause), rfl⟩

theorem self_records (ctx : Context) (kinds : List Kind) (id : Nat) :
    Records walk (walk.self ctx id name) [walk.site kinds ⟨.self, id, name⟩]
      [⟨.self, id, name⟩] := by
  unfold Walk.self
  split
  · exact walk.misplaced_records name _
  · exact walk.reference_records name kinds .self id

theorem superMethod_records (ctx : Context) (kinds : List Kind) (id : Nat) :
    Records walk (walk.superMethod ctx id name) [walk.site kinds ⟨.superMethod, id, name⟩]
      [⟨.superMethod, id, name⟩] := by
  unfold Walk.superMethod
  split
  · exact walk.misplaced_records name _
  · exact walk.misplaced_records name _
  · exact walk.reference_records name kinds .superMethod id

end Walk

end Scope

/-
  By induction on trees.  Walks go on over the sites of
  their parts.
-/
theorem trees_record :
    (∀ (expr : Expr) ctx kinds walk, Records walk (expr.resolve ctx walk)
      (expr.sites ctx kinds walk) expr.references) ∧
    (∀ (f : Function) ctx kinds walk, Records walk (f.resolve ctx walk)
      (f.sites ctx kinds walk) f.references) ∧
    (∀ stmts ctx kinds walk, Records walk (resolveStmts ctx stmts walk)
      (stmtsSites ctx kinds stmts walk) (stmtsReferences stmts)) ∧
    (∀ (stmt : Stmt) ctx kinds walk, Records walk (stmt.resolve ctx walk)
      (stmt.sites ctx kinds walk) stmt.references) ∧
    (∀ methods ctx kinds walk, Records walk (resolveMethods ctx methods walk)
      (methodsSites ctx kinds methods walk) (functionsReferences methods)) ∧
    ∀ exprs ctx kinds walk, Records walk (resolveExprs ctx exprs walk)
      (exprsSites ctx kinds exprs walk) (exprsReferences exprs) := by
  apply Expr.references.mutual_induct <;> intros <;> simp only [Expr.resolve, Expr.sites,
    Expr.references, Stmt.resolve, Stmt.sites, Stmt.references, Function.resolve, Function.sites,
    Function.references, resolveExprs, exprsSites, exprsReferences, resolveStmts, stmtsSites,
    stmtsReferences, resolveMethods, methodsSites, functionsReferences]
  case case22 ih _ _ _ =>
    exact (Walk.declare_records ..).after ((ih ..).before (Walk.define_records ..))
  case case23 ih _ _ _ => exact (Walk.declareFunction_records ..).after (ih ..)
  case case24 ih _ _ _ =>
    exact (Walk.declared_records ..).after
      ((Walk.enter_records ..).after ((ih ..).before (Walk.leave_records _)))
  case case25 ih₁ ih₂ _ _ _ =>
    refine (Walk.declared_records ..).after
      ((Walk.checkSuperclass_records ..).after ((ih₁ ..).trans ?_))
    exact (Walk.enter_records ..).after ((Walk.enter_records ..).after
      (((ih₂ ..).before (Walk.leave_records _)).before (Walk.leave_records _)))
  case case26 ih _ _ _ =>
    exact (Walk.enter_records ..).after ((ih ..).before (Walk.leave_records _))
  case case32 ih _ _ _ =>
    split
    · exact ih ..
    · exact (Walk.fault_records ..).after (ih ..)
  case case33 ih _ _ _ =>
    exact (Walk.enter_records ..).after
      ((Walk.parameters_records ..).after ((ih ..).before (Walk.leave_records _)))
  all_goals try split
  all_goals solve_by_elim [Records.refl, Records.trans, Walk.read_records, Walk.self_records,
    Walk.superMethod_records, Walk.reference_records, Walk.declared_records, Walk.fault_records]

section

variable (ctx : Context) (kinds : List Kind)

theorem Expr.resolve_records (expr : Expr) (walk : Walk) : Records walk (expr.resolve ctx walk)
    (expr.sites ctx kinds walk) expr.references := trees_record.1 ..

theorem Stmt.resolve_records (stmt : Stmt) (walk : Walk) : Records walk (stmt.resolve ctx walk)
    (stmt.sites ctx kinds walk) stmt.references := trees_record.2.2.2.1 ..

theorem Function.resolve_records (f : Function) (walk : Walk) :
    Records walk (f.resolve ctx walk)
    (f.sites ctx kinds walk) f.references := trees_record.2.1 ..

theorem resolveStmts_records (stmts : List Stmt) (walk : Walk) :
    Records walk (resolveStmts ctx stmts walk) (stmtsSites ctx kinds stmts walk)
      (stmtsReferences stmts) := trees_record.2.2.1 ..

theorem resolveMethods_records (methods : List Function) (walk : Walk) :
    Records walk (resolveMethods ctx methods walk) (methodsSites ctx kinds methods walk)
      (functionsReferences methods) := trees_record.2.2.2.2.1 ..

end

namespace Scope

variable {sites : List Site}

/- Every reference node has its site. -/
theorem programSites_references (body : List Stmt) :
    (programSites body).map Site.reference = stmtsReferences body :=
  (resolveStmts_records {} [] body {}).nodes

theorem expressionSites_references (expr : Expr) :
    (expressionSites expr).map Site.reference = expr.references :=
  (expr.resolve_records {} [] {}).nodes

/- The distances of a program are those of its sites. -/
theorem resolveProgram_found {body : List Stmt} (h : (resolveProgram body).faults = []) :
    (resolveProgram body).found = (programSites body).filterMap Site.record? :=
  (resolveStmts_records {} [] body {}).found h

theorem resolveExpression_found {expr : Expr} (h : (resolveExpression expr).faults = []) :
    (resolveExpression expr).found = (expressionSites expr).filterMap Site.record? :=
  (expr.resolve_records {} [] {}).found h

theorem Site.fst_record? {site : Site} {entry : Nat × Nat}
    (h : site.record? = some entry) : entry.1 = site.reference.id := by
  rcases Option.map_eq_some_iff.mp h with ⟨distance, _, rfl⟩
  rfl

/- The sites of other nodes change nothing. -/
theorem Distances.extend_other {id : Nat}
    (hOther : id ∉ sites.map (·.reference.id)) (table : Distances) :
    (table.extend (sites.filterMap Site.record?))[id]? = table[id]? := by
  refine Distances.extend_of_ne (fun entry hMem hSame => ?_) _
  rcases List.mem_filterMap.mp hMem with ⟨site, hSite, hEntry⟩
  refine hOther (List.mem_map.mpr ⟨site, hSite, ?_⟩)
  rw [← Site.fst_record? hEntry]
  exact hSame

/- New sites get their distances, if they have one. -/
theorem Distances.extend_sites (hDistinct : (sites.map (·.reference.id)).Nodup)
    {table : Distances}
    (hNew : ∀ site ∈ sites, table[site.reference.id]? = none) {site : Site} (hSite : site ∈ sites) :
    (table.extend (sites.filterMap Site.record?))[site.reference.id]? = site.distance? := by
  induction sites generalizing table with
  | nil => cases hSite
  | cons first others ih =>
    rw [List.map_cons, List.nodup_cons] at hDistinct
    rcases hDistinct with ⟨hFirst, hDistinct⟩
    have hOthers := fun other hMem => hNew other (List.mem_cons_of_mem first hMem)
    cases hDistance : first.distance? with
    | none =>
      have hEntry : first.record? = none := by simp [Site.record?, hDistance]
      rw [List.filterMap_cons_none hEntry]
      rcases List.mem_cons.mp hSite with rfl | hSite
      · rw [extend_other hFirst, hDistance]
        exact hNew site (List.mem_cons_self ..)
      · exact ih hDistinct hOthers hSite
    | some distance =>
      have hEntry : first.record? = some (first.reference.id, distance) := by
        simp [Site.record?, hDistance]
      rw [List.filterMap_cons_some hEntry]
      change (Distances.extend (table.insert first.reference.id distance) _)[site.reference.id]? = _
      rcases List.mem_cons.mp hSite with rfl | hSite
      · rw [extend_other hFirst, hDistance, Std.TreeMap.getElem?_insert_self]
      · refine ih hDistinct (fun other hMem => ?_) hSite
        rw [Std.TreeMap.getElem?_insert, if_neg]
        · exact hOthers other hMem
        · simp only [Nat.compare_eq_eq]
          intro hSame
          exact hFirst (List.mem_map.mpr ⟨other, hMem, hSame.symm⟩)

end Scope

end Scriptlet
