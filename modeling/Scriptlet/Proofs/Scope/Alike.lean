import Scriptlet.Proofs.Scope.Sites
import Scriptlet.Proofs.Tree.Guise

/-
  Resolving trees that are alike.

  Key declarations include:
    * `Scope.Walk.Alike`
    * `Expr.resolve_alike`
    * `Stmt.resolve_alike`
    * `resolveStmts_alike`
    * `resolveProgram_alike`

  A walk compares the lexemes of tokens and copies numbers of
  nodes, so that over trees alike the scopes are the same and
  the distances go to nodes that stand for each other.
-/

namespace Scriptlet

namespace Scope

variable (l : Likeness)

/- Faults alike. -/
def Fault.Alike (fault fault' : Fault) : Prop :=
  fault'.cause = fault.cause ∧ l.token fault.token fault'.token

/- The same distance of nodes that stand for each other. -/
def EntryAlike (entry entry' : Nat × Nat) : Prop :=
  l.node entry.1 entry'.1 ∧ entry'.2 = entry.2

/- What was added to two lists is related. -/
def Since {α : Type} (R : α → α → Prop) (base base' xs xs' : List α) : Prop :=
  ∃ added added', xs = base ++ added ∧ xs' = base' ++ added' ∧ List.Forall₂ R added added'

theorem Since.push {α : Type} {R : α → α → Prop} {base base' xs xs' : List α}
    (h : Since R base base' xs xs') {x x' : α} (hNew : R x x') :
    Since R base base' (xs ++ [x]) (xs' ++ [x']) := by
  rcases h with ⟨added, added', rfl, rfl, hAdded⟩
  exact ⟨added ++ [x], added' ++ [x'], List.append_assoc .., List.append_assoc ..,
    List.rel_append hAdded (.cons hNew .nil)⟩

/-
  Walks alike since they started: the same scopes are open,
  and what was found on the way is alike.
-/
structure Walk.Alike (start start' walk walk' : Walk) : Prop where
  scopes : walk'.scopes = walk.scopes
  found : Since (EntryAlike l) start.found start'.found walk.found walk'.found
  faults : Since (Fault.Alike l) start.faults start'.faults walk.faults walk'.faults

namespace Walk.Alike

variable {l} {start start' walk walk' : Walk} {id id' : Nat} {name name' : Token}

theorem refl (h : start'.scopes = start.scopes) : Walk.Alike l start start' start start' :=
  ⟨h, ⟨[], [], by simp⟩, ⟨[], [], by simp⟩⟩

section

variable (h : Walk.Alike l start start' walk walk')

include h

theorem enter (names : Names) :
    Walk.Alike l start start' (walk.enter names) (walk'.enter names) :=
  ⟨congrArg (names :: ·) h.scopes, h.found, h.faults⟩

theorem leave : Walk.Alike l start start' walk.leave walk'.leave :=
  ⟨congrArg List.tail h.scopes, h.found, h.faults⟩

variable (hName : l.token name name')
include hName

theorem fault (cause : Cause) :
    Walk.Alike l start start' (walk.fault name cause) (walk'.fault name' cause) :=
  ⟨h.scopes, h.found, h.faults.push ⟨rfl, hName⟩⟩

theorem declare : Walk.Alike l start start' (walk.declare name) (walk'.declare name') := by
  simp only [Walk.declare, h.scopes, l.lexeme_eq hName]
  cases walk.scopes with
  | nil => exact h
  | cons names outer =>
    dsimp only
    split
    · exact h.fault hName .redeclared
    · exact ⟨rfl, h.found, h.faults⟩

theorem define : Walk.Alike l start start' (walk.define name) (walk'.define name') := by
  simp only [Walk.define, h.scopes, l.lexeme_eq hName]
  cases walk.scopes with
  | nil => exact h
  | cons names outer => exact ⟨rfl, h.found, h.faults⟩

theorem reference (hNode : l.node id id') :
    Walk.Alike l start start' (walk.reference id name) (walk'.reference id' name') := by
  simp only [Walk.reference, Walk.distance?, h.scopes, l.lexeme_eq hName]
  split
  · exact ⟨rfl, h.found.push ⟨hNode, rfl⟩, h.faults⟩
  · exact h

theorem read (ctx : Context) (hNode : l.node id id') :
    Walk.Alike l start start' (walk.read ctx id name) (walk'.read ctx id' name') := by
  have hEarly : ctx.readsEarly walk' name'.lexeme = ctx.readsEarly walk name.lexeme := by
    simp only [Context.readsEarly, h.scopes, l.lexeme_eq hName]
  simp only [Walk.read, hEarly]
  split
  · exact (h.fault hName _).reference hName hNode
  · exact h.reference hName hNode

theorem self (ctx : Context) (hNode : l.node id id') :
    Walk.Alike l start start' (walk.self ctx id name) (walk'.self ctx id' name') := by
  unfold Walk.self
  split
  · exact h.fault hName _
  · exact h.reference hName hNode

theorem superMethod (ctx : Context) (hNode : l.node id id') :
    Walk.Alike l start start' (walk.superMethod ctx id name) (walk'.superMethod ctx id' name') := by
  unfold Walk.superMethod
  split
  · exact h.fault hName _
  · exact h.fault hName _
  · exact h.reference hName hNode

theorem declared :
    Walk.Alike l start start' ((walk.declare name).define name)
      ((walk'.declare name').define name') := (h.declare hName).define hName

end

theorem parameters {params params' : List Token}
    (hParams : List.Forall₂ l.token params params') {walk walk' : Walk}
    (h : Walk.Alike l start start' walk walk') :
    Walk.Alike l start start' (walk.parameters params) (walk'.parameters params') := by
  induction hParams generalizing walk walk' with
  | nil => exact h
  | cons hParam _ ih => exact ih (h.declared hParam)

variable (h : Walk.Alike l start start' walk walk')

include h

theorem declareFunction {f f' : Function} (hFunction : Function.Alike l f f') :
    Walk.Alike l start start' (walk.declareFunction f) (walk'.declareFunction f') := by
  cases hFunction with
  | mk hName =>
    cases hName with
    | some hToken => exact h.declared hToken
    | none => exact h

theorem checkSuperclass
    (hName : l.token name name') {parent parent' : Expr} (hParent : Expr.Alike l parent parent') :
    Walk.Alike l start start' (walk.checkSuperclass name parent)
      (walk'.checkSuperclass name' parent') := by
  cases hParent with
  | name hRefers =>
    have hToken : l.token _ _ := hRefers.name
    simp only [Walk.checkSuperclass, l.lexeme_eq hToken, l.lexeme_eq hName]
    split
    · exact h.fault hToken _
    · exact h
  | _ => exact h

theorem initializer (ctx : Context)
    (hName : l.token name name') : ctx.initializer walk' name' = ctx.initializer walk name := by
  simp only [Context.initializer, h.scopes, l.lexeme_eq hName]

end Walk.Alike

end Scope

open Scope

variable {l : Likeness} {start start' : Walk}

/-
  By induction on trees.  Both walks come to the parts of a
  node in the same order.
-/
theorem trees_resolve_alike :
    (∀ expr : Expr, ∀ {ctx expr' walk walk'}, Expr.Alike l expr expr' →
      Walk.Alike l start start' walk walk' →
      Walk.Alike l start start' (expr.resolve ctx walk) (expr'.resolve ctx walk')) ∧
    (∀ f : Function, ∀ {ctx f' walk walk'}, Function.Alike l f f' →
      Walk.Alike l start start' walk walk' →
      Walk.Alike l start start' (f.resolve ctx walk) (f'.resolve ctx walk')) ∧
    (∀ stmts, ∀ {ctx stmts' walk walk'}, stmtsAlike l stmts stmts' →
      Walk.Alike l start start' walk walk' →
      Walk.Alike l start start' (resolveStmts ctx stmts walk) (resolveStmts ctx stmts' walk')) ∧
    (∀ stmt : Stmt, ∀ {ctx stmt' walk walk'}, Stmt.Alike l stmt stmt' →
      Walk.Alike l start start' walk walk' →
      Walk.Alike l start start' (stmt.resolve ctx walk) (stmt'.resolve ctx walk')) ∧
    (∀ methods, ∀ {ctx methods' walk walk'}, functionsAlike l methods methods' →
      Walk.Alike l start start' walk walk' → Walk.Alike l start start'
        (resolveMethods ctx methods walk) (resolveMethods ctx methods' walk')) ∧
    ∀ exprs, ∀ {ctx exprs' walk walk'}, exprsAlike l exprs exprs' →
      Walk.Alike l start start' walk walk' →
      Walk.Alike l start start' (resolveExprs ctx exprs walk) (resolveExprs ctx exprs' walk') := by
  apply Expr.references.mutual_induct <;> intros <;> rename_i hAlike h <;> cases hAlike
  all_goals simp only [Expr.resolve, Stmt.resolve, Function.resolve, resolveExprs, resolveStmts,
    resolveMethods]
  case case2.name hName => exact h.read hName.name _ hName.node
  case case3.assign ih _ _ _ _ _ _ hName hValue =>
    exact (ih hValue h).reference hName.name hName.node
  case case13.indexSet ih₁ ih₂ ih₃ _ _ _ _ _ _ _ hObject _ hPosition hValue =>
    exact ih₃ hValue (ih₂ hPosition (ih₁ hObject h))
  case case14.self hName => exact h.self hName.name _ hName.node
  case case15.superMethod hName _ => exact h.superMethod hName.name _ hName.node
  case case21.letBare hName => exact h.declared hName
  case case22.letValue ih _ _ _ _ _ hName hValue =>
    have hDeclared := h.declare hName
    rw [hDeclared.initializer _ hName]
    exact (ih hValue hDeclared).define hName
  case case23.functionDecl ih _ _ _ _ _ hFunction =>
    exact ih hFunction (h.declareFunction hFunction)
  case case24.rootClass ih _ _ _ _ _ hName _ hMethods =>
    exact (ih hMethods ((h.declared hName).enter _)).leave
  case case25.derivedClass ih₁ ih₂ _ _ _ _ _ _ hName _ hParent hMethods =>
    exact (ih₂ hMethods (((ih₁ hParent
      ((h.declared hName).checkSuperclass hName hParent)).enter _).enter _)).leave.leave
  case case26.block ih _ _ _ _ _ hBody => exact (ih hBody (h.enter [])).leave
  case case28.ifElse ih₁ ih₂ ih₃ _ _ _ _ _ _ hCondition hThen hElse =>
    exact ih₃ hElse (ih₂ hThen (ih₁ hCondition h))
  case case33.mk ih _ _ _ _ _ _ _ _ _ _ hParams hBody =>
    exact (ih hBody (.parameters hParams (h.enter []))).leave
  all_goals try solve_by_elim
  -- What is left speaks of a loop or a function around it.
  all_goals
    split
    · solve_by_elim
    · solve_by_elim [Walk.Alike.fault]

/-
  A program after others, at top level, finds what it finds
  on its own.
-/
theorem resolveProgram_alike {body body' : List Stmt}
    (hBody : stmtsAlike l body body') (earlier : Walk) (hScopes : earlier.scopes = []) :
    ∃ found faults, resolveStmts {} body' earlier = ⟨[], earlier.found ++ found,
            earlier.faults ++ faults⟩ ∧ List.Forall₂ (EntryAlike l)
            (resolveProgram body).found found ∧ List.Forall₂ (Fault.Alike l)
            (resolveProgram body).faults faults := by
  have hStart : Walk.Alike l {} earlier {} earlier := .refl hScopes
  have hWalk := @trees_resolve_alike.2.2.1 body {} _ _ _ hBody hStart
  rcases hWalk.found with ⟨found, found', hFound, hFound', hEntries⟩
  rcases hWalk.faults with ⟨faults, faults', hFaults, hFaults', hAlike⟩
  rw [List.nil_append] at hFound hFaults
  refine ⟨found', faults', ?_, ?_, ?_⟩
  · have hTop := hWalk.scopes.trans (resolveProgram_scopes body)
    rw [← hFound', ← hFaults', ← hTop]
  · rw [resolveProgram, hFound]
    exact hEntries
  · rw [resolveProgram, hFaults]
    exact hAlike

end Scriptlet
