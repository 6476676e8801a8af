import Scriptlet.Proofs.Scope.Aligned

/-
  Trees with one declaration renamed.

  Key declarations include:
    * `stmtsDeclared_distinct`
    * `Stmt.resolve_respelled`
    * `Scope.resolveProgram_respelled`

  A program that is resolved without faults is resolved
  without faults after a renaming, its references have the
  same distances, and its tree is respelled scope by scope.
-/

namespace Scriptlet

open Scope

variable {stmt : Stmt}

/- What follows the declaration of a name. -/
theorem Stmt.resolve_declared {name : Token}
    (h : stmt.declared? = some name) (ctx : Context) (walk : Walk) :
    (walk.declare name).faults <+: (stmt.resolve ctx walk).faults ∧
      Grows (walk.declare name).scopes (stmt.resolve ctx walk).scopes := by
  have hDefine := ((walk.declare name).define_records name).faults
  have hGrows := (walk.declare name).define_grows name
  cases stmt with
  | letDecl other value =>
    cases h
    cases value with
    | none =>
      exact ⟨hDefine, hGrows⟩
    | some value =>
      refine ⟨((value.resolve_records _ [] _).before (Walk.define_records _ _)).faults, ?_⟩
      have hLast := (value.resolve (ctx.initializer (walk.declare name) name)
          (walk.declare name)).define_grows name
      rw [value.resolve_scopes] at hLast
      exact hLast
  | functionDecl f =>
    have hName : f.name = some name := h
    simp only [Stmt.resolve, Walk.declareFunction, hName]
    rw [f.resolve_scopes]
    exact ⟨hDefine.trans (f.resolve_records _ [] _).faults, hGrows⟩
  | classDecl other parent methods =>
    cases h
    cases parent with
    | none =>
      simp only [Stmt.resolve]
      refine ⟨hDefine.trans ((Walk.enter_records _ _).after
        ((resolveMethods_records _ [] methods _).before (Walk.leave_records _))).faults, ?_⟩
      simp only [Walk.leave, resolveMethods_scopes, Walk.enter, List.tail_cons]
      exact hGrows
    | some parent =>
      simp only [Stmt.resolve]
      refine ⟨hDefine.trans ((Walk.checkSuperclass_records _ _ _).after
        ((parent.resolve_records _ [] _).trans ((Walk.enter_records _ _).after
          ((Walk.enter_records _ _).after (((resolveMethods_records _ [] methods _).before
            (Walk.leave_records _)).before (Walk.leave_records _)))))).faults, ?_⟩
      simp only [Walk.leave, resolveMethods_scopes,
        Walk.enter, List.tail_cons, parent.resolve_scopes, Walk.checkSuperclass_scopes]
      exact hGrows
  | _ => cases h

/-
  Without faults the names that are declared in one scope are
  different, and different from those declared before.
-/
theorem stmtsDeclared_distinct {ctx : Context} {stmts : List Stmt} {walk : Walk}
    {names : Names} {outer : List Names} (hScopes : walk.scopes = names :: outer)
    (h : Clean walk (resolveStmts ctx stmts walk)) :
    ((stmtsDeclared stmts).map Token.lexeme).Nodup ∧
      ∀ name ∈ stmtsDeclared stmts, names.declares name.lexeme = false := by
  induction stmts generalizing walk names with
  | nil => exact ⟨List.nodup_nil, fun _ hMem => nomatch hMem⟩
  | cons first others ih =>
    rcases (first.resolve_records ctx [] walk).faults_eq
      (resolveStmts_records ctx [] others _) h with ⟨hFirst, hOthers⟩
    have hGrows := first.resolve_grows ctx walk
    rw [hScopes] at hGrows
    generalize hLater : (first.resolve ctx walk).scopes = later at hGrows
    cases hGrows with
    | @inner _ names' _ hKept =>
      rcases ih hLater hOthers with ⟨hDistinct, hNew⟩
      have hBefore : ∀ name ∈ stmtsDeclared others, names.declares name.lexeme = false := by
        intro name hMem
        have hOther := hNew name hMem
        rw [Bool.eq_false_iff] at hOther ⊢
        exact fun hName => hOther (hKept _ hName)
      cases hName : first.declared? with
      | none =>
        rw [stmtsDeclared, List.filterMap_cons_none hName]
        exact ⟨hDistinct, hBefore⟩
      | some name =>
        rcases Stmt.resolve_declared hName ctx walk with ⟨hOnward, hGrows⟩
        have hDeclare := (hFirst.split (walk.declare_records name).faults hOnward).1
        have hFresh : names.declares name.lexeme = false := by
          rw [Bool.eq_false_iff]
          intro hDeclared
          simp only [Walk.declare, hScopes, hDeclared, if_true] at hDeclare
          exact walk.fault_unclean _ _ hDeclare
        have hHere : names'.declares name.lexeme = true := by
          rw [hLater] at hGrows
          simp only [Walk.declare, hScopes, hFresh, Bool.false_eq_true, if_false] at hGrows
          cases hGrows with
          | inner hNames => exact hNames _ ((Names.declares_cons ..).mpr (.inl rfl))
        rw [stmtsDeclared, List.filterMap_cons_some hName,
          List.map_cons, List.nodup_cons, List.forall_mem_cons]
        refine ⟨⟨fun hMem => ?_, hDistinct⟩, hFresh, hBefore⟩
        rcases List.mem_map.mp hMem with ⟨other, hOther, hSame⟩
        have hClash := hNew other hOther
        rw [hSame, hHere] at hClash
        cases hClash

/- Parameters are declared like variables. -/
theorem Scope.Walk.parameters_eq (ctx : Context) (params : List Token) (walk : Walk) :
    walk.parameters params = resolveStmts ctx
        (params.map fun param => .letDecl param none) walk := by
  induction params generalizing walk with
  | nil => rfl
  | cons param others ih =>
    exact ih _

theorem stmtsDeclared_parameters (params : List Token) (body : List Stmt) :
    stmtsDeclared (params.map (fun param => .letDecl param none) ++ body) =
      params ++ stmtsDeclared body := by
  simp only [stmtsDeclared, List.filterMap_append, List.filterMap_map]
  congr 1
  exact List.filterMap_some

section

variable (g : Token → Token) (k : Nat)

theorem Stmt.declared?_map (stmt : Stmt) :
    (stmt.map g k).declared? = stmt.declared?.map g := by
  cases stmt with
  | letDecl name value => cases value <;> rfl
  | functionDecl f => cases f; rfl
  | classDecl name parent methods => cases parent <;> rfl
  | conditional condition thenBranch elseBranch =>
    cases elseBranch <;> rfl
  | returnValue keyword value => cases value <;> rfl
  | _ => rfl

theorem stmtsDeclared_map (stmts : List Stmt) :
    stmtsDeclared (stmtsMap g k stmts) = (stmtsDeclared stmts).map g := by
  induction stmts with
  | nil => rfl
  | cons first others ih =>
    simp only [stmtsDeclared, stmtsMap] at ih ⊢
    cases hName : first.declared? with
    | none =>
      have hMap : (first.map g k).declared? = none := by
        rw [Stmt.declared?_map, hName]
        rfl
      rw [List.filterMap_cons_none hName, List.filterMap_cons_none hMap, ih]
    | some name =>
      have hMap : (first.map g k).declared? = some (g name) := by
        rw [Stmt.declared?_map, hName]
        rfl
      rw [List.filterMap_cons_some hName, List.filterMap_cons_some hMap, ih, List.map_cons]

end

theorem Stmt.binders_of_declares (h : stmt.declares = false)
    (binders : Binders) : stmt.binders binders = binders := by
  rw [Stmt.binders, declared?_of_declares h]
  rfl

theorem Function.name_map (g : Token → Token) (k : Nat) (f : Function) :
    (f.map g k).name = f.name.map g := by
  cases f
  rfl

theorem Function.keyword_occurs (f : Function) (binders : Binders) :
    f.keyword.other ∈ f.occurrences binders := by
  cases f with
  | mk name keyword params body =>
    exact List.mem_cons_self ..

/- Statements declare in the innermost scope only. -/
theorem Stmt.tail_binders (stmt : Stmt) (binders : Binders) :
    (stmt.binders binders).tail = binders.tail := by
  unfold Stmt.binders
  cases stmt.declared? with
  | none => rfl
  | some name => cases binders <;> rfl

/- The declarations that are known after statements. -/
def stmtsBinders (stmts : List Stmt) (binders : Binders) : Binders :=
  stmts.foldl (fun binders stmt => stmt.binders binders) binders

theorem tail_stmtsBinders (stmts : List Stmt) (binders : Binders) :
    (stmtsBinders stmts binders).tail = binders.tail := by
  induction stmts generalizing binders with
  | nil => rfl
  | cons first others ih => exact (ih _).trans (first.tail_binders binders)

theorem tail_foldl_declare (params : List Token) (binders : Binders) :
    (params.foldl Binders.declare binders).tail = binders.tail := by
  induction params generalizing binders with
  | nil => rfl
  | cons param others ih =>
    refine (ih _).trans ?_
    cases binders <;> rfl

namespace Respelling

variable {R : Respelling}

/- The scope of a block or of a function is renamed or not. -/
theorem exists_scope {ctx : Context} (params : List Token) {body : List Stmt}
    {k : Nat} (binders : Binders) {walk : Walk} (hTree : stmtsSensible body)
    (hParams : ∀ param ∈ params, R.Fits (param.bind ([] :: binders))) {inside : Binders}
    (hBody : ∀ occurrence ∈ stmtsOccurrences inside body, R.Fits occurrence)
    (hClean : Clean (walk.enter [])
        (resolveStmts ctx (stmtsMap R.before k body)
          ((walk.enter []).parameters (params.map R.before)))) : ∃ renamed,
      (∀ param ∈ params, R.Binds renamed param) ∧
        ∀ name ∈ stmtsDeclared body, R.Hosts renamed name := by
  have hFits : ∀ name ∈ params ++ stmtsDeclared body, name.lexeme ≠ R.new ∧
          (name.line = R.declaration → name.lexeme = R.old) := by
    intro name hMem
    rcases List.mem_append.mp hMem with hMem | hMem
    · have hName := hParams name hMem
      exact ⟨hName.fresh, fun h => (hName.declared h).2⟩
    · rcases stmtsDeclared_occurs hTree hMem inside with ⟨occurrence, hOccurs, rfl, _⟩
      have hName := hBody occurrence hOccurs
      exact ⟨hName.fresh, fun h => (hName.declared h).2⟩
  have hDistinct : ((params ++ stmtsDeclared body).map Token.lexeme).Nodup := by
    rw [Walk.parameters_eq ctx, ← resolveStmts_append] at hClean
    have hNames := (stmtsDeclared_distinct (by rfl) hClean).1
    rw [stmtsDeclared_parameters, stmtsDeclared_map, ← List.map_append, List.map_map] at hNames
    have hLexeme : Token.lexeme ∘ R.before = Token.lexeme :=
      funext R.lexeme_before
    rw [hLexeme] at hNames
    exact hNames
  rcases R.exists_hosts hDistinct (fun name hMem => (hFits name hMem).1)
      (fun name hMem => (hFits name hMem).2) with
    ⟨renamed, hHosts⟩
  refine ⟨renamed, fun param hMem => ?_, fun name hMem => ?_⟩
  · exact (hParams param hMem).binds (hHosts param (List.mem_append_left _ hMem))
  · exact hHosts name (List.mem_append_right _ hMem)

end Respelling

------------------------------------------------------------
-- Respelled Trees
------------------------------------------------------------

section

variable {R : Respelling} {table : Distances} {k : Nat}

theorem Respelling.Hosts.keeps {flags : List Bool} {name : Token}
    (h : R.Hosts (marksOf flags 0) name) (hFits : R.Fits name.other) :
    (R.guise table).Keeps (marksOf flags) (R.before name).lexeme := by
  rw [R.lexeme_before]
  exact h.lexeme (hFits.declared.ne_of_use rfl)

/- A branch or a body declares nothing. -/
theorem Respelling.Goes.branch {flags : List Bool} {binders : Binders}
    {walk walk' next next' : Walk} {sites : List Site} {respelled : Prop}
    (hDeclares : stmt.declares = false)
    (h : (∀ name, stmt.declared? = some name → R.Hosts (marksOf flags 0) name) →
      R.Goes table flags binders (stmt.binders binders) walk walk' next next' sites respelled) :
    R.Goes table flags binders binders walk walk' next next' sites respelled := by
  rw [Stmt.binders_of_declares hDeclares] at h
  refine h fun name hName => ?_
  rw [Stmt.declared?_of_declares hDeclares] at hName
  cases hName

mutual

/-
  By induction on trees.  Both walks go on side by side, and
  what they pass is respelled.
-/
theorem Expr.resolve_respelled {flags : List Bool} {binders : Binders}
    {ctx : Context} {kinds : List Kind} {walk walk' : Walk} (expr : Expr) (hTree : expr.Sensible)
    (hFits : ∀ occurrence ∈ expr.occurrences binders, R.Fits occurrence) :
    R.Goes table flags binders binders walk walk' ((expr.map R.before k).resolve ctx walk)
      ((expr.map R.after k).resolve ctx walk') ((expr.map R.before k).sites ctx kinds walk)
      ((expr.map R.before k).Guised (R.guise table) (marksOf flags) (expr.map R.after k)) := by
  match expr with
  | .literal _ => exact .here (.literal _)
  | .name id name =>
    simp only [Expr.occurrences, List.forall_mem_singleton] at hFits
    exact (Respelling.Goes.read hFits).imp .name
  | .assign id name value =>
    simp only [Expr.occurrences, List.forall_mem_cons] at hFits
    refine ((value.resolve_respelled hTree.2 hFits.2).trans (.reference hFits.1)).imp ?_
    exact fun ⟨hValue, hRefers⟩ => .assign hRefers hValue
  | .compound left operator right
  | .binary left operator right
  | .logical left operator right
  | .set left name right
  | .index left bracket right =>
    simp only [Expr.occurrences, List.forall_mem_cons, List.forall_mem_append] at hFits
    have hParts : left.Sensible ∧ right.Sensible := by first | exact hTree | exact hTree.2
    have hToken := hFits.1.token table
    refine ((left.resolve_respelled hParts.1 hFits.2.1).trans
      (right.resolve_respelled hParts.2 hFits.2.2)).imp ?_
    rintro ⟨hLeft, hRight⟩
    constructor <;> assumption
  | .increment operand operator _
  | .unary operator operand
  | .get operand name =>
    simp only [Expr.occurrences, List.forall_mem_cons] at hFits
    have hOperand : operand.Sensible := by first | exact hTree | exact hTree.2
    have hToken := hFits.1.token table
    refine (operand.resolve_respelled hOperand hFits.2).imp fun hRespelled => ?_
    constructor <;> assumption
  | .call callee paren arguments =>
    simp only [Expr.occurrences, List.forall_mem_cons, List.forall_mem_append] at hFits
    refine ((callee.resolve_respelled hTree.1 hFits.2.1).trans
      (resolveExprs_respelled arguments hTree.2 hFits.2.2)).imp ?_
    exact fun ⟨hCallee, hArguments⟩ => .call hCallee (hFits.1.token table) hArguments
  | .indexSet object bracket position value =>
    simp only [Expr.occurrences, List.forall_mem_cons, List.forall_mem_append] at hFits
    refine ((object.resolve_respelled hTree.1 hFits.2.1).trans
      ((position.resolve_respelled hTree.2.1 hFits.2.2.1).trans
        (value.resolve_respelled hTree.2.2 hFits.2.2.2))).imp ?_
    exact fun ⟨hObject, hPosition, hValue⟩ =>
      .indexSet hObject (hFits.1.token table) hPosition hValue
  | .self id keyword =>
    simp only [Expr.occurrences, List.forall_mem_singleton] at hFits
    exact (Respelling.Goes.self hFits).imp .self
  | .superMethod id keyword method =>
    simp only [Expr.occurrences, List.forall_mem_cons] at hFits
    exact (Respelling.Goes.superMethod hFits.1).imp (.superMethod · (hFits.2.1.token table))
  | .function f => exact (f.resolve_respelled hTree.2 (.inl hTree.1) hFits).imp .function
  | .group inner => exact (inner.resolve_respelled hTree hFits).imp .group
  | .array bracket elements =>
    simp only [Expr.occurrences, List.forall_mem_cons] at hFits
    exact (resolveExprs_respelled elements hTree hFits.2).imp (.array (hFits.1.token table))

theorem Stmt.resolve_respelled {flags : List Bool} {binders : Binders}
    {ctx : Context} {kinds : List Kind} {walk walk' : Walk} (stmt : Stmt) (hTree : stmt.Sensible)
    (hHosts : ∀ name, stmt.declared? = some name → R.Hosts (marksOf flags 0) name)
    (hFits : ∀ occurrence ∈ stmt.occurrences binders, R.Fits occurrence) :
    R.Goes table flags binders (stmt.binders binders) walk walk'
      ((stmt.map R.before k).resolve ctx walk) ((stmt.map R.after k).resolve ctx walk')
      ((stmt.map R.before k).sites ctx kinds walk)
      ((stmt.map R.before k).Guised (R.guise table) (marksOf flags) (stmt.map R.after k)) := by
  match stmt with
  | .expression expr => exact (expr.resolve_respelled hTree hFits).imp .expression
  | .print keyword value =>
    simp only [Stmt.occurrences, List.forall_mem_cons] at hFits
    exact (value.resolve_respelled hTree hFits.2).imp (.print (hFits.1.token table))
  | .letDecl name none =>
    simp only [Stmt.occurrences, List.forall_mem_singleton] at hFits
    have hBinds := hFits.binds (hHosts name rfl)
    exact (Respelling.Goes.settle hBinds).imp fun _ => .letBare (hBinds.guised table)
  | .letDecl name (some value) =>
    simp only [Stmt.occurrences, List.forall_mem_cons] at hFits
    have hBinds := hFits.1.binds (hHosts name rfl)
    refine ((Respelling.Goes.declare hBinds).after
      ((Respelling.Goes.given (Expr.resolve_records ..) fun hWalks _ => ?_).before
        (.define hBinds))).imp (.letValue (hBinds.guised table))
    rw [hWalks.initializer hBinds]
    exact value.resolve_respelled hTree.2 hFits.2
  | .functionDecl f =>
    rcases hTree with ⟨hNamed, hTree⟩
    have hName : f.name = some f.keyword := hNamed
    simp only [Stmt.occurrences, hName, Option.elim_some] at hFits
    have hKeyword := hFits _ (f.keyword_occurs _)
    have hHost := hHosts f.keyword hName
    have hLabel : (R.guise table).Keeps (marksOf flags) (f.map R.before k).label := by
      simp only [Function.label, Function.name_map, hName, Option.map_some]
      exact hHost.keeps hKeyword
    simp only [Stmt.map, Stmt.resolve, Stmt.sites, Stmt.binders, Stmt.declared?,
      Walk.declareFunction, Function.name_map, hName, Option.map_some, Option.elim_some]
    exact ((Respelling.Goes.settle (hKeyword.binds_other hHost)).after
      (f.resolve_respelled hTree (.inr hNamed) hFits)).imp (.functionDecl hLabel)
  | .classDecl name none methods =>
    simp only [Stmt.occurrences, List.forall_mem_cons] at hFits
    have hOther := hFits.1.declared.ne_of_use rfl
    have hHost := hHosts name rfl
    exact ((Respelling.Goes.settle (hFits.1.binds_other hHost)).after
      (.inScope (.word R.new_ne_this.symm hOther)
        (resolveMethods_respelled methods hTree.2 hFits.2) rfl)).imp
      (.rootClass (hFits.1.token table) (hHost.keeps hFits.1))
  | .classDecl name (some parent) methods =>
    cases parent with
    | name id parent =>
      simp only [Stmt.occurrences, Expr.occurrences,
        List.forall_mem_cons, List.forall_mem_append] at hFits
      rcases hFits with ⟨hName, ⟨hParent, _⟩, hFits⟩
      have hOther := hName.declared.ne_of_use rfl
      have hHost := hHosts name rfl
      refine ((Respelling.Goes.settle (hName.binds_other hHost)).after
        ((Respelling.Goes.checkSuperclass hName hParent).after
          ((Respelling.Goes.read hParent).trans
            (.inScope (.word R.new_ne_super.symm hOther)
              (.inScope (.word R.new_ne_this.symm hOther)
                (resolveMethods_respelled methods hTree.2.2 hFits) rfl) rfl)))).imp ?_
      exact fun ⟨hRefers, hRespelled⟩ =>
        .derivedClass (hName.token table) (hHost.keeps hName) (.name hRefers) hRespelled
    | _ => cases hTree.2.1.1
  | .block body =>
    refine .given (Stmt.resolve_records ..) fun _ hClean => ?_
    rcases Respelling.exists_scope [] binders hTree nofun hFits hClean with ⟨renamed, _, hHosts⟩
    exact (Respelling.Goes.inScope (.empty renamed)
      (resolveStmts_respelled body hTree hHosts hFits) (tail_stmtsBinders ..)).imp .block
  | .conditional condition thenBranch none =>
    simp only [Stmt.occurrences, List.forall_mem_append] at hFits
    refine ((condition.resolve_respelled hTree.1 hFits.1).trans
      (.branch hTree.2.2 fun hNone => thenBranch.resolve_respelled hTree.2.1 hNone hFits.2)).imp ?_
    exact fun ⟨hTest, hThen⟩ => .ifOnly hTest hThen
  | .conditional condition thenBranch (some elseBranch) =>
    simp only [Stmt.occurrences, List.forall_mem_append] at hFits
    rcases hTree with ⟨hTest, hThen, hElse⟩
    refine ((condition.resolve_respelled hTest hFits.1).trans
      (Respelling.Goes.trans
        (.branch hThen.2 fun hNone => thenBranch.resolve_respelled hThen.1 hNone hFits.2.1)
        (.branch hElse.2 fun hNone => elseBranch.resolve_respelled hElse.1 hNone hFits.2.2))).imp ?_
    exact fun ⟨hTest, hThen, hElse⟩ => .ifElse hTest hThen hElse
  | .whileLoop condition body =>
    simp only [Stmt.occurrences, List.forall_mem_append] at hFits
    refine ((condition.resolve_respelled hTree.1 hFits.1).trans
      (.branch hTree.2.2 fun hNone => body.resolve_respelled hTree.2.1 hNone hFits.2)).imp ?_
    exact fun ⟨hTest, hBody⟩ => .whileLoop hTest hBody
  | .breakLoop keyword
  | .returnValue keyword none =>
    simp only [Stmt.occurrences, List.forall_mem_singleton] at hFits
    simp only [Stmt.map, Stmt.resolve, hFits.after_other]
    exact .unlessFault (by constructor; rfl)
  | .returnValue keyword (some value) =>
    simp only [Stmt.occurrences, List.forall_mem_cons] at hFits
    simp only [Stmt.map, Stmt.resolve, hFits.1.after_other]
    exact (Respelling.Goes.unlessFault trivial).after
      ((value.resolve_respelled hTree hFits.2).imp (.returnValue rfl))

theorem Function.resolve_respelled {flags : List Bool} {binders : Binders}
    {ctx : Context} {kinds : List Kind} {walk walk' : Walk} (f : Function) (hTree : f.Sensible)
    (hName : f.name = none ∨ f.IsNamed)
    (hFits : ∀ occurrence ∈ f.occurrences binders, R.Fits occurrence) :
    R.Goes table flags binders binders walk walk' ((f.map R.before k).resolve ctx walk)
      ((f.map R.after k).resolve ctx walk') ((f.map R.before k).sites ctx kinds walk)
      ((f.map R.before k).Guised (R.guise table) (marksOf flags) (f.map R.after k)) := by
  match f with
  | .mk name keyword params body =>
    simp only [Function.occurrences, List.forall_mem_cons, List.forall_mem_append] at hFits
    rcases hFits with ⟨hKeyword, hParams, hFits⟩
    rw [List.forall_mem_map] at hParams
    refine .given (Function.resolve_records ..) fun _ hClean => ?_
    rcases Respelling.exists_scope params binders hTree.2 hParams hFits hClean with
      ⟨renamed, hBinds, hHosts⟩
    have hSameName : Option.Rel (R.guise table).token (name.map R.before) (name.map R.after) := by
      rcases hName with hNone | hNamed
      · have hName : name = none := hNone
        rw [hName]
        exact .none
      · have hName : name = some keyword := hNamed
        rw [hName]
        exact .some (hKeyword.token table)
    have hSameParams : List.Forall₂ ((R.guise table).name renamed)
          (params.map R.before) (params.map R.after) := by
      rw [List.forall₂_map_left_iff, List.forall₂_map_right_iff, List.forall₂_same]
      exact fun param hMem => (hBinds param hMem).guised table
    exact (Respelling.Goes.inScope (.empty renamed)
      ((Respelling.Goes.parameters hBinds).after
        (resolveStmts_respelled body hTree.2 hHosts hFits))
      ((tail_stmtsBinders ..).trans (tail_foldl_declare ..))).imp
      (.mk hSameName (hKeyword.token table) hSameParams)

theorem resolveExprs_respelled {flags : List Bool} {binders : Binders}
    {ctx : Context} {kinds : List Kind} {walk walk' : Walk} (exprs : List Expr)
    (hTree : exprsSensible exprs)
    (hFits : ∀ occurrence ∈ exprsOccurrences binders exprs, R.Fits occurrence) :
    R.Goes table flags binders binders walk walk'
      (resolveExprs ctx (exprsMap R.before k exprs) walk)
      (resolveExprs ctx (exprsMap R.after k exprs) walk')
      (exprsSites ctx kinds (exprsMap R.before k exprs) walk)
      (exprsGuised (R.guise table) (marksOf flags)
        (exprsMap R.before k exprs) (exprsMap R.after k exprs)) := by
  match exprs with
  | [] => exact .here .nil
  | first :: others =>
    simp only [exprsOccurrences, List.forall_mem_append] at hFits
    exact ((first.resolve_respelled hTree.1 hFits.1).trans
      (resolveExprs_respelled others hTree.2 hFits.2)).imp fun ⟨hFirst, hOthers⟩ =>
        .cons hFirst hOthers

theorem resolveStmts_respelled {flags : List Bool} {binders : Binders}
    {ctx : Context} {kinds : List Kind} {walk walk' : Walk} (stmts : List Stmt)
    (hTree : stmtsSensible stmts)
    (hHosts : ∀ name ∈ stmtsDeclared stmts, R.Hosts (marksOf flags 0) name)
    (hFits : ∀ occurrence ∈ stmtsOccurrences binders stmts, R.Fits occurrence) :
    R.Goes table flags binders (stmtsBinders stmts binders) walk walk'
      (resolveStmts ctx (stmtsMap R.before k stmts) walk)
      (resolveStmts ctx (stmtsMap R.after k stmts) walk')
      (stmtsSites ctx kinds (stmtsMap R.before k stmts) walk)
      (stmtsGuised (R.guise table) (marksOf flags)
        (stmtsMap R.before k stmts) (stmtsMap R.after k stmts)) := by
  match stmts with
  | [] => exact .here .nil
  | first :: others =>
    simp only [stmtsOccurrences, List.forall_mem_append] at hFits
    have hHost : ∀ name, first.declared? = some name → R.Hosts (marksOf flags 0) name :=
      fun name hName => hHosts name (List.mem_filterMap.mpr ⟨first, List.mem_cons_self .., hName⟩)
    have hOthers : ∀ name ∈ stmtsDeclared others, R.Hosts (marksOf flags 0) name := by
      intro name hMem
      rcases List.mem_filterMap.mp hMem with ⟨stmt, hStmt, hName⟩
      exact hHosts name (List.mem_filterMap.mpr ⟨stmt, List.mem_cons_of_mem _ hStmt, hName⟩)
    exact ((first.resolve_respelled hTree.1 hHost hFits.1).trans
      (resolveStmts_respelled others hTree.2 hOthers hFits.2)).imp fun ⟨hFirst, hOthers⟩ =>
        .cons hFirst hOthers

theorem resolveMethods_respelled {flags : List Bool} {binders : Binders}
    {ctx : Context} {kinds : List Kind} {walk walk' : Walk} (methods : List Function)
    (hTree : functionsSensible methods)
    (hFits : ∀ occurrence ∈ methodsOccurrences binders methods, R.Fits occurrence) :
    R.Goes table flags binders binders walk walk'
      (resolveMethods ctx (functionsMap R.before k methods) walk)
      (resolveMethods ctx (functionsMap R.after k methods) walk')
      (methodsSites ctx kinds (functionsMap R.before k methods) walk)
      (methodsGuised (R.guise table) (marksOf flags)
        (functionsMap R.before k methods) (functionsMap R.after k methods)) := by
  match methods with
  | [] => exact .here .nil
  | first :: others =>
    simp only [methodsOccurrences, List.forall_mem_append] at hFits
    exact ((first.resolve_respelled hTree.1.2 (.inr hTree.1.1) hFits.1).trans
      (resolveMethods_respelled others hTree.2 hFits.2)).imp fun ⟨hFirst, hOthers⟩ =>
        .cons hFirst hOthers

end

end

/-
  A program without faults is respelled without faults and
  with the same distances.
-/
theorem Scope.resolveProgram_respelled {R : Respelling} {table : Distances}
    {k : Nat} {body : List Stmt} (hTree : stmtsSensible body)
    (hFaults : (resolveProgram (stmtsMap R.before k body)).faults = [])
    (hSites : ∀ site ∈ programSites (stmtsMap R.before k body), table.Has site)
    (hFits : ∀ occurrence ∈ stmtsOccurrences [] body, R.Fits occurrence) :
    stmtsGuised (R.guise table) (marksOf []) (stmtsMap R.before k body) (stmtsMap R.after k body) ∧
      (resolveProgram (stmtsMap R.after k body)).found =
          (resolveProgram (stmtsMap R.before k body)).found ∧
        (resolveProgram (stmtsMap R.after k body)).faults = [] := by
  have hHosts : ∀ name ∈ stmtsDeclared body, R.Hosts false name := by
    intro name hMem
    rcases stmtsDeclared_occurs hTree hMem [] with ⟨occurrence, hOccurs, rfl, hUse⟩
    have hOther := (hFits occurrence hOccurs).declared.ne_of_use (hUse rfl)
    rw [Respelling.Hosts, Respelling.respell, if_neg (by simpa using hOther)]
    rfl
  have hStart : R.Aligned [] [] {} {} := ⟨.nil, rfl, rfl⟩
  rcases (resolveStmts_respelled body hTree hHosts hFits).aligned hStart ⟨hFaults, hSites⟩ with
    ⟨hRespelled, hWalks⟩
  exact ⟨hRespelled, hWalks.found, hWalks.faults.trans hFaults⟩

end Scriptlet
