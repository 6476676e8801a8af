import Scriptlet.Proofs.Eval.Guise

/-
  Running code in a guise, in worlds in that guise.

  Key declarations include:
    * `Eval.MirrorsAll`
    * `Eval.mirrorsAll`
    * `Eval.interpret_guised`
    * `Eval.World.Alike`

  The evaluator compares names and follows positions in the
  heap.  Numbers of nodes only serve to look up distances,
  and places of tokens only appear in faults.  A variable is
  declared in the innermost frame and found at its distance,
  so it does not matter how it is spelled there.
-/

namespace Scriptlet

namespace Eval

variable {Mark : Type} {g : Guise Mark} {s : Marking Mark} {marks : Nat → Mark} {ctx ctx' : Context}
variable {name name' keyword keyword' : Token}

variable {f f' : Function}

theorem makeFunction_mirrors (hCtx : ctx.Guised g s marks ctx')
    (hFunction : f.Guised g marks f') :
    Mirrors g s Same (makeFunction ctx f) (makeFunction ctx' f') := by
  have hClosure : Closure.Guised g s ⟨f, ctx.frame, false⟩ ⟨f', ctx'.frame, false⟩ :=
    ⟨hCtx.frame, rfl, marks, hCtx.marks, hFunction⟩
  apply Mirrors.bindSame
  · exact .create fun hHeap => hHeap.addFunction hClosure
  · intro next id _
    exact .pure rfl

theorem arity?_guised {heap' : Heap} (hHeap : s.Guised g heap')
    (callee : Value) : arity? heap' callee = arity? s.heap callee := by
  unfold arity?
  split
  · rename_i id
    have hFunction := hHeap.functions_get? id
    generalize s.heap.functions[id]? = found, heap'.functions[id]? = found' at hFunction
    cases hFunction with
    | none => rfl
    | some hClosure =>
      rcases hClosure.function with ⟨_, _, hFunction⟩
      simp only [Option.map_some, hFunction.arity]
  · rfl
  · simp only [hHeap.classArity]
  · rfl

theorem checkCall_mirrors {paren paren' : Token} (hParen : g.token paren paren')
    (callee : Value) (given : Nat) :
    Mirrors g s Same (checkCall callee paren given) (checkCall callee paren' given) := by
  apply Mirrors.bindSame
  · exact .inspect fun hHeap => arity?_guised hHeap callee
  intro next expected? _
  cases expected? with
  | none => exact .failAt hParen _
  | some expected =>
    dsimp only
    split
    · exact .pure rfl
    · exact .failAt hParen _

/- Parameters are bound as they are spelled. -/
theorem parameters_guised {mark : Mark}
    (hParams : List.Forall₂ (g.name mark) f.params f'.params) (arguments : List Value) :
    parameters f' arguments = (parameters f arguments).respell (g.spell mark) := by
  have hPairs : (f'.params.map Token.lexeme).zip arguments = Bindings.respell (g.spell mark)
          ((f.params.map Token.lexeme).zip arguments) := by
    generalize f.params = params, f'.params = params' at hParams
    induction hParams generalizing arguments with
    | nil => rfl
    | cons hParam _ ih =>
      cases arguments with
      | nil => rfl
      | cons value values =>
        simp only [List.map_cons, List.zip_cons_cons, ih, Bindings.respell, g.spelled_eq hParam]
  unfold parameters
  rw [hPairs, Bindings.ofPairs_respell]

theorem result_mirrors {closure closure' : Closure}
    (hClosure : Closure.Guised g s closure closure') (flow : Flow) :
    Mirrors g s Same (result closure flow) (result closure' flow) := by
  rcases hClosure.function with ⟨marks, hMarks, hFunction⟩
  unfold result
  rw [hClosure.isInitializer, hClosure.frame]
  split
  · apply Mirrors.require (.atToken _ hFunction.keyword)
    intro heap' hHeap
    have hSelf := hHeap.getAt? hMarks 0 selfName
    rw [selfName, g.spell_this] at hSelf
    exact rel_same hSelf
  · cases flow with
    | returned value => exact .pure rfl
    | _ => exact .pure rfl

theorem superMethod_mirrors (hCtx : ctx.Guised g s marks ctx') {id id' : Nat}
    (hKeyword : g.Refers marks id id' keyword keyword') (hName : g.token name name') :
    Mirrors g s Same (superMethod ctx id keyword name) (superMethod ctx' id' keyword' name') := by
  have hSpelled := hCtx.spelled hKeyword
  have hFail : ∀ cause, Fault.Guised g (.atToken keyword cause)
        (.atToken keyword' cause) := fun cause => .atName cause hKeyword.name
  unfold superMethod
  rw [hCtx.distance hKeyword.node, hCtx.frame, g.lexeme_eq hName]
  unfold Scope.Distances.mark at hSpelled
  cases hDistance : ctx.distances[id]? with
  | none => exact .fail (hFail _)
  | some distance =>
    rw [hDistance] at hSpelled
    apply Mirrors.andThen hCtx
    · apply Mirrors.require (.undefined hKeyword.name)
      intro heap' hHeap
      rw [hSpelled]
      exact rel_same (hHeap.getAt? hCtx.marks _ _)
    intro next parent hCtx
    cases parent with
    | blueprint classId =>
      apply Mirrors.andThen hCtx
      · apply Mirrors.require (hFail _)
        intro heap' hHeap
        have hSelf := hHeap.getAt? hCtx.marks (distance - 1) selfName
        rw [selfName, g.spell_this] at hSelf
        exact rel_same hSelf
      intro next self hCtx
      cases self with
      | object object =>
        apply Mirrors.bind (R := MethodGuised g)
        · exact .require (.atToken _ hName) fun hHeap => hHeap.findMethod? _ _
        intro next method method' _ hMethod
        exact bound_mirrors hMethod object
      | _ => exact .fail (hFail _)
    | _ => exact .fail (hFail _)

/- A fault of a superclass is at its name if it has one. -/
theorem asSuperclass_mirrors (hName : g.token name name') {expr expr' : Expr}
    (hExpr : expr.Guised g marks expr') (value : Value) :
    Mirrors g s Same (asSuperclass name expr value) (asSuperclass name' expr' value) := by
  have hFault : Fault.Guised g (.atToken (superclassToken name expr) .superclass)
        (.atToken (superclassToken name' expr') .superclass) := by
    cases hExpr with
    | name hParent => exact .atName _ hParent.name
    | _ => exact .atToken _ hName
  cases value with
  | blueprint id => exact .pure rfl
  | _ => exact .fail hFault

/- The scopes around the methods of a class. -/
def classMarks (plain : Mark) (marks : Nat → Mark) : Option ClassId → Nat → Mark
  | some _ => pushMark plain marks
  | none => marks

theorem classFrame_mirrors (hCtx : ctx.Guised g s marks ctx') (superclass : Option ClassId) :
    Mirrors g s
      (fun next frame frame' =>
        frame' = frame ∧ next.Marks (classMarks g.plain marks superclass) frame)
      (classFrame ctx superclass)
      (classFrame ctx' superclass) := by
  unfold classFrame
  rw [hCtx.frame]
  cases superclass with
  | none => exact .pure ⟨rfl, hCtx.marks⟩
  | some id =>
    apply Mirrors.allocate
    intro heap' hHeap
    have hFrame := hHeap.addFrame hCtx.marks g.plain [(superName, .blueprint id)]
    simp only [Bindings.respell, List.map_cons, List.map_nil, g.spell_plain] at hFrame
    rcases hFrame with ⟨hFrame, hLeads, hNext, hMarks⟩
    exact ⟨_, hLeads, hNext, hFrame, hMarks⟩

variable {frame : FrameId} {methods methods' : List Function}

theorem methodTable_guised (hMarks : s.Marks marks frame)
    (hMethods : methodsGuised g (pushMark g.plain marks) methods methods') :
    MethodsGuised g s (methodTable frame methods) (methodTable frame methods') := by
  let R := fun (pair pair' : String × Closure) => pair'.1 = pair.1 ∧ MethodGuised g s pair.2 pair'.2
  have hPairs : List.Forall₂ R
        (methods.map fun f => (f.label, ⟨f, frame, f.label = Heap.initializerName⟩))
        (methods'.map fun f =>
          (f.label, ⟨f, frame, f.label = Heap.initializerName⟩)) := by
    induction methods generalizing methods' with
    | nil =>
      cases hMethods
      exact .nil
    | cons first others ih =>
      cases hMethods with
      | cons hFirst hOthers =>
        simp only [List.map_cons, hFirst.label]
        exact .cons ⟨rfl, rfl, rfl, marks, hMarks, hFirst⟩ (ih hOthers)
  apply List.rel_foldl (P := MethodsGuised g s) (R := R)
  · intro table table' hTable pair pair' hPair
    simp only [hPair.1]
    exact hTable.insert _ hPair.2
  · exact fun _ => .none
  · exact hPairs

/- A name that the current frame binds is found there. -/
theorem holder?_of_bound {heap : Heap} {name : String}
    (h : (heap.local? frame name).isSome = true) : heap.holder? frame name = some frame := by
  rw [Heap.holder?]
  cases hLocal : heap.local? frame name with
  | some value => rfl
  | none =>
    rw [hLocal] at h
    cases h

theorem makeClass_mirrors (hCtx : ctx.Guised g s marks ctx')
    (hName : g.token name name') (hKeeps : g.Keeps marks name.lexeme)
    (superclass : Option ClassId)
    (hMethods : methodsGuised g (pushMark g.plain (classMarks g.plain marks superclass)) methods
        methods') : Mirrors g s Same (makeClass ctx name superclass methods)
      (makeClass ctx' name' superclass methods') := by
  have hLexeme := g.lexeme_eq hName
  unfold makeClass
  rw [hLexeme]
  apply Mirrors.bind (declare_mirrors hCtx hKeeps.symm .nil)
  intro s₁ _ _ hLeads₁ hBound₁
  have hCtx₁ := hCtx.later hLeads₁
  apply Mirrors.bind (classFrame_mirrors hCtx₁ superclass)
  rintro s₂ _ frame hLeads₂ ⟨rfl, hMarks⟩
  have hCtx₂ := hCtx₁.later hLeads₂
  have hBlueprint : Blueprint.Guised g s₂ ⟨name.lexeme, superclass, methodTable frame methods⟩
        ⟨name.lexeme, superclass, methodTable frame methods'⟩ :=
    ⟨rfl, rfl, methodTable_guised hMarks hMethods⟩
  apply Mirrors.bindSame
  · exact .create fun hHeap => hHeap.addClass hBlueprint
  intro s₃ id hLeads₃
  have hCtx₃ := hCtx₂.later hLeads₃
  have hBound : (s₃.heap.local? ctx.frame name.lexeme).isSome = true :=
    hLeads₃.heap.bound (hLeads₂.heap.bound hBound₁)
  have hSpelled : g.spell (s₃.mark ctx.frame) name.lexeme = name.lexeme := by
    rw [hCtx₃.marks.head]
    exact hKeeps
  have hFault : Fault.Guised g (.atToken name (.undefinedVariable name.lexeme))
        (.atToken name' (.undefinedVariable name'.lexeme)) := by
    rw [hLexeme]
    exact .atToken _ hName
  apply assign_mirrors (hLexeme.trans hSpelled.symm) hFault
  · intro heap' hHeap
    have hLocal := hHeap.local? ctx.frame name.lexeme
    rw [hSpelled] at hLocal
    rw [hCtx.frame, holder?_of_bound hBound, holder?_of_bound]
    rw [hLocal]
    exact hBound
  · intro frame hFound
    rw [holder?_of_bound hBound] at hFound
    cases hFound
    rfl

theorem decides_guised (hOperator : g.token name name') (left : Value) :
    decides name' left = decides name left := by
  unfold decides
  rw [g.kind_eq hOperator]

------------------------------------------------------------
-- Evaluation
------------------------------------------------------------

section

variable (g : Guise Mark) (fuel : Nat)

/- What is run mirrors what stands for it. -/
def EvaluateMirrors : Prop :=
  ∀ {s marks ctx ctx'} {expr expr' : Expr}, Context.Guised g s marks ctx ctx' →
    expr.Guised g marks expr' → Mirrors g s Same (evaluate fuel ctx expr) (evaluate fuel ctx' expr')

def EvaluateAllMirrors : Prop :=
  ∀ {s marks ctx ctx'} {exprs exprs' : List Expr},
    Context.Guised g s marks ctx ctx' → exprsGuised g marks exprs exprs' →
    Mirrors g s Same (evaluateAll fuel ctx exprs) (evaluateAll fuel ctx' exprs')

def EvaluatePlaceMirrors : Prop :=
  ∀ {s marks ctx ctx'} {target target' : Expr} {operator operator' : Token},
    Context.Guised g s marks ctx ctx' → target.Guised g marks target' →
    g.token operator operator' → Mirrors g s (fun _ => Place.Guised g marks)
      (evaluatePlace fuel ctx target operator) (evaluatePlace fuel ctx' target' operator')

def ApplyMirrors : Prop :=
  ∀ {s marks ctx ctx'} {paren paren' : Token} (callee : Value) (arguments : List Value),
    Context.Guised g s marks ctx ctx' → g.token paren paren' → Mirrors g s Same
      (Eval.apply fuel ctx callee paren arguments) (Eval.apply fuel ctx' callee paren' arguments)

def InvokeMirrors : Prop :=
  ∀ {s marks ctx ctx'} {closure closure' : Closure} {paren paren' : Token} (arguments : List Value),
    Context.Guised g s marks ctx ctx' → Closure.Guised g s closure closure' → g.token paren paren' →
    Mirrors g s Same (invoke fuel ctx closure paren arguments)
      (invoke fuel ctx' closure' paren' arguments)

def ExecuteMirrors : Prop :=
  ∀ {s marks ctx ctx'} {stmt stmt' : Stmt}, Context.Guised g s marks ctx ctx' →
    stmt.Guised g marks stmt' → Mirrors g s Same (execute fuel ctx stmt) (execute fuel ctx' stmt')

def ExecuteAllMirrors : Prop :=
  ∀ {s marks ctx ctx'} {stmts stmts' : List Stmt},
    Context.Guised g s marks ctx ctx' → stmtsGuised g marks stmts stmts' →
    Mirrors g s Same (executeAll fuel ctx stmts) (executeAll fuel ctx' stmts')

structure MirrorsAll : Prop where
  evaluate : EvaluateMirrors g fuel
  evaluateAll : EvaluateAllMirrors g fuel
  evaluatePlace : EvaluatePlaceMirrors g fuel
  apply : ApplyMirrors g fuel
  invoke : InvokeMirrors g fuel
  execute : ExecuteMirrors g fuel
  executeAll : ExecuteAllMirrors g fuel

end

section Step

variable {fuel : Nat} (ih : MirrorsAll g fuel)
include ih

theorem evaluate_mirrors : EvaluateMirrors g (fuel + 1) := by
  intro s marks ctx ctx' expr expr' hCtx hExpr
  cases hExpr with
  | literal value => exact .pure rfl
  | name hName
  | self hName => exact readVariable_mirrors hCtx hName
  | assign hName hValue =>
    apply Mirrors.andThen hCtx (ih.evaluate hCtx hValue)
    intro next value hCtx
    apply Mirrors.andThen hCtx (writeVariable_mirrors hCtx hName value)
    exact fun _ _ => .pure rfl
  | compound hTarget hOperator hValue =>
    apply Mirrors.bind (ih.evaluatePlace hCtx hTarget hOperator)
    intro next place place' hLeads hPlace
    replace hCtx := hCtx.later hLeads
    apply Mirrors.andThen hCtx (Place.read_mirrors hCtx hPlace)
    intro next old hCtx
    apply Mirrors.andThen hCtx (ih.evaluate hCtx hValue)
    intro next operand hCtx
    rw [g.kind_eq hOperator]
    apply Mirrors.andThen hCtx (operate_mirrors hOperator _ old operand)
    intro next new hCtx
    apply Mirrors.andThen hCtx (Place.write_mirrors hCtx hPlace new)
    exact fun _ _ => .pure rfl
  | increment before hTarget hOperator =>
    apply Mirrors.bind (ih.evaluatePlace hCtx hTarget hOperator)
    intro next place place' hLeads hPlace
    replace hCtx := hCtx.later hLeads
    apply Mirrors.andThen hCtx (Place.read_mirrors hCtx hPlace)
    intro next old hCtx
    rw [g.lexeme_eq hOperator]
    cases old with
    | number old =>
      simp only [stepSize, g.kind_eq hOperator]
      apply Mirrors.andThen hCtx (Place.write_mirrors hCtx hPlace _)
      exact fun _ _ => .pure rfl
    | _ => exact .failAt hOperator _
  | unary hOperator hOperand =>
    apply Mirrors.andThen hCtx (ih.evaluate hCtx hOperand)
    intro next operand _
    exact negate_mirrors hOperator operand
  | binary hLeft hOperator hRight =>
    apply Mirrors.andThen hCtx (ih.evaluate hCtx hLeft)
    intro next left hCtx
    apply Mirrors.andThen hCtx (ih.evaluate hCtx hRight)
    intro next right _
    rw [g.kind_eq hOperator]
    exact operate_mirrors hOperator _ left right
  | logical hLeft hOperator hRight =>
    apply Mirrors.andThen hCtx (ih.evaluate hCtx hLeft)
    intro next left hCtx
    rw [decides_guised hOperator]
    split
    · exact .pure rfl
    · exact ih.evaluate hCtx hRight
  | call hCallee hParen hArguments =>
    apply Mirrors.andThen hCtx (ih.evaluate hCtx hCallee)
    intro next callee hCtx
    apply Mirrors.andThen hCtx (ih.evaluateAll hCtx hArguments)
    intro next arguments hCtx
    exact ih.apply callee arguments hCtx hParen
  | get hObject hName =>
    apply Mirrors.andThen hCtx (ih.evaluate hCtx hObject)
    intro next object _
    exact getProperty_mirrors hName object
  | set hObject hName hValue =>
    apply Mirrors.andThen hCtx (ih.evaluate hCtx hObject)
    intro next object hCtx
    apply Mirrors.andThen hCtx (ih.evaluate hCtx hValue)
    intro next value hCtx
    apply Mirrors.andThen hCtx (setProperty_mirrors hName object value)
    exact fun _ _ => .pure rfl
  | index hObject hBracket hPosition =>
    apply Mirrors.andThen hCtx (ih.evaluate hCtx hObject)
    intro next object hCtx
    apply Mirrors.andThen hCtx (ih.evaluate hCtx hPosition)
    intro next index _
    exact getElement_mirrors hBracket object index
  | indexSet hObject hBracket hPosition hValue =>
    apply Mirrors.andThen hCtx (ih.evaluate hCtx hObject)
    intro next object hCtx
    apply Mirrors.andThen hCtx (ih.evaluate hCtx hPosition)
    intro next index hCtx
    apply Mirrors.andThen hCtx (ih.evaluate hCtx hValue)
    intro next value hCtx
    apply Mirrors.andThen hCtx (setElement_mirrors hBracket object index value)
    exact fun _ _ => .pure rfl
  | superMethod hKeyword hMethod => exact superMethod_mirrors hCtx hKeyword hMethod
  | function hFunction => exact makeFunction_mirrors hCtx hFunction
  | group hInner => exact ih.evaluate hCtx hInner
  | array _ hElements =>
    apply Mirrors.andThen hCtx (ih.evaluateAll hCtx hElements)
    intro next items hCtx
    apply Mirrors.andThen hCtx
    · exact .create fun hHeap => hHeap.addArray _
    exact fun _ _ => .pure rfl

theorem evaluateAll_mirrors : EvaluateAllMirrors g (fuel + 1) := by
  intro s marks ctx ctx' exprs exprs' hCtx hExprs
  cases hExprs with
  | nil => exact .pure rfl
  | cons hFirst hOthers =>
    apply Mirrors.andThen hCtx (ih.evaluate hCtx hFirst)
    intro next value hCtx
    apply Mirrors.andThen hCtx (ih.evaluateAll hCtx hOthers)
    exact fun _ _ => .pure rfl

theorem evaluatePlace_mirrors : EvaluatePlaceMirrors g (fuel + 1) := by
  intro s marks ctx ctx' target target' operator operator' hCtx hTarget hOperator
  cases hTarget with
  | name hName => exact .pure (.named hName)
  | get hObject hName =>
    apply Mirrors.andThen hCtx (ih.evaluate hCtx hObject)
    intro next object _
    exact .pure (.property object hName)
  | index hObject hBracket hPosition =>
    apply Mirrors.andThen hCtx (ih.evaluate hCtx hObject)
    intro next object hCtx
    apply Mirrors.andThen hCtx (ih.evaluate hCtx hPosition)
    intro next index _
    exact .pure (.element object index hBracket)
  | _ => exact .failAt hOperator _

theorem apply_mirrors : ApplyMirrors g (fuel + 1) := by
  intro s marks ctx ctx' paren paren' callee arguments hCtx hParen
  apply Mirrors.andThen hCtx (checkCall_mirrors hParen callee _)
  intro next _ hCtx
  cases callee with
  | native native => exact callNative_mirrors hParen native arguments
  | function id =>
    apply Mirrors.bind (R := fun next => Option.Rel (Closure.Guised g next))
    · exact .inspect fun hHeap => hHeap.functions_get? id
    intro next found found' hLeads hFound
    replace hCtx := hCtx.later hLeads
    cases hFound with
    | some hClosure => exact ih.invoke arguments hCtx hClosure hParen
    | none => exact .failAt hParen _
  | blueprint id =>
    apply Mirrors.andThen hCtx
    · exact .create fun hHeap => hHeap.addObject id
    intro next object hCtx
    apply Mirrors.bind (R := fun next => Option.Rel (MethodGuised g next))
    · exact .inspect fun hHeap => hHeap.findMethod? id _
    intro next found found' hLeads hFound
    replace hCtx := hCtx.later hLeads
    cases hFound with
    | some hMethod =>
      apply Mirrors.bind (bindMethod_mirrors hMethod object)
      intro next closure closure' hLeads hClosure
      replace hCtx := hCtx.later hLeads
      apply Mirrors.andThen hCtx (ih.invoke arguments hCtx hClosure hParen)
      exact fun _ _ => .pure rfl
    | none => exact .pure rfl
  | _ => exact .failAt hParen _

theorem invoke_mirrors : InvokeMirrors g (fuel + 1) := by
  intro s marks ctx ctx' closure closure' paren paren' arguments hCtx hClosure hParen
  simp only [invoke]
  rw [hCtx.depth]
  split
  · exact .failAt hParen _
  rcases hClosure.function with ⟨outer, hMarks, hFunction⟩
  rcases hFunction.scope with ⟨mark, hParams, hBody⟩
  rw [parameters_guised hParams, hClosure.frame]
  apply Mirrors.bind
    (R := fun next frame frame' => frame' = frame ∧ next.Marks (pushMark mark outer) frame)
  · apply Mirrors.allocate
    intro heap' hHeap
    rcases hHeap.addFrame hMarks mark (parameters closure.function arguments) with
      ⟨hFrame, hLeads, hNext, hInside⟩
    exact ⟨_, hLeads, hNext, hFrame, hInside⟩
  rintro next _ frame hLeads ⟨rfl, hInside⟩
  replace hCtx := hCtx.later hLeads
  apply Mirrors.bindSame
  · exact ih.executeAll (hCtx.inside hInside _) hBody
  intro last flow hLater
  exact result_mirrors (hClosure.later (hLeads.trans hLater)) flow

theorem execute_mirrors : ExecuteMirrors g (fuel + 1) := by
  intro s marks ctx ctx' stmt stmt' hCtx hStmt
  cases hStmt with
  | expression hExpr =>
    apply Mirrors.andThen hCtx (ih.evaluate hCtx hExpr)
    exact fun _ _ => .pure rfl
  | print hKeyword hValue =>
    apply Mirrors.andThen hCtx (ih.evaluate hCtx hValue)
    intro next value hCtx
    apply Mirrors.andThen hCtx (printValue_mirrors hKeyword value)
    exact fun _ _ => .pure rfl
  | letBare hName =>
    apply Mirrors.bind (declare_mirrors hCtx (g.spelled_eq hName) .nil)
    exact fun _ _ => .pure rfl
  | letValue hName hValue =>
    apply Mirrors.andThen hCtx (ih.evaluate hCtx hValue)
    intro next value hCtx
    apply Mirrors.bind (declare_mirrors hCtx (g.spelled_eq hName) value)
    exact fun _ _ => .pure rfl
  | functionDecl hKeeps hFunction =>
    simp only [execute, hFunction.label]
    apply Mirrors.andThen hCtx (makeFunction_mirrors hCtx hFunction)
    intro next value hCtx
    apply Mirrors.bind (declare_mirrors hCtx hKeeps.symm value)
    exact fun _ _ => .pure rfl
  | rootClass hName hKeeps hMethods =>
    apply Mirrors.andThen hCtx (makeClass_mirrors hCtx hName hKeeps none hMethods)
    exact fun _ _ => .pure rfl
  | derivedClass hName hKeeps hParent hMethods =>
    apply Mirrors.andThen hCtx (ih.evaluate hCtx hParent)
    intro next value hCtx
    apply Mirrors.andThen hCtx (asSuperclass_mirrors hName hParent value)
    intro next classId hCtx
    apply Mirrors.andThen hCtx (makeClass_mirrors hCtx hName hKeeps (some classId) hMethods)
    exact fun _ _ => .pure rfl
  | @block _ mark _ _ hBody =>
    simp only [execute]
    rw [hCtx.frame]
    apply Mirrors.bind
      (R := fun next frame frame' => frame' = frame ∧ next.Marks (pushMark mark marks) frame)
    · apply Mirrors.allocate
      intro heap' hHeap
      rcases hHeap.addFrame hCtx.marks mark [] with ⟨hFrame, hLeads, hNext, hInside⟩
      exact ⟨_, hLeads, hNext, hFrame, hInside⟩
    rintro next _ frame hLeads ⟨rfl, hInside⟩
    rw [← hCtx.depth]
    exact ih.executeAll ((hCtx.later hLeads).inside hInside _) hBody
  | ifOnly hCondition hThen =>
    apply Mirrors.andThen hCtx (ih.evaluate hCtx hCondition)
    intro next condition hCtx
    split
    · exact ih.execute hCtx hThen
    · exact .pure rfl
  | ifElse hCondition hThen hElse =>
    apply Mirrors.andThen hCtx (ih.evaluate hCtx hCondition)
    intro next condition hCtx
    split
    · exact ih.execute hCtx hThen
    · exact ih.execute hCtx hElse
  | whileLoop hCondition hBody =>
    apply Mirrors.andThen hCtx (ih.evaluate hCtx hCondition)
    intro next condition hCtx
    split
    · apply Mirrors.andThen hCtx (ih.execute hCtx hBody)
      intro next flow hCtx
      cases flow with
      | normal => exact ih.execute hCtx (.whileLoop hCondition hBody)
      | broke => exact .pure rfl
      | returned value => exact .pure rfl
    · exact .pure rfl
  | breakLoop
  | returnBare =>
    exact .pure rfl
  | returnValue _ hValue =>
    apply Mirrors.andThen hCtx (ih.evaluate hCtx hValue)
    exact fun _ _ => .pure rfl

theorem executeAll_mirrors : ExecuteAllMirrors g (fuel + 1) := by
  intro s marks ctx ctx' stmts stmts' hCtx hStmts
  cases hStmts with
  | nil => exact .pure rfl
  | cons hFirst hOthers =>
    apply Mirrors.andThen hCtx (ih.execute hCtx hFirst)
    intro next flow hCtx
    cases flow with
    | normal => exact ih.executeAll hCtx hOthers
    | broke => exact .pure rfl
    | returned value => exact .pure rfl

end Step

/- Code in a guise runs the same, whatever the fuel. -/
theorem mirrorsAll (g : Guise Mark) (fuel : Nat) : MirrorsAll g fuel := by
  induction fuel with
  | zero => constructor <;> intro s <;> intros <;> exact .exhausted
  | succ fuel ih =>
    exact {
      evaluate := evaluate_mirrors ih
      evaluateAll := evaluateAll_mirrors ih
      evaluatePlace := evaluatePlace_mirrors ih
      apply := apply_mirrors ih
      invoke := invoke_mirrors ih
      execute := execute_mirrors ih
      executeAll := executeAll_mirrors ih }

/- Both end, with related results, or both are broken off. -/
inductive Agree {α α' : Type} (R : α → α' → Prop) : Except Stop α → Except Stop α' → Prop where
  | ok {value value'} : R value value' → Agree R (.ok value) (.ok value')
  | error (reason) : Agree R (.error reason) (.error reason)

variable {α α' : Type} {R : α → α' → Prop} {result : Except Stop α}
variable {result' : Except Stop α'}

theorem Agree.ends (h : Agree R result result') :
    (∃ value value', result = .ok value ∧ result' = .ok value' ∧ R value value') ∨
    ∃ reason, result = .error reason ∧ result' = .error reason := by
  cases h with
  | ok hValue => exact .inl ⟨_, _, rfl, rfl, hValue⟩
  | error reason => exact .inr ⟨reason, rfl, rfl⟩

theorem Agree.mono {S : α → α' → Prop} (h : Agree R result result')
    (hImp : ∀ {value value'}, R value value' → S value value') : Agree S result result' := by
  cases h with
  | ok hValue => exact .ok (hImp hValue)
  | error reason => exact .error reason

/-
  Programs in a guise run the same, and report faults in the
  same order.
-/
theorem interpret_guised {Q : Report → Report → Prop}
    (hAdd : ∀ {report report' fault fault'}, Q report report' → Fault.Guised g fault fault' →
        Q (report.add fault.diagnostic) (report'.add fault'.diagnostic))
    (fuel : Nat) (policy : Policy) (hCtx : ctx.Guised g s marks ctx')
    {stmts stmts' : List Stmt} (hStmts : stmtsGuised g marks stmts stmts')
    {w w' : World} (hWorld : World.Guised g s w w') {report report' : Report}
    (hReport : Q report report') :
    Agree
      (fun result result' =>
        (∃ next, s.Leads next ∧ World.Guised g next result.1 result'.1) ∧ Q result.2 result'.2)
      (interpret fuel policy ctx stmts w report)
      (interpret fuel policy ctx' stmts' w' report') := by
  induction stmts generalizing s stmts' w w' report report' with
  | nil =>
    cases hStmts
    exact .ok ⟨⟨s, .refl s, hWorld⟩, hReport⟩
  | cons first others ih =>
    cases hStmts with
    | @cons _ _ first' _ _ hFirst hOthers =>
      have hOutcome := ((mirrorsAll g fuel).execute hCtx hFirst).outcome hWorld
      -- what is reached later is reached from here
      have hFrom {next : Marking Mark} (hLeads : s.Leads next) {result result' : World × Report}
          (hResult : (∃ last, next.Leads last ∧ World.Guised g last result.1 result'.1) ∧
              Q result.2 result'.2) :
          (∃ last, s.Leads last ∧ World.Guised g last result.1 result'.1) ∧ Q result.2 result'.2 :=
        hResult.imp_left fun ⟨last, hLast, hEnd⟩ => ⟨last, hLeads.trans hLast, hEnd⟩
      unfold interpret
      generalize execute fuel ctx first w = outcome,
        execute fuel ctx' first' w' = outcome' at hOutcome
      cases hOutcome with
      | done hLeads hWorld' _ =>
        exact (ih (hCtx.later hLeads) hOthers hWorld' hReport).mono (hFrom hLeads)
      | failed hLeads hWorld' hFault =>
        cases policy with
        | halt => exact .ok ⟨⟨_, hLeads, hWorld'⟩, hAdd hReport hFault⟩
        | proceed =>
          exact (ih (hCtx.later hLeads) hOthers hWorld' (hAdd hReport hFault)).mono (hFrom hLeads)
      | stopped reason => exact .error reason

/- If runs go on after faults, parts run in order. -/
theorem interpret_append (fuel : Nat) (ctx : Context) (body others : List Stmt)
    (w : World) (report : Report) :
    interpret fuel .proceed ctx (body ++ others) w report =
      match interpret fuel .proceed ctx body w report with
      | .ok (w', report') => interpret fuel .proceed ctx others w' report'
      | .error reason => .error reason := by
  induction body generalizing w report with
  | nil => rfl
  | cons first rest ih =>
    simp only [List.cons_append, interpret]
    cases execute fuel ctx first w with
    | done flow w' => exact ih w' report
    | failed fault w' => exact ih w' _
    | stopped reason => rfl

end Eval

namespace Eval

variable (l : Likeness)

/- Faults of one cause at tokens alike. -/
inductive Fault.Alike : Fault → Fault → Prop where
  | atToken {token token' : Token} (cause : Cause) : l.token token token' →
      Fault.Alike (.atToken token cause) (.atToken token' cause)

variable {l}

theorem Fault.Guised.alike {fault fault' : Fault}
    (h : Fault.Guised l.guise fault fault') : Fault.Alike l fault fault' := by
  cases h with
  | atToken cause hToken => exact .atToken cause hToken
  | atName cause hName => exact .atToken cause hName
  | undefined hName =>
    rw [l.lexeme_eq hName]
    exact .atToken _ hName

variable (l)

/- Worlds alike: the same host, and heaps alike. -/
structure World.Alike (w w' : World) : Prop where
  globals : Heap.globals < w.heap.frames.size
  heap : Marking.Guised l.guise ⟨fun _ => (), w.heap⟩ w'.heap
  host : w'.host = w.host

variable {l}

namespace World.Alike

variable {w w' : World}

theorem guised (h : World.Alike l w w') :
    World.Guised l.guise ⟨fun _ => (), w.heap⟩ w w' := ⟨rfl, h.heap, h.host⟩

/- What is reached from worlds alike. -/
theorem reached (h : World.Alike l w w') {next : Marking Unit}
    (hLeads : Marking.Leads ⟨fun _ => (), w.heap⟩ next) {v v' : World}
    (hNext : World.Guised l.guise next v v') : World.Alike l v v' := by
  rcases hNext with ⟨hMarked, hHeap, hHost⟩
  constructor
  · rw [hMarked]
    exact Nat.lt_of_lt_of_le h.globals hLeads.heap.size
  · rw [hMarked]
    exact hHeap
  · exact hHost

/- The context of top-level code. -/
theorem context (h : World.Alike l w w') {table table' : Scope.Distances}
    (hTables : ∀ {id id'}, l.node id id' → table'[id']? = table[id]?) :
    Context.Guised l.guise ⟨fun _ => (), w.heap⟩ (fun _ => ()) (.top table) (.top table') where
  frame := rfl
  depth := rfl
  distance := hTables
  mark _ _ := rfl
  marks := ⟨h.globals, fun _ _ _ _ => rfl⟩
  globals := ⟨h.globals, fun _ _ _ _ => rfl⟩

theorem mono {m : Likeness} (hLe : l.Le m) (h : World.Alike l w w') : World.Alike m w w' where
  globals := h.globals
  host := h.host
  heap := by
    have hClosure {around} {closure closure' : Closure}
        (hBoth : Closure.GuisedIn l.guise ⟨fun _ => (), w.heap⟩ around closure closure') :
        Closure.GuisedIn m.guise ⟨fun _ => (), w.heap⟩ around closure closure' := by
      rcases hBoth.function with ⟨marks, hMarks, hFunction⟩
      exact ⟨hBoth.frame, hBoth.isInitializer, marks, hMarks,
        Function.alike_mono hLe hFunction⟩
    exact {
      size := h.heap.size
      frames := fun frame =>
        rel_imp (fun hFrame => ⟨hFrame.bindings, hFrame.parent⟩) (h.heap.frames frame)
      arrays := h.heap.arrays
      objects := h.heap.objects
      functions := h.heap.functions.imp fun _ _ => hClosure
      classes := h.heap.classes.imp fun _ _ hClass =>
        ⟨hClass.name, hClass.superclass, fun name => rel_imp hClosure (hClass.methods name)⟩ }

end World.Alike

end Eval

end Scriptlet
