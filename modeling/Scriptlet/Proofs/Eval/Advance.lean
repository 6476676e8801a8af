import Scriptlet.Proofs.Eval.Course

/-
  All that is run takes its course.

  Key declarations include:
    * `Eval.AdvancesAll`
    * `Eval.advancesAll`
    * `Eval.Writable`

  Whatever is run at a moment at which the heap is sane goes
  on from moment to moment.  As arrays keep their lengths, an
  element that could be read can be written later on.
-/

namespace Scriptlet

namespace Eval

open Heap (Has)

variable {m m' : Moment}

/- All that runs with this fuel takes its course. -/
structure AdvancesAll (fuel : Nat) : Prop where
  evaluate {m ctx} : Ready m ctx → (expr : Expr) →
      Advances m (Traced.evaluate fuel ctx expr) present
  evaluateAll {m ctx} : Ready m ctx → (exprs : List Expr) →
      Advances m (Traced.evaluateAll fuel ctx exprs) presentAll
  evaluatePlace {m ctx} :
    Ready m ctx → (target : Expr) → (operator : Token) → Advances m
        (Traced.evaluatePlace fuel ctx target operator) presentPlace
  apply {m : Moment} {ctx callee arguments} :
    Ready m ctx → m.heap.Has callee → presentAll arguments m.heap → (paren : Token) → Advances m
          (Traced.apply fuel ctx callee paren arguments) present
  invoke {m : Moment} {closure : Closure} {ctx arguments} :
    Ready m ctx → closure.frame < m.heap.frames.size →
      presentAll arguments m.heap → (paren : Token) → Advances m
          (Traced.invoke fuel ctx closure paren arguments) present
  execute {m ctx} : Ready m ctx → (stmt : Stmt) →
      Advances m (Traced.execute fuel ctx stmt) presentFlow
  executeAll {m ctx} : Ready m ctx → (stmts : List Stmt) →
      Advances m (Traced.executeAll fuel ctx stmts) presentFlow

theorem presentPlace.later {place : Place} (h : presentPlace place m.heap)
    (hCourse : Course m m') : presentPlace place m'.heap := by
  cases place with
  | property => exact hCourse.has h
  | _ => trivial

theorem presentAll.later {values : List Value} (h : presentAll values m.heap)
    (hCourse : Course m m') : presentAll values m'.heap :=
  fun value hMem => hCourse.has (h value hMem)

section Step

variable {fuel : Nat} (ih : AdvancesAll fuel) {ctx : Context} (h : Ready m ctx)
include ih h

theorem evaluate_advances (expr : Expr) :
    Advances m (Traced.evaluate (fuel + 1) ctx expr) present := by
  cases expr with
  | literal value => exact .pure (by cases value <;> trivial)
  | name id name
  | self id name =>
    exact .bind (.visit _ _ _ h.frame) fun hCourse _ =>
      readVariable_advances (hCourse.sane h.sane) id name
  | assign id name value =>
    apply Advances.bind (ih.evaluate h value)
    intro value m₁ h₁ hValue
    apply Advances.bind (.visit _ _ _ (h₁.frame_lt h.frame))
    intro _ m₂ h₂ _
    exact .bind (assign_advances _ _ (h₂.has hValue)) fun h₃ _ => .pure (h₃.has (h₂.has hValue))
  | compound target operator value =>
    apply Advances.bind (ih.evaluatePlace h target operator)
    intro place m₁ h₁ hPlace
    have h := h.later h₁
    apply Advances.bind (.visitPlace place h.frame)
    intro _ m₂ h₂ _
    have h := h.later h₂
    apply Advances.bind (readPlace_advances h.sane (hPlace.later h₂))
    intro old m₃ h₃ _
    have h := h.later h₃
    apply Advances.bind (ih.evaluate h value)
    intro operand m₄ h₄ _
    apply Advances.bind (operate_advances ..)
    intro new m₅ h₅ hNew
    have h := h.later (h₄.trans h₅)
    apply Advances.bind (.visitPlace place h.frame)
    intro _ m₆ h₆ _
    exact .bind (writePlace_advances place (h₆.has hNew)) fun h₇ _ => .pure ((h₆.trans h₇).has hNew)
  | increment target operator before =>
    apply Advances.bind (ih.evaluatePlace h target operator)
    intro place m₁ h₁ hPlace
    have h := h.later h₁
    apply Advances.bind (.visitPlace place h.frame)
    intro _ m₂ h₂ _
    have h := h.later h₂
    apply Advances.bind (readPlace_advances h.sane (hPlace.later h₂))
    intro old m₃ h₃ _
    cases old with
    | number old =>
      apply Advances.bind (.visitPlace place (h₃.frame_lt h.frame))
      intro _ m₄ h₄ _
      have hNew (x : Float) : m₄.heap.Has (.number x) :=
        trivial
      exact .bind (writePlace_advances place (hNew _)) fun _ _ => .pure trivial
    | _ => exact .failAt ..
  | unary operator operand => exact .bind (ih.evaluate h operand) fun _ _ => negate_advances ..
  | binary left operator right =>
    apply Advances.bind (ih.evaluate h left)
    intro left m₁ h₁ _
    exact .bind (ih.evaluate (h.later h₁) right) fun _ _ => operate_advances ..
  | logical left operator right =>
    apply Advances.bind (ih.evaluate h left)
    intro left m₁ h₁ hLeft
    split
    · exact .pure hLeft
    · exact ih.evaluate (h.later h₁) right
  | call callee paren arguments =>
    apply Advances.bind (ih.evaluate h callee)
    intro callee m₁ h₁ hCallee
    apply Advances.bind (ih.evaluateAll (h.later h₁) arguments)
    intro arguments m₂ h₂ hArguments
    exact ih.apply (h.later (h₁.trans h₂)) (h₂.has hCallee) hArguments paren
  | get object name =>
    apply Advances.bind (ih.evaluate h object)
    intro object m₁ h₁ hObject
    exact getProperty_advances (h₁.sane h.sane) hObject name
  | set object name value =>
    apply Advances.bind (ih.evaluate h object)
    intro object m₁ h₁ _
    apply Advances.bind (ih.evaluate (h.later h₁) value)
    intro value m₂ h₂ hValue
    exact .bind (setProperty_advances object name hValue) fun h₃ _ => .pure (h₃.has hValue)
  | index object bracket position =>
    apply Advances.bind (ih.evaluate h object)
    intro object m₁ h₁ _
    apply Advances.bind (ih.evaluate (h.later h₁) position)
    intro index m₂ h₂ _
    exact getElement_advances ((h₁.trans h₂).sane h.sane) object index bracket
  | indexSet object bracket position value =>
    apply Advances.bind (ih.evaluate h object)
    intro object m₁ h₁ _
    apply Advances.bind (ih.evaluate (h.later h₁) position)
    intro index m₂ h₂ _
    apply Advances.bind (ih.evaluate (h.later (h₁.trans h₂)) value)
    intro value m₃ h₃ hValue
    exact .bind (setElement_advances object index _ hValue) fun h₄ _ => .pure (h₄.has hValue)
  | superMethod id keyword method =>
    exact .bind (.visit _ _ _ h.frame) fun hCourse _ =>
      superMethod_advances (hCourse.sane h.sane) id keyword method
  | function f => exact makeFunction_advances f h.frame
  | group inner => exact ih.evaluate h inner
  | array bracket elements =>
    apply Advances.bind (ih.evaluateAll h elements)
    intro items m₁ h₁ hItems
    refine .bind
      (.allocate (Q := fun id heap => heap.Has (.array id))
        (.addArray fun value hMem => ?_) rfl ?_) fun _ hId => .pure hId
    · exact hItems value (List.mem_toArray.mp hMem)
    · simp [Has, Heap.addArray]

theorem evaluateAll_advances (exprs : List Expr) :
    Advances m (Traced.evaluateAll (fuel + 1) ctx exprs) presentAll := by
  cases exprs with
  | nil => exact .pure nofun
  | cons first others =>
    apply Advances.bind (ih.evaluate h first)
    intro value m₁ h₁ hValue
    apply Advances.bind (ih.evaluateAll (h.later h₁) others)
    intro values m₂ h₂ hValues
    exact .pure (List.forall_mem_cons.mpr ⟨h₂.has hValue, hValues⟩)

theorem evaluatePlace_advances (target : Expr) (operator : Token) :
    Advances m (Traced.evaluatePlace (fuel + 1) ctx target operator) presentPlace := by
  cases target with
  | name id name => exact .pure trivial
  | get object name => exact .bind (ih.evaluate h object) fun _ hObject => .pure hObject
  | index object bracket position =>
    apply Advances.bind (ih.evaluate h object)
    intro object m₁ h₁ _
    exact .bind (ih.evaluate (h.later h₁) position) fun _ _ => .pure trivial
  | _ => exact .failAt ..

variable {arguments : List Value}

theorem apply_advances {callee : Value}
    (hCallee : m.heap.Has callee) (hArguments : presentAll arguments m.heap) (paren : Token) :
    Advances m (Traced.apply (fuel + 1) ctx callee paren arguments) present := by
  apply Advances.bind (checkCall_advances ..)
  intro _ m₁ h₁ _
  have h := h.later h₁
  have hArguments := hArguments.later h₁
  cases callee with
  | native native => exact callNative_advances ..
  | function id =>
    apply Advances.bind
      (.inspect (Q := fun found heap => ∀ closure, found = some closure →
            closure.frame < heap.frames.size) fun closure hGet => h.sane.functions id closure hGet)
    intro found m₂ h₂ hFound
    cases found with
    | none => exact .failAt ..
    | some closure => exact ih.invoke (h.later h₂) (hFound closure rfl) (hArguments.later h₂) paren
  | blueprint id =>
    apply Advances.bind
      (.allocate (Q := fun id heap => heap.Has (.object id))
        (.addObject (h₁.has hCallee)) rfl (by simp [Has, Heap.addObject]))
    intro object m₂ h₂ hObject
    have h := h.later h₂
    apply Advances.bind
      (.inspect (Q := fun found heap => ∀ method, found = some method →
            method.frame < heap.frames.size) fun method hGet => h.sane.findMethod?_lt hGet)
    intro found m₃ h₃ hFound
    cases found with
    | none => exact .pure (h₃.has hObject)
    | some method =>
      have hThis := h₃.has hObject
      apply Advances.bind
        (.openFrame (Q := fun closure heap =>
            closure.frame < heap.frames.size)
          _ (.single "this" hThis) (hFound method rfl)
          rfl (by simp [Heap.bindMethod, Heap.addFrame]))
      intro closure m₄ h₄ hClosure
      have hRest := h₂.trans (h₃.trans h₄)
      exact .bind (ih.invoke (h.later (h₃.trans h₄)) hClosure (hArguments.later hRest) paren)
        fun h₅ _ => .pure ((h₄.trans h₅).has hThis)
  | _ => exact .failAt ..

theorem invoke_advances {closure : Closure}
    (hClosure : closure.frame < m.heap.frames.size)
    (hArguments : presentAll arguments m.heap) (paren : Token) :
    Advances m (Traced.invoke (fuel + 1) ctx closure paren arguments) present := by
  simp only [Traced.invoke]
  split
  · exact .failAt ..
  · have hParameters : (parameters closure.function arguments).All m.heap.Has :=
      .ofPairs fun pair hMem => hArguments _ (List.of_mem_zip hMem).2
    apply Advances.bind
      (.openFrame (Q := fun frame heap =>
          frame < heap.frames.size)
        _ hParameters hClosure rfl (by simp [Heap.addFrame]))
    intro frame m₁ h₁ hFrame
    apply Advances.bind (ih.executeAll ⟨h₁.sane h.sane, hFrame⟩ _)
    intro flow m₂ h₂ hFlow
    exact result_advances ((h₁.trans h₂).sane h.sane) closure hFlow

theorem execute_advances (stmt : Stmt) :
    Advances m (Traced.execute (fuel + 1) ctx stmt) presentFlow := by
  cases stmt with
  | expression expr => exact .bind (ih.evaluate h expr) fun _ _ => .pure trivial
  | print keyword value =>
    apply Advances.bind (ih.evaluate h value)
    intro value m₁ h₁ _
    exact .bind (printValue_advances keyword value) fun _ _ => .pure trivial
  | letDecl name value =>
    cases value with
    | none => exact .bind (declare_advances _ trivial) fun _ _ => .pure trivial
    | some value =>
      apply Advances.bind (.tell (.begins _ _))
      intro _ m₁ h₁ _
      apply Advances.bind (ih.evaluate (h.later h₁) value)
      intro value m₂ h₂ hValue
      apply Advances.bind (declare_advances _ hValue)
      intro _ m₃ h₃ _
      exact .bind (.tell (.completes _ _)) fun _ _ => .pure trivial
  | functionDecl f =>
    apply Advances.bind (makeFunction_advances f h.frame)
    intro value m₁ h₁ hValue
    exact .bind (declare_advances _ hValue) fun _ _ => .pure trivial
  | classDecl name parent methods =>
    cases parent with
    | none =>
      have hNone (id : ClassId) (hNone : none = some id) :
          m.heap.Has (.blueprint id) := nomatch hNone
      exact .bind (makeClass_advances h name hNone methods) fun _ _ => .pure trivial
    | some parent =>
      apply Advances.bind (ih.evaluate h parent)
      intro value m₁ h₁ hValue
      apply Advances.bind (asSuperclass_advances name parent hValue)
      intro classId m₂ h₂ hClass
      exact .bind
        (makeClass_advances (h.later (h₁.trans h₂)) name
          (fun _ hSame => Option.some.inj hSame ▸ hClass) methods) fun _ _ => .pure trivial
  | block body =>
    apply Advances.bind
      (.openFrame (Q := fun frame heap =>
          frame < heap.frames.size)
        _ .nil h.frame rfl (by simp [Heap.addFrame]))
    intro frame m₁ h₁ hFrame
    exact ih.executeAll ⟨h₁.sane h.sane, hFrame⟩ body
  | conditional condition thenBranch elseBranch =>
    apply Advances.bind (ih.evaluate h condition)
    intro value m₁ h₁ _
    split
    · exact ih.execute (h.later h₁) thenBranch
    · cases elseBranch with
      | some stmt => exact ih.execute (h.later h₁) stmt
      | none => exact .pure trivial
  | whileLoop condition body =>
    apply Advances.bind (ih.evaluate h condition)
    intro value m₁ h₁ _
    split
    · apply Advances.bind (ih.execute (h.later h₁) body)
      intro flow m₂ h₂ hFlow
      cases flow with
      | normal => exact ih.execute (h.later (h₁.trans h₂)) _
      | broke => exact .pure trivial
      | returned value => exact .pure hFlow
    · exact .pure trivial
  | breakLoop keyword => exact .pure trivial
  | returnValue keyword value =>
    cases value with
    | none => exact .pure trivial
    | some value => exact .bind (ih.evaluate h value) fun _ hValue => .pure hValue

theorem executeAll_advances (stmts : List Stmt) :
    Advances m (Traced.executeAll (fuel + 1) ctx stmts) presentFlow := by
  cases stmts with
  | nil => exact .pure trivial
  | cons first others =>
    apply Advances.bind (ih.execute h first)
    intro flow m₁ h₁ hFlow
    cases flow with
    | normal => exact ih.executeAll (h.later h₁) others
    | _ => exact .pure hFlow

end Step

/- Whatever the fuel, all that runs takes its course. -/
theorem advancesAll (fuel : Nat) : AdvancesAll fuel := by
  induction fuel with
  | zero => constructor <;> intros <;> exact .exhausted
  | succ fuel ih =>
    exact {
      evaluate := evaluate_advances ih
      evaluateAll := evaluateAll_advances ih
      evaluatePlace := evaluatePlace_advances ih
      apply h hCallee := apply_advances ih h hCallee
      invoke h hClosure := invoke_advances ih h hClosure
      execute := execute_advances ih
      executeAll := executeAll_advances ih }

variable {heap : Heap} {i : Nat}

------------------------------------------------------------
-- Actions That Are Done
------------------------------------------------------------

/- An array keeps its length. -/
theorem length_eq {heap' : Heap} {id : ArrayId}
    (h : heap.Extends heap') (hLt : i < heap.length id) : heap'.length id = heap.length id := by
  unfold Heap.length at hLt ⊢
  cases hGet : heap.arrays[id]? with
  | none =>
    rw [hGet] at hLt
    exact absurd hLt (Nat.not_lt_zero i)
  | some items =>
    rcases h.arrays id items hGet with ⟨items', hGet', hSize⟩
    rw [hGet']
    exact hSize

theorem lt_of_position {index : Value} {length : Nat}
    (h : position index length = .ok i) : i < length := by
  unfold position at h
  repeat' split at h
  · cases h
    assumption
  all_goals cases h

theorem element?_of_lt {id : ArrayId}
    (h : i < heap.length id) : ∃ value, heap.element? id i = some value := by
  unfold Heap.length at h
  unfold Heap.element?
  cases hGet : heap.arrays[id]? with
  | none =>
    rw [hGet] at h
    exact absurd h (Nat.not_lt_zero i)
  | some items =>
    rw [hGet] at h
    exact ⟨items[i], Array.getElem?_eq_getElem h⟩

/- What an action has come to that is traced. -/
theorem Advances.ended {α : Type} {traced : Traced α} {action : Action α}
    {Q : α → Heap → Prop} {host : Host} {value : α} {w : World}
    (h : Advances m traced Q) (hTraces : Traces traced action)
    (hEnd : action ⟨m.heap, host⟩ = .done value w) : ∃ history, Course m ⟨history, w.heap⟩ := by
  have hAdvanced := h.advanced host
  have hOutcome := hTraces.outcome m.history ⟨m.heap, host⟩
  rw [hEnd] at hOutcome
  generalize traced m.history ⟨m.heap, host⟩ = ending at hAdvanced hOutcome
  cases hAdvanced with
  | done hCourse =>
    cases hOutcome
    exact ⟨_, hCourse⟩
  | failed => cases hOutcome
  | stopped => cases hOutcome

section

variable {ctx : Context} {id : ArrayId} {index value : Value} {bracket : Token} {w w' : World}

variable {α β : Type}

variable {action : Action α}

theorem bind_done {result : α}
    (next : α → Action β) (h : action w = .done result w') :
    (action >>= next) w = next result w' := by
  change Action.bind action next w = _
  unfold Action.bind
  rw [h]

theorem bind_failed {fault : Fault}
    (next : α → Action β) (h : action w = .failed fault w') :
    (action >>= next) w = .failed fault w' := by
  change Action.bind action next w = _
  unfold Action.bind
  rw [h]

theorem bind_stopped {reason : Stop}
    (next : α → Action β) (h : action w = .stopped reason) :
    (action >>= next) w = .stopped reason := by
  change Action.bind action next w = _
  unfold Action.bind
  rw [h]

theorem of_bind_done {next : α → Action β}
    {result : β} (h : (action >>= next) w = .done result w') :
    ∃ value w₁, action w = .done value w₁ ∧
      next value w₁ = .done result w' := by
  change Action.bind action next w = _ at h
  unfold Action.bind at h
  cases hFirst : action w with
  | done value w₁ =>
    rw [hFirst] at h
    exact ⟨value, w₁, rfl, h⟩
  | failed fault w₁ =>
    rw [hFirst] at h
    cases h
  | stopped reason =>
    rw [hFirst] at h
    cases h

variable {find : Heap → Option α}

theorem require_done (token : Token) (cause : Cause) {found : α}
    (h : find w.heap = some found) :
    require token cause find w = .done found w := by
  unfold require
  simp only [h]

theorem require_failed (token : Token) (cause : Cause) (h : find w.heap = none) :
    require token cause find w = .failed (.atToken token cause) w := by
  unfold require
  simp only [h]

theorem getElement_done (h : getElement (.array id) index bracket w = .done value w') :
    w' = w ∧ ∃ i, position index (w.heap.length id) = .ok i ∧
        w.heap.element? id i = some value := by
  simp only [getElement, bind_inspect] at h
  unfold locate at h
  cases hPosition : position index (w.heap.length id) with
  | error cause =>
    rw [hPosition] at h
    cases h
  | ok i =>
    rw [hPosition] at h
    obtain ⟨hValue, rfl⟩ := Outcome.done.inj h
    rcases element?_of_lt (lt_of_position hPosition) with ⟨old, hOld⟩
    refine ⟨rfl, i, rfl, ?_⟩
    dsimp only at hValue
    rw [hOld] at hValue
    rw [hOld, ← hValue]
    rfl

theorem setElement_done {i : Nat} (h : position index (w.heap.length id) = .ok i)
    (value : Value) :
    setElement (.array id) index bracket value w = .done ()
        { w with heap := w.heap.setElement id i value } := by
  simp only [setElement]
  rw [bind_inspect]
  unfold locate
  rw [h]
  rfl

end

/-
  Where an element of an array was read as the target of an
  assignment, it is written in the end.
-/
structure Writable (w : World) (ctx : Context) : Prop where
  compound {fuel target operator value id index bracket}
      {old operand new : Value} {w₁ w₂ w₃ w₄ : World} : evaluatePlace fuel ctx target operator w =
        .done (.element (.array id) index bracket) w₁ →
    getElement (.array id) index bracket w₁ = .done old w₂ →
    evaluate fuel ctx value w₂ = .done operand w₃ →
    operate (baseOperator operator.kind) operator old operand
        w₃ = .done new w₄ → ∃ i, w₁.heap.element? id i = some old ∧
      evaluate (fuel + 1) ctx (.compound target operator value) w = .done new
          { w₄ with heap := w₄.heap.setElement id i new }
  increment {fuel target operator id index bracket} {old : Float} {w₁ w₂ : World} (before : Bool) :
    evaluatePlace fuel ctx target operator w = .done (.element (.array id) index bracket) w₁ →
    getElement (.array id) index bracket w₁ = .done (.number old) w₂ →
    ∃ i, w₁.heap.element? id i = some (.number old) ∧
      let new := old + stepSize operator
      evaluate (fuel + 1) ctx (.increment target operator before) w =
        .done (.number (if before then new else old))
          { w₂ with
            heap := w₂.heap.setElement id i (.number new) }

theorem operate_done {kind : Token.Kind} {operator : Token}
    {left right result : Value} {w w' : World}
    (h : operate kind operator left right w = .done result w') : w' = w := by
  unfold operate at h
  split at h
  · cases h
    rfl
  · cases h

theorem Ready.writable {ctx : Context} (h : Ready m ctx) (host : Host) :
    Writable ⟨m.heap, host⟩ ctx where
  compound := by
    intro fuel target operator value id index bracket old
      operand new w₁ w₂ w₃ w₄ hPlace hRead hValue hNew
    rcases getElement_done hRead with ⟨rfl, i, hPosition, hOld⟩
    obtain rfl := operate_done hNew
    rcases ((advancesAll fuel).evaluatePlace h target
        operator).ended ((tracesAll fuel).evaluatePlace ..) hPlace with ⟨history, hCourse⟩
    rcases ((advancesAll fuel).evaluate (h.later hCourse)
        value).ended ((tracesAll fuel).evaluate ..) hValue with
      ⟨_, hLater⟩
    rw [← length_eq hLater.extends (lt_of_position hPosition)] at hPosition
    refine ⟨i, hOld, ?_⟩
    refine (bind_done _ hPlace).trans ?_
    refine (bind_done _ hRead).trans ?_
    refine (bind_done _ hValue).trans ?_
    refine (bind_done _ hNew).trans ?_
    exact bind_done _ (setElement_done hPosition new)
  increment := by
    intro fuel target operator id index bracket old w₁ w₂ before hPlace hRead
    rcases getElement_done hRead with ⟨rfl, i, hPosition, hOld⟩
    refine ⟨i, hOld, ?_⟩
    refine (bind_done _ hPlace).trans ?_
    refine (bind_done _ hRead).trans ?_
    exact bind_done _ (setElement_done hPosition _)

end Eval

end Scriptlet
