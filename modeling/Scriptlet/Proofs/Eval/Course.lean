import Mathlib.Logic.Relation
import Scriptlet.Proofs.Eval.Sound

/-
  The course that a run takes.

  Key declarations include:
    * `Eval.Happens`
    * `Eval.Course`
    * `Eval.Advances`
    * `Eval.Ready`

  A run goes from moment to moment: the heap changes in one
  of the ways it can, a frame is opened, or something is
  told.  Values that a run comes to refer to what exists.
-/

namespace Scriptlet

namespace Eval

open Heap (Has)
open Scope (Kind)

/- One moment comes right after another. -/
inductive Happens : Moment → Moment → Prop where
  | changes {history heap heap'} : heap.Step heap' → heap'.frames.size = heap.frames.size →
      Happens ⟨history, heap⟩ ⟨history, heap'⟩
  | opens {history heap bindings outer} (kind : Kind) : bindings.All heap.Has →
      outer < heap.frames.size → Happens ⟨history, heap⟩
        ⟨history ++ [.opened kind heap.frames.size], (heap.addFrame bindings (some outer)).2⟩
  | begins {history heap} (frame : FrameId) (name : String) :
      Happens ⟨history, heap⟩ ⟨history ++ [.began frame name], heap⟩
  | completes {history heap} (frame : FrameId) (name : String) :
      Happens ⟨history, heap⟩ ⟨history ++ [.completed frame name], heap⟩
  | visits {history heap ctx} (reference : Reference) :
      ctx.frame < heap.frames.size → Happens ⟨history, heap⟩
        ⟨history ++ [.visited reference ctx heap], heap⟩

/- One moment is later in the same course than another. -/
abbrev Course : Moment → Moment → Prop := Relation.ReflTransGen Happens

variable {m m' : Moment}

theorem Course.trans {m'' : Moment} (h : Course m m') (h' : Course m' m'') :
    Course m m'' := Relation.ReflTransGen.trans h h'

theorem Happens.extends (h : Happens m m') : m.heap.Extends m'.heap := by
  cases h with
  | changes hStep => exact hStep.extends
  | opens kind hBindings hOuter => exact (Heap.Step.addFrame hBindings hOuter).extends
  | _ => exact .refl _

theorem Happens.sane (h : Happens m m') (hSane : m.heap.Sane) : m'.heap.Sane := by
  cases h with
  | changes hStep => exact hStep.sane hSane
  | opens kind hBindings hOuter => exact (Heap.Step.addFrame hBindings hOuter).sane hSane
  | _ => exact hSane

theorem Course.extends (h : Course m m') : m.heap.Extends m'.heap := by
  induction h with
  | refl => exact .refl _
  | tail _ hLast ih => exact ih.trans hLast.extends

theorem Course.sane (h : Course m m') (hSane : m.heap.Sane) : m'.heap.Sane := by
  induction h with
  | refl => exact hSane
  | tail _ hLast ih => exact hLast.sane ih

theorem Course.has (h : Course m m') {value : Value}
    (hValue : m.heap.Has value) : m'.heap.Has value := hValue.later h.extends

theorem Course.frame_lt (h : Course m m') {frame : FrameId}
    (hFrame : frame < m.heap.frames.size) : frame < m'.heap.frames.size :=
  Nat.lt_of_lt_of_le hFrame h.extends.frames.size_le

section

variable {α β : Type}

/- How a traced action ends that takes its course. -/
inductive Advanced (m : Moment) (Q : α → Heap → Prop) : History × Outcome α → Prop where
  | done {history value w} : Course m ⟨history, w.heap⟩ → Q value w.heap →
      Advanced m Q (history, .done value w)
  | failed {history fault w} : Course m ⟨history, w.heap⟩ → Advanced m Q (history, .failed fault w)
  | stopped {last reason} : Course m last → Advanced m Q (last.history, .stopped reason)

/-
  The traced action takes its course from this moment on,
  whatever the host, and its result satisfies `Q`.
-/
structure Advances (m : Moment) (traced : Traced α) (Q : α → Heap → Prop) : Prop where
  advanced (host : Host) : Advanced m Q (traced m.history ⟨m.heap, host⟩)

/- Any result will do. -/
def anyResult (_ : α) (_ : Heap) : Prop := True

theorem plain_bind (action : Action α) (next : α → Action β) :
    plain (action >>= next) = plain action >>= fun value => plain (next value) := by
  funext history w
  change (history, Action.bind action next w) =
    Traced.bind (plain action) (fun v => plain (next v)) history w
  unfold Action.bind Traced.bind plain
  cases action w <;> rfl

namespace Advances

variable {Q : α → Heap → Prop} {R : β → Heap → Prop}

theorem pure {value : α} (hValue : Q value m.heap) :
    Advances m (Pure.pure value) Q := ⟨fun _ => .done .refl hValue⟩

theorem bind {traced : Traced α} {next : α → Traced β} (hTraced : Advances m traced Q)
    (hNext : ∀ {value m'}, Course m m' → Q value m'.heap →
      Advances m' (next value) R) : Advances m (traced >>= next) R := by
  constructor
  intro host
  have hFirst := hTraced.advanced host
  change Advanced m R (Traced.bind traced next m.history ⟨m.heap, host⟩)
  unfold Traced.bind
  generalize traced m.history ⟨m.heap, host⟩ = ending at hFirst
  cases hFirst with
  | @done history value w hCourse hValue =>
    have hRest := (hNext hCourse hValue).advanced w.host
    dsimp only at hRest ⊢
    generalize next value history w = ending at hRest
    cases hRest with
    | done hLater hResult => exact .done (hCourse.trans hLater) hResult
    | failed hLater => exact .failed (hCourse.trans hLater)
    | stopped hLater => exact .stopped (hCourse.trans hLater)
  | failed hCourse => exact .failed hCourse
  | stopped hCourse => exact .stopped hCourse

theorem failAt (token : Token) (cause : Cause) :
    Advances m (plain (failAt token cause)) Q := ⟨fun _ => .failed .refl⟩

theorem exhausted : Advances m (plain exhausted) Q := ⟨fun _ => .stopped .refl⟩

theorem inspect {view : Heap → α} (hView : Q (view m.heap) m.heap) :
    Advances m (plain (inspect view)) Q := ⟨fun _ => .done .refl hView⟩

theorem require {token : Token} {cause : Cause} {found : Heap → Option α}
    (hFound : ∀ value, found m.heap = some value → Q value m.heap) :
    Advances m (plain (require token cause found)) Q := by
  constructor
  intro host
  unfold plain Eval.require
  split
  · rename_i value hValue
    exact .done .refl (hFound value hValue)
  · exact .failed .refl

theorem updateHeap {change : Heap → Heap} (hStep : m.heap.Step (change m.heap))
    (hSize : (change m.heap).frames.size = m.heap.frames.size) :
    Advances m (plain (updateHeap change)) anyResult :=
  ⟨fun _ => .done (.single (.changes hStep hSize)) trivial⟩

theorem allocate {create : Heap → α × Heap} (hStep : m.heap.Step (create m.heap).2)
    (hSize : (create m.heap).2.frames.size = m.heap.frames.size)
    (hMade : Q (create m.heap).1 (create m.heap).2) : Advances m (plain (allocate create)) Q :=
  ⟨fun _ => .done (.single (.changes hStep hSize)) hMade⟩

/- An action that opens no frame after all. -/
theorem opening {action : Action α} {kind : Kind} (hStores : StoresOnly action)
    (h : Advances m (plain action) Q) : Advances m (opening kind action) Q := by
  constructor
  intro host
  rw [opening_eq, added_storing (hStores.ends _), List.map_nil, List.append_nil]
  exact h.advanced host

theorem opening_require {token : Token} {cause : Cause} {kind : Kind}
    {found : Heap → Option α} {next : α → Action β}
    (h : ∀ value, found m.heap = some value →
      Advances m (Eval.opening kind (next value)) R) : Advances m
      (Eval.opening kind (Eval.require token cause found >>= next)) R := by
  constructor
  intro host
  rw [opening_eq, bind_require]
  cases hFound : found m.heap with
  | none =>
    simp only [Outcome.added, Nat.sub_self, List.range'_zero, List.map_nil, List.append_nil]
    exact .failed .refl
  | some value => exact (h value hFound).advanced host

/- A frame is opened. -/
theorem openFrame {create : Heap → α × Heap} {bindings : Bindings Value}
    {outer : FrameId} (kind : Kind) (hBindings : bindings.All m.heap.Has)
    (hOuter : outer < m.heap.frames.size)
    (hCreate : (create m.heap).2 = (m.heap.addFrame bindings (some outer)).2)
    (hMade : Q (create m.heap).1 (create m.heap).2) :
    Advances m (Eval.opening kind (Eval.allocate create)) Q := by
  constructor
  intro host
  have hEnd : Eval.opening kind (Eval.allocate create) m.history ⟨m.heap, host⟩ =
        (m.history ++ [.opened kind m.heap.frames.size], .done (create m.heap).1
            ⟨(create m.heap).2, host⟩) := by
    simp [Eval.opening, Eval.allocate, Outcome.added, hCreate, Heap.addFrame]
  rw [hEnd]
  refine .done ?_ hMade
  rw [hCreate]
  exact .single (.opens kind hBindings hOuter)

theorem tell {event : Event} (hEvent : Happens m ⟨m.history ++ [event], m.heap⟩) :
    Advances m (tell event) anyResult := ⟨fun _ => .done (.single hEvent) trivial⟩

theorem visit {ctx : Context} (role : Role) (id : Nat) (token : Token)
    (hFrame : ctx.frame < m.heap.frames.size) : Advances m (visit ctx role id token) anyResult :=
  ⟨fun _ => .done (.single (.visits _ hFrame)) trivial⟩

theorem visitPlace {ctx : Context} (place : Place) (hFrame : ctx.frame < m.heap.frames.size) :
    Advances m (place.visit ctx) anyResult := by
  cases place with
  | named => exact .visit _ _ _ hFrame
  | _ => exact .pure trivial

end Advances

end

------------------------------------------------------------
-- Single Actions
------------------------------------------------------------

/- Code may run in a context. -/
structure Ready (m : Moment) (ctx : Context) : Prop where
  sane : m.heap.Sane
  frame : ctx.frame < m.heap.frames.size

theorem Ready.later {ctx : Context} (h : Ready m ctx) (hCourse : Course m m') :
    Ready m' ctx := ⟨hCourse.sane h.sane, hCourse.frame_lt h.frame⟩

/- What is referred to exists. -/
abbrev present (value : Value) (heap : Heap) : Prop := heap.Has value

def presentAll (values : List Value) (heap : Heap) : Prop := ∀ value ∈ values, heap.Has value

def presentPlace : Place → Heap → Prop
  | .property object _, heap => heap.Has object
  | _, _ => True

def presentFlow : Flow → Heap → Prop
  | .returned value, heap => heap.Has value
  | _, _ => True

section

variable {ctx : Context} {value : Value}

theorem readVariable_advances (h : m.heap.Sane) (id : Nat) (name : Token) :
    Advances m (plain (readVariable ctx id name)) present := by
  apply Advances.require
  intro value hFound
  split at hFound
  · exact h.getAt?_has hFound
  · exact h.get?_has hFound

theorem declare_advances (name : String) (hValue : m.heap.Has value) :
    Advances m (plain (declare ctx name value)) anyResult :=
  .updateHeap (.define _ name hValue) (by simp [Heap.define])

theorem assign_advances (name : Token) (holder : Heap → Option FrameId)
    (hValue : m.heap.Has value) : Advances m (plain (assign name holder value)) anyResult := by
  unfold assign
  rw [plain_bind]
  apply Advances.bind (Q := anyResult) (.require fun _ _ => trivial)
  intro frame m' hCourse _
  exact .updateHeap (.define frame _ (hCourse.has hValue)) (by simp [Heap.define])

theorem makeFunction_advances (f : Function) (hFrame : ctx.frame < m.heap.frames.size) :
    Advances m (plain (makeFunction ctx f)) present := by
  unfold makeFunction
  rw [plain_bind]
  refine .bind
    (.allocate (Q := fun id heap => id < heap.functions.size)
      (.addFunction hFrame) rfl ?_) fun _ hId => .pure hId
  simp [Heap.addFunction]

/- A method is bound to an object. -/
theorem bound_advances {method : Closure} {object : ObjectId}
    (hMethod : method.frame < m.heap.frames.size) (hObject : m.heap.Has (.object object)) :
    Advances m (opening .self (bound method object)) present := by
  constructor
  intro host
  have hAdded : (bound method object ⟨m.heap, host⟩).added
          ⟨m.heap, host⟩ = [m.heap.frames.size] := by
    simp [bound_eq, Outcome.added, Heap.bindMethod, Heap.addFrame, Heap.addFunction]
  have hOpens : Happens m ⟨_, (m.heap.bindMethod method object).2⟩ :=
    .opens .self (.single "this" hObject) hMethod
  rw [opening_eq, hAdded, bound_eq]
  refine .done (.tail (.single hOpens) (.changes (.addFunction ?_) rfl)) ?_
  · simp [Heap.bindMethod, Heap.addFrame]
  · simp [present, Has, Heap.addFunction]

theorem getMember_advances (h : m.heap.Sane) {object : ObjectId}
    (hObject : m.heap.Has (.object object)) (name : Token) :
    Advances m (opening .self (getMember object name)) present := by
  constructor
  intro host
  unfold getMember
  rw [opening_eq, bind_inspect, ← opening_eq]
  cases hField : m.heap.field? object name.lexeme with
  | some value =>
    rcases Option.bind_eq_some_iff.mp hField with ⟨o, hGet, hFound⟩
    have hValue := (h.objects object o hGet).2 _ _ hFound
    exact (Advances.opening (.pure value) (.pure hValue)).advanced host
  | none =>
    dsimp only
    rw [opening_eq, bind_inspect, ← opening_eq]
    cases hMethod : m.heap.methodOf? object name.lexeme with
    | some method =>
      rcases Option.bind_eq_some_iff.mp hMethod with ⟨o, _, hFound⟩
      exact (bound_advances (h.findMethod?_lt hFound) hObject).advanced host
    | none => exact (Advances.opening (.failAt _ trivial) (.failAt ..)).advanced host

theorem getProperty_advances (h : m.heap.Sane) {object : Value}
    (hObject : m.heap.Has object) (name : Token) :
    Advances m (opening .self (getProperty object name)) present := by
  unfold getProperty
  cases object with
  | object id => exact getMember_advances h hObject name
  | array id =>
    dsimp only
    split
    · exact .opening (.bind (.inspect _) fun _ => .pure _) ⟨fun _ => .done .refl trivial⟩
    · exact .opening (.failAt _ trivial) (.failAt ..)
  | string text =>
    dsimp only
    split
    · exact .opening (.pure _) (.pure trivial)
    · exact .opening (.failAt _ trivial) (.failAt ..)
  | _ => exact .opening (.failAt _ trivial) (.failAt ..)

theorem superMethod_advances (h : m.heap.Sane) (id : Nat) (keyword method : Token) :
    Advances m (opening .self (superMethod ctx id keyword method)) present := by
  unfold superMethod
  cases ctx.distances[id]? with
  | none => exact .opening (.failAt _ trivial) (.failAt ..)
  | some distance =>
    apply Advances.opening_require
    intro parent _
    cases parent with
    | blueprint classId =>
      apply Advances.opening_require
      intro self hSelf
      cases self with
      | object object =>
        apply Advances.opening_require
        intro found hFound
        exact bound_advances (h.findMethod?_lt hFound) (h.getAt?_has hSelf)
      | _ => exact .opening (.failAt _ trivial) (.failAt ..)
    | _ => exact .opening (.failAt _ trivial) (.failAt ..)

theorem locate_advances (bracket : Token) (index : Value) (length : Nat) :
    Advances m (plain (locate bracket index length)) anyResult := by
  unfold locate
  split
  · exact .pure trivial
  · exact .failAt ..

theorem element?_has (h : m.heap.Sane) (id : ArrayId) (i : Nat) :
    m.heap.Has ((m.heap.element? id i).getD .nil) := by
  cases hItem : m.heap.element? id i with
  | none => trivial
  | some value =>
    rcases Option.bind_eq_some_iff.mp hItem with ⟨items, hArray, hGet⟩
    exact h.arrays id items hArray value (Array.mem_of_getElem? hGet)

theorem getElement_advances (h : m.heap.Sane) (object index : Value) (bracket : Token) :
    Advances m (plain (getElement object index bracket)) present := by
  unfold getElement
  split
  · rename_i id
    rw [plain_bind]
    apply Advances.bind (.inspect (Q := anyResult) trivial)
    intro length m₁ h₁ _
    rw [plain_bind]
    apply Advances.bind (locate_advances ..)
    intro i m₂ h₂ _
    exact .inspect (element?_has ((h₁.trans h₂).sane h) id i)
  · rw [plain_bind]
    exact .bind (locate_advances ..) fun _ _ => .pure trivial
  · exact .failAt ..
  · exact .failAt ..

theorem setElement_advances (object index : Value) (bracket : Token)
    (hValue : m.heap.Has value) :
    Advances m (plain (setElement object index bracket value)) anyResult := by
  unfold setElement
  split
  · rw [plain_bind]
    apply Advances.bind (.inspect (Q := anyResult) trivial)
    intro length m₁ h₁ _
    rw [plain_bind]
    apply Advances.bind (locate_advances ..)
    intro i m₂ h₂ _
    exact .updateHeap (.setElement _ i ((h₁.trans h₂).has hValue)) rfl
  · exact .failAt ..
  · exact .failAt ..
  · exact .failAt ..

theorem setProperty_advances (object : Value) (name : Token) (hValue : m.heap.Has value) :
    Advances m (plain (setProperty object name value)) anyResult := by
  unfold setProperty
  split
  · exact .updateHeap (.setField _ _ hValue) rfl
  · exact .failAt ..
  · exact .failAt ..

theorem readPlace_advances (h : m.heap.Sane) {place : Place}
    (hPlace : presentPlace place m.heap) :
    Advances m (opening .self (place.read ctx)) present := by
  cases place with
  | named id name =>
    exact .opening (readVariable_stores ctx id name) (readVariable_advances h id name)
  | property object name => exact getProperty_advances h hPlace name
  | element object index bracket =>
    exact .opening (getElement_within object index bracket)
      (getElement_advances h object index bracket)

theorem writePlace_advances (place : Place) (hValue : m.heap.Has value) :
    Advances m (plain (place.write ctx value)) anyResult := by
  cases place with
  | named => exact assign_advances _ _ hValue
  | property => exact setProperty_advances _ _ hValue
  | element => exact setElement_advances _ _ _ hValue

theorem onNumbers_has {heap : Heap}
    {operator : Float → Float → Except Cause Value} {left right result : Value}
    (hOperator : ∀ a b, operator a b = .ok result → heap.Has result)
    (h : onNumbers operator left right = .ok result) : heap.Has result := by
  unfold onNumbers at h
  split at h
  · exact hOperator _ _ h
  · cases h

theorem arithmetic_has {heap : Heap} {kind : Token.Kind} {left right result : Value}
    (h : arithmetic heap kind left right = .ok result) : heap.Has result := by
  unfold arithmetic at h
  split at h
  · unfold sum at h
    split at h <;> cases h <;> trivial
  · exact onNumbers_has (by rintro _ _ ⟨⟩; trivial) h
  · exact onNumbers_has (by rintro _ _ ⟨⟩; trivial) h
  · refine onNumbers_has (fun a b hQuotient => ?_) h
    unfold quotient at hQuotient
    split at hQuotient <;> cases hQuotient
    trivial
  · exact onNumbers_has (by rintro _ _ ⟨⟩; trivial) h
  · exact onNumbers_has (by rintro _ _ ⟨⟩; trivial) h
  · exact onNumbers_has (by rintro _ _ ⟨⟩; trivial) h
  · exact onNumbers_has (by rintro _ _ ⟨⟩; trivial) h
  · cases h
    trivial
  · cases h
    trivial
  · cases h

theorem operate_advances (kind : Token.Kind) (operator : Token) (left right : Value) :
    Advances m (plain (operate kind operator left right)) present := by
  constructor
  intro host
  unfold plain operate
  split
  · rename_i result hResult
    exact .done .refl (arithmetic_has hResult)
  · exact .failed .refl

theorem negate_advances (operator : Token) (operand : Value) :
    Advances m (plain (negate operator operand)) present := by
  unfold negate
  split
  · split
    · exact .pure trivial
    · exact .failAt ..
  · exact .pure trivial
  · exact .failAt ..

theorem printValue_advances (keyword : Token) (value : Value) :
    Advances m (plain (printValue keyword value)) anyResult := by
  constructor
  intro host
  unfold plain printValue
  split
  · exact .failed .refl
  · exact .done .refl trivial

theorem readInput_advances (paren : Token) : Advances m (plain (readInput paren)) present := by
  constructor
  intro host
  simp only [plain, readInput]
  split
  · exact .done .refl trivial
  · exact .done .refl trivial
  · exact .failed .refl
  · exact .stopped .refl

theorem callNative_advances (native : Native) (paren : Token) (arguments : List Value) :
    Advances m (plain (callNative native paren arguments)) present := by
  fun_cases callNative native paren arguments
  · exact ⟨fun _ => .done .refl trivial⟩
  · exact readInput_advances paren
  · unfold lengthOf
    split
    · exact .pure trivial
    · exact ⟨fun _ => .done .refl trivial⟩
    · exact .failAt ..
  · exact .inspect trivial
  · constructor
    intro host
    unfold plain findResource
    split
    · exact .done .refl trivial
    · exact .stopped .refl
  · exact .failAt ..
  · exact .failAt ..

theorem checkCall_advances (callee : Value) (paren : Token) (given : Nat) :
    Advances m (plain (checkCall callee paren given)) anyResult := by
  unfold checkCall
  rw [plain_bind]
  apply Advances.bind (.inspect (Q := anyResult) trivial)
  intro arity m' _ _
  split
  · exact .failAt ..
  · split
    · exact .pure trivial
    · exact .failAt ..

theorem result_advances (h : m.heap.Sane) (closure : Closure) {flow : Flow}
    (hFlow : presentFlow flow m.heap) : Advances m (plain (result closure flow)) present := by
  unfold result
  split
  · exact .require fun _ hFound => h.getAt?_has hFound
  · split
    · exact .pure hFlow
    · exact .pure trivial

theorem asSuperclass_advances (name : Token) (expr : Expr) (hValue : m.heap.Has value) :
    Advances m (plain (asSuperclass name expr value))
      (fun id heap => heap.Has (.blueprint id)) := by
  unfold asSuperclass
  split
  · exact .pure hValue
  · exact .failAt ..

theorem classFrame_advances {superclass : Option ClassId}
    (hFrame : ctx.frame < m.heap.frames.size)
    (hParent : ∀ id, superclass = some id → m.heap.Has (.blueprint id)) :
    Advances m (opening .superclass (classFrame ctx superclass))
      (fun frame heap => frame < heap.frames.size) := by
  cases superclass with
  | none => exact .opening (.pure _) (.pure hFrame)
  | some id =>
    have hBindings := hParent id rfl
    simp only [classFrame]
    exact .openFrame _ (.single superName hBindings) hFrame
      rfl (by simp [Heap.addFrame])

theorem makeClass_advances (h : Ready m ctx) (name : Token) {superclass : Option ClassId}
    (hParent : ∀ id, superclass = some id → m.heap.Has (.blueprint id)) (methods : List Function) :
    Advances m (Traced.makeClass ctx name superclass methods) anyResult := by
  have hNil : m.heap.Has .nil := trivial
  apply Advances.bind (declare_advances _ hNil)
  intro _ m₁ h₁ _
  apply Advances.bind
    (classFrame_advances (h₁.frame_lt h.frame) fun id hId => h₁.has (hParent id hId))
  intro frame m₂ h₂ hFrame
  have hMethods : (methodTable frame methods).All (·.frame < m₂.heap.frames.size) := by
    refine .ofPairs fun pair hMem => ?_
    rcases List.mem_map.mp hMem with ⟨f, _, rfl⟩
    exact hFrame
  refine .bind
    (.allocate (Q := fun id heap => heap.Has (.blueprint id))
      (.addClass (fun id hId => ?_) hMethods) rfl ?_) fun _ hClass => assign_advances _ _ hClass
  · exact (h₁.trans h₂).has (hParent id hId)
  · simp [Has, Heap.addClass]

end

end Eval

end Scriptlet
