import Scriptlet.Proofs.Session.Dispatch

/-
  Objects are created, and initializers return them.

  Key declarations include:
    * `Heap.Initializes`
    * `Eval.Constructs`
    * `Eval.Returns`
    * `Eval.initializes_iff`
    * `Eval.class_constructs`
    * `Eval.apply_function_iff`

  A call of a class gives a new object of that class, and a
  call of an initializer gives the object that it is bound
  to, whatever their bodies return:
    * `Session.construction_yields_instance`
-/

namespace Scriptlet

namespace Heap

/- The `init` of some class, bound to an object. -/
def Initializes (heap : Heap) (value : Value) (object : ObjectId) : Prop :=
  ∃ classId method, heap.ownMethod? initializerName classId = some method ∧
      heap.Bound value method object

/- A function of its own, whatever its name is. -/
def Standalone (heap : Heap) (f : Function) (value : Value) : Prop :=
  ∃ id closure, value = .function id ∧ heap.functions[id]? = some closure ∧
      closure.function = f ∧ ∀ object, ¬ heap.Initializes value object

/- How many arguments a class with this initializer takes. -/
def required : Option Closure → Nat
  | some method => method.function.arity
  | none => 0

/- A method that is found is declared by some class. -/
theorem ownMethod?_of_findMethod? {heap : Heap} {classId : ClassId}
    {name : String} {method : Closure} (h : heap.findMethod? classId name = some method) :
    ∃ classId, heap.ownMethod? name classId = some method := by
  rcases Eval.mem_of_findMethod? h with ⟨c, hMem, hGet⟩
  rcases Array.mem_iff_getElem?.mp hMem with ⟨owner, hClass⟩
  refine ⟨owner, ?_⟩
  rw [ownMethod?, hClass, Option.bind_some, hGet]

end Heap

namespace Eval

open Scope (Distances)

variable {table : Distances} {heap : Heap} {id : FunctionId} {closure : Closure} {object : ObjectId}
variable {ctx : Context} {paren : Token} {arguments : List Value} {w w' : World}

/- An initializer stands in the frame of its object. -/
theorem initializer_self (h : AllRunnable table heap)
    (hFound : heap.functions[id]? = some closure)
    (hInit : closure.isInitializer = true) :
    ∃ object, heap.local? closure.frame "this" = some (.object object) := by
  have hRunnable := h.functions closure (Array.mem_of_getElem? hFound)
  cases hRunnable.origin with
  | made => cases hInit
  | bound hHosts => exact hHosts.self

/- Functions are marked as initializers only if they are. -/
theorem initializes_iff (h : AllRunnable table heap)
    (hFound : heap.functions[id]? = some closure) :
    heap.Initializes (.function id) object ↔ closure.isInitializer = true ∧
        heap.local? closure.frame "this" = some (.object object) := by
  constructor
  · rintro ⟨classId, method, hOwn, other, frame, hValue, hFunction, hSelf, _⟩
    cases hValue
    cases hFound.symm.trans hFunction
    rcases Option.bind_eq_some_iff.mp hOwn with ⟨c, hClass, hGet⟩
    have hMethod := h.methods c (Array.mem_of_getElem? hClass) _ method hGet
    refine ⟨?_, hSelf⟩
    rw [hMethod.initializer]
    exact decide_eq_true rfl
  · rintro ⟨hInit, hSelf⟩
    have hRunnable := h.functions closure (Array.mem_of_getElem? hFound)
    cases hRunnable.origin with
    | made => cases hInit
    | @bound frame c name method hHosts =>
      have hMethod := h.methods c hHosts.declared name method hHosts.found
      obtain rfl : name = Heap.initializerName :=
        of_decide_eq_true (hMethod.initializer.symm.trans hInit)
      rcases Array.mem_iff_getElem?.mp hHosts.declared with ⟨classId, hClass⟩
      refine ⟨classId, method, ?_, id, frame, rfl, hFound, hSelf, hHosts.parent⟩
      rw [Heap.ownMethod?, hClass, Option.bind_some, hHosts.found]

/- A function stays an initializer of an object, or none. -/
theorem Leaves.initializes_iff {value : Value} (h : Leaves table ctx w w')
    (hAllRun : AllRunnable table w.heap) (hValue : w.heap.Has value) :
    w'.heap.Initializes value object ↔ w.heap.Initializes value object := by
  cases value with
  | function id =>
    have hFound := Array.getElem?_eq_getElem hValue
    rcases h.grows.functions _ _ hFound with ⟨closure, hFound', rfl⟩
    have hRunnable := hAllRun.functions _ (Array.mem_of_getElem? hFound)
    rcases hRunnable.runs with ⟨P, kinds, hRuns⟩
    rw [Eval.initializes_iff h.standing.allRunnable hFound', Eval.initializes_iff hAllRun hFound,
      h.keeps.reserved hRuns.runsIn.lined.frame_lt Heap.not_ordinary_this]
  | _ =>
    constructor <;>
      rintro ⟨_, _, _, _, _, hOther, _⟩ <;>
        cases hOther

/- An `init` that is bound initializes the object. -/
theorem bound_initializes {classId : ClassId} {method : Closure} {value : Value}
    (hFound : w.heap.findMethod? classId Heap.initializerName = some method)
    (h : bound method object w = .done value w') : w'.heap.Initializes value object := by
  rcases Heap.ownMethod?_of_findMethod? hFound with ⟨owner, hOwn⟩
  rcases bound_done method object w with ⟨other, w₁, hEnd, hBound⟩
  cases h.symm.trans hEnd
  cases hEnd
  exact ⟨owner, method, hOwn, hBound⟩

/- What the statements of a body return. -/
def Flow.value : Flow → Value
  | .returned value => value
  | _ => .nil

/- Run the body of a function in a frame of its own. -/
def runBody (fuel : Nat) (ctx : Context) (closure : Closure)
    (arguments : List Value) : Action Flow := do
  let frame ← allocate fun heap =>
      heap.addFrame (parameters closure.function arguments) (some closure.frame)
  let inside := { ctx with frame := frame, depth := ctx.depth + 1 }
  executeAll fuel inside closure.function.body

/- What a call gives after the body of the function. -/
inductive Returns (heap : Heap) (callee : Value) (flow : Flow) : Value → Prop where
  | object {self} : heap.Initializes callee self → Returns heap callee flow (.object self)
  | own : (∀ object, ¬ heap.Initializes callee object) → Returns heap callee flow flow.value

/- A body is run unless too many calls are active. -/
theorem invoke_eq (fuel : Nat) (ctx : Context) (closure : Closure)
    (paren : Token) (arguments : List Value) (w : World) :
    invoke (fuel + 1) ctx closure paren arguments w =
      if depthLimit ≤ ctx.depth then
        .failed (.atToken paren .callDepth) w
      else
        (runBody fuel ctx closure arguments >>= result closure) w := by
  simp only [invoke]
  split <;> rfl

theorem invoke_done_iff {fuel : Nat} {value : Value} :
    invoke fuel ctx closure paren arguments w = .done value w' ↔
      ∃ fuel' flow w₁, fuel = fuel' + 1 ∧ ctx.depth < depthLimit ∧
          runBody fuel' ctx closure arguments w = .done flow w₁ ∧
            result closure flow w₁ = .done value w' := by
  constructor
  · intro hEnd
    cases fuel with
    | zero => cases hEnd
    | succ fuel =>
      rw [invoke_eq] at hEnd
      split at hEnd
      · cases hEnd
      · rename_i hDepth
        rcases of_bind_done hEnd with ⟨flow, w₁, hBody, hResult⟩
        exact ⟨fuel, flow, w₁, rfl, Nat.lt_of_not_le hDepth, hBody, hResult⟩
  · rintro ⟨fuel, flow, w₁, rfl, hDepth, hBody, hResult⟩
    rw [invoke_eq, if_neg (Nat.not_le_of_lt hDepth), bind_done _ hBody, hResult]

theorem runBody_left (fuel : Nat) (h : Standing table ctx w)
    (hClosure : Runnable table w.heap closure) (hArguments : presentAll arguments w.heap) :
    Left table ctx w presentFlow (runBody fuel ctx closure arguments w) := by
  rcases hClosure.runs with ⟨P, kinds, hRuns⟩
  have hParameters : (parameters closure.function arguments).All w.heap.Has :=
    .ofPairs fun pair hMem => hArguments _ (List.of_mem_zip hMem).2
  have hOpen := h.addFrame hParameters hRuns.runsIn.lined.frame_lt
  have hSounds : Sounds table (Task.ofClosure fuel ctx w closure arguments) :=
    ofClosure_sounds h hClosure hArguments
  cases hSounds _ (List.mem_singleton_self _) with
  | executeAll hSits hSensible hKnown =>
    exact (executeAll_left fuel hSits hSensible hKnown).behind hOpen

theorem result_initializer {value : Value} (hInit : closure.isInitializer = true)
    (hSelf : w.heap.local? closure.frame "this" = some value) (flow : Flow) :
    result closure flow w = .done value w := by
  unfold result
  rw [if_pos hInit]
  exact require_done _ _ hSelf

theorem result_own (hInit : closure.isInitializer = false) (flow : Flow)
    (w : World) : result closure flow w = .done flow.value w := by
  unfold result
  rw [if_neg (Bool.eq_false_iff.mp hInit)]
  cases flow <;> rfl

/- The mark decides what a call gives. -/
theorem result_iff {flow : Flow} {value : Value} {w₁ w₂ : World}
    (h : AllRunnable table w.heap) (hFound : w.heap.functions[id]? = some closure)
    (hKeeps : w.heap.Keeps w₁.heap) :
    result closure flow w₁ = .done value w₂ ↔ w₁ = w₂ ∧
        Returns w.heap (.function id) flow value := by
  cases hInit : closure.isInitializer with
  | true =>
    rcases initializer_self h hFound hInit with ⟨object, hSelf⟩
    have hFrame := Heap.lt_of_local? hSelf
    have hSelf₁ : w₁.heap.local? closure.frame "this" = some (.object object) := by
      rw [hKeeps.reserved hFrame Heap.not_ordinary_this, hSelf]
    rw [result_initializer hInit hSelf₁]
    constructor
    · intro hEnd
      cases hEnd
      exact ⟨rfl, .object ((initializes_iff h hFound).mpr ⟨hInit, hSelf⟩)⟩
    · rintro ⟨rfl, hReturns⟩
      cases hReturns with
      | object hOther =>
        have hOther := ((initializes_iff h hFound).mp hOther).2
        cases hSelf.symm.trans hOther
        rfl
      | own hNone => exact absurd ((initializes_iff h hFound).mpr ⟨hInit, hSelf⟩) (hNone object)
  | false =>
    have hNone (object : ObjectId) : ¬ w.heap.Initializes (.function id) object := by
      rw [initializes_iff h hFound, hInit]
      rintro ⟨⟨⟩, _⟩
    rw [result_own hInit]
    constructor
    · intro hEnd
      cases hEnd
      exact ⟨rfl, .own hNone⟩
    · rintro ⟨rfl, hReturns⟩
      cases hReturns with
      | object hOther => exact absurd hOther (hNone _)
      | own => rfl

theorem apply_function_eq (fuel : Nat) (hFound : w.heap.functions[id]? = some closure) :
    apply (fuel + 1) ctx (.function id) paren arguments w =
      if arguments.length = closure.function.arity then
        invoke fuel ctx closure paren arguments w
      else
        .failed (.atToken paren (.arity closure.function.arity arguments.length)) w := by
  have hCheck := checkCall_eq (.function id) paren arguments.length w
  simp only [arity?, hFound, Option.map_some] at hCheck
  rw [apply]
  split
  · rename_i hArity
    rw [if_pos hArity] at hCheck
    have hLook : inspect (·.functions[id]?) w = .done (some closure) w := by
      rw [← hFound]
      rfl
    rw [bind_done _ hCheck]
    exact bind_done _ hLook
  · rename_i hArity
    rw [if_neg hArity] at hCheck
    exact bind_failed _ hCheck

/- When a call of a function comes to an end. -/
theorem apply_function_iff {fuel : Nat} {value : Value}
    (h : Standing table ctx w) (hFound : w.heap.functions[id]? = some closure)
    (hArguments : presentAll arguments w.heap) :
    apply (fuel + 1) ctx (.function id) paren arguments w = .done value w' ↔
      ∃ fuel' flow, fuel = fuel' + 1 ∧
        arguments.length = closure.function.arity ∧ ctx.depth < depthLimit ∧
        runBody fuel' ctx closure arguments w = .done flow w' ∧
        Returns w.heap (.function id) flow value := by
  have hRunnable := h.allRunnable.functions closure (Array.mem_of_getElem? hFound)
  have hKeeps {fuel : Nat} {flow : Flow} {w₁ : World}
      (hBody : runBody fuel ctx closure arguments w = .done flow w₁) : w.heap.Keeps w₁.heap :=
    ((runBody_left fuel h hRunnable hArguments).ended hBody).1.keeps
  rw [apply_function_eq fuel hFound]
  split
  · rename_i hArity
    rw [invoke_done_iff]
    constructor
    · rintro ⟨fuel', flow, w₁, hFuel, hDepth, hBody, hResult⟩
      rcases (result_iff h.allRunnable hFound (hKeeps hBody)).mp hResult with ⟨rfl, hReturns⟩
      exact ⟨fuel', flow, hFuel, hArity, hDepth, hBody, hReturns⟩
    · rintro ⟨fuel', flow, hFuel, _, hDepth, hBody, hReturns⟩
      have hResult := (result_iff h.allRunnable hFound (hKeeps hBody)).mpr ⟨rfl, hReturns⟩
      exact ⟨fuel', flow, w', hFuel, hDepth, hBody, hResult⟩
  · rename_i hArity
    constructor
    · exact fun hEnd => nomatch hEnd
    · exact fun ⟨_, _, _, hOther, _⟩ => absurd hOther hArity

------------------------------------------------------------
-- Calls of Classes
------------------------------------------------------------

variable {classId : ClassId}

/-
  How a call of a class ends.  The object did not exist
  before, and it is of exactly that class.
-/
inductive Created (heap : Heap) (classId : ClassId) : Outcome Value → Prop where
  | done {self o w} : heap.objects[self]? = none →
      w.heap.objects[self]? = some o → o.classId = classId →
      Created heap classId (.done (.object self) w)
  | failed {fault w} : Created heap classId (.failed fault w)
  | stopped {reason} : Created heap classId (.stopped reason)

/-
  A call of a class by its nearest initializer.  If there is
  one, the call ends as its run ends for the new object.
-/
inductive Constructs (fuel : Nat) (ctx : Context) (paren : Token) (arguments : List Value)
    (w : World) : Option Closure → Outcome Value → Prop where
  | refused {init} : arguments.length ≠ Heap.required init →
      Constructs fuel ctx paren arguments w init
        (.failed (.atToken paren (.arity (Heap.required init) arguments.length)) w)
  | bare {self w'} : arguments.length = Heap.required none →
      Constructs fuel ctx paren arguments w none (.done (.object self) w')
  | initialized {method frame self w₁} : arguments.length = Heap.required (some method) →
      w.heap.objects[self]? = none → w₁.heap.local? frame "this" = some (.object self) →
      w₁.heap.parent? frame = some method.frame →
      Constructs fuel ctx paren arguments w (some method)
        (invoke fuel ctx { method with frame := frame } paren arguments w₁)

theorem checkCall_class (classId : ClassId) (paren : Token) (given : Nat) (w : World) :
    checkCall (.blueprint classId) paren given w =
      if given = w.heap.classArity classId then .done () w
      else
        .failed (.atToken paren (.arity (w.heap.classArity classId) given)) w := by
  rw [checkCall_eq]
  rfl

theorem classArity_eq (heap : Heap) (classId : ClassId) :
    heap.classArity classId = Heap.required (heap.initializer? classId) := by
  unfold Heap.classArity
  cases heap.initializer? classId <;> rfl

/- A new object changes nothing about initializers. -/
theorem initializer?_addObject (heap : Heap) (classId : ClassId) :
    (heap.addObject classId).2.initializer? classId = heap.initializer? classId := by
  apply findMethod?_congr
  rfl

/- The world with a new object of a class. -/
def withObject (w : World) (classId : ClassId) : World :=
  { w with heap := (w.heap.addObject classId).2 }

/- The world with an object for which a method is run. -/
def withSelf (w : World) (classId : ClassId) (method : Closure) : World :=
  { w with heap := ((w.heap.addObject classId).2.bindMethod method w.heap.objects.size).2 }

theorem apply_class_eq (fuel : Nat) (ctx : Context) (paren : Token)
    (hArity : arguments.length = w.heap.classArity classId) :
    apply (fuel + 1) ctx (.blueprint classId) paren arguments w =
      match w.heap.initializer? classId with
      | none => .done (.object w.heap.objects.size) (withObject w classId)
      | some method =>
        (invoke fuel ctx { method with frame := w.heap.frames.size }
            paren arguments >>= fun _ => pure (.object w.heap.objects.size))
          (withSelf w classId method) := by
  have hCheck := checkCall_class classId paren arguments.length w
  rw [if_pos hArity] at hCheck
  have hAdd : allocate (·.addObject classId) w = .done w.heap.objects.size (withObject w classId) :=
    rfl
  have hLook : inspect (·.initializer? classId) (withObject w classId) =
        .done (w.heap.initializer? classId) (withObject w classId) := by
    rw [← initializer?_addObject]
    rfl
  rw [apply, bind_done _ hCheck]
  refine (bind_done _ hAdd).trans ?_
  refine (bind_done _ hLook).trans ?_
  cases w.heap.initializer? classId with
  | none => rfl
  | some method => exact bind_done _ rfl

section

variable {self : Value} (h : Standing table ctx w) (hClosure : Runnable table w.heap closure)
variable (hArguments : presentAll arguments w.heap) (hInit : closure.isInitializer = true)
variable (hSelf : w.heap.local? closure.frame "this" = some self)

include h hClosure hArguments hInit hSelf

/- An initializer returns the object that it stands for. -/
theorem invoke_initializer {fuel : Nat} {value : Value}
    (hEnd : invoke fuel ctx closure paren arguments w = .done value w') : value = self := by
  rcases invoke_done_iff.mp hEnd with ⟨fuel', flow, w₁, _, _, hBody, hResult⟩
  have hKeeps := ((runBody_left fuel' h hClosure hArguments).ended hBody).1.keeps
  have hSelf₁ : w₁.heap.local? closure.frame "this" = some self := by
    rw [hKeeps.reserved (Heap.lt_of_local? hSelf) Heap.not_ordinary_this, hSelf]
  cases (result_initializer hInit hSelf₁ flow).symm.trans hResult
  rfl

/- So the value of its run need not be replaced. -/
theorem invoke_returns_self (fuel : Nat) (paren : Token) :
    (invoke fuel ctx closure paren arguments >>= fun _ => pure self) w =
      invoke fuel ctx closure paren arguments w := by
  cases hEnd : invoke fuel ctx closure paren arguments w with
  | done value w' =>
    obtain rfl := invoke_initializer h hClosure hArguments hInit hSelf hEnd
    exact bind_done _ hEnd
  | failed fault w' => exact bind_failed _ hEnd
  | stopped reason => exact bind_stopped _ hEnd

/- A new object is still there after its initializer. -/
theorem invoke_created (hObject : self = .object object) {heap : Heap} {o : Object}
    (fuel : Nat)
    (paren : Token) (hNew : heap.objects[object]? = none)
    (hFound : w.heap.objects[object]? = some o) :
    Created heap o.classId (invoke fuel ctx closure paren arguments w) := by
  cases hEnd : invoke fuel ctx closure paren arguments w with
  | done value w' =>
    obtain rfl := invoke_initializer h hClosure hArguments hInit hSelf hEnd
    have hLeaves := ((invoke_left fuel paren h hClosure hArguments).ended hEnd).1
    rcases hLeaves.grows.objects _ _ hFound with ⟨o', hFound', hClass, _⟩
    rw [hObject]
    exact .done hNew hFound' hClass
  | failed fault w' => exact .failed
  | stopped reason => exact .stopped

end

theorem isInitializer_of_initializer? {method : Closure} (h : AllRunnable table heap)
    (hInit : heap.initializer? classId = some method) : method.isInitializer = true := by
  rcases h.offered hInit with ⟨c, _, _, hMethod⟩
  rw [hMethod.initializer]
  exact decide_eq_true rfl

/- A call with an initializer is a run of it. -/
theorem class_initialized {method : Closure} (fuel : Nat) (paren : Token)
    (h : Standing table ctx w) (hClass : w.heap.Has (.blueprint classId))
    (hArguments : presentAll arguments w.heap) (hInit : w.heap.initializer? classId = some method)
    (hArity : arguments.length = Heap.required (some method)) :
    let outcome :=
      apply (fuel + 1) ctx (.blueprint classId) paren arguments w
    Created w.heap classId outcome ∧
      Constructs fuel ctx paren arguments w (some method) outcome := by
  intro outcome
  rcases h.construct hClass ((initializer?_addObject ..).trans hInit) with ⟨hLeaves, hRunnable⟩
  have hMarked := isInitializer_of_initializer? h.allRunnable hInit
  have hPresent := hArguments.grow hLeaves.grows
  have hNew : w.heap.objects[w.heap.objects.size]? = none := Array.getElem?_eq_none (Nat.le_refl _)
  have hObject : (withSelf w classId method).heap.objects[ w.heap.objects.size]? =
        some ⟨classId, []⟩ := Array.getElem?_push_size
  have hSelf : (withSelf w classId method).heap.local?
          w.heap.frames.size "this" = some (.object w.heap.objects.size) :=
    Heap.local?_addFrame_new ..
  have hSame : outcome = invoke fuel ctx { method with frame := w.heap.frames.size } paren
          arguments (withSelf w classId method) := by
    have hArity : arguments.length = w.heap.classArity classId := by
      rw [hArity, classArity_eq, hInit]
    simp only [outcome]
    rw [apply_class_eq fuel ctx paren hArity, hInit]
    exact invoke_returns_self hLeaves.standing hRunnable hPresent hMarked hSelf fuel paren
  rw [hSame]
  exact ⟨invoke_created hLeaves.standing hRunnable hPresent hMarked hSelf rfl fuel paren
      hNew hObject, .initialized hArity hNew hSelf (Heap.parent?_addFrame_new ..)⟩

/- What a call of a class does. -/
theorem class_constructs (fuel : Nat) (paren : Token) (h : Standing table ctx w)
    (hClass : w.heap.Has (.blueprint classId)) (hArguments : presentAll arguments w.heap) :
    let outcome :=
      apply (fuel + 1) ctx (.blueprint classId) paren arguments w
    Created w.heap classId outcome ∧ Constructs fuel ctx paren arguments w
        (w.heap.initializer? classId) outcome := by
  intro outcome
  have hRequired := classArity_eq w.heap classId
  by_cases hArity : arguments.length = w.heap.classArity classId
  · cases hInit : w.heap.initializer? classId with
    | none =>
      simp only [outcome]
      rw [apply_class_eq fuel ctx paren hArity, hInit]
      have hNew : w.heap.objects[w.heap.objects.size]? = none :=
        Array.getElem?_eq_none (Nat.le_refl _)
      rw [hRequired, hInit] at hArity
      exact ⟨.done hNew Array.getElem?_push_size rfl, .bare hArity⟩
    | some method =>
      rw [hRequired, hInit] at hArity
      exact class_initialized fuel paren h hClass hArguments hInit hArity
  · have hCheck := checkCall_class classId paren arguments.length w
    rw [if_neg hArity, hRequired] at hCheck
    rw [hRequired] at hArity
    simp only [outcome]
    rw [apply, bind_failed _ hCheck]
    exact ⟨.failed, .refused hArity⟩

/- A function that no class declares. -/
theorem standalone {f : Function} {frame : FrameId} (h : AllRunnable table heap)
    (hFound : heap.functions[id]? = some ⟨f, frame, false⟩) : heap.Standalone f (.function id) := by
  refine ⟨id, _, rfl, hFound, rfl, ?_⟩
  intro object hInit
  cases ((initializes_iff h hFound).mp hInit).1

/- A function literal makes one. -/
theorem function_standalone {fuel : Nat} {f : Function}
    (h : Task.Sound table (.evaluate (fuel + 1) ctx (.function f) w)) :
    ∃ value w', evaluate (fuel + 1) ctx (.function f) w = .done value w' ∧
        w'.heap.Standalone f value := by
  have hEnd : evaluate (fuel + 1) ctx (.function f) w = .done (.function w.heap.functions.size)
          ⟨(w.heap.addFunction ⟨f, ctx.frame, false⟩).2, w.host⟩ := by
    rfl
  have hAllRun := (h.leaves (congrArg Outcome.world? hEnd)).standing.allRunnable
  exact ⟨_, _, hEnd, standalone hAllRun Array.getElem?_push_size⟩

/- A function declaration makes one and binds its name. -/
theorem functionDecl_standalone {fuel : Nat} {f : Function}
    (h : Task.Sound table (.execute (fuel + 1) ctx (.functionDecl f) w)) :
    ∃ value w', execute (fuel + 1) ctx (.functionDecl f) w = .done .normal w' ∧
        w'.heap.local? ctx.frame f.label = some value ∧ w'.heap.Standalone f value := by
  have hEnd : execute (fuel + 1) ctx (.functionDecl f) w = .done .normal
          ⟨Heap.define (w.heap.addFunction ⟨f, ctx.frame, false⟩).2
              ctx.frame f.label (.function w.heap.functions.size), w.host⟩ := by
    rfl
  have hAllRun := (h.leaves (congrArg Outcome.world? hEnd)).standing.allRunnable
  refine ⟨_, _, hEnd, ?_, standalone hAllRun Array.getElem?_push_size⟩
  rw [Heap.local?_define]
  exact if_pos ⟨rfl, rfl, h.standing.frame⟩

/- A field comes before an initializer of the same name. -/
theorem getMember_initializes {name : Token} (hName : name.lexeme = Heap.initializerName) :
    match w.heap.field? object name.lexeme with
    | some field => getMember object name w = .done field w
    | none =>
      ∀ {value w'}, getMember object name w = .done value w' →
          w'.heap.Initializes value object := by
  have hLook : inspect (·.field? object name.lexeme) w =
        .done (w.heap.field? object name.lexeme) w :=
    rfl
  have hFind : inspect (·.methodOf? object name.lexeme) w =
        .done (w.heap.methodOf? object name.lexeme) w :=
    rfl
  unfold getMember
  rw [bind_done _ hLook]
  cases w.heap.field? object name.lexeme with
  | some field => rfl
  | none =>
    dsimp only
    intro value w' hEnd
    rw [bind_done _ hFind] at hEnd
    cases hMethod : w.heap.methodOf? object name.lexeme with
    | none =>
      rw [hMethod] at hEnd
      cases hEnd
    | some method =>
      rw [hMethod] at hEnd
      rcases Option.bind_eq_some_iff.mp hMethod with ⟨o, _, hFound⟩
      rw [hName] at hFound
      exact bound_initializes hFound hEnd

/- An initializer of a superclass is one of the object. -/
theorem superMethod_initializes {P : Scope.Site → Prop}
    {kinds : List Scope.Kind} {scopes : List Scope.Names} {node : Nat}
    {keyword name : Token} {value : Value} (h : Sits table P kinds ctx w)
    (hWord : keyword.lexeme = "super") (hSite : P ⟨⟨.superMethod, node, keyword⟩, kinds, scopes⟩)
    (hName : name.lexeme = Heap.initializerName)
    (hEnd : superMethod ctx node keyword name w = .done value w') :
    ∃ f object, w.heap.holder? ctx.frame "this" = some f ∧
        w.heap.local? f "this" = some (.object object) ∧ w'.heap.Initializes value object := by
  rcases superMethod_dispatches h hWord hSite name with ⟨c, own, object, parent, hIn, _, _, hSame⟩
  rcases hIn.self with ⟨f, hHolder, hSelf, _⟩
  refine ⟨f, object, hHolder, hSelf, ?_⟩
  rw [hSame] at hEnd
  split at hEnd
  · rename_i found hFound
    rw [hName] at hFound
    exact bound_initializes hFound hEnd
  · cases hEnd

end Eval

namespace Session

open Eval (Created Constructs Returns runBody depthLimit)

/-
  In every session and every step, a call of a class gives a
  new object of exactly that class or fails.  The number of
  arguments is that of the nearest initializer.  A call of a
  function gives the object of an initializer, and what the
  body returns if the function is none.  What is looked up as
  `init` of an object or with `super` is an initializer of
  the object; what a function declaration or a literal makes
  is none.  Nothing that is run changes this.
-/
theorem construction_yields_instance
    {steps : List Step}
    {session : Session}
    (h : Reached steps session)
    (step : Step) :
    (∀ fuel ctx classId paren arguments w,
      session.Performs step
          (.apply (fuel + 1) ctx (.blueprint classId) paren
            arguments w) →
        let outcome :=
          Eval.apply (fuel + 1) ctx (.blueprint classId) paren
            arguments w
        Created w.heap classId outcome ∧
          ∃ classes, w.heap.Lineage classId classes ∧
            Constructs fuel ctx paren arguments w
              (classes.findSome?
                (w.heap.ownMethod? Heap.initializerName))
              outcome) ∧
    (∀ fuel ctx id paren arguments w,
      session.Performs step
          (.apply (fuel + 1) ctx (.function id) paren
            arguments w) →
        ∃ closure, w.heap.functions[id]? = some closure ∧
          ∀ value w',
            Eval.apply (fuel + 1) ctx (.function id) paren
                  arguments w = .done value w' ↔
              ∃ fuel' flow,
                fuel = fuel' + 1 ∧
                arguments.length = closure.function.arity ∧
                ctx.depth < depthLimit ∧
                runBody fuel' ctx closure arguments w =
                  .done flow w' ∧
                Returns w.heap (.function id) flow value) ∧
    (∀ fuel ctx target name w object w₁,
      name.lexeme = Heap.initializerName →
      Eval.evaluate fuel ctx target w =
          .done (.object object) w₁ →
        let outcome :=
          Eval.evaluate (fuel + 1) ctx (.get target name) w
        match w₁.heap.field? object name.lexeme with
        | some field => outcome = .done field w₁
        | none =>
            ∀ value w', outcome = .done value w' →
              w'.heap.Initializes value object) ∧
    (∀ fuel ctx id keyword name w value w',
      let expr := Expr.superMethod id keyword name
      session.Performs step
          (.evaluate (fuel + 1) ctx expr w) →
      name.lexeme = Heap.initializerName →
      Eval.evaluate (fuel + 1) ctx expr w =
          .done value w' →
        ∃ f object,
          w.heap.holder? ctx.frame "this" = some f ∧
          w.heap.local? f "this" = some (.object object) ∧
          w'.heap.Initializes value object) ∧
    (∀ fuel ctx f w,
      session.Performs step
          (.evaluate (fuel + 1) ctx (.function f) w) →
        ∃ value w',
          Eval.evaluate (fuel + 1) ctx (.function f) w =
              .done value w' ∧
            w'.heap.Standalone f value) ∧
    (∀ fuel ctx f w,
      session.Performs step
          (.execute (fuel + 1) ctx (.functionDecl f) w) →
        ∃ value w',
          Eval.execute (fuel + 1) ctx (.functionDecl f) w =
              .done .normal w' ∧
            w'.heap.local? ctx.frame f.label = some value ∧
              w'.heap.Standalone f value) ∧
    ∀ task w' value object,
      session.Performs step task →
      task.end? = some w' →
      task.world.heap.Has value →
        (w'.heap.Initializes value object ↔
          task.world.heap.Initializes value object) := by
  refine ⟨?_, ?_, ?_, ?_, ?_, ?_, ?_⟩
  · intro fuel ctx classId paren arguments w hTask outcome
    rcases h.sound hTask with ⟨table, hSound⟩
    cases hSound with
    | apply hStanding hClass hArguments =>
        rcases hStanding.sane.lineage classId with
          ⟨classes, hLineage⟩
        rcases Eval.class_constructs fuel paren hStanding hClass
            hArguments with
          ⟨hCreated, hConstructs⟩
        rw [Heap.initializer?,
          hLineage.findMethod?_eq hStanding.sane]
          at hConstructs
        exact ⟨hCreated, classes, hLineage, hConstructs⟩
  · intro fuel ctx id paren arguments w hTask
    rcases h.sound hTask with ⟨table, hSound⟩
    cases hSound with
    | apply hStanding hFunction hArguments =>
        have hFound := Array.getElem?_eq_getElem hFunction
        exact ⟨_, hFound, fun value w' =>
          Eval.apply_function_iff hStanding hFound hArguments⟩
  · intro fuel ctx target name w object w₁ hName hTarget
      outcome
    have hSame :
        outcome = Eval.getMember object name w₁ := by
      simp only [outcome, Eval.evaluate]
      exact Eval.bind_done _ hTarget
    rw [hSame]
    exact Eval.getMember_initializes hName
  · intro fuel ctx id keyword name w value w' expr hTask hName
      hEnd
    rcases h.sound hTask with ⟨table, hSound⟩
    cases hSound with
    | evaluate hSits hSensible hKnown =>
        simp only [expr, Expr.Sensible] at hSensible
        simp only [expr, Expr.Known] at hKnown
        simp only [expr, Eval.evaluate] at hEnd
        exact Eval.superMethod_initializes hSits hSensible.1
          hKnown hName hEnd
  · intro fuel ctx f w hTask
    rcases h.sound hTask with ⟨table, hSound⟩
    exact Eval.function_standalone hSound
  · intro fuel ctx f w hTask
    rcases h.sound hTask with ⟨table, hSound⟩
    exact Eval.functionDecl_standalone hSound
  · intro task w' value object hTask hEnd hValue
    rcases h.sound hTask with ⟨table, hSound⟩
    exact (hSound.leaves hEnd).initializes_iff
      hSound.standing.allRunnable hValue

def isDone {α : Type} : Eval.Outcome α → Bool
  | .done _ _ => true
  | _ => false

/- A call with one argument of a class that inherits its initializer. -/
def isInheritingCall : Eval.Task → Bool
  | .apply (fuel + 1) ctx (.blueprint classId) paren arguments w =>
    (w.heap.ownMethod? Heap.initializerName classId).isNone && arguments.length == 1 &&
      isDone (Eval.apply (fuel + 1) ctx (.blueprint classId) paren arguments w)
  | _ => false

/- A use of the initializer of a superclass. -/
def isSuperInitializer : Eval.Task → Bool
  | .evaluate (fuel + 1) ctx (.superMethod id keyword name) w =>
    name.lexeme == Heap.initializerName &&
      isDone (Eval.evaluate (fuel + 1) ctx (.superMethod id keyword name) w)
  | _ => false

/-
  The last class inherits an initializer with one argument,
  which returns a text.  It calls another one that returns a
  number from inside of a loop.
-/
theorem object_of_inheriting_class :
    let session := Session.start {} .halt
    let step :=
      Step.run 60
        ("class A \x7b init(a, b) \x7b " ++
          "while (b) \x7b \x7b return 7; \x7d \x7d \x7d \x7d\n" ++
          "class B < A \x7b init(a) \x7b " ++
          "super.init(a, true); return \"x\"; \x7d \x7d\n" ++
          "class C < B \x7b \x7d\n" ++
          "C(1);")
        "classes"
    Reached [] session ∧
      (∃ fuel ctx classId paren arguments w,
        session.Performs step
            (.apply (fuel + 1) ctx (.blueprint classId) paren
              arguments w) ∧
          w.heap.ownMethod? Heap.initializerName classId =
              none ∧
            arguments.length = 1 ∧
              ∃ object o w',
                Eval.apply (fuel + 1) ctx (.blueprint classId)
                      paren arguments w =
                    .done (.object object) w' ∧
                  w.heap.objects[object]? = none ∧
                    w'.heap.objects[object]? = some o ∧
                      o.classId = classId) ∧
      ∃ fuel ctx id keyword name w,
        let expr := Expr.superMethod id keyword name
        session.Performs step
            (.evaluate (fuel + 1) ctx expr w) ∧
          name.lexeme = Heap.initializerName ∧
            ∃ value w' f object,
              Eval.evaluate (fuel + 1) ctx expr w =
                  .done value w' ∧
                w.heap.local? f "this" =
                    some (.object object) ∧
                  w'.heap.Initializes value object := by
  intro session step
  have hReached : Reached [] session := .start {} .halt
  have hLaws := construction_yields_instance hReached step
  refine ⟨hReached, ?_, ?_⟩
  · have hCalled :
        (session.performed step 20).any isInheritingCall = true := by
      decide +kernel
    rcases List.any_eq_true.mp hCalled with
      ⟨task, hMem, hTask⟩
    unfold isInheritingCall at hTask
    split at hTask
    · rename_i fuel ctx classId paren arguments w
      have hPerforms := performs_of_mem hMem
      have hCreated :=
        (hLaws.1 fuel ctx classId paren arguments w
          hPerforms).1
      rw [Bool.and_eq_true, Bool.and_eq_true] at hTask
      rcases hTask with ⟨⟨hNone, hOne⟩, hDone⟩
      refine ⟨fuel, ctx, classId, paren, arguments, w,
        hPerforms, Option.isNone_iff_eq_none.mp hNone,
        eq_of_beq hOne, ?_⟩
      generalize Eval.apply (fuel + 1) ctx
        (.blueprint classId) paren arguments w = outcome
        at hCreated hDone
      cases hCreated with
      | done hNew hObject hClass =>
          exact ⟨_, _, _, rfl, hNew, hObject, hClass⟩
      | failed => cases hDone
      | stopped => cases hDone
    · cases hTask
  · have hUsed :
        (session.performed step 20).any isSuperInitializer = true := by
      decide +kernel
    rcases List.any_eq_true.mp hUsed with ⟨task, hMem, hTask⟩
    unfold isSuperInitializer at hTask
    split at hTask
    · rename_i fuel ctx id keyword name w
      have hPerforms := performs_of_mem hMem
      rw [Bool.and_eq_true] at hTask
      rcases hTask with ⟨hName, hDone⟩
      have hName := eq_of_beq hName
      refine ⟨fuel, ctx, id, keyword, name, w, hPerforms,
        hName, ?_⟩
      unfold isDone at hDone
      split at hDone
      · rename_i value w' hEnd
        rcases hLaws.2.2.2.1 fuel ctx id keyword name w value
            w' hPerforms hName hEnd with
          ⟨f, object, _, hSelf, hInit⟩
        exact ⟨value, w', f, object, hEnd, hSelf, hInit⟩
      · cases hDone
    · cases hTask

end Session

end Scriptlet
