import Scriptlet.Proofs.Eval.Holds
import Scriptlet.Proofs.Eval.Machine

/-
  The machine follows the evaluator.

  Key declarations include:
    * `Eval.Follows`
    * `Eval.FollowsAll`
    * `Eval.followsAll`

  The machine does what the evaluator does, leaves the
  registers as they were, and records what was run by the
  rules.
-/

namespace Scriptlet

namespace Eval

section Rules

variable {P : Function → Prop} {old n : Nat} {registers : Registers}
variable {distances : Scope.Distances} {α β : Type}

/-
  The machine has done what the action does, with the
  registers as before, and recorded it by the rules.
-/
structure Ran.Fits (P : Function → Prop) (old n : Nat) (registers : Registers)
    (w : World) (outcome : Outcome α) (Q : List Record → Ending α → Prop)
    (ran : Ran α) : Prop where
  registers : ran.registers = registers
  same : ran.outcome = outcome
  kept : (keeping P old).Ends w outcome
  records : ∀ record ∈ ran.records, Formed P n record
  shape : Q ran.records outcome.ending

/- The machine follows the action, from these registers. -/
structure Follows (P : Function → Prop) (old n : Nat) (registers : Registers)
    (action : Action α) (Q : List Record → Ending α → Prop) (machine : Machine α) : Prop where
  fits (w : World) (hHeap : w.heap.Holds P)
    (hSize : old ≤ w.heap.frames.size := by exact Nat.zero_le _) :
    Ran.Fits P old n registers w (action w) Q (machine registers w)

/- Expressions may come before. -/
structure Prefixed (Q : List Record → Ending β → Prop) : Prop where
  prepend {before after ending} : Evaluated before → Q after ending → Q (before ++ after) ending
  failed {records fault} : Evaluated records → Q records (.failed fault)
  stopped {records reason} : Evaluated records → Q records (.stopped reason)

theorem Prefixed.evaluations : Prefixed (Evaluations : _ → Ending β → Prop) where
  prepend := Evaluated.append
  failed h := h
  stopped h := h

theorem Prefixed.tried : Prefixed (Tried : _ → Ending β → Prop) where
  prepend hBefore hAfter := hAfter.prepend hBefore
  failed h := .of_evaluated h
  stopped h := .of_evaluated h

theorem Prefixed.handed (parts : List Stmt) (pass : Flow → Flow)
    (own : Flow → Prop) : Prefixed (Handed parts pass own) where
  prepend hBefore hAfter := hAfter.prepend (.of_evaluated hBefore parts)
  failed h := .failed (.of_evaluated h parts) _
  stopped h := .stopped (.of_evaluated h parts) _

namespace Follows

theorem weaken {Q R : List Record → Ending α → Prop} {action : Action α}
    {machine : Machine α} (h : Follows P old n registers action Q machine)
    (hImp : ∀ {records ending}, Q records ending → R records ending) :
    Follows P old n registers action R machine := by
  constructor
  intro w hHeap hSize
  have hFits := h.fits w hHeap hSize
  exact { hFits with shape := hImp hFits.shape }

/- Both go on from the same world. -/
theorem bind {Q : List Record → Ending α → Prop}
    {R : List Record → Ending β → Prop} {action : Action α}
    {machine : Machine α} {next : α → Action β} {goOn : α → Machine β}
    (hMachine : Follows P old n registers action Q machine)
    (hFailed : ∀ {records fault}, Q records (.failed fault) → R records (.failed fault))
    (hStopped : ∀ {records reason}, Q records (.stopped reason) → R records (.stopped reason))
    (hNext : ∀ {value before}, Q before (.done value) → Follows P old n registers (next value)
        (fun after ending => R (before ++ after) ending) (goOn value)) :
    Follows P old n registers (action >>= next) R (machine >>= goOn) := by
  constructor
  intro w hHeap hSize
  have hFits := hMachine.fits w hHeap hSize
  change Ran.Fits P old n registers w (Action.bind action next w) R
    (Machine.bind machine goOn registers w)
  unfold Action.bind Machine.bind
  generalize machine registers w = ran at hFits
  rcases ran with ⟨registers', records, outcome⟩
  rcases hFits with ⟨hRegisters, hSame, hKept, hRecords, hQ⟩
  obtain rfl : registers' = registers := hRegisters
  obtain rfl : outcome = action w := hSame
  generalize action w = outcome at hKept hQ
  cases hKept with
  | done hKeeps =>
    have hRest := (hNext hQ).fits _ (hKeeps.holds hHeap) (hKeeps.spares hSize).size
    dsimp only
    refine ⟨hRest.registers, hRest.same, hRest.kept.since hKeeps, ?_, hRest.shape⟩
    intro record hMem
    rcases List.mem_append.mp hMem with hMem | hMem
    · exact hRecords record hMem
    · exact hRest.records record hMem
  | failed hKeeps => exact ⟨rfl, rfl, .failed hKeeps trivial, hRecords, hFailed hQ⟩
  | stopped => exact ⟨rfl, rfl, .stopped, hRecords, hStopped hQ⟩

/- Expressions first. -/
theorem after {Q : List Record → Ending β → Prop} {action : Action α}
    {machine : Machine α} {next : α → Action β} {goOn : α → Machine β} (hQ : Prefixed Q)
    (hMachine : Follows P old n registers action Evaluations machine)
    (hNext : ∀ value, Follows P old n registers (next value) Q (goOn value)) :
    Follows P old n registers (action >>= next) Q (machine >>= goOn) :=
  hMachine.bind hQ.failed hQ.stopped fun {value _} hBefore =>
    (hNext value).weaken (hQ.prepend hBefore)

theorem pure {Q : List Record → Ending α → Prop} {value : α} (h : Q [] (.done value)) :
    Follows P old n registers (Pure.pure value) Q (Pure.pure value) :=
  ⟨fun w _ _ => ⟨rfl, rfl, .done ((keeping P old).refl w), nofun, h⟩⟩

/- An action in the context of the registers. -/
theorem act {action : Context → Action α} {here : Action α}
    (hHere : action (registers.context distances) = here) (h : Maintains P old here) :
    Follows P old n registers here Evaluations (Machine.act distances action) :=
  ⟨fun w _ _ => ⟨rfl, by rw [← hHere]; rfl, h.ends w, nofun, .nil⟩⟩

/- An action whose value has a property. -/
theorem gives {V : α → Prop} {Q : List Record → Ending β → Prop}
    {action : Context → Action α} {here : Action α} {next : α → Action β}
    {goOn : α → Machine β} (hQ : Prefixed Q) (hHere : action (registers.context distances) = here)
    (hKeep : Maintains P old here)
    (hValue : ∀ {w value}, w.heap.Holds P → old ≤ w.heap.frames.size →
      (here w).ending = .done value → V value)
    (hNext : ∀ value, V value → Follows P old n registers (next value) Q (goOn value)) :
    Follows P old n registers (here >>= next) Q (Machine.act distances action >>= goOn) := by
  have hAct : Follows P old n registers here
      (fun records ending => Evaluated records ∧ ∀ value, ending = .done value → V value)
      (Machine.act distances action) := by
    constructor
    intro w hHeap hSize
    have hFits := (act (n := n) hHere hKeep).fits w hHeap hSize
    exact { hFits with
      shape := ⟨hFits.shape, fun _ => hValue hHeap hSize⟩ }
  apply hAct.bind
  · exact fun hGiven => hQ.failed hGiven.1
  · exact fun hGiven => hQ.stopped hGiven.1
  · intro value before hGiven
    exact (hNext value (hGiven.2 value rfl)).weaken (hQ.prepend hGiven.1)

/- A frame is opened, and names may be declared in it. -/
theorem opens {Q : List Record → Ending β → Prop} {bindings : Bindings Value}
    {outer : Option FrameId} {action : Context → Action FrameId}
    {next : FrameId → Action β} {goOn : FrameId → Machine β} (hQ : Prefixed Q)
    (hHere : action (registers.context distances) = allocate (·.addFrame bindings outer))
    (hNext : ∀ frame, old ≤ frame → Follows P old n registers (next frame) Q (goOn frame)) :
    Follows P old n registers (allocate (·.addFrame bindings outer) >>= next) Q
      (Machine.act distances action >>= goOn) := by
  refine gives hQ hHere (.openFrame bindings outer fun _ => rfl) ?_ hNext
  rintro w frame _ hSize ⟨⟩
  exact hSize

/- The frame is set back. -/
theorem within {Q : List Record → Ending α → Prop} {frame : FrameId}
    {action : Action α} {machine : Machine α}
    (h : Follows P old n { registers with frame := frame } action Q machine) :
    Follows P old n registers action Q (Machine.within frame machine) := by
  constructor
  intro w hHeap hSize
  have hFits := h.fits w hHeap hSize
  refine { hFits with registers := ?_ }
  simp only [Machine.within, hFits.registers]

/- The depth is set back. -/
theorem deeper {Q : List Record → Ending α → Prop} {action : Action α} {machine : Machine α}
    (h : Follows P old n { registers with depth := registers.depth + 1 } action
      Q machine) : Follows P old n registers action Q (Machine.deeper machine) := by
  constructor
  intro w hHeap hSize
  have hFits := h.fits w hHeap hSize
  refine { hFits with registers := ?_ }
  simp only [Machine.deeper, hFits.registers, Nat.add_sub_cancel]

/- What is run as one thing is recorded as one thing. -/
theorem noting {m : Nat} {Q R : List Record → Ending α → Prop}
    {make : Registers → List Record → Ending α → Record} {action : Action α}
    {machine : Machine α} (h : Follows P old m registers action Q machine)
    (hMake : ∀ {inside ending}, Q inside ending → (∀ record ∈ inside, Formed P m record) →
        Formed P n (make registers inside ending))
    (hShape : ∀ {inside ending}, R [make registers inside ending] ending) :
    Follows P old n registers action R (Machine.noting make machine) := by
  constructor
  intro w hHeap hSize
  have hFits := h.fits w hHeap hSize
  unfold Machine.noting
  generalize machine registers w = ran at hFits
  refine ⟨hFits.registers, hFits.same, hFits.kept, ?_, ?_⟩
  · intro record hMem
    obtain rfl := List.mem_singleton.mp hMem
    rw [hFits.same]
    exact hMake hFits.shape hFits.records
  · simp only [hFits.same]
    exact hShape

end Follows

end Rules

------------------------------------------------------------
-- Evaluation
------------------------------------------------------------

/- In this frame the statement declares nothing before `old`. -/
def Fresh (old : Nat) (frame : FrameId) (stmt : Stmt) : Prop :=
  old ≤ frame ∨ stmt.Sensible ∧ stmt.declares = false

/- Machines with this fuel follow the evaluator. -/
structure FollowsAll (P : Function → Prop) (old : Nat) (distances : Scope.Distances)
    (fuel : Nat) : Prop where
  evaluate (registers : Registers) (expr : Expr) : expr.Every P →
    Follows P old registers.depth registers (Eval.evaluate fuel (registers.context distances) expr)
      Evaluations (Machine.evaluate distances fuel expr)
  evaluateAll (registers : Registers) (exprs : List Expr) : exprsEvery P exprs →
    Follows P old registers.depth registers
      (Eval.evaluateAll fuel (registers.context distances) exprs)
      Evaluations (Machine.evaluateAll distances fuel exprs)
  evaluatePlace (registers : Registers) (target : Expr) (operator : Token) :
    target.Every P → Follows P old registers.depth registers
      (Eval.evaluatePlace fuel (registers.context distances) target operator)
      Evaluations (Machine.evaluatePlace distances fuel target operator)
  apply (registers : Registers) (callee : Value) (paren : Token)
      (arguments : List Value) : Follows P old registers.depth registers
      (Eval.apply fuel (registers.context distances) callee paren arguments)
      Tried (Machine.apply distances fuel callee paren arguments)
  invoke (registers : Registers) (closure : Closure) (paren : Token)
      (arguments : List Value) : P closure.function → Follows P old registers.depth registers
      (Eval.invoke fuel (registers.context distances) closure paren arguments)
      Tried (Machine.invoke distances fuel closure paren arguments)
  execute (registers : Registers) (stmt : Stmt) (hStmt : stmt.Every P)
    (hFresh : Fresh old registers.frame stmt := by exact .inl (Nat.zero_le _)) :
    Follows P old registers.depth registers
      (Eval.execute fuel (registers.context distances) stmt)
      (Single stmt registers) (Machine.execute distances fuel stmt)
  rounds (registers : Registers) (condition : Expr) (body : Stmt) :
    (Stmt.whileLoop condition body).Every P → Fresh old registers.frame body →
      Follows P old registers.depth registers
      (Eval.execute fuel (registers.context distances) (.whileLoop condition body))
      (Handed [body] (passes (.whileLoop condition body)) nothing)
      (Machine.rounds distances fuel condition body)
  executeAll (registers : Registers) (stmts : List Stmt) (hStmts : stmtsEvery P stmts)
    (hFrame : old ≤ registers.frame := by exact Nat.zero_le _) :
    Follows P old registers.depth registers
      (Eval.executeAll fuel (registers.context distances) stmts)
      (Handed stmts id nothing) (Machine.executeAll distances fuel stmts)

section Step

variable {stmt : Stmt} {action : Action Flow} {machine : Machine Flow}

variable {P : Function → Prop} {old : Nat} {distances : Scope.Distances} {fuel : Nat}
variable (ih : FollowsAll P old distances fuel) (registers : Registers)

/- What is evaluated inside of an expression. -/
theorem Follows.evaluated {registers : Registers} {expr : Expr}
    {action : Action Value} {machine : Machine Value}
    (h : Follows P old registers.depth registers action Tried machine) :
    Follows P old registers.depth registers action Evaluations
      (Machine.noting (.evaluated expr) machine) := by
  apply h.noting
  · intro inside ending hTried hInside
    exact .evaluated rfl hTried hInside
  · intro inside ending record hMem
    obtain rfl := List.mem_singleton.mp hMem
    rfl

/- Expressions are a part of what is tried. -/
theorem Follows.tried {n : Nat} {registers : Registers} {action : Action Value}
    {machine : Machine Value} (h : Follows P old n registers action Evaluations machine) :
    Follows P old n registers action Tried machine := h.weaken .of_evaluated

/- What is executed inside of a statement. -/
theorem Follows.executed {registers : Registers}
    (h : Follows P old registers.depth registers action (Ended stmt) machine) :
    Follows P old registers.depth registers action (Single stmt registers)
      (Machine.noting (.executed stmt) machine) := by
  apply h.noting
  · intro inside ending hEnded hInside
    exact .executed rfl hEnded hInside
  · intro inside ending
    exact .executed

/- Expressions only, and no signal. -/
structure Plainly (inside : List Record) (ending : Ending Flow) : Prop where
  evaluated : Evaluated inside
  noSignal : ending.signal? = none

theorem Prefixed.plainly : Prefixed Plainly where
  prepend hBefore hAfter := ⟨hBefore.append hAfter.evaluated, hAfter.noSignal⟩
  failed h := ⟨h, rfl⟩
  stopped h := ⟨h, rfl⟩

theorem Plainly.handed {parts : List Stmt} {pass : Flow → Flow}
    {own : Flow → Prop} {inside : List Record} {ending : Ending Flow}
    (h : Plainly inside ending) : Handed parts pass own inside ending := by
  apply Handed.calm (.of_evaluated h.evaluated parts)
  rintro flow rfl hSignal
  have hNone := h.noSignal
  rw [Ending.signal?_done hSignal] at hNone
  cases hNone

/- A statement that only evaluates expressions. -/
theorem Follows.plainly {registers : Registers} (hAnswers : ∀ ending, Answers stmt ending)
    (h : Follows P old registers.depth registers action Plainly machine) :
    Follows P old registers.depth registers action (Single stmt registers)
      (Machine.noting (.executed stmt) machine) :=
  .executed (h.weaken fun hPlainly => ⟨hPlainly.handed, hAnswers _⟩)

theorem Prefixed.ended
    (hFailed : ∀ fault, Answers stmt (.failed fault) := by exact fun _ => trivial)
    (hStopped : ∀ reason, Answers stmt (.stopped reason) := by exact fun _ => trivial) :
    Prefixed (Ended stmt) where
  prepend hBefore hAfter := ⟨(Prefixed.handed _ _ _).prepend hBefore hAfter.handed, hAfter.answers⟩
  failed h := ⟨(Prefixed.handed _ _ _).failed h, hFailed _⟩
  stopped h := ⟨(Prefixed.handed _ _ _).stopped h, hStopped _⟩

/- Without fuel nothing is recorded. -/
theorem Follows.unfueled {α : Type} {n : Nat} {registers : Registers}
    {Q : List Record → Ending α → Prop} (distances : Scope.Distances)
    (h : Q [] (.stopped .outOfFuel)) :
    Follows P old n registers exhausted Q (Machine.act distances fun _ => exhausted) :=
  ⟨fun _ _ _ => ⟨rfl, rfl, .stopped, nofun, h⟩⟩

include ih

theorem evaluate_follows {expr : Expr} (hExpr : expr.Every P) :
    Follows P old registers.depth registers
      (evaluate (fuel + 1) (registers.context distances) expr) Evaluations
      (Machine.evaluate distances (fuel + 1) expr) := by
  apply Follows.evaluated
  have hValues : Prefixed (Tried : _ → Ending Value → Prop) := .tried
  have hPure (value : Value) : Follows P old registers.depth registers (Pure.pure value)
        Tried (Pure.pure value) := .pure (.of_evaluated .nil)
  cases expr with
  | literal value => exact hPure _
  | name id name
  | self id keyword => exact .tried (.act rfl (.stores (readVariable_stores ..)))
  | assign id name value =>
    apply Follows.after hValues (ih.evaluate registers value hExpr)
    intro value
    exact .after hValues (.act rfl (.stores (writeVariable_stores ..))) fun _ => hPure value
  | compound target operator value =>
    apply Follows.after hValues (ih.evaluatePlace registers target operator hExpr.1)
    intro place
    refine .after hValues (.act rfl (.binding (Place.read_binding _ place))) ?_
    intro old
    apply Follows.after hValues (ih.evaluate registers value hExpr.2)
    intro operand
    refine .after hValues (.act rfl (.stores (operate_stores ..))) ?_
    intro new
    exact .after hValues (.act rfl (.stores (Place.write_stores ..))) fun _ => hPure new
  | increment target operator before =>
    apply Follows.after hValues (ih.evaluatePlace registers target operator hExpr)
    intro place
    refine .after hValues (.act rfl (.binding (Place.read_binding _ place))) ?_
    intro old
    cases old with
    | number old =>
      exact .after hValues (.act rfl (.stores (Place.write_stores ..))) fun _ => hPure _
    | _ => exact .tried (.act rfl (.failAt _ trivial))
  | unary operator operand =>
    apply Follows.after hValues (ih.evaluate registers operand hExpr)
    intro operand
    exact .tried (.act rfl (.stores (negate_stores ..)))
  | binary left operator right =>
    apply Follows.after hValues (ih.evaluate registers left hExpr.1)
    intro left
    apply Follows.after hValues (ih.evaluate registers right hExpr.2)
    intro right
    exact .tried (.act rfl (.stores (operate_stores ..)))
  | logical left operator right =>
    apply Follows.after hValues (ih.evaluate registers left hExpr.1)
    intro left
    split
    · exact hPure left
    · exact .tried (ih.evaluate registers right hExpr.2)
  | call callee paren arguments =>
    apply Follows.after hValues (ih.evaluate registers callee hExpr.1)
    intro callee
    apply Follows.after hValues (ih.evaluateAll registers arguments hExpr.2)
    intro arguments
    exact ih.apply registers callee paren arguments
  | get object name =>
    apply Follows.after hValues (ih.evaluate registers object hExpr)
    intro object
    exact .tried (.act rfl (.binding (getProperty_binding object name)))
  | set object name value =>
    apply Follows.after hValues (ih.evaluate registers object hExpr.1)
    intro object
    apply Follows.after hValues (ih.evaluate registers value hExpr.2)
    intro value
    exact .after hValues (.act rfl (setProperty_within ..)) fun _ => hPure value
  | index object bracket position =>
    apply Follows.after hValues (ih.evaluate registers object hExpr.1)
    intro object
    apply Follows.after hValues (ih.evaluate registers position hExpr.2)
    intro index
    exact .tried (.act rfl (getElement_within ..))
  | indexSet object bracket position value =>
    apply Follows.after hValues (ih.evaluate registers object hExpr.1)
    intro object
    apply Follows.after hValues (ih.evaluate registers position hExpr.2.1)
    intro index
    apply Follows.after hValues (ih.evaluate registers value hExpr.2.2)
    intro value
    exact .after hValues (.act rfl (setElement_within ..)) fun _ => hPure value
  | superMethod id keyword method => exact .tried (.act rfl (.binding (superMethod_binding ..)))
  | function f => exact .tried (.act rfl (.makeFunction _ hExpr))
  | group inner => exact .tried (ih.evaluate registers inner hExpr)
  | array bracket elements =>
    apply Follows.after hValues (ih.evaluateAll registers elements hExpr)
    intro items
    exact .after hValues (.act rfl (.allocate fun _ => .of_same rfl rfl rfl)) fun _ => hPure _

theorem evaluateAll_follows {exprs : List Expr} (hExprs : exprsEvery P exprs) :
    Follows P old registers.depth registers
      (evaluateAll (fuel + 1) (registers.context distances) exprs) Evaluations
      (Machine.evaluateAll distances (fuel + 1) exprs) := by
  have hPure (values : List Value) : Follows P old registers.depth registers (Pure.pure values)
        Evaluations (Pure.pure values) := .pure .nil
  cases exprs with
  | nil => exact hPure []
  | cons first others =>
    apply Follows.after .evaluations (ih.evaluate registers first hExprs.1)
    intro value
    apply Follows.after .evaluations (ih.evaluateAll registers others hExprs.2)
    intro values
    exact hPure _

theorem evaluatePlace_follows {target : Expr} (operator : Token) (hTarget : target.Every P) :
    Follows P old registers.depth registers
      (evaluatePlace (fuel + 1) (registers.context distances) target operator) Evaluations
      (Machine.evaluatePlace distances (fuel + 1) target operator) := by
  have hPure (place : Place) : Follows P old registers.depth registers (Pure.pure place)
        Evaluations (Pure.pure place) := .pure .nil
  simp only [Machine.evaluatePlace, evaluatePlace]
  cases target with
  | name id name => exact hPure _
  | get object name =>
    apply Follows.after .evaluations (ih.evaluate registers object hTarget)
    intro object
    exact hPure _
  | index object bracket position =>
    apply Follows.after .evaluations (ih.evaluate registers object hTarget.1)
    intro object
    apply Follows.after .evaluations (ih.evaluate registers position hTarget.2)
    intro index
    exact hPure _
  | _ => exact .act rfl (.failAt _ trivial)

theorem apply_follows (callee : Value) (paren : Token) (arguments : List Value) :
    Follows P old registers.depth registers
      (apply (fuel + 1) (registers.context distances) callee paren arguments) Tried
      (Machine.apply distances (fuel + 1) callee paren arguments) := by
  have hPure (value : Value) : Follows P old registers.depth registers (Pure.pure value)
        Tried (Pure.pure value) := .pure (.of_evaluated .nil)
  refine .after .tried (.act rfl (checkCall_within ..)) ?_
  intro _
  cases callee with
  | native native => exact .tried (.act rfl (callNative_within ..))
  | function id =>
    refine .gives (V := fun found => ∀ closure, found = some closure → P closure.function)
      .tried rfl (.inspect _) ?_ ?_
    · rintro w found hHeap _ hEnding closure rfl
      exact hHeap.of_function (Ending.done.inj hEnding)
    rintro (_ | closure) hClosure
    · exact .tried (.act rfl (.failAt _ trivial))
    · exact ih.invoke registers closure paren arguments (hClosure closure rfl)
  | blueprint id =>
    refine .after .tried (.act rfl (.allocate fun _ => .of_same rfl rfl rfl)) ?_
    intro object
    refine .gives (V := fun found => ∀ method, found = some method → P method.function)
      .tried rfl (.inspect _) ?_ ?_
    · rintro w found hHeap _ hEnding method rfl
      exact hHeap.of_method (Ending.done.inj hEnding)
    rintro (_ | method) hMethod
    · exact hPure _
    · refine .gives (V := fun closure => P closure.function) .tried rfl
        (.openFrame [("this", .object object)] (some method.frame) fun _ => rfl) ?_ ?_
      · rintro w closure _ _ ⟨⟩
        exact hMethod method rfl
      intro closure hClosure
      apply (ih.invoke registers closure paren arguments hClosure).bind
      · exact fun h => h
      · exact fun h => h
      · intro value before hBefore
        exact (hPure (.object object)).weaken hBefore.append
  | _ => exact .tried (.act rfl (.failAt _ trivial))

omit ih in
/- A body is run one call deeper. -/
theorem Follows.enter {registers : Registers} {closure : Closure} {frame : FrameId}
    (h : Follows P old (registers.depth + 1) ⟨frame, registers.depth + 1⟩ action
      (Handed closure.function.body id nothing) machine)
    (hClosure : P closure.function) (hDepth : registers.depth < depthLimit) :
    Follows P old registers.depth registers action Tried (Machine.enter closure frame machine) := by
  have hInside : Follows P old (registers.depth + 1) registers action
        (Handed closure.function.body id nothing)
        (Machine.deeper (Machine.within frame machine)) := .deeper (.within h)
  apply hInside.noting
  · intro inside ending hHanded hRecords
    exact .entered rfl hDepth hClosure hHanded hRecords
  · exact .entered

/- A body is entered one call deeper, or not at all. -/
theorem invoke_follows (hBodies : ∀ {f}, P f → stmtsEvery P f.body)
    {closure : Closure} (paren : Token) (arguments : List Value) (hClosure : P closure.function) :
    Follows P old registers.depth registers
      (invoke (fuel + 1) (registers.context distances) closure paren arguments) Tried
      (Machine.invoke distances (fuel + 1) closure paren arguments) := by
  by_cases hDepth : depthLimit ≤ registers.depth
  · have hAction : invoke (fuel + 1) (registers.context distances) closure
          paren arguments = failAt paren .callDepth := by
      exact if_pos hDepth
    rw [hAction]
    constructor
    intro w hHeap hSize
    simp only [Machine.invoke, if_pos hDepth]
    refine ⟨rfl, rfl, .failed ((keeping P old).refl w) trivial, ?_, .refused closure paren _⟩
    intro record hMem
    obtain rfl := List.mem_singleton.mp hMem
    exact .refused rfl hDepth
  · have hAction : invoke (fuel + 1) (registers.context distances) closure paren arguments =
        (do
          let frame ← allocate fun heap =>
              heap.addFrame (parameters closure.function arguments) (some closure.frame)
          let inside : Registers := ⟨frame, registers.depth + 1⟩
          let flow ← executeAll fuel (inside.context distances) closure.function.body
          result closure flow) := by
      exact if_neg hDepth
    rw [hAction]
    constructor
    intro w hHeap hSize
    simp only [Machine.invoke, if_neg hDepth]
    refine Follows.fits ?_ w hHeap hSize
    refine .opens .tried rfl ?_
    intro frame hFrame
    have hBody :=
      ih.executeAll ⟨frame, registers.depth + 1⟩ closure.function.body (hBodies hClosure) hFrame
    apply (hBody.enter hClosure (Nat.lt_of_not_le hDepth)).bind
    · exact Tried.failed
    · exact Tried.stopped
    · intro flow before hBefore
      have hResult : Follows P old registers.depth registers (result closure flow) Tried
          (Machine.act distances fun _ =>
            result closure flow) :=
        .tried (.act rfl (.stores (result_stores ..)))
      exact hResult.weaken hBefore.append

theorem round_follows {condition : Expr} {body : Stmt}
    (hLoop : (Stmt.whileLoop condition body).Every P) (hFresh : Fresh old registers.frame body) :
    Follows P old registers.depth registers
      (execute (fuel + 1) (registers.context distances) (.whileLoop condition body))
      (Handed [body] (passes (.whileLoop condition body)) nothing)
      (Machine.round (Machine.evaluate distances fuel condition)
        (Machine.execute distances fuel body) (Machine.rounds distances fuel condition body)) := by
  have hOnly : body ∈ [body] := List.mem_singleton_self body
  apply Follows.after (.handed ..) (ih.evaluate registers condition hLoop.1)
  intro value
  split
  · apply (ih.execute registers body hLoop.2 hFresh).bind
    · exact fun h => .failed (.of_single hOnly h rfl) _
    · exact fun h => .stopped (.of_single hOnly h rfl) _
    · rintro (_ | _ | value) before hBefore
      · exact (ih.rounds registers condition body hLoop hFresh).weaken
          (.prepend (.of_single hOnly hBefore rfl))
      · apply Follows.pure
        rw [List.append_nil]
        exact .broken hBefore hOnly rfl
      · apply Follows.pure
        rw [List.append_nil]
        apply Handed.single hOnly hBefore
        rintro flow ⟨⟩
        rfl
  · exact .pure (.normal (.nil _))

theorem execute_follows (hStmt : stmt.Every P) (hFresh : Fresh old registers.frame stmt) :
    Follows P old registers.depth registers (execute (fuel + 1) (registers.context distances) stmt)
      (Single stmt registers) (Machine.execute distances (fuel + 1) stmt) := by
  have hNormal : Follows P old registers.depth registers
        (Pure.pure Flow.normal) Plainly (Pure.pure Flow.normal) := .pure ⟨.nil, rfl⟩
  have hFrame (hDeclares : stmt.declares = true) : old ≤ registers.frame :=
    hFresh.resolve_right fun h => by cases h.2.symm.trans hDeclares
  cases stmt with
      simp only [Machine.execute, execute]
  | expression expr =>
    refine .plainly (fun _ => trivial) ?_
    exact .after .plainly (ih.evaluate registers expr hStmt) fun _ => hNormal
  | print keyword value =>
    refine .plainly (fun _ => trivial) ?_
    apply Follows.after .plainly (ih.evaluate registers value hStmt)
    intro value
    exact .after .plainly (.act rfl (printValue_within ..)) fun _ => hNormal
  | letDecl name value =>
    cases value with
    | none =>
      refine .plainly (fun _ => trivial) ?_
      exact .after .plainly (.act rfl (.declare (hFrame rfl) ..)) fun _ => hNormal
    | some value =>
      refine .plainly (fun _ => trivial) ?_
      apply Follows.after .plainly (ih.evaluate registers value hStmt)
      intro value
      exact .after .plainly (.act rfl (.declare (hFrame rfl) ..)) fun _ => hNormal
  | functionDecl f =>
    refine .plainly (fun _ => trivial) ?_
    refine .after .plainly (.act rfl (.makeFunction _ hStmt)) ?_
    intro value
    exact .after .plainly (.act rfl (.declare (hFrame rfl) ..)) fun _ => hNormal
  | classDecl name parent methods =>
    cases parent with
    | none =>
      refine .plainly (fun _ => trivial) ?_
      exact .after .plainly (.act rfl (.makeClass (hFrame rfl) _ _ hStmt)) fun _ => hNormal
    | some parent =>
      refine .plainly (fun _ => trivial) ?_
      apply Follows.after .plainly (ih.evaluate registers parent hStmt.1)
      intro value
      refine .after .plainly (.act rfl (asSuperclass_within ..)) ?_
      intro classId
      exact .after .plainly (.act rfl (.makeClass (hFrame rfl) _ _ hStmt.2)) fun _ => hNormal
  | block body =>
    apply Follows.executed
    refine .opens .ended rfl ?_
    intro frame hFrame
    apply Follows.within
    apply (ih.executeAll ⟨frame, registers.depth⟩ body hStmt hFrame).weaken
    exact fun h => ⟨h, trivial⟩
  | conditional condition thenBranch elseBranch =>
    have hBranch {branch : Stmt} (hPart : branch ∈ thenBranch :: elseBranch.toList)
        (hEvery : branch.Every P) (hBranch : Fresh old registers.frame branch) :
        Follows P old registers.depth registers
          (execute fuel (registers.context distances) branch)
          (Ended (.conditional condition thenBranch elseBranch))
          (Machine.execute distances fuel branch) :=
      (ih.execute registers branch hEvery hBranch).weaken fun hSingle =>
          ⟨.single hPart hSingle fun _ _ => rfl, trivial⟩
    have hThen : thenBranch ∈ thenBranch :: elseBranch.toList := List.mem_cons_self ..
    cases elseBranch with
    | none =>
      apply Follows.executed
      refine .after .ended (ih.evaluate registers condition hStmt.1) ?_
      intro value
      split
      · exact hBranch hThen hStmt.2 (hFresh.imp_right fun h => h.1.2)
      · exact .pure ⟨.normal (.nil _), trivial⟩
    | some elseBranch =>
      apply Follows.executed
      refine .after .ended (ih.evaluate registers condition hStmt.1) ?_
      intro value
      split
      · exact hBranch hThen hStmt.2.1 (hFresh.imp_right fun h => h.1.2.1)
      · exact hBranch (List.mem_cons_of_mem _ (List.mem_singleton_self _)) hStmt.2.2
          (hFresh.imp_right fun h => h.1.2.2)
  | whileLoop condition body =>
    apply Follows.executed
    apply (round_follows ih registers hStmt (hFresh.imp_right fun h => h.1.2)).weaken
    exact fun h => ⟨h, trivial⟩
  | breakLoop keyword =>
    apply Follows.executed
    apply Follows.pure
    refine ⟨.calm (.nil _) ?_, rfl⟩
    rintro flow ⟨⟩ _
    rfl
  | returnValue keyword value =>
    cases value with
    | none =>
      apply Follows.executed
      apply Follows.pure
      refine ⟨.calm (.nil _) ?_, _, rfl⟩
      rintro flow ⟨⟩ _
      exact ⟨_, rfl⟩
    | some value =>
      apply Follows.executed
      refine .after .ended (ih.evaluate registers value hStmt) ?_
      intro value
      apply Follows.pure
      refine ⟨.calm (.nil _) ?_, _, rfl⟩
      rintro flow ⟨⟩ _
      exact ⟨_, rfl⟩

theorem executeAll_follows {stmts : List Stmt} (hStmts : stmtsEvery P stmts)
    (hFrame : old ≤ registers.frame) : Follows P old registers.depth registers
      (executeAll (fuel + 1) (registers.context distances) stmts)
      (Handed stmts id nothing) (Machine.executeAll distances (fuel + 1) stmts) := by
  cases stmts with
  | nil => exact .pure (.normal (.nil _))
  | cons first others =>
    have hFirst : first ∈ first :: others := List.mem_cons_self ..
    apply (ih.execute registers first hStmts.1 (.inl hFrame)).bind
    · exact fun h => .failed (.of_single hFirst h rfl) _
    · exact fun h => .stopped (.of_single hFirst h rfl) _
    · intro flow before hBefore
      have hSingle : Handed (first :: others) id nothing before
            (.done flow) := .single hFirst hBefore fun _ _ => rfl
      cases flow with
      | normal =>
        apply (ih.executeAll registers others hStmts.2 hFrame).weaken
        intro records ending hOthers
        exact (hOthers.wider first).prepend (.of_single hFirst hBefore rfl)
      | broke
      | returned value =>
        apply Follows.pure
        rwa [List.append_nil]

end Step

/-
  The machine follows the evaluator, whatever the fuel, if
  what holds of functions holds of those in their bodies.
  No frame is before the first one.
-/
theorem followsAll {P : Function → Prop} (hBodies : ∀ {f}, P f → stmtsEvery P f.body)
    (distances : Scope.Distances) (fuel : Nat) (old : Nat := 0) :
    FollowsAll P old distances fuel := by
  induction fuel with
  | zero =>
    exact {
      evaluate := fun _ _ _ => .unfueled distances .nil
      evaluateAll := fun _ _ _ => .unfueled distances .nil
      evaluatePlace := fun _ _ _ _ => .unfueled distances .nil
      apply := fun _ _ _ _ => .unfueled distances (.of_evaluated .nil)
      invoke := fun _ _ _ _ _ => .unfueled distances (.of_evaluated .nil)
      execute := fun _ _ _ _ => .unfueled distances .exhausted
      rounds := fun _ _ _ _ _ => .unfueled distances (.stopped (.nil _) _)
      executeAll := fun _ _ _ _ => .unfueled distances (.stopped (.nil _) _) }
  | succ fuel ih =>
    exact {
      evaluate := fun registers _ => evaluate_follows ih registers
      evaluateAll := fun registers _ => evaluateAll_follows ih registers
      evaluatePlace := fun registers _ operator => evaluatePlace_follows ih registers operator
      apply := apply_follows ih
      invoke := fun registers _ paren arguments =>
        invoke_follows ih registers hBodies paren arguments
      execute := fun registers _ => execute_follows ih registers
      rounds := fun registers _ _ => round_follows ih registers
      executeAll := fun registers _ => executeAll_follows ih registers }

/- The machine does what the evaluator does. -/
theorem follows_any (distances : Scope.Distances) (fuel : Nat) (old : Nat := 0) :
    FollowsAll (fun _ => True) old distances fuel :=
  followsAll (fun {f} _ => stmtsEvery_of (fun _ => trivial) f.body) distances fuel old

end Eval

end Scriptlet
