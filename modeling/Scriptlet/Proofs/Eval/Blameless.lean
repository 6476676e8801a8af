import Scriptlet.Proofs.Eval.Runnable
import Scriptlet.Proofs.Eval.Paths

/-
  Runs that fail for external causes only.

  Key declarations include:
    * `Eval.Record.Blameless`
    * `Eval.Conducts`
    * `Eval.ConductsAll`
    * `Eval.conductsAll`

  Code in frames in line runs without internal faults,
  whatever is run inside of it.
-/

namespace Scriptlet

namespace Eval

open Scope (Distances Kind Names Site)

variable {cause : Cause} {expr : Expr} {record : Record}

/-
  What the evaluation of an expression may fail for.  For the
  method of a superclass only the method may be missing.
-/
def MayRaise : Expr → Cause → Prop
  | .superMethod .., cause => cause.IsMissing
  | _, cause => cause.External

theorem Cause.IsMissing.external (h : cause.IsMissing) : cause.External := by
  rcases h with ⟨name, rfl⟩
  rfl

theorem MayRaise.external (h : MayRaise expr cause) : cause.External := by
  cases expr with
  | superMethod => exact Cause.IsMissing.external h
  | _ => exact h

/- The cause that something failed for. -/
def Ending.cause? {α : Type} : Ending α → Option Cause
  | .failed fault => some fault.cause
  | _ => none

def Record.cause? : Record → Option Cause
  | .evaluated _ _ _ ending => ending.cause?
  | .executed _ _ _ ending => ending.cause?
  | .entered _ _ _ ending => ending.cause?
  | .refused _ _ _ => some .callDepth

/- What a recorded thing may fail for. -/
def Record.Allows : Record → Cause → Prop
  | .evaluated expr _ _ _, cause => MayRaise expr cause
  | _, cause => cause.External

theorem Record.Allows.external (h : record.Allows cause) : cause.External := by
  cases record with
  | evaluated => exact MayRaise.external h
  | _ => exact h

/- It and all inside of it failed for such causes only. -/
inductive Record.Blameless : Record → Prop where
  | intro {record : Record} : (∀ other ∈ record.inside, Record.Blameless other) →
      (∀ cause, record.cause? = some cause → record.Allows cause) → Record.Blameless record

theorem Record.Blameless.at_path {top : Record} (h : top.Blameless)
    {path : List Record} (hPath : Path top path record) : record.Blameless := by
  induction hPath with
  | top => exact h
  | inside _ hMem ih =>
    cases ih with
    | intro hInside _ => exact hInside _ hMem

theorem Record.Blameless.allows (h : record.Blameless)
    (hCause : record.cause? = some cause) : record.Allows cause := by
  cases h with
  | intro _ hAllows => exact hAllows cause hCause

variable {table : Distances} {registers : Registers} {heap : Heap}

/- A machine has kept all code runnable. -/
structure Ran.Conducted {α : Type} (table : Distances) (registers : Registers)
    (heap : Heap) (F : Cause → Prop) (Q : α → Heap → Prop) (ran : Ran α) : Prop where
  restored : ran.registers = registers
  blameless : ∀ record ∈ ran.records, record.Blameless
  acted : Acted table heap F Q ran.outcome

/-
  The machine keeps all code runnable and the registers as
  they are, and what it records is blameless.
-/
structure Conducts {α : Type} (table : Distances) (registers : Registers)
    (heap : Heap) (machine : Machine α) (F : Cause → Prop) (Q : α → Heap → Prop) : Prop where
  conducted (host : Host) : Ran.Conducted table registers heap F Q (machine registers ⟨heap, host⟩)

namespace Conducts

variable {α β : Type} {F : Cause → Prop} {Q : α → Heap → Prop} {R : β → Heap → Prop}
variable {machine : Machine α}

theorem pure {value : α} (h : AllRunnable table heap) (hValue : Q value heap) :
    Conducts table registers heap (Pure.pure value) F Q :=
  ⟨fun _ => ⟨rfl, nofun, .done (.refl heap) h hValue⟩⟩

/- An action in the context of the registers. -/
theorem act {action : Context → Action α}
    (h : Acts table heap (action (registers.context table)) F Q) :
    Conducts table registers heap (Machine.act table action) F Q :=
  ⟨fun host => ⟨rfl, nofun, h.acted host⟩⟩

theorem failAt (h : AllRunnable table heap) (token : Token) (hCause : F cause) :
    Conducts table registers heap (Machine.act table fun _ => Eval.failAt token cause) F Q :=
  act (.failAt h token hCause)

theorem exhausted :
    Conducts table registers heap (Machine.act table fun _ => Eval.exhausted) F Q := act .exhausted

theorem bind {next : α → Machine β} (hMachine : Conducts table registers heap machine F Q)
    (hNext : ∀ {value heap'}, heap.Keeps heap' → AllRunnable table heap' → Q value heap' →
        Conducts table registers heap' (next value) F R) :
    Conducts table registers heap (machine >>= next) F R := by
  constructor
  intro host
  have hRan := hMachine.conducted host
  change Ran.Conducted table registers heap F R (Machine.bind machine next registers ⟨heap, host⟩)
  unfold Machine.bind
  generalize machine registers ⟨heap, host⟩ = ran at hRan
  rcases ran with ⟨registers', records, outcome⟩
  rcases hRan with ⟨hRegisters, hBlameless, hActed⟩
  obtain rfl : registers' = registers := hRegisters
  cases hActed with
  | @done value w hKeeps hAllRun hValue =>
    have hRest := (hNext hKeeps hAllRun hValue).conducted w.host
    change Ran.Conducted table registers' w.heap F R (next value registers' w) at hRest
    dsimp only
    refine ⟨hRest.restored, ?_, hRest.acted.mono hKeeps id id⟩
    exact List.forall_mem_append.mpr ⟨hBlameless, hRest.blameless⟩
  | failed hKeeps hAllRun hCause => exact ⟨rfl, hBlameless, .failed hKeeps hAllRun hCause⟩
  | stopped => exact ⟨rfl, hBlameless, .stopped⟩

/- What is made of a value in the end asks for nothing. -/
theorem yield {f : α → β} (h : Conducts table registers heap machine F Q) :
    Conducts table registers heap (do let value ← machine; return f value) F whatever :=
  h.bind fun _ h' _ => .pure h' trivial

variable {frame : FrameId}

/- The frame is set back. -/
theorem within
    (h : Conducts table { registers with frame := frame } heap machine F Q) :
    Conducts table registers heap (Machine.within frame machine) F Q := by
  constructor
  intro host
  have hRan := h.conducted host
  refine ⟨?_, hRan.blameless, hRan.acted⟩
  simp only [Machine.within, hRan.restored]

/- The depth is set back. -/
theorem deeper
    (h : Conducts table { registers with depth := registers.depth + 1 } heap machine F Q) :
    Conducts table registers heap (Machine.deeper machine) F Q := by
  constructor
  intro host
  have hRan := h.conducted host
  refine ⟨?_, hRan.blameless, hRan.acted⟩
  simp only [Machine.deeper, hRan.restored, Nat.add_sub_cancel]

/- What is run as one thing is recorded as one thing. -/
theorem noting {make : Registers → List Record → Ending α → Record}
    (h : Conducts table registers heap machine F Q)
    (hMake : ∀ {inside ending}, (∀ record ∈ inside, record.Blameless) →
      (∀ cause, ending.cause? = some cause → F cause) → (make registers inside ending).Blameless) :
    Conducts table registers heap (Machine.noting make machine) F Q := by
  constructor
  intro host
  have hRan := h.conducted host
  unfold Machine.noting
  generalize machine registers ⟨heap, host⟩ = ran at hRan
  rcases ran with ⟨registers', records, outcome⟩
  rcases hRan with ⟨hRegisters, hBlameless, hActed⟩
  refine ⟨hRegisters, ?_, hActed⟩
  intro record hMem
  obtain rfl := List.mem_singleton.mp hMem
  apply hMake hBlameless
  intro cause hCause
  cases hActed with
  | done => cases hCause
  | failed _ _ hFails =>
    cases hCause
    exact hFails
  | stopped => cases hCause

/- More causes are allowed. -/
theorem weaken {G : Cause → Prop}
    (h : Conducts table registers heap machine F Q) (hCauses : ∀ {cause}, F cause → G cause) :
    Conducts table registers heap machine G Q := by
  constructor
  intro host
  have hRan := h.conducted host
  exact ⟨hRan.restored, hRan.blameless, hRan.acted.mono (.refl heap) hCauses id⟩

theorem evaluated {machine : Machine Value} {P : Value → Heap → Prop}
    (h : Conducts table registers heap machine (MayRaise expr) P) :
    Conducts table registers heap (Machine.noting (.evaluated expr) machine) Cause.External P := by
  have hNoted : Conducts table registers heap
        (Machine.noting (.evaluated expr) machine) (MayRaise expr) P := by
    apply h.noting
    exact fun hInside hCauses => .intro hInside hCauses
  exact hNoted.weaken MayRaise.external

variable {P : Flow → Heap → Prop}

theorem executed {stmt : Stmt} {machine : Machine Flow}
    (h : Conducts table registers heap machine Cause.External P) :
    Conducts table registers heap (Machine.noting (.executed stmt) machine) Cause.External P := by
  apply h.noting
  exact fun hInside hCauses => .intro hInside hCauses

variable {body : Machine Flow}

/- A body is run one call deeper in a frame of its own. -/
theorem enter (closure : Closure)
    (h : Conducts table ⟨frame, registers.depth + 1⟩ heap body
      Cause.External P) : Conducts table registers heap
      (Machine.enter closure frame body) Cause.External P := by
  have hDeeper : Conducts table registers heap
        (Machine.deeper (Machine.within frame body)) Cause.External P := (within h).deeper
  apply hDeeper.noting
  exact fun hInside hCauses => .intro hInside hCauses

/- One round of a loop. -/
theorem round {test : Machine Value} {next : Machine Flow}
    (hTest : Conducts table registers heap test F whatever)
    (hBody : ∀ {heap'}, heap.Keeps heap' → AllRunnable table heap' →
        Conducts table registers heap' body F whatever)
    (hNext : ∀ {heap'}, heap.Keeps heap' → AllRunnable table heap' →
        Conducts table registers heap' next F whatever) : Conducts table registers heap
      (Machine.round test body next) F whatever := by
  apply hTest.bind
  intro value heap₁ hKeeps₁ h₁ _
  split
  · apply (hBody hKeeps₁ h₁).bind
    intro flow heap₂ hKeeps₂ h₂ _
    cases flow with
    | normal => exact hNext (hKeeps₁.trans hKeeps₂) h₂
    | broke => exact .pure h₂ trivial
    | returned value => exact .pure h₂ trivial
  · exact .pure h₁ trivial

end Conducts

------------------------------------------------------------
-- Evaluation
------------------------------------------------------------

/- What is run with this fuel is blameless. -/
structure ConductsAll (table : Distances) (fuel : Nat) : Prop where
  evaluate {registers : Registers} {heap P kinds scopes} {expr : Expr} :
    AllRunnable table heap → RunnableIn table heap P kinds registers.frame →
    expr.Sensible → expr.Known P kinds scopes → Conducts table registers heap
      (Machine.evaluate table fuel expr) Cause.External whatever
  evaluateAll {registers : Registers} {heap P kinds scopes exprs} :
    AllRunnable table heap → RunnableIn table heap P kinds registers.frame →
    exprsSensible exprs → exprsKnown P kinds exprs scopes → Conducts table registers heap
      (Machine.evaluateAll table fuel exprs) Cause.External whatever
  evaluatePlace {registers : Registers} {heap P kinds scopes} {target : Expr}
      (operator : Token) : AllRunnable table heap →
    RunnableIn table heap P kinds registers.frame → target.isAssignable = true →
    target.Sensible → target.Known P kinds scopes → Conducts table registers heap
      (Machine.evaluatePlace table fuel target operator)
      Cause.External (fun place _ => place.IsOrdinary)
  apply {registers : Registers} {heap : Heap} (callee : Value) (paren : Token)
      (arguments : List Value) : AllRunnable table heap → Conducts table registers heap
      (Machine.apply table fuel callee paren arguments) Cause.External whatever
  invoke {registers heap closure} (paren : Token) (arguments : List Value) :
    AllRunnable table heap → Runnable table heap closure → Conducts table registers heap
      (Machine.invoke table fuel closure paren arguments) Cause.External whatever
  execute {registers : Registers} {heap P kinds scopes} {stmt : Stmt} :
    AllRunnable table heap → RunnableIn table heap P kinds registers.frame →
    stmt.Sensible → stmt.Known P kinds scopes → Conducts table registers heap
      (Machine.execute table fuel stmt) Cause.External whatever
  rounds {registers : Registers} {heap P kinds scopes condition body} :
    AllRunnable table heap → RunnableIn table heap P kinds registers.frame →
    (Stmt.whileLoop condition body).Sensible →
    (Stmt.whileLoop condition body).Known P kinds scopes → Conducts table registers heap
      (Machine.rounds table fuel condition body) Cause.External whatever
  executeAll {registers : Registers} {heap P kinds scopes stmts} :
    AllRunnable table heap → RunnableIn table heap P kinds registers.frame →
    stmtsSensible stmts → stmtsKnown P kinds stmts scopes → Conducts table registers heap
      (Machine.executeAll table fuel stmts) Cause.External whatever

section Step

variable {P : Site → Prop} {kinds : List Kind} {scopes : List Names} {fuel : Nat}
variable (ih : ConductsAll table fuel) (h : AllRunnable table heap)
include ih h

theorem apply_conducts (callee : Value) (paren : Token) (arguments : List Value) :
    Conducts table registers heap (Machine.apply table (fuel + 1) callee paren arguments)
      Cause.External whatever := by
  apply Conducts.bind (.act (.external h (checkCall_within callee paren arguments.length)))
  intro _ heap₁ _ h₁ _
  cases callee with
  | native native => exact .act (.external h₁ (callNative_within native paren arguments))
  | function id =>
    apply Conducts.bind (.act (.inspect h₁ _))
    rintro _ _ - - ⟨rfl, rfl⟩
    cases hFound : heap₁.functions[id]? with
    | none => exact .failAt h₁ paren rfl
    | some closure =>
      exact ih.invoke paren arguments h₁ (h₁.functions closure (Array.mem_of_getElem? hFound))
  | blueprint id =>
    apply Conducts.bind (.act (.external h₁ (.allocate fun _ => externally.same rfl rfl rfl rfl)))
    intro object heap₂ _ h₂ _
    apply Conducts.bind (.act (.inspect h₂ _))
    rintro _ _ - - ⟨rfl, rfl⟩
    cases hFound : heap₂.initializer? id with
    | none => exact .pure h₂ trivial
    | some method =>
      apply Conducts.bind (.act (.bindMethod h₂ (h₂.offered hFound) object))
      intro closure heap₃ _ h₃ hClosure
      exact .yield (ih.invoke paren arguments h₃ hClosure)
  | _ => exact .failAt h₁ paren rfl

/- A call, refused or not. -/
theorem invoke_conducts {closure : Closure} (paren : Token)
    (arguments : List Value) (hClosure : Runnable table heap closure) :
    Conducts table registers heap (Machine.invoke table (fuel + 1) closure paren arguments)
      Cause.External whatever := by
  by_cases hDepth : depthLimit ≤ registers.depth
  · constructor
    intro host
    simp only [Machine.invoke, if_pos hDepth, Machine.refuse]
    refine ⟨rfl, ?_, .failed (.refl heap) h rfl⟩
    intro record hMem
    obtain rfl := List.mem_singleton.mp hMem
    refine .intro (List.forall_mem_nil _) ?_
    intro cause hCause
    cases hCause
    rfl
  · rcases hClosure.runs with ⟨P, kinds, hRuns⟩
    rcases hRuns.known with ⟨scopes, hKnown⟩
    have hCall : Conducts table registers heap
          (do
            let frame ← Machine.act table fun _ =>
                allocate fun heap =>
                  heap.addFrame (parameters closure.function arguments) (some closure.frame)
            let flow ← Machine.enter closure frame
                (Machine.executeAll table fuel closure.function.body)
            Machine.act table fun _ => result closure flow)
          Cause.External whatever := by
      have hOpen : Acts table heap _ Cause.External _ :=
        .addFrame h hRuns.runsIn (.inr rfl) (parameters closure.function arguments)
          (parameters_absent hRuns.sensible arguments)
      apply Conducts.bind (.act hOpen)
      intro frame heap₁ hKeeps₁ h₁ hInside
      apply Conducts.bind
        (.enter closure (ih.executeAll h₁ hInside hRuns.sensible.body hKnown.body))
      intro flow heap₂ hKeeps₂ h₂ _
      exact .act (result_acts h₂ (hClosure.keep (hKeeps₁.trans hKeeps₂)) flow)
    constructor
    intro host
    have hRan := hCall.conducted host
    simp only [Machine.invoke, if_neg hDepth]
    exact hRan

variable (hRunsIn : RunnableIn table heap P kinds registers.frame)
include hRunsIn

/- What is run to evaluate an expression. -/
theorem evaluate_conducts (hSensible : expr.Sensible) (hKnown : expr.Known P kinds scopes) :
    Conducts table registers heap (Machine.evaluate table (fuel + 1) expr) Cause.External
      whatever := by
  apply Conducts.evaluated
  cases expr with
      try simp only [Expr.Sensible, Expr.Known] at hSensible hKnown
  | literal value => exact .pure h trivial
  | name id name => exact .act (.external h (readVariable_external _ id hSensible.ordinary))
  | assign id name value =>
    apply Conducts.bind (ih.evaluate h hRunsIn hSensible.2 hKnown.1)
    intro value heap₁ _ h₁ _
    exact .yield (.act (.external h₁ (writeVariable_external _ id hSensible.1.ordinary value)))
  | compound target operator value =>
    rcases hSensible with ⟨⟨hTarget, hOperator⟩, hPlace, hValue⟩
    apply Conducts.bind (ih.evaluatePlace operator h hRunsIn hTarget hPlace hKnown.1)
    intro place heap₁ hKeeps₁ h₁ hOrdinary
    apply Conducts.bind (.act (Place.read_acts h₁ _ hOrdinary))
    intro old heap₂ hKeeps₂ h₂ _
    have hSeated₂ := hRunsIn.keep (hKeeps₁.trans hKeeps₂)
    apply Conducts.bind (ih.evaluate h₂ hSeated₂ hValue hKnown.2)
    intro operand heap₃ _ h₃ _
    have hArithmetic := isArithmetic_baseOperator hOperator.kind
    apply Conducts.bind (.act (.external h₃ (operate_external hArithmetic operator old operand)))
    intro new heap₄ _ h₄ _
    exact .yield (.act (.external h₄ (Place.write_external _ new hOrdinary)))
  | increment target operator before =>
    apply Conducts.bind (ih.evaluatePlace operator h hRunsIn hSensible.1.1 hSensible.2 hKnown)
    intro place heap₁ _ h₁ hOrdinary
    apply Conducts.bind (.act (Place.read_acts h₁ _ hOrdinary))
    intro old heap₂ _ h₂ _
    cases old with
    | number old => exact .yield (.act (.external h₂ (Place.write_external _ _ hOrdinary)))
    | _ => exact .failAt h₂ operator rfl
  | unary operator operand =>
    apply Conducts.bind (ih.evaluate h hRunsIn hSensible.2 hKnown)
    intro operand heap₁ _ h₁ _
    exact .act (.external h₁ (negate_external hSensible.1.kind operand))
  | binary left operator right =>
    rcases hSensible with ⟨hOperator, hLeft, hRight⟩
    apply Conducts.bind (ih.evaluate h hRunsIn hLeft hKnown.1)
    intro left heap₁ hKeeps₁ h₁ _
    apply Conducts.bind (ih.evaluate h₁ (hRunsIn.keep hKeeps₁) hRight hKnown.2)
    intro right heap₂ _ h₂ _
    exact .act (.external h₂ (operate_external hOperator.kind operator left right))
  | logical left operator right =>
    apply Conducts.bind (ih.evaluate h hRunsIn hSensible.2.1 hKnown.1)
    intro left heap₁ hKeeps₁ h₁ _
    split
    · exact .pure h₁ trivial
    · exact ih.evaluate h₁ (hRunsIn.keep hKeeps₁) hSensible.2.2 hKnown.2
  | call callee paren arguments =>
    apply Conducts.bind (ih.evaluate h hRunsIn hSensible.1 hKnown.1)
    intro callee heap₁ hKeeps₁ h₁ _
    apply Conducts.bind (ih.evaluateAll h₁ (hRunsIn.keep hKeeps₁) hSensible.2 hKnown.2)
    intro arguments heap₂ _ h₂ _
    exact ih.apply callee paren arguments h₂
  | get object name =>
    apply Conducts.bind (ih.evaluate h hRunsIn hSensible.2 hKnown)
    intro object heap₁ _ h₁ _
    exact .act (getProperty_acts h₁ object name)
  | set object name value =>
    apply Conducts.bind (ih.evaluate h hRunsIn hSensible.2.1 hKnown.1)
    intro object heap₁ hKeeps₁ h₁ _
    apply Conducts.bind (ih.evaluate h₁ (hRunsIn.keep hKeeps₁) hSensible.2.2 hKnown.2)
    intro value heap₂ _ h₂ _
    exact .yield (.act (.external h₂ (setProperty_within object name value)))
  | index object bracket position =>
    apply Conducts.bind (ih.evaluate h hRunsIn hSensible.1 hKnown.1)
    intro object heap₁ hKeeps₁ h₁ _
    apply Conducts.bind (ih.evaluate h₁ (hRunsIn.keep hKeeps₁) hSensible.2 hKnown.2)
    intro index heap₂ _ h₂ _
    exact .act (.external h₂ (getElement_within object index bracket))
  | indexSet object bracket position value =>
    rcases hSensible with ⟨hObject, hPosition, hValue⟩
    apply Conducts.bind (ih.evaluate h hRunsIn hObject hKnown.1)
    intro object heap₁ hKeeps₁ h₁ _
    have hSeated₁ := hRunsIn.keep hKeeps₁
    apply Conducts.bind (ih.evaluate h₁ hSeated₁ hPosition hKnown.2.1)
    intro index heap₂ hKeeps₂ h₂ _
    apply Conducts.bind (ih.evaluate h₂ (hSeated₁.keep hKeeps₂) hValue hKnown.2.2)
    intro value heap₃ _ h₃ _
    exact .yield (.act (.external h₃ (setElement_within object index bracket value)))
  | self id keyword => exact .act (readSelf_acts h hRunsIn rfl hSensible hKnown)
  | superMethod id keyword method =>
    exact .act (superMethod_acts h hRunsIn rfl hSensible.1 method hKnown)
  | function f => exact .act (makeFunction_acts h hRunsIn hSensible.2 hKnown)
  | group inner => exact ih.evaluate h hRunsIn hSensible hKnown
  | array bracket elements =>
    apply Conducts.bind (ih.evaluateAll h hRunsIn hSensible hKnown)
    intro items heap₁ _ h₁ _
    exact .yield (.act (.external h₁ (.allocate fun _ => externally.same rfl rfl rfl rfl)))

theorem evaluateAll_conducts {exprs : List Expr} (hSensible : exprsSensible exprs)
    (hKnown : exprsKnown P kinds exprs scopes) :
    Conducts table registers heap (Machine.evaluateAll table (fuel + 1) exprs)
      Cause.External whatever := by
  cases exprs with
  | nil => exact .pure h trivial
  | cons first others =>
    apply Conducts.bind (ih.evaluate h hRunsIn hSensible.1 hKnown.1)
    intro value heap₁ hKeeps₁ h₁ _
    exact .yield (ih.evaluateAll h₁ (hRunsIn.keep hKeeps₁) hSensible.2 hKnown.2)

theorem evaluatePlace_conducts {target : Expr} (operator : Token)
    (hTarget : target.isAssignable = true) (hSensible : target.Sensible)
    (hKnown : target.Known P kinds scopes) :
    Conducts table registers heap (Machine.evaluatePlace table (fuel + 1) target operator)
      Cause.External (fun place _ => place.IsOrdinary) := by
  cases target with
      try simp only [Expr.Sensible, Expr.Known] at hSensible hKnown
  | name id name => exact .pure h hSensible.ordinary
  | get object name =>
    apply Conducts.bind (ih.evaluate h hRunsIn hSensible.2 hKnown)
    intro object heap₁ _ h₁ _
    exact .pure h₁ trivial
  | index object bracket position =>
    apply Conducts.bind (ih.evaluate h hRunsIn hSensible.1 hKnown.1)
    intro object heap₁ hKeeps₁ h₁ _
    apply Conducts.bind (ih.evaluate h₁ (hRunsIn.keep hKeeps₁) hSensible.2 hKnown.2)
    intro index heap₂ _ h₂ _
    exact .pure h₂ trivial
  | _ => cases hTarget

theorem rounds_conducts {condition : Expr} {body : Stmt}
    (hSensible : (Stmt.whileLoop condition body).Sensible)
    (hKnown : (Stmt.whileLoop condition body).Known P kinds scopes) :
    Conducts table registers heap
      (Machine.round (Machine.evaluate table fuel condition) (Machine.execute table fuel body)
        (Machine.rounds table fuel condition body)) Cause.External whatever := by
  have hLoop := hSensible
  have hLoopKnown := hKnown
  apply Conducts.round (ih.evaluate h hRunsIn hSensible.1 hKnown.1)
  · intro heap₁ hKeeps₁ h₁
    exact ih.execute h₁ (hRunsIn.keep hKeeps₁) hSensible.2.1 hKnown.2.1
  · intro heap₁ hKeeps₁ h₁
    exact ih.rounds h₁ (hRunsIn.keep hKeeps₁) hLoop hLoopKnown

theorem execute_conducts {stmt : Stmt} (hSensible : stmt.Sensible)
    (hKnown : stmt.Known P kinds scopes) :
    Conducts table registers heap (Machine.execute table (fuel + 1) stmt) Cause.External
      whatever := by
  apply Conducts.executed
  cases stmt with
      try simp only [Stmt.Sensible, Stmt.Known] at hSensible hKnown
  | expression expr => exact .yield (ih.evaluate h hRunsIn hSensible hKnown)
  | print keyword value =>
    apply Conducts.bind (ih.evaluate h hRunsIn hSensible hKnown)
    intro value heap₁ _ h₁ _
    exact .yield (.act (.external h₁ (printValue_within keyword value)))
  | letDecl name value =>
    cases value with
        try simp only [Stmt.Sensible, Stmt.Known] at hSensible hKnown
    | none => exact .yield (.act (.external h (declare_external _ hSensible.ordinary _)))
    | some value =>
      apply Conducts.bind (ih.evaluate h hRunsIn hSensible.2 hKnown)
      intro value heap₁ _ h₁ _
      exact .yield (.act (.external h₁ (declare_external _ hSensible.1.ordinary _)))
  | functionDecl f =>
    apply Conducts.bind (.act (makeFunction_acts h hRunsIn hSensible.2 hKnown))
    intro value heap₁ _ h₁ _
    exact .yield (.act (.external h₁ (declare_external _ hSensible.2.label _)))
  | classDecl name parent methods =>
    cases parent with
        try simp only [Stmt.Sensible, Stmt.Known] at hSensible hKnown
    | none =>
      rcases hSensible with ⟨hName, hMethods⟩
      exact .yield (.act (makeClass_acts h hRunsIn hName.ordinary none hMethods hKnown))
    | some parent =>
      rcases hKnown with ⟨⟨id, token, rfl, _, hSite⟩, hMethods⟩
      rcases hSensible with ⟨hName, ⟨_, hParent⟩, hSensible⟩
      have hName := hName.ordinary
      have hParentKnown : (Expr.name id token).Known P kinds
            (scopes.modifyHead (·.settle name.lexeme)) := by
        exact hSite
      apply Conducts.bind (ih.evaluate h hRunsIn hParent hParentKnown)
      intro value heap₁ hKeeps₁ h₁ _
      apply Conducts.bind (.act (.external h₁ (asSuperclass_within name _ value)))
      intro classId heap₂ hKeeps₂ h₂ _
      have hSeated₂ := hRunsIn.keep (hKeeps₁.trans hKeeps₂)
      exact .yield (.act (makeClass_acts h₂ hSeated₂ hName (some classId) hSensible hMethods))
  | block body =>
    have hOpen : Acts table heap _ Cause.External _ :=
      .addFrame h hRunsIn (.inl rfl) [] fun _ => rfl
    apply Conducts.bind (.act hOpen)
    intro frame heap₁ _ h₁ hInside
    exact .within (ih.executeAll h₁ hInside hSensible hKnown)
  | conditional condition thenBranch elseBranch =>
    cases elseBranch with
        try simp only [Stmt.Sensible, Stmt.Known] at hSensible hKnown
    | none =>
      apply Conducts.bind (ih.evaluate h hRunsIn hSensible.1 hKnown.1)
      intro value heap₁ hKeeps₁ h₁ _
      split
      · exact ih.execute h₁ (hRunsIn.keep hKeeps₁) hSensible.2.1 hKnown.2.1
      · exact .pure h₁ trivial
    | some elseBranch =>
      rcases hKnown with ⟨hCondition, ⟨hThen, _⟩, hElse, _⟩
      apply Conducts.bind (ih.evaluate h hRunsIn hSensible.1 hCondition)
      intro value heap₁ hKeeps₁ h₁ _
      split
      · exact ih.execute h₁ (hRunsIn.keep hKeeps₁) hSensible.2.1.1 hThen
      · exact ih.execute h₁ (hRunsIn.keep hKeeps₁) hSensible.2.2.1 hElse
  | whileLoop condition body => exact rounds_conducts ih h hRunsIn hSensible hKnown
  | breakLoop keyword => exact .pure h trivial
  | returnValue keyword value =>
    cases value with
        try simp only [Stmt.Sensible, Stmt.Known] at hSensible hKnown
    | none => exact .pure h trivial
    | some value => exact .yield (ih.evaluate h hRunsIn hSensible hKnown)

theorem executeAll_conducts {stmts : List Stmt} (hSensible : stmtsSensible stmts)
    (hKnown : stmtsKnown P kinds stmts scopes) :
    Conducts table registers heap (Machine.executeAll table (fuel + 1) stmts)
      Cause.External whatever := by
  cases stmts with
  | nil => exact .pure h trivial
  | cons first others =>
    apply Conducts.bind (ih.execute h hRunsIn hSensible.1 hKnown.1)
    intro flow heap₁ hKeeps₁ h₁ _
    cases flow with
    | normal => exact ih.executeAll h₁ (hRunsIn.keep hKeeps₁) hSensible.2 hKnown.2
    | broke => exact .pure h₁ trivial
    | returned value => exact .pure h₁ trivial

end Step

/- Runs are blameless, whatever the fuel. -/
theorem conductsAll (table : Distances) (fuel : Nat) : ConductsAll table fuel := by
  induction fuel with
  | zero => constructor <;> intros <;> exact .exhausted
  | succ fuel ih =>
    exact {
      evaluate := fun h hRunsIn => evaluate_conducts ih h hRunsIn
      evaluateAll := fun h hRunsIn => evaluateAll_conducts ih h hRunsIn
      evaluatePlace := fun operator h hRunsIn => evaluatePlace_conducts ih h hRunsIn operator
      apply := fun callee paren arguments h => apply_conducts ih h callee paren arguments
      invoke := fun paren arguments h => invoke_conducts ih h paren arguments
      execute := fun h hRunsIn => execute_conducts ih h hRunsIn
      rounds := fun h hRunsIn => rounds_conducts ih h hRunsIn
      executeAll := fun h hRunsIn => executeAll_conducts ih h hRunsIn }

end Eval

end Scriptlet
