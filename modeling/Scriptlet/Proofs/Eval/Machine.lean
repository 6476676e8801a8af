import Scriptlet.Eval.Run

/-
  An evaluator with registers, and the records of a run.

  Key declarations include:
    * `Eval.Registers`
    * `Eval.Record`
    * `Eval.Machine`
    * `Eval.Machine.evaluate`
    * `Eval.Machine.execute`
    * `Eval.Machine.interpret`
    * `Eval.Formed`

  The machine keeps the current frame and the call depth in
  registers, sets them when it enters a block or a body and
  sets them back when it leaves.  It records which
  expressions it evaluates, which statements it executes and
  which bodies it enters, one inside the other, and how each
  of them ends.  The rules say how many bodies are around
  each, how signals are handed on, and what becomes of a
  call.
-/

namespace Scriptlet

namespace Eval

/- The current frame and the call depth. -/
structure Registers where
  frame : FrameId
  depth : Nat
  deriving DecidableEq, Repr

/- The registers of top-level code. -/
def Registers.top : Registers := ⟨Heap.globals, 0⟩

/- The context that registers stand for. -/
def Registers.context (registers : Registers) (distances : Scope.Distances) : Context :=
  ⟨distances, registers.frame, registers.depth⟩

/- How something ended, without the world it left. -/
inductive Ending (α : Type) where
  | done (value : α)
  | failed (fault : Fault)
  | stopped (reason : Stop)

def Outcome.ending {α : Type} : Outcome α → Ending α
  | .done value _ => .done value
  | .failed fault _ => .failed fault
  | .stopped reason => .stopped reason

/-
  Something that was run: the registers it started with, what
  was run inside of it, in order, and how it ended.  A call
  of a function enters its body or is refused.
-/
inductive Record where
  | evaluated (expr : Expr) (start : Registers) (inside : List Record) (ending : Ending Value)
  | executed (stmt : Stmt) (start : Registers) (inside : List Record) (ending : Ending Flow)
  | entered (closure : Closure) (start : Registers) (inside : List Record) (ending : Ending Flow)
  | refused (closure : Closure) (paren : Token) (start : Registers)

/- The registers that something started with. -/
def Record.start : Record → Registers
  | .evaluated _ start _ _ => start
  | .executed _ start _ _ => start
  | .entered _ start _ _ => start
  | .refused _ _ start => start

/- What a machine leaves behind. -/
structure Ran (α : Type) where
  registers : Registers
  records : List Record
  outcome : Outcome α

def Machine (α : Type) : Type := Registers → World → Ran α

namespace Machine

protected def pure {α : Type} (value : α) : Machine α :=
  fun registers w => ⟨registers, [], .done value w⟩

protected def bind {α β : Type} (machine : Machine α) (next : α → Machine β) : Machine β :=
  fun registers w =>
    let ran := machine registers w
    match ran.outcome with
    | .done value w' =>
      let rest := next value ran.registers w'
      { rest with records := ran.records ++ rest.records }
    | .failed fault w' => { ran with outcome := .failed fault w' }
    | .stopped reason => { ran with outcome := .stopped reason }

instance : Monad Machine where
  pure := Machine.pure
  bind := Machine.bind

/- An action in the context of the registers. -/
def act {α : Type} (distances : Scope.Distances) (action : Context → Action α) : Machine α :=
  fun registers w => ⟨registers, [], action (registers.context distances) w⟩

/- Record what is run as one thing. -/
def noting {α : Type} (make : Registers → List Record → Ending α → Record)
    (machine : Machine α) : Machine α :=
  fun registers w =>
    let ran := machine registers w
    { ran with
      records := [make registers ran.records ran.outcome.ending] }

/- Run in another frame, then go back. -/
def within {α : Type} (frame : FrameId) (machine : Machine α) : Machine α :=
  fun registers w =>
    let ran := machine { registers with frame := frame } w
    { ran with
      registers := { ran.registers with frame := registers.frame } }

/- Run one call deeper, then come up. -/
def deeper {α : Type} (machine : Machine α) : Machine α :=
  fun registers w =>
    let ran :=
      machine { registers with depth := registers.depth + 1 } w
    { ran with
      registers :=
        { ran.registers with
          depth := ran.registers.depth - 1 } }

/- Run the body of a function in a frame of its own. -/
def enter (closure : Closure) (frame : FrameId) (body : Machine Flow) : Machine Flow :=
  noting (.entered closure) (deeper (within frame body))

/- Refuse a call: nothing of the body is run. -/
def refuse (closure : Closure) (paren : Token) : Machine Value :=
  fun registers w =>
    ⟨registers, [.refused closure paren registers], .failed (.atToken paren .callDepth) w⟩

/- One round of a loop, and perhaps the next ones. -/
def round (test : Machine Value) (body next : Machine Flow) : Machine Flow := do
  if (← test).isTruthy then
    match ← body with
    | .normal => next
    | .broke => return .normal
    | .returned value => return .returned value
  else return .normal

mutual

def evaluate (distances : Scope.Distances) :
    Nat → Expr → Machine Value
  | 0, _ => act distances fun _ => exhausted
  | fuel + 1, expr => noting (.evaluated expr) <| do
      match expr with
      | .literal value => return .ofLiteral value
      | .name id name => act distances fun ctx => readVariable ctx id name
      | .assign id name value =>
        let value ← evaluate distances fuel value
        act distances fun ctx => writeVariable ctx id name value
        return value
      | .compound target operator value =>
        let place ← evaluatePlace distances fuel target operator
        let old ← act distances fun ctx => place.read ctx
        let operand ← evaluate distances fuel value
        let new ← act distances fun _ => operate (baseOperator operator.kind) operator old operand
        act distances fun ctx => place.write ctx new
        return new
      | .increment target operator before =>
        let place ← evaluatePlace distances fuel target operator
        match ← act distances fun ctx => place.read ctx with
        | .number old =>
          let new := old + stepSize operator
          act distances fun ctx => place.write ctx (.number new)
          return .number (if before then new else old)
        | other =>
          act distances fun _ => failAt operator (.stepOperand operator.lexeme other.typeName)
      | .unary operator operand =>
        let operand ← evaluate distances fuel operand
        act distances fun _ => negate operator operand
      | .binary left operator right =>
        let left ← evaluate distances fuel left
        let right ← evaluate distances fuel right
        act distances fun _ => operate operator.kind operator left right
      | .logical left operator right =>
        let left ← evaluate distances fuel left
        if decides operator left then return left
        else evaluate distances fuel right
      | .call callee paren arguments =>
        let callee ← evaluate distances fuel callee
        let arguments ← evaluateAll distances fuel arguments
        apply distances fuel callee paren arguments
      | .get object name =>
        let object ← evaluate distances fuel object
        act distances fun _ => getProperty object name
      | .set object name value =>
        let object ← evaluate distances fuel object
        let value ← evaluate distances fuel value
        act distances fun _ => setProperty object name value
        return value
      | .index object bracket index =>
        let object ← evaluate distances fuel object
        let index ← evaluate distances fuel index
        act distances fun _ => getElement object index bracket
      | .indexSet object bracket index value =>
        let object ← evaluate distances fuel object
        let index ← evaluate distances fuel index
        let value ← evaluate distances fuel value
        act distances fun _ => setElement object index bracket value
        return value
      | .self id keyword => act distances fun ctx => readVariable ctx id keyword
      | .superMethod id keyword method => act distances fun ctx => superMethod ctx id keyword method
      | .function f => act distances fun ctx => makeFunction ctx f
      | .group inner => evaluate distances fuel inner
      | .array _ elements =>
        let items ← evaluateAll distances fuel elements
        let id ← act distances fun _ => allocate fun heap => heap.addArray items.toArray
        return .array id

def evaluateAll (distances : Scope.Distances) :
    Nat → List Expr → Machine (List Value)
  | 0, _ => act distances fun _ => exhausted
  | _ + 1, [] => return []
  | fuel + 1, first :: others => do
      let value ← evaluate distances fuel first
      let values ← evaluateAll distances fuel others
      return value :: values

def evaluatePlace (distances : Scope.Distances) :
    Nat → Expr → Token → Machine Place
  | 0, _, _ => act distances fun _ => exhausted
  | fuel + 1, target, operator => do
      match target with
      | .name id name => return .named id name
      | .get object name =>
        let object ← evaluate distances fuel object
        return .property object name
      | .index object bracket index =>
        let object ← evaluate distances fuel object
        let index ← evaluate distances fuel index
        return .element object index bracket
      | _ => act distances fun _ => failAt operator .assignmentTarget

def apply (distances : Scope.Distances) :
    Nat → Value → Token → List Value → Machine Value
  | 0, _, _, _ => act distances fun _ => exhausted
  | fuel + 1, callee, paren, arguments => do
      act distances fun _ => checkCall callee paren arguments.length
      match callee with
      | .native native => act distances fun _ => callNative native paren arguments
      | .function id =>
        match ← act distances fun _ =>
          inspect (·.functions[id]?) with
        | some closure => invoke distances fuel closure paren arguments
        | none => act distances fun _ => failAt paren (.notCallable callee.typeName)
      | .blueprint id =>
        let object ← act distances fun _ => allocate fun heap => heap.addObject id
        match ← act distances fun _ =>
          inspect (·.initializer? id) with
        | some method =>
          let closure ← act distances fun _ => allocate fun heap => heap.bindMethod method object
          let _ ← invoke distances fuel closure paren arguments
          return .object object
        | none => return .object object
      | _ => act distances fun _ => failAt paren (.notCallable callee.typeName)

def invoke (distances : Scope.Distances) :
    Nat → Closure → Token → List Value → Machine Value
  | 0, _, _, _ => act distances fun _ => exhausted
  | fuel + 1, closure, paren, arguments => fun registers =>
    if depthLimit ≤ registers.depth then
      refuse closure paren registers
    else
      let f := closure.function
      let call : Machine Value := do
        let frame ← act distances fun _ =>
            allocate fun heap => heap.addFrame (parameters f arguments) (some closure.frame)
        let flow ← enter closure frame (executeAll distances fuel f.body)
        act distances fun _ => result closure flow
      call registers

def execute (distances : Scope.Distances) :
    Nat → Stmt → Machine Flow
  | 0, _ => act distances fun _ => exhausted
  | fuel + 1, stmt => noting (.executed stmt) <| do
      match stmt with
      | .expression expr =>
        let _ ← evaluate distances fuel expr
        return .normal
      | .print keyword value =>
        let value ← evaluate distances fuel value
        act distances fun _ => printValue keyword value
        return .normal
      | .letDecl name none =>
        act distances fun ctx => declare ctx name.lexeme .nil
        return .normal
      | .letDecl name (some value) =>
        let value ← evaluate distances fuel value
        act distances fun ctx => declare ctx name.lexeme value
        return .normal
      | .functionDecl f =>
        let value ← act distances fun ctx => makeFunction ctx f
        act distances fun ctx => declare ctx f.label value
        return .normal
      | .classDecl name none methods =>
        act distances fun ctx => makeClass ctx name none methods
        return .normal
      | .classDecl name (some parent) methods =>
        let value ← evaluate distances fuel parent
        let classId ← act distances fun _ => asSuperclass name parent value
        act distances fun ctx => makeClass ctx name (some classId) methods
        return .normal
      | .block body =>
        let frame ← act distances fun ctx => allocate fun heap => heap.addFrame [] (some ctx.frame)
        within frame (executeAll distances fuel body)
      | .conditional condition thenBranch elseBranch =>
        if (← evaluate distances fuel condition).isTruthy then
          execute distances fuel thenBranch
        else
          match elseBranch with
          | some stmt => execute distances fuel stmt
          | none => return .normal
      | .whileLoop condition body =>
        round (evaluate distances fuel condition)
          (execute distances fuel body) (rounds distances fuel condition body)
      | .breakLoop _ => return .broke
      | .returnValue _ none => return .returned .nil
      | .returnValue _ (some value) =>
        let value ← evaluate distances fuel value
        return .returned value

/- The rounds of a loop that is being executed. -/
def rounds (distances : Scope.Distances) :
    Nat → Expr → Stmt → Machine Flow
  | 0, _, _ => act distances fun _ => exhausted
  | fuel + 1, condition, body =>
    round (evaluate distances fuel condition) (execute distances fuel body)
      (rounds distances fuel condition body)

def executeAll (distances : Scope.Distances) :
    Nat → List Stmt → Machine Flow
  | 0, _ => act distances fun _ => exhausted
  | _ + 1, [] => return .normal
  | fuel + 1, first :: others => do
      match ← execute distances fuel first with
      | .normal => executeAll distances fuel others
      | flow => return flow

end

/- What a run of a program leaves behind. -/
structure Drive (α : Type) where
  registers : Registers
  records : List Record
  result : Except Stop α

/-
  Run top-level statements in order.  Each starts with the
  registers that the one before has left.
-/
def interpret (fuel : Nat) (policy : Policy) (distances : Scope.Distances) :
    List Stmt → Registers → World → Report → Drive (World × Report)
  | [], registers, world, report => ⟨registers, [], .ok (world, report)⟩
  | first :: others, registers, world, report =>
    let ran := execute distances fuel first registers world
    let goOn := fun (world : World) (report : Report) =>
      let rest := interpret fuel policy distances others ran.registers world report
      { rest with records := ran.records ++ rest.records }
    match ran.outcome with
    | .done _ world => goOn world report
    | .failed fault world =>
      let report := report.add fault.diagnostic
      match policy with
      | .halt => ⟨ran.registers, ran.records, .ok (world, report)⟩
      | .proceed => goOn world report
    | .stopped reason => ⟨ran.registers, ran.records, .error reason⟩

end Machine

end Eval

------------------------------------------------------------
-- Statements and Signals
------------------------------------------------------------

/- The statements directly inside a statement. -/
def Stmt.parts : Stmt → List Stmt
  | .block body => body
  | .conditional _ thenBranch elseBranch => thenBranch :: elseBranch.toList
  | .whileLoop _ body => [body]
  | _ => []

namespace Eval

variable {before : List Record} {stmt : Stmt} {start : Registers}

/- How a statement ends if a part of it ends in this way. -/
def passes : Stmt → Flow → Flow
  | .whileLoop _ _, .broke => .normal
  | _, flow => flow

/- The statement itself gives the signal. -/
def Gives : Stmt → Flow → Prop
  | .breakLoop _, flow => flow = .broke
  | .returnValue _ _, flow => ∃ value, flow = .returned value
  | _, _ => False

/- A statement for a signal ends with that signal. -/
def Answers : Stmt → Ending Flow → Prop
  | .breakLoop _, ending => ending = .done .broke
  | .returnValue _ _, .done flow => ∃ value, flow = .returned value
  | _, _ => True

/- A statement that ended without a signal gives none. -/
def Ending.signal? : Ending Flow → Option Flow
  | .done .broke => some .broke
  | .done (.returned value) => some (.returned value)
  | _ => none

/- The signal that an executed statement ended with. -/
def Record.signal? : Record → Option Flow
  | .executed _ _ _ ending => ending.signal?
  | _ => none

theorem Ending.eq_of_signal? {ending : Ending Flow} {flow : Flow}
    (h : ending.signal? = some flow) :
    ending = .done flow ∧ flow ≠ .normal := by
  rcases ending with (_ | _ | value) | fault | reason
  · cases h
  · cases h
    exact ⟨rfl, Flow.noConfusion⟩
  · cases h
    exact ⟨rfl, Flow.noConfusion⟩
  · cases h
  · cases h

theorem Ending.signal?_done {flow : Flow} (h : flow ≠ .normal) :
    (Ending.done flow).signal? = some flow := by
  cases flow with
  | normal => exact absurd rfl h
  | broke => rfl
  | returned value => rfl

/- An expression that was evaluated. -/
def Record.isEvaluated : Record → Bool
  | .evaluated .. => true
  | _ => false

/- A body that was entered. -/
def Record.isEntered : Record → Bool
  | .entered .. => true
  | _ => false

/- A call, whether its body was entered or not. -/
def Record.isCall : Record → Bool
  | .entered .. => true
  | .refused .. => true
  | _ => false

/-
  How statements inside of something hand on their signals:
  a signal comes last and is passed on, and whatever signal
  it all ends with came from inside or is its own.  Calls
  are made inside of expressions only.
-/
structure Handed (parts : List Stmt) (pass : Flow → Flow) (own : Flow → Prop)
    (inside : List Record) (ending : Ending Flow) : Prop where
  part {stmt start deeper last} : .executed stmt start deeper last ∈ inside → stmt ∈ parts
  call {child} : child ∈ inside → child.isCall = false
  last {before child after flow} : inside = before ++ child :: after →
      child.signal? = some flow → after = [] ∧ ending = .done (pass flow)
  origin {flow} : ending = .done flow → flow ≠ .normal → own flow ∨
        ∃ child ∈ inside, child.signal? = some flow ∧ pass flow = flow

/- Nothing gives a signal of its own. -/
def nothing (_ : Flow) : Prop := False

/- How a statement ends by what is executed inside of it. -/
structure Ended (stmt : Stmt) (inside : List Record) (ending : Ending Flow) : Prop where
  handed : Handed stmt.parts (passes stmt) (Gives stmt) inside ending
  answers : Answers stmt ending

/-
  What is run inside of an expression: other expressions and
  called bodies.  A call that is refused is the last thing
  that is tried.
-/
structure Tried {α : Type} (inside : List Record) (ending : Ending α) : Prop where
  each {before child after} : inside = before ++ child :: after →
      child.isEvaluated = true ∨ child.isEntered = true ∨ ∃ closure paren start,
          child = .refused closure paren start ∧ after = [] ∧
            ending = .failed (.atToken paren .callDepth)

/-
  The rules by which the things that are run are recorded,
  with the number of bodies around them.
-/
inductive Formed (P : Function → Prop) : Nat → Record → Prop where
  | evaluated {n expr start inside ending} : start.depth = n →
      Tried inside ending → (∀ record ∈ inside, Formed P n record) →
      Formed P n (.evaluated expr start inside ending)
  | executed {n stmt start inside ending} : start.depth = n →
      Ended stmt inside ending → (∀ record ∈ inside, Formed P n record) →
      Formed P n (.executed stmt start inside ending)
  | entered {n closure start inside ending} : start.depth = n → n < depthLimit →
      P closure.function → Handed closure.function.body id nothing inside ending →
      (∀ record ∈ inside, Formed P (n + 1) record) →
      Formed P n (.entered closure start inside ending)
  | refused {n closure paren start} : start.depth = n → depthLimit ≤ n →
      Formed P n (.refused closure paren start)

/- Expressions only. -/
def Evaluated (records : List Record) : Prop := ∀ record ∈ records, record.isEvaluated = true

theorem Evaluated.nil : Evaluated [] := nofun

theorem Evaluated.append {before after : List Record}
    (hBefore : Evaluated before) (hAfter : Evaluated after) : Evaluated (before ++ after) := by
  intro record hMem
  rcases List.mem_append.mp hMem with hMem | hMem
  · exact hBefore record hMem
  · exact hAfter record hMem

/- Expressions only, whatever the ending. -/
def Evaluations {α : Type} (records : List Record) (_ : Ending α) : Prop := Evaluated records

/- What one statement leaves. -/
inductive Single (stmt : Stmt) (start : Registers) : List Record → Ending Flow → Prop where
  | executed {inside ending} : Single stmt start [.executed stmt start inside ending] ending
  | exhausted {reason} : Single stmt start [] (.stopped reason)

/- No signal and no call, and only these statements. -/
def Calm (parts : List Stmt) (records : List Record) : Prop :=
  ∀ record ∈ records, record.signal? = none ∧ record.isCall = false ∧
      ∀ stmt start inside ending, record = .executed stmt start inside ending → stmt ∈ parts

theorem Calm.nil (parts : List Stmt) : Calm parts [] := nofun

theorem Calm.of_evaluated {records : List Record} (h : Evaluated records)
    (parts : List Stmt) : Calm parts records := by
  intro record hMem
  have hKind := h record hMem
  cases record with
  | evaluated => exact ⟨rfl, rfl, nofun⟩
  | executed => cases hKind
  | entered => cases hKind
  | refused => cases hKind

theorem Calm.of_single {parts records : List _} {ending : Ending Flow}
    (hPart : stmt ∈ parts) (h : Single stmt start records ending)
    (hStores : ending.signal? = none) : Calm parts records := by
  cases h with
  | executed =>
    intro record hMem
    obtain rfl := List.mem_singleton.mp hMem
    refine ⟨hStores, rfl, ?_⟩
    intro other start inside last hSame
    cases hSame
    exact hPart
  | exhausted => exact .nil parts

namespace Handed

variable {parts : List Stmt} {pass : Flow → Flow} {own : Flow → Prop} {records : List Record}

/- Without a signal inside there is only an own one. -/
theorem calm {ending : Ending Flow} (h : Calm parts records)
    (hOwn : ∀ flow, ending = .done flow → flow ≠ .normal → own flow) :
    Handed parts pass own records ending where
  part hMem := (h _ hMem).2.2 _ _ _ _ rfl
  call hMem := (h _ hMem).2.1
  last := by
    rintro before child after flow rfl hSignal
    have hNone := (h child (by simp)).1
    rw [hNone] at hSignal
    cases hSignal
  origin hDone hSignal := .inl (hOwn _ hDone hSignal)

theorem normal (h : Calm parts records) : Handed parts pass own records (.done .normal) := by
  apply calm h
  intro flow hDone hSignal
  cases hDone
  exact absurd rfl hSignal

theorem failed (h : Calm parts records) (fault : Fault) :
    Handed parts pass own records (.failed fault) := calm h nofun

theorem stopped (h : Calm parts records) (reason : Stop) :
    Handed parts pass own records (.stopped reason) := calm h nofun

/- Nothing changes by what came before without a signal. -/
theorem prepend {ending : Ending Flow} (hBefore : Calm parts before)
    (h : Handed parts pass own records ending) :
    Handed parts pass own (before ++ records) ending where
  part hMem := by
    rcases List.mem_append.mp hMem with hMem | hMem
    · exact (hBefore _ hMem).2.2 _ _ _ _ rfl
    · exact h.part hMem
  call hMem := by
    rcases List.mem_append.mp hMem with hMem | hMem
    · exact (hBefore _ hMem).2.1
    · exact h.call hMem
  last := by
    intro early child after flow hSame hSignal
    rcases List.append_eq_append_iff.mp hSame with
      ⟨between, hEarly, hRecords⟩ | ⟨between, hBetween, hAfter⟩
    · exact h.last hRecords hSignal
    · cases between with
      | nil =>
        have hFirst : records = [] ++ child :: after := hAfter.symm
        exact h.last hFirst hSignal
      | cons first others =>
        rw [List.cons_append] at hAfter
        obtain ⟨rfl, _⟩ := List.cons.inj hAfter
        have hNone := (hBefore child (by rw [hBetween]; simp)).1
        rw [hNone] at hSignal
        cases hSignal
  origin hDone hSignal := by
    rcases h.origin hDone hSignal with hOwn | ⟨child, hMem, hChild⟩
    · exact .inl hOwn
    · exact .inr ⟨child, List.mem_append_right _ hMem, hChild⟩

/- More statements might have been there. -/
theorem wider {ending : Ending Flow} (h : Handed parts pass own records ending)
    (first : Stmt) : Handed (first :: parts) pass own records ending :=
  { h with
    part := fun hMem => List.mem_cons_of_mem _ (h.part hMem) }

/- A statement alone, whose signal leads to this ending. -/
theorem alone {inside : List Record} {last ending : Ending Flow} (hPart : stmt ∈ parts)
    (hLast : ∀ {flow}, last.signal? = some flow → ending = .done (pass flow))
    (hOrigin : ∀ {flow}, ending = .done flow → flow ≠ .normal →
      last.signal? = some flow ∧ pass flow = flow) :
    Handed parts pass own [.executed stmt start inside last] ending := by
  constructor
  · intro other start inside last hMem
    cases List.mem_singleton.mp hMem
    exact hPart
  · intro child hMem
    obtain rfl := List.mem_singleton.mp hMem
    rfl
  · intro before child after flow hSame hSignal
    have hOnly := List.append_eq_singleton_iff.mp hSame.symm
    rcases hOnly with ⟨rfl, hSingle⟩ | ⟨_, hNone⟩
    · obtain ⟨rfl, rfl⟩ := List.cons.inj hSingle
      exact ⟨rfl, hLast hSignal⟩
    · cases hNone
  · exact fun hEnding hFlow => .inr ⟨_, List.mem_singleton_self _, hOrigin hEnding hFlow⟩

/- A statement whose signal is passed on as it is. -/
theorem single {ending : Ending Flow} (hPart : stmt ∈ parts)
    (h : Single stmt start records ending)
    (hPass : ∀ flow, ending = .done flow → pass flow = flow) :
    Handed parts pass own records ending := by
  cases h with
  | exhausted => exact stopped (.nil parts) _
  | executed =>
    refine alone hPart ?_ ?_
    · intro flow hSignal
      have hEnding := (Ending.eq_of_signal? hSignal).1
      rw [hPass flow hEnding]
      exact hEnding
    · rintro flow rfl hSignal
      exact ⟨Ending.signal?_done hSignal, hPass flow rfl⟩

/- The statement broke a loop, and the loop ends by it. -/
theorem broken (h : Single stmt start records (.done .broke))
    (hPart : stmt ∈ parts) (hPass : pass .broke = .normal) :
    Handed parts pass own records (.done .normal) := by
  cases h with
  | executed =>
    refine alone hPart ?_ ?_
    · rintro flow ⟨⟩
      rw [hPass]
    · intro flow hDone hSignal
      cases hDone
      exact absurd rfl hSignal

end Handed

namespace Tried

variable {α : Type} {records : List Record} {ending : Ending α}

theorem of_evaluated (h : Evaluated records) : Tried records ending := by
  constructor
  rintro before child after rfl
  exact .inl (h child (by simp))

variable {β : Type}

/- Nothing was refused in what came to an end before. -/
theorem append {value : β} (hBefore : Tried before (.done value))
    (h : Tried records ending) : Tried (before ++ records) ending := by
  constructor
  intro early child after hSame
  rcases List.append_eq_append_iff.mp hSame with
    ⟨between, hEarly, hRecords⟩ | ⟨between, hBetween, hAfter⟩
  · exact h.each hRecords
  · cases between with
    | nil =>
      have hFirst : records = [] ++ child :: after := hAfter.symm
      exact h.each hFirst
    | cons first others =>
      rw [List.cons_append] at hAfter
      obtain ⟨rfl, _⟩ := List.cons.inj hAfter
      rcases hBefore.each hBetween with hEvaluated | hEntered | ⟨_, _, _, _, _, hFailed⟩
      · exact .inl hEvaluated
      · exact .inr (.inl hEntered)
      · cases hFailed

theorem prepend (hBefore : Evaluated before) (h : Tried records ending) :
    Tried (before ++ records) ending := by
  have hUnit : Tried before (.done ()) := .of_evaluated hBefore
  exact hUnit.append h

theorem entered {closure : Closure} {inside : List Record} {flow : Ending Flow} :
    Tried [.entered closure start inside flow] ending := by
  constructor
  intro before child after hSame
  have hMem : child ∈ [Record.entered closure start inside flow] :=
    hSame ▸ List.mem_append_right _ (List.mem_cons_self ..)
  obtain rfl := List.mem_singleton.mp hMem
  exact .inr (.inl rfl)

theorem failed {fault : Fault} (h : Tried records (.failed fault : Ending α)) :
    Tried records (.failed fault : Ending β) := by
  constructor
  intro before child after hSame
  rcases h.each hSame with hEvaluated | hEntered | ⟨closure, paren, start, hChild, hLast, hFault⟩
  · exact .inl hEvaluated
  · exact .inr (.inl hEntered)
  · cases hFault
    exact .inr (.inr ⟨closure, paren, start, hChild, hLast, rfl⟩)

theorem stopped {reason : Stop} (h : Tried records (.stopped reason : Ending α)) :
    Tried records (.stopped reason : Ending β) := by
  constructor
  intro before child after hSame
  rcases h.each hSame with hEvaluated | hEntered | ⟨_, _, _, _, _, hFault⟩
  · exact .inl hEvaluated
  · exact .inr (.inl hEntered)
  · cases hFault

theorem refused (closure : Closure) (paren : Token) (start : Registers) :
    Tried [.refused closure paren start] (.failed (.atToken paren .callDepth) : Ending α) := by
  constructor
  intro before child after hSame
  rcases List.append_eq_singleton_iff.mp hSame.symm with ⟨_, hLast⟩ | ⟨_, hNone⟩
  · obtain ⟨rfl, rfl⟩ := List.cons.inj hLast
    exact .inr (.inr ⟨closure, paren, start, rfl, rfl, rfl⟩)
  · cases hNone

end Tried

end Eval

end Scriptlet
