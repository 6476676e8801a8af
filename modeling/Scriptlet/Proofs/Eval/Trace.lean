import Scriptlet.Eval.Run
import Scriptlet.Proofs.Scope.Sites

/-
  Runs with a record of what happens in them.

  Key declarations include:
    * `Eval.Event`
    * `Eval.Traced`
    * `Eval.Traced.evaluate`
    * `Eval.Traced.execute`
    * `Eval.tracesAll`
    * `Eval.Traced.interpret`

  A traced run does what the run does and tells which frames
  it opens, which initializers begin and are completed, and
  which reference nodes it comes to.
-/

namespace Scriptlet

namespace Eval

/-
  Something that happens in a run.  A reference node is
  visited when the variable is read or changed.
-/
inductive Event where
  | opened (kind : Scope.Kind) (frame : FrameId)
  | began (frame : FrameId) (name : String)
  | completed (frame : FrameId) (name : String)
  | visited (reference : Reference) (ctx : Context) (heap : Heap)

/- What has happened so far, in order. -/
abbrev History := List Event

/- An action that goes on with a history. -/
def Traced (α : Type) : Type := History → World → History × Outcome α

namespace Traced

protected def pure {α : Type} (value : α) : Traced α := fun history w => (history, .done value w)

protected def bind {α β : Type} (action : Traced α) (next : α → Traced β) : Traced β :=
  fun history w =>
    match action history w with
    | (history', .done value w') => next value history' w'
    | (history', .failed fault w') => (history', .failed fault w')
    | (history', .stopped reason) => (history', .stopped reason)

instance : Monad Traced where
  pure := Traced.pure
  bind := Traced.bind

end Traced

/- Nothing happens that the history would tell. -/
def plain {α : Type} (action : Action α) : Traced α := fun history w => (history, action w)

/- Tell an event. -/
def tell (event : Event) : Traced Unit := fun history w => (history ++ [event], .done () w)

/- Come to a reference node. -/
def visit (ctx : Context) (role : Role) (id : Nat) (token : Token) : Traced Unit :=
  fun history w => tell (.visited ⟨role, id, token⟩ ctx w.heap) history w

/- The frames that an action has added. -/
def Outcome.added {α : Type} (w : World) :
    Outcome α → List FrameId
  | .done _ w' | .failed _ w' =>
    List.range' w.heap.frames.size (w'.heap.frames.size - w.heap.frames.size)
  | .stopped _ => []

/- Every frame that the action adds is of this kind. -/
def opening {α : Type} (kind : Scope.Kind) (action : Action α) : Traced α :=
  fun history w =>
    let outcome := action w
    (history ++ (outcome.added w).map (.opened kind), outcome)

/- Come to the node of a place that is a variable. -/
def Place.visit (ctx : Context) : Place → Traced Unit
  | .named id name => Eval.visit ctx .name id name
  | _ => return ()

namespace Traced

/- Create a class; its superclass has a frame of its own. -/
def makeClass (ctx : Context) (name : Token) (superclass : Option ClassId)
    (methods : List Function) : Traced Unit := do
  plain (declare ctx name.lexeme .nil)
  let frame ← opening .superclass (classFrame ctx superclass)
  let id ← plain <| allocate fun heap =>
      heap.addClass ⟨name.lexeme, superclass, methodTable frame methods⟩
  plain <| assign name (·.holder? ctx.frame name.lexeme) (.blueprint id)

mutual

def evaluate : Nat → Context → Expr → Traced Value
  | 0, _, _ => plain exhausted
  | fuel + 1, ctx, expr => do
      match expr with
      | .literal value => return .ofLiteral value
      | .name id name =>
        visit ctx .name id name
        plain (readVariable ctx id name)
      | .assign id name value =>
        let value ← evaluate fuel ctx value
        visit ctx .assign id name
        plain (writeVariable ctx id name value)
        return value
      | .compound target operator value =>
        let place ← evaluatePlace fuel ctx target operator
        place.visit ctx
        let old ← opening .self (place.read ctx)
        let operand ← evaluate fuel ctx value
        let new ← plain <| operate (baseOperator operator.kind) operator old operand
        place.visit ctx
        plain (place.write ctx new)
        return new
      | .increment target operator before =>
        let place ← evaluatePlace fuel ctx target operator
        place.visit ctx
        match ← opening .self (place.read ctx) with
        | .number old =>
          let new := old + stepSize operator
          place.visit ctx
          plain (place.write ctx (.number new))
          return .number (if before then new else old)
        | other => plain <| failAt operator (.stepOperand operator.lexeme other.typeName)
      | .unary operator operand =>
        let operand ← evaluate fuel ctx operand
        plain (negate operator operand)
      | .binary left operator right =>
        let left ← evaluate fuel ctx left
        let right ← evaluate fuel ctx right
        plain (operate operator.kind operator left right)
      | .logical left operator right =>
        let left ← evaluate fuel ctx left
        if decides operator left then return left
        else evaluate fuel ctx right
      | .call callee paren arguments =>
        let callee ← evaluate fuel ctx callee
        let arguments ← evaluateAll fuel ctx arguments
        apply fuel ctx callee paren arguments
      | .get object name =>
        let object ← evaluate fuel ctx object
        opening .self (getProperty object name)
      | .set object name value =>
        let object ← evaluate fuel ctx object
        let value ← evaluate fuel ctx value
        plain (setProperty object name value)
        return value
      | .index object bracket index =>
        let object ← evaluate fuel ctx object
        let index ← evaluate fuel ctx index
        plain (getElement object index bracket)
      | .indexSet object bracket index value =>
        let object ← evaluate fuel ctx object
        let index ← evaluate fuel ctx index
        let value ← evaluate fuel ctx value
        plain (setElement object index bracket value)
        return value
      | .self id keyword =>
        visit ctx .self id keyword
        plain (readVariable ctx id keyword)
      | .superMethod id keyword method =>
        visit ctx .superMethod id keyword
        opening .self (superMethod ctx id keyword method)
      | .function f => plain (makeFunction ctx f)
      | .group inner => evaluate fuel ctx inner
      | .array _ elements =>
        let items ← evaluateAll fuel ctx elements
        let id ← plain <| allocate fun heap => heap.addArray items.toArray
        return .array id

def evaluateAll :
    Nat → Context → List Expr → Traced (List Value)
  | 0, _, _ => plain exhausted
  | _ + 1, _, [] => return []
  | fuel + 1, ctx, first :: others => do
      let value ← evaluate fuel ctx first
      let values ← evaluateAll fuel ctx others
      return value :: values

def evaluatePlace :
    Nat → Context → Expr → Token → Traced Place
  | 0, _, _, _ => plain exhausted
  | fuel + 1, ctx, target, operator => do
      match target with
      | .name id name => return .named id name
      | .get object name =>
        let object ← evaluate fuel ctx object
        return .property object name
      | .index object bracket index =>
        let object ← evaluate fuel ctx object
        let index ← evaluate fuel ctx index
        return .element object index bracket
      | _ => plain (failAt operator .assignmentTarget)

def apply :
    Nat → Context → Value → Token → List Value → Traced Value
  | 0, _, _, _, _ => plain exhausted
  | fuel + 1, ctx, callee, paren, arguments => do
      plain (checkCall callee paren arguments.length)
      match callee with
      | .native native => plain (callNative native paren arguments)
      | .function id =>
        match ← plain (inspect (·.functions[id]?)) with
        | some closure => invoke fuel ctx closure paren arguments
        | none => plain <| failAt paren (.notCallable callee.typeName)
      | .blueprint id =>
        let object ← plain <| allocate fun heap => heap.addObject id
        match ← plain (inspect (·.initializer? id)) with
        | some method =>
          let closure ← opening .self <| allocate fun heap => heap.bindMethod method object
          let _ ← invoke fuel ctx closure paren arguments
          return .object object
        | none => return .object object
      | _ => plain (failAt paren (.notCallable callee.typeName))

def invoke :
    Nat → Context → Closure → Token → List Value → Traced Value
  | 0, _, _, _, _ => plain exhausted
  | fuel + 1, ctx, closure, paren, arguments => do
      if depthLimit ≤ ctx.depth then
        plain (failAt paren .callDepth)
      else
        let f := closure.function
        let frame ← opening .function <| allocate fun heap =>
            heap.addFrame (parameters f arguments) (some closure.frame)
        let inside := { ctx with frame := frame, depth := ctx.depth + 1 }
        let flow ← executeAll fuel inside f.body
        plain (result closure flow)

def execute : Nat → Context → Stmt → Traced Flow
  | 0, _, _ => plain exhausted
  | fuel + 1, ctx, stmt => do
      match stmt with
      | .expression expr =>
        let _ ← evaluate fuel ctx expr
        return .normal
      | .print keyword value =>
        let value ← evaluate fuel ctx value
        plain (printValue keyword value)
        return .normal
      | .letDecl name none =>
        plain (declare ctx name.lexeme .nil)
        return .normal
      | .letDecl name (some value) =>
        tell (.began ctx.frame name.lexeme)
        let value ← evaluate fuel ctx value
        plain (declare ctx name.lexeme value)
        tell (.completed ctx.frame name.lexeme)
        return .normal
      | .functionDecl f =>
        let value ← plain (makeFunction ctx f)
        plain (declare ctx f.label value)
        return .normal
      | .classDecl name none methods =>
        makeClass ctx name none methods
        return .normal
      | .classDecl name (some parent) methods =>
        let value ← evaluate fuel ctx parent
        let classId ← plain (asSuperclass name parent value)
        makeClass ctx name (some classId) methods
        return .normal
      | .block body =>
        let frame ← opening .block <| allocate fun heap => heap.addFrame [] (some ctx.frame)
        executeAll fuel { ctx with frame := frame } body
      | .conditional condition thenBranch elseBranch =>
        if (← evaluate fuel ctx condition).isTruthy then
          execute fuel ctx thenBranch
        else
          match elseBranch with
          | some stmt => execute fuel ctx stmt
          | none => return .normal
      | .whileLoop condition body =>
        if (← evaluate fuel ctx condition).isTruthy then
          match ← execute fuel ctx body with
          | .normal => execute fuel ctx (.whileLoop condition body)
          | .broke => return .normal
          | .returned value => return .returned value
        else return .normal
      | .breakLoop _ => return .broke
      | .returnValue _ none => return .returned .nil
      | .returnValue _ (some value) =>
        let value ← evaluate fuel ctx value
        return .returned value

def executeAll : Nat → Context → List Stmt → Traced Flow
  | 0, _, _ => plain exhausted
  | _ + 1, _, [] => return .normal
  | fuel + 1, ctx, first :: others => do
      match ← execute fuel ctx first with
      | .normal => executeAll fuel ctx others
      | flow => return flow

end

end Traced

------------------------------------------------------------
-- Traced Runs and Runs
------------------------------------------------------------

/- The traced action does what the action does. -/
structure Traces {α : Type} (traced : Traced α) (action : Action α) : Prop where
  outcome (history : History) (w : World) : (traced history w).2 = action w

namespace Traces

variable {α β : Type}

theorem pure (value : α) : Traces (Pure.pure value) (Pure.pure value) := ⟨fun _ _ => rfl⟩

theorem plain (action : Action α) : Traces (Eval.plain action) action := ⟨fun _ _ => rfl⟩

theorem opening (kind : Scope.Kind) (action : Action α) :
    Traces (Eval.opening kind action) action := ⟨fun _ _ => rfl⟩

theorem bind {traced : Traced α} {action : Action α} {next : α → Traced β}
    {next' : α → Action β} (hAction : Traces traced action)
    (hNext : ∀ value, Traces (next value) (next' value)) :
    Traces (traced >>= next) (action >>= next') := by
  constructor
  intro history w
  have hOutcome := hAction.outcome history w
  change (Traced.bind traced next history w).2 = Action.bind action next' w
  unfold Traced.bind Action.bind
  rw [← hOutcome]
  rcases traced history w with ⟨history', outcome⟩
  cases outcome with
  | done value w' => exact (hNext value).outcome history' w'
  | failed fault w' => rfl
  | stopped reason => rfl

/- What only tells something may be left out. -/
theorem told {note : Traced Unit} {traced : Traced β} {action : Action β}
    (hNote : Traces note (Pure.pure ())) (hNext : Traces traced action) :
    Traces (note >>= fun _ => traced) action := by
  have hBind := hNote.bind fun _ => hNext
  exact ⟨hBind.outcome⟩

theorem tell (event : Event) : Traces (Eval.tell event) (Pure.pure ()) := ⟨fun _ _ => rfl⟩

theorem visit (ctx : Context) (role : Role) (id : Nat) (token : Token) :
    Traces (Eval.visit ctx role id token) (Pure.pure ()) := ⟨fun _ _ => rfl⟩

theorem place (ctx : Context) (place : Place) : Traces (place.visit ctx) (Pure.pure ()) := by
  cases place with
  | named id name => exact .visit ctx .name id name
  | property => exact .pure ()
  | element => exact .pure ()

end Traces

theorem makeClass_traces (ctx : Context) (name : Token)
    (superclass : Option ClassId) (methods : List Function) :
    Traces (Traced.makeClass ctx name superclass methods)
      (makeClass ctx name superclass methods) := by
  apply Traces.bind (.plain _)
  intro _
  apply Traces.bind (.opening _ _)
  intro frame
  apply Traces.bind (.plain _)
  intro id
  exact .plain _

/- Traced runs with this fuel do what the runs do. -/
structure TracesAll (fuel : Nat) : Prop where
  evaluate (ctx : Context) (expr : Expr) :
    Traces (Traced.evaluate fuel ctx expr) (Eval.evaluate fuel ctx expr)
  evaluateAll (ctx : Context) (exprs : List Expr) :
    Traces (Traced.evaluateAll fuel ctx exprs) (Eval.evaluateAll fuel ctx exprs)
  evaluatePlace (ctx : Context) (target : Expr) (operator : Token) :
    Traces (Traced.evaluatePlace fuel ctx target operator)
      (Eval.evaluatePlace fuel ctx target operator)
  apply (ctx : Context) (callee : Value) (paren : Token) (arguments : List Value) :
    Traces (Traced.apply fuel ctx callee paren arguments)
      (Eval.apply fuel ctx callee paren arguments)
  invoke (ctx : Context) (closure : Closure) (paren : Token) (arguments : List Value) :
    Traces (Traced.invoke fuel ctx closure paren arguments)
      (Eval.invoke fuel ctx closure paren arguments)
  execute (ctx : Context) (stmt : Stmt) : Traces (Traced.execute fuel ctx stmt)
      (Eval.execute fuel ctx stmt)
  executeAll (ctx : Context) (stmts : List Stmt) :
    Traces (Traced.executeAll fuel ctx stmts) (Eval.executeAll fuel ctx stmts)

section Step

variable {fuel : Nat} (ih : TracesAll fuel) (ctx : Context)
include ih

theorem evaluate_traces (expr : Expr) :
    Traces (Traced.evaluate (fuel + 1) ctx expr) (evaluate (fuel + 1) ctx expr) := by
  cases expr with
  | literal value => exact .pure _
  | name id name => exact .told (.visit ..) (.plain _)
  | assign id name value =>
    apply Traces.bind (ih.evaluate ctx value)
    intro value
    apply Traces.told (.visit ..)
    exact .bind (.plain _) fun _ => .pure value
  | compound target operator value =>
    apply Traces.bind (ih.evaluatePlace ctx target operator)
    intro place
    apply Traces.told (.place ctx place)
    apply Traces.bind (.opening _ _)
    intro old
    apply Traces.bind (ih.evaluate ctx value)
    intro operand
    apply Traces.bind (.plain _)
    intro new
    apply Traces.told (.place ctx place)
    exact .bind (.plain _) fun _ => .pure new
  | increment target operator before =>
    apply Traces.bind (ih.evaluatePlace ctx target operator)
    intro place
    apply Traces.told (.place ctx place)
    apply Traces.bind (.opening _ _)
    intro old
    cases old with
    | number old =>
      apply Traces.told (.place ctx place)
      exact .bind (.plain _) fun _ => .pure _
    | _ => exact .plain _
  | unary operator operand => exact .bind (ih.evaluate ctx operand) fun _ => .plain _
  | binary left operator right
  | index left bracket right =>
    apply Traces.bind (ih.evaluate ctx left)
    intro left
    exact .bind (ih.evaluate ctx right) fun _ => .plain _
  | logical left operator right =>
    apply Traces.bind (ih.evaluate ctx left)
    intro left
    split
    · exact .pure left
    · exact ih.evaluate ctx right
  | call callee paren arguments =>
    apply Traces.bind (ih.evaluate ctx callee)
    intro callee
    apply Traces.bind (ih.evaluateAll ctx arguments)
    intro arguments
    exact ih.apply ctx callee paren arguments
  | get object name => exact .bind (ih.evaluate ctx object) fun _ => .opening _ _
  | set object name value =>
    apply Traces.bind (ih.evaluate ctx object)
    intro object
    apply Traces.bind (ih.evaluate ctx value)
    intro value
    exact .bind (.plain _) fun _ => .pure value
  | indexSet object bracket position value =>
    apply Traces.bind (ih.evaluate ctx object)
    intro object
    apply Traces.bind (ih.evaluate ctx position)
    intro index
    apply Traces.bind (ih.evaluate ctx value)
    intro value
    exact .bind (.plain _) fun _ => .pure value
  | self id keyword => exact .told (.visit ..) (.plain _)
  | superMethod id keyword method => exact .told (.visit ..) (.opening _ _)
  | function f => exact .plain _
  | group inner => exact ih.evaluate ctx inner
  | array bracket elements =>
    apply Traces.bind (ih.evaluateAll ctx elements)
    intro items
    exact .bind (.plain _) fun _ => .pure _

theorem evaluateAll_traces (exprs : List Expr) :
    Traces (Traced.evaluateAll (fuel + 1) ctx exprs) (evaluateAll (fuel + 1) ctx exprs) := by
  cases exprs with
  | nil => exact .pure []
  | cons first others =>
    apply Traces.bind (ih.evaluate ctx first)
    intro value
    apply Traces.bind (ih.evaluateAll ctx others)
    intro values
    exact .pure _

theorem evaluatePlace_traces (target : Expr) (operator : Token) :
    Traces (Traced.evaluatePlace (fuel + 1) ctx target operator)
      (evaluatePlace (fuel + 1) ctx target operator) := by
  cases target with
  | name id name => exact .pure _
  | get object name => exact .bind (ih.evaluate ctx object) fun _ => .pure _
  | index object bracket position =>
    apply Traces.bind (ih.evaluate ctx object)
    intro object
    exact .bind (ih.evaluate ctx position) fun _ => .pure _
  | _ => exact .plain _

theorem apply_traces (callee : Value) (paren : Token) (arguments : List Value) :
    Traces (Traced.apply (fuel + 1) ctx callee paren arguments)
      (apply (fuel + 1) ctx callee paren arguments) := by
  apply Traces.bind (.plain _)
  intro _
  cases callee with
  | native native => exact .plain _
  | function id =>
    apply Traces.bind (.plain _)
    intro found
    cases found with
    | some closure => exact ih.invoke ctx closure paren arguments
    | none => exact .plain _
  | blueprint id =>
    apply Traces.bind (.plain _)
    intro object
    apply Traces.bind (.plain _)
    intro found
    cases found with
    | some method =>
      apply Traces.bind (.opening _ _)
      intro closure
      apply Traces.bind (ih.invoke ctx closure paren arguments)
      intro _
      exact .pure _
    | none => exact .pure _
  | _ => exact .plain _

theorem invoke_traces (closure : Closure) (paren : Token) (arguments : List Value) :
    Traces (Traced.invoke (fuel + 1) ctx closure paren arguments)
      (invoke (fuel + 1) ctx closure paren arguments) := by
  simp only [Traced.invoke, invoke]
  split
  · exact .plain _
  · apply Traces.bind (.opening _ _)
    intro frame
    apply Traces.bind (ih.executeAll _ _)
    intro flow
    exact .plain _

theorem execute_traces (stmt : Stmt) :
    Traces (Traced.execute (fuel + 1) ctx stmt) (execute (fuel + 1) ctx stmt) := by
  cases stmt with
      simp only [Traced.execute, execute]
  | expression expr =>
    exact .bind (ih.evaluate ctx expr) fun _ => .pure _
  | print keyword value =>
    apply Traces.bind (ih.evaluate ctx value)
    intro value
    exact .bind (.plain _) fun _ => .pure _
  | letDecl name value =>
    cases value with
    | none =>
      exact .bind (.plain _) fun _ => .pure _
    | some value =>
      apply Traces.told (.tell _)
      apply Traces.bind (ih.evaluate ctx value)
      intro value
      apply Traces.bind (.plain _)
      intro _
      exact .told (.tell _) (.pure _)
  | functionDecl f =>
    apply Traces.bind (.plain _)
    intro value
    exact .bind (.plain _) fun _ => .pure _
  | classDecl name parent methods =>
    cases parent with
    | none =>
      exact .bind (makeClass_traces ctx name none methods) fun _ => .pure _
    | some parent =>
      apply Traces.bind (ih.evaluate ctx parent)
      intro value
      apply Traces.bind (.plain _)
      intro classId
      exact .bind (makeClass_traces ctx name (some classId) methods) fun _ => .pure _
  | block body =>
    apply Traces.bind (.opening _ _)
    intro frame
    exact ih.executeAll _ body
  | conditional condition thenBranch elseBranch =>
    apply Traces.bind (ih.evaluate ctx condition)
    intro value
    split
    · exact ih.execute ctx thenBranch
    · cases elseBranch with
      | some stmt => exact ih.execute ctx stmt
      | none => exact .pure _
  | whileLoop condition body =>
    apply Traces.bind (ih.evaluate ctx condition)
    intro value
    split
    · apply Traces.bind (ih.execute ctx body)
      intro flow
      cases flow with
      | normal => exact ih.execute ctx _
      | broke => exact .pure _
      | returned value => exact .pure _
    · exact .pure _
  | breakLoop keyword =>
    exact .pure _
  | returnValue keyword value =>
    cases value with
    | none =>
      exact .pure _
    | some value =>
      exact .bind (ih.evaluate ctx value) fun _ => .pure _

theorem executeAll_traces (stmts : List Stmt) :
    Traces (Traced.executeAll (fuel + 1) ctx stmts) (executeAll (fuel + 1) ctx stmts) := by
  cases stmts with
  | nil => exact .pure _
  | cons first others =>
    apply Traces.bind (ih.execute ctx first)
    intro flow
    cases flow with
    | normal => exact ih.executeAll ctx others
    | broke => exact .pure _
    | returned value => exact .pure _

end Step

/- A record does not change a run, whatever the fuel. -/
theorem tracesAll (fuel : Nat) : TracesAll fuel := by
  induction fuel with
  | zero => constructor <;> intros <;> exact .plain _
  | succ fuel ih =>
    exact {
      evaluate := evaluate_traces ih
      evaluateAll := evaluateAll_traces ih
      evaluatePlace := evaluatePlace_traces ih
      apply := apply_traces ih
      invoke := invoke_traces ih
      execute := execute_traces ih
      executeAll := executeAll_traces ih }

/- Run top-level statements with a record. -/
def Traced.interpret (fuel : Nat) (policy : Policy) (ctx : Context) :
    List Stmt → History → World → Report → History × Except Stop (World × Report)
  | [], history, world, report => (history, .ok (world, report))
  | first :: others, history, world, report =>
    match Traced.execute fuel ctx first history world with
    | (history, .done _ world) => Traced.interpret fuel policy ctx others history world report
    | (history, .failed fault world) =>
      let report := report.add fault.diagnostic
      match policy with
      | .halt => (history, .ok (world, report))
      | .proceed => Traced.interpret fuel policy ctx others history world report
    | (history, .stopped reason) => (history, .error reason)

theorem interpret_traces (fuel : Nat) (policy : Policy) (ctx : Context)
    (body : List Stmt) (history : History) (world : World) (report : Report) :
    (Traced.interpret fuel policy ctx body history world report).2 =
      interpret fuel policy ctx body world report := by
  induction body generalizing history world report with
  | nil => rfl
  | cons first others ih =>
    have hOutcome := ((tracesAll fuel).execute ctx first).outcome history world
    unfold Traced.interpret interpret
    rw [← hOutcome]
    rcases Traced.execute fuel ctx first history world with ⟨history', outcome⟩
    cases outcome with
    | done flow world' => exact ih history' world' report
    | failed fault world' =>
      cases policy with
      | halt => rfl
      | proceed => exact ih history' world' _
    | stopped reason => rfl

end Eval

end Scriptlet
