import Scriptlet.Eval.Access
import Scriptlet.Eval.Operator

/-
  Running expressions, statements and programs.

  Key declarations include:
    * `Eval.evaluate`
    * `Eval.execute`
    * `Eval.apply`
    * `Eval.invoke`
    * `Eval.interpret`

  Every step into a part or into a called body takes one
  unit of fuel.  The current frame and the call depth are
  arguments, so leaving a block or a call by whatever way
  restores them.
-/

namespace Scriptlet

namespace Eval

/- How many calls may be active at once. -/
def depthLimit : Nat := 128

/- A function value over the current frame. -/
def makeFunction (ctx : Context) (f : Function) :
    Action Value := do
  let id ← allocate fun heap =>
      heap.addFunction ⟨f, ctx.frame, false⟩
  return .function id

/- Print a value; faults are at the keyword. -/
def printValue (keyword : Token) (value : Value) : Action Unit :=
  fun w =>
    match w.host.printFailure with
    | some text =>
        .failed (.atToken keyword (.printFailed text)) w
    | none =>
        let text := w.heap.display value
        .done () { w with host := w.host.print text }

/- The current object, as a method's frame binds it. -/
def selfName : String := "this"

/- The superclass, as a class frame binds it. -/
def superName : String := "super"

/-
  A superclass method: the superclass is bound at the
  distance of the keyword, the object one frame nearer.
-/
def superMethod (ctx : Context) (id : Nat) (keyword method : Token) : Action Value := do
  match ctx.distances[id]? with
  | none => failAt keyword .superOutsideMethod
  | some distance =>
      let parent ← require keyword (.undefinedVariable keyword.lexeme) fun heap =>
            heap.getAt? ctx.frame distance keyword.lexeme
      match parent with
      | .blueprint classId =>
          let self ← require keyword (.undefinedVariable selfName) fun heap =>
                heap.getAt? ctx.frame (distance - 1) selfName
          match self with
          | .object object =>
              let found ← require method (.undefinedProperty method.lexeme) fun heap =>
                    heap.findMethod? classId method.lexeme
              bound found object
          | _ => failAt keyword .selfNotObject
      | _ => failAt keyword .superclass

/- The token a superclass fault is at. -/
def superclassToken (name : Token) : Expr → Token
  | .name _ parent => parent
  | _ => name

/- The class a superclass expression gave. -/
def asSuperclass (name : Token) (expr : Expr) (value : Value) : Action ClassId :=
  match value with
  | .blueprint id => return id
  | _ => failAt (superclassToken name expr) .superclass

/- The frame that the methods of a class close over. -/
def classFrame (ctx : Context) (superclass : Option ClassId) : Action FrameId :=
  match superclass with
  | some id =>
      allocate fun heap =>
        heap.addFrame [(superName, .blueprint id)] (some ctx.frame)
  | none => return ctx.frame

/- The methods of a class by name. -/
def methodTable (frame : FrameId) (methods : List Function) : Bindings Closure :=
  Bindings.ofPairs <| methods.map fun f =>
      (f.label, ⟨f, frame, f.label = Heap.initializerName⟩)

/- Create a class and bind its name in the current frame. -/
def makeClass (ctx : Context) (name : Token) (superclass : Option ClassId)
    (methods : List Function) : Action Unit := do
  declare ctx name.lexeme .nil
  let frame ← classFrame ctx superclass
  let id ← allocate fun heap =>
      heap.addClass ⟨name.lexeme, superclass, methodTable frame methods⟩
  assign name (·.holder? ctx.frame name.lexeme) (.blueprint id)

/- How many arguments a value takes when called. -/
def arity? (heap : Heap) : Value → Option Nat
  | .function id =>
      heap.functions[id]?.map fun closure =>
        closure.function.arity
  | .native native => some native.arity
  | .blueprint id => some (heap.classArity id)
  | _ => none

/- Is the value called with as many arguments as it takes? -/
def checkCall (callee : Value) (paren : Token) (given : Nat) : Action Unit := do
  match ← inspect (arity? · callee) with
  | none => failAt paren (.notCallable callee.typeName)
  | some expected =>
      if given = expected then return ()
      else failAt paren (.arity expected given)

/- Parameters bound to arguments by position. -/
def parameters (f : Function) (arguments : List Value) : Bindings Value :=
  Bindings.ofPairs ((f.params.map Token.lexeme).zip arguments)

/- What a call gives once the body has ended. -/
def result (closure : Closure) (flow : Flow) : Action Value :=
  if closure.isInitializer then
    require closure.function.keyword (.undefinedVariable selfName)
      fun heap => heap.getAt? closure.frame 0 selfName
  else
    match flow with
    | .returned value => return value
    | _ => return .nil

mutual

/- The value of an expression. -/
def evaluate : Nat → Context → Expr → Action Value
  | 0, _, _ => exhausted
  | fuel + 1, ctx, expr => do
      match expr with
      | .literal value => return .ofLiteral value
      | .name id name => readVariable ctx id name
      | .assign id name value =>
          let value ← evaluate fuel ctx value
          writeVariable ctx id name value
          return value
      | .compound target operator value =>
          let place ← evaluatePlace fuel ctx target operator
          let old ← place.read ctx
          let operand ← evaluate fuel ctx value
          let new ← operate (baseOperator operator.kind) operator old operand
          place.write ctx new
          return new
      | .increment target operator before =>
          let place ← evaluatePlace fuel ctx target operator
          match ← place.read ctx with
          | .number old =>
              let new := old + stepSize operator
              place.write ctx (.number new)
              return .number (if before then new else old)
          | other =>
              failAt operator (.stepOperand operator.lexeme other.typeName)
      | .unary operator operand =>
          negate operator (← evaluate fuel ctx operand)
      | .binary left operator right =>
          let left ← evaluate fuel ctx left
          let right ← evaluate fuel ctx right
          operate operator.kind operator left right
      | .logical left operator right =>
          let left ← evaluate fuel ctx left
          if decides operator left then return left
          else evaluate fuel ctx right
      | .call callee paren arguments =>
          let callee ← evaluate fuel ctx callee
          let arguments ← evaluateAll fuel ctx arguments
          apply fuel ctx callee paren arguments
      | .get object name =>
          getProperty (← evaluate fuel ctx object) name
      | .set object name value =>
          let object ← evaluate fuel ctx object
          let value ← evaluate fuel ctx value
          setProperty object name value
          return value
      | .index object bracket index =>
          let object ← evaluate fuel ctx object
          let index ← evaluate fuel ctx index
          getElement object index bracket
      | .indexSet object bracket index value =>
          let object ← evaluate fuel ctx object
          let index ← evaluate fuel ctx index
          let value ← evaluate fuel ctx value
          setElement object index bracket value
          return value
      | .self id keyword => readVariable ctx id keyword
      | .superMethod id keyword method =>
          superMethod ctx id keyword method
      | .function f => makeFunction ctx f
      | .group inner => evaluate fuel ctx inner
      | .array _ elements =>
          let items ← evaluateAll fuel ctx elements
          let id ← allocate fun heap => heap.addArray items.toArray
          return .array id

/- The values of expressions, from left to right. -/
def evaluateAll :
    Nat → Context → List Expr → Action (List Value)
  | 0, _, _ => exhausted
  | _ + 1, _, [] => return []
  | fuel + 1, ctx, first :: others => do
      let value ← evaluate fuel ctx first
      let values ← evaluateAll fuel ctx others
      return value :: values

/- Evaluate the parts of an assignment target once. -/
def evaluatePlace :
    Nat → Context → Expr → Token → Action Place
  | 0, _, _, _ => exhausted
  | fuel + 1, ctx, target, operator => do
      match target with
      | .name id name => return .named id name
      | .get object name =>
          let object ← evaluate fuel ctx object
          return .property object name
      | .index object bracket index =>
          let object ← evaluate fuel ctx object
          let index ← evaluate fuel ctx index
          return .element object index bracket
      | _ => failAt operator .assignmentTarget

/- Call a value. -/
def apply :
    Nat → Context → Value → Token → List Value → Action Value
  | 0, _, _, _, _ => exhausted
  | fuel + 1, ctx, callee, paren, arguments => do
      checkCall callee paren arguments.length
      match callee with
      | .native native => callNative native paren arguments
      | .function id =>
          match ← inspect (·.functions[id]?) with
          | some closure =>
              invoke fuel ctx closure paren arguments
          | none => failAt paren (.notCallable callee.typeName)
      | .blueprint id =>
          let object ← allocate fun heap => heap.addObject id
          match ← inspect (·.initializer? id) with
          | some method =>
              let closure ← allocate fun heap =>
                  heap.bindMethod method object
              let _ ← invoke fuel ctx closure paren arguments
              return .object object
          | none => return .object object
      | _ => failAt paren (.notCallable callee.typeName)

/-
  Run the body of a function in a frame of its own inside
  the frame it was declared in.
-/
def invoke :
    Nat → Context → Closure → Token → List Value → Action Value
  | 0, _, _, _, _ => exhausted
  | fuel + 1, ctx, closure, paren, arguments => do
      if depthLimit ≤ ctx.depth then failAt paren .callDepth
      else
        let f := closure.function
        let frame ← allocate fun heap =>
            heap.addFrame (parameters f arguments) (some closure.frame)
        let inside := { ctx with frame := frame, depth := ctx.depth + 1 }
        let flow ← executeAll fuel inside f.body
        result closure flow

/- Run a statement. -/
def execute : Nat → Context → Stmt → Action Flow
  | 0, _, _ => exhausted
  | fuel + 1, ctx, stmt => do
      match stmt with
      | .expression expr =>
          let _ ← evaluate fuel ctx expr
          return .normal
      | .print keyword value =>
          printValue keyword (← evaluate fuel ctx value)
          return .normal
      | .letDecl name none =>
          declare ctx name.lexeme .nil
          return .normal
      | .letDecl name (some value) =>
          declare ctx name.lexeme (← evaluate fuel ctx value)
          return .normal
      | .functionDecl f =>
          declare ctx f.label (← makeFunction ctx f)
          return .normal
      | .classDecl name none methods =>
          makeClass ctx name none methods
          return .normal
      | .classDecl name (some parent) methods =>
          let value ← evaluate fuel ctx parent
          let classId ← asSuperclass name parent value
          makeClass ctx name (some classId) methods
          return .normal
      | .block body =>
          let frame ← allocate fun heap =>
              heap.addFrame [] (some ctx.frame)
          executeAll fuel { ctx with frame := frame } body
      | .conditional condition thenBranch elseBranch =>
          if (← evaluate fuel ctx condition).isTruthy then
            execute fuel ctx thenBranch
          else
            match elseBranch with
            | some stmt => execute fuel ctx stmt
            | none => return .normal
      | .whileLoop condition body =>
          if (← evaluate fuel ctx condition).isTruthy then
            match ← execute fuel ctx body with
            | .normal =>
                execute fuel ctx (.whileLoop condition body)
            | .broke => return .normal
            | .returned value => return .returned value
          else return .normal
      | .breakLoop _ => return .broke
      | .returnValue _ none => return .returned .nil
      | .returnValue _ (some value) =>
          let value ← evaluate fuel ctx value
          return .returned value

/- Run statements until one does not end normally. -/
def executeAll : Nat → Context → List Stmt → Action Flow
  | 0, _, _ => exhausted
  | _ + 1, _, [] => return .normal
  | fuel + 1, ctx, first :: others => do
      match ← execute fuel ctx first with
      | .normal => executeAll fuel ctx others
      | flow => return flow

end

/- What follows a statement that failed. -/
inductive Policy where
  | halt
  | proceed
  deriving DecidableEq, Repr

/-
  Run top-level statements in order and report their faults,
  unless one is broken off.
-/
def interpret (fuel : Nat) (policy : Policy) (ctx : Context) :
    List Stmt → World → Report → Except Stop (World × Report)
  | [], world, report => .ok (world, report)
  | first :: others, world, report =>
      match execute fuel ctx first world with
      | .done _ world =>
          interpret fuel policy ctx others world report
      | .failed fault world =>
          let report := report.add fault.diagnostic
          match policy with
          | .halt => .ok (world, report)
          | .proceed =>
              interpret fuel policy ctx others world report
      | .stopped reason => .error reason

/-
  Run every top-level statement, whatever becomes of the
  others, and tell how each one ended.
-/
def executeEach (fuel : Nat) (ctx : Context) :
    List Stmt → World → Except Stop (List (Except Fault Flow) × World)
  | [], world => .ok ([], world)
  | first :: others, world =>
      match execute fuel ctx first world with
      | .done flow world => do
          let (ends, world) ← executeEach fuel ctx others world
          return (.ok flow :: ends, world)
      | .failed fault world => do
          let (ends, world) ← executeEach fuel ctx others world
          return (.error fault :: ends, world)
      | .stopped reason => .error reason

end Eval

end Scriptlet
