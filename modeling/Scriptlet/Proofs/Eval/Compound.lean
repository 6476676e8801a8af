import Scriptlet.Proofs.Eval.Advance
import Scriptlet.Proofs.Eval.Scoped

/-
  Assignments that combine and assignments that step.

  Key declarations include:
    * `Eval.Bare`
    * `Eval.Node.set`
    * `Eval.Node.indexSet`
    * `Eval.Unwritten`

  A combined assignment evaluates the parts of its target
  once.  Apart from that it is an assignment of a binary
  operation, and a step is a combined assignment of one:
    * `Eval.compound_agrees_with_assignment`
-/

namespace Scriptlet

namespace Eval

variable {ctx : Context} {fuel : Nat}

section

variable {α β γ : Type}

theorem pure_then (value : α) (next : α → Action β) : (pure value >>= next) = next value :=
  rfl

theorem then_assoc (action : Action α) (next : α → Action β) (last : β → Action γ) :
    (action >>= next) >>= last = action >>= fun value => next value >>= last := by
  funext w
  change Action.bind (Action.bind action next) last w =
    Action.bind action (fun v => Action.bind (next v) last) w
  unfold Action.bind
  cases action w <;> rfl

end

/-
  What expressions do, in terms of what their parts do.  A
  part may be an expression or, by `pure`, a value.
-/
namespace Node

def binary (left : Action Value) (operator : Token) (right : Action Value) : Action Value := do
  let left ← left
  let right ← right
  operate operator.kind operator left right

def get (object : Action Value) (name : Token) :
    Action Value := do
  getProperty (← object) name

def set (object : Action Value) (name : Token) (value : Action Value) : Action Value := do
  let object ← object
  let value ← value
  setProperty object name value
  return value

def index (object : Action Value) (bracket : Token) (position : Action Value) :
    Action Value := do
  let object ← object
  let position ← position
  getElement object position bracket

def indexSet (object : Action Value) (bracket : Token)
    (position value : Action Value) : Action Value := do
  let object ← object
  let position ← position
  let value ← value
  setElement object position bracket value
  return value

/- The evaluator puts the parts of nodes together so. -/
structure Composes (fuel : Nat) (ctx : Context) : Prop where
  binary (left : Expr) (operator : Token) (right : Expr) :
    evaluate (fuel + 1) ctx (.binary left operator right) =
      Node.binary (evaluate fuel ctx left) operator (evaluate fuel ctx right)
  get (object : Expr) (name : Token) : evaluate (fuel + 1) ctx (.get object name) =
      Node.get (evaluate fuel ctx object) name
  set (object : Expr) (name : Token) (value : Expr) :
    evaluate (fuel + 1) ctx (.set object name value) =
      Node.set (evaluate fuel ctx object) name (evaluate fuel ctx value)
  index (object : Expr) (bracket : Token) (position : Expr) :
    evaluate (fuel + 1) ctx (.index object bracket position) =
      Node.index (evaluate fuel ctx object) bracket (evaluate fuel ctx position)
  indexSet (object : Expr) (bracket : Token) (position value : Expr) :
    evaluate (fuel + 1) ctx (.indexSet object bracket position value) =
      Node.indexSet (evaluate fuel ctx object) bracket
        (evaluate fuel ctx position) (evaluate fuel ctx value)

theorem composes (fuel : Nat) (ctx : Context) : Composes fuel ctx where
  binary _ _ _ := by rw [evaluate]; rfl
  get _ _ := by rw [evaluate]; rfl
  set _ _ _ := by rw [evaluate]; rfl
  index _ _ _ := by rw [evaluate]; rfl
  indexSet _ _ _ _ := by rw [evaluate]; rfl

end Node

/-
  An operator that is written on its own, at the place of one
  that combines and assigns.
-/
structure Bare (operator plain : Token) : Prop where
  kind : plain.kind = baseOperator operator.kind
  line : plain.line = operator.line
  file : plain.file = operator.file

variable {plain : Token}

theorem Bare.operate_eq {operator : Token} (h : Bare operator plain) (left right : Value) :
    operate (baseOperator operator.kind) operator left right =
      operate plain.kind plain left right := by
  funext w
  unfold operate
  rw [h.kind]
  simp only [Fault.atToken, h.line, h.file]

/- Two nodes refer to the same variable. -/
def Refers (distances : Scope.Distances) (id other : Nat) : Prop :=
  distances[other]? = distances[id]?

variable {id other : Nat}

theorem Refers.readVariable_eq (h : Refers ctx.distances id other) (name : Token) :
    readVariable ctx other name = readVariable ctx id name := by
  unfold readVariable
  rw [h]

theorem Refers.writeVariable_eq
    (h : Refers ctx.distances id other) (name : Token) (value : Value) :
    writeVariable ctx other name value =
      writeVariable ctx id name value := by
  unfold writeVariable
  rw [h]

variable {read write : Nat}

theorem evaluate_compound_name {operator : Token}
    (hBare : Bare operator plain) (hRead : Refers ctx.distances id read)
    (hWrite : Refers ctx.distances id write) (name : Token) (value : Expr) :
    evaluate (fuel + 1) ctx (.compound (.name id name) operator value) = evaluate (fuel + 2) ctx
        (.assign write name (.binary (.name read name) plain value)) := by
  cases fuel with
  | zero => rfl
  | succ fuel =>
    simp only [evaluate, evaluatePlace, pure_then, then_assoc, hRead.readVariable_eq,
      hWrite.writeVariable_eq, hBare.operate_eq, Place.read, Place.write]

theorem evaluate_compound_get {operator : Token}
    (hBare : Bare operator plain) (object : Expr) (name : Token) (value : Expr) :
    evaluate (fuel + 2) ctx (.compound (.get object name) operator value) =
      evaluate fuel ctx object >>= fun v =>
        Node.set (pure v) name
          (Node.binary (Node.get (pure v) name) plain (evaluate (fuel + 1) ctx value)) := by
  rw [evaluate, evaluatePlace]
  simp only [then_assoc, pure_then, hBare.operate_eq,
    Place.read, Place.write, Node.set, Node.binary, Node.get]

theorem evaluate_compound_index {operator : Token}
    (hBare : Bare operator plain) (object : Expr) (bracket : Token) (position value : Expr) :
    evaluate (fuel + 2) ctx (.compound (.index object bracket position) operator value) =
      evaluate fuel ctx object >>= fun v =>
        evaluate fuel ctx position >>= fun k =>
          Node.indexSet (pure v) bracket (pure k)
            (Node.binary (Node.index (pure v) bracket (pure k)) plain
              (evaluate (fuel + 1) ctx value)) := by
  rw [evaluate, evaluatePlace]
  simp only [then_assoc, pure_then, hBare.operate_eq,
    Place.read, Place.write, Node.indexSet, Node.binary, Node.index]

/-
  Expressions in the same scopes refer to the same variable
  by the same name.
-/
theorem refers_of_known {known : Scope.Site → Prop}
    (hTable : Tabled known ctx.distances) {kinds : List Scope.Kind}
    {scopes : List Scope.Names} {name operator : Token} {value : Expr}
    (h : Expr.Known known kinds (.compound (.name id name) operator value) scopes)
    (h' : Expr.Known known kinds
      (.assign write name (.binary (.name read name) plain value)) scopes) :
    Refers ctx.distances id read ∧ Refers ctx.distances id write := by
  have hName := hTable _ h.1
  have hRead := hTable _ h'.1.1
  have hWrite := hTable _ h'.2
  exact ⟨hRead.trans hName.symm, hWrite.trans hName.symm⟩

------------------------------------------------------------
-- Steps
------------------------------------------------------------

section

variable {target : Expr} {operator : Token} {place : Place} {value : Value} {n : Float}
variable {w w₁ w₂ : World}

/- The parts of a target are evaluated, and it is read. -/
structure Reads (fuel : Nat) (ctx : Context) (target : Expr) (operator : Token)
    (w w₁ : World) (place : Place) (value : Value) (w₂ : World) : Prop where
  located : evaluatePlace fuel ctx target operator w = .done place w₁
  found : place.read ctx w₁ = .done value w₂

theorem evaluate_increment_number
    (h : Reads fuel ctx target operator w w₁ place (.number n) w₂)
    (before : Bool) :
    evaluate (fuel + 1) ctx (.increment target operator before) w =
      (place.write ctx (.number (n + stepSize operator)) >>= fun _ =>
          pure (.number
            (if before then n + stepSize operator
              else n))) w₂ := by
  rw [evaluate]
  refine (bind_done _ h.located).trans ?_
  exact bind_done _ h.found

theorem evaluate_increment_other (h : Reads fuel ctx target operator w w₁ place value w₂)
    (hOther : ∀ n, value ≠ .number n) (before : Bool) :
    evaluate (fuel + 1) ctx (.increment target operator before) w = .failed
        (.atToken operator (.stepOperand operator.lexeme value.typeName)) w₂ := by
  rw [evaluate]
  refine (bind_done _ h.located).trans ?_
  refine (bind_done _ h.found).trans ?_
  cases value with
  | number n => exact absurd rfl (hOther n)
  | _ => rfl

/- The operator only locates the fault of a wrong target. -/
theorem evaluatePlace_at {other : Token} (hLine : other.line = operator.line)
    (hFile : other.file = operator.file) :
    evaluatePlace fuel ctx target other =
      evaluatePlace fuel ctx target operator := by
  have hFail (cause : Cause) : (failAt other cause : Action Place) =
        failAt operator cause := by
    funext w
    simp only [failAt, Fault.atToken, hLine, hFile]
  cases fuel with
  | zero => rfl
  | succ fuel =>
    cases target with
    | name => rfl
    | get => rfl
    | index => rfl
    | _ => simp only [evaluatePlace, hFail]

/- A step up adds one, unless something else is read. -/
theorem evaluate_increment_eq_compound {plus : Token}
    (hStep : operator.kind = .symbol .plusPlus)
    (hPlus : plus.kind = .symbol .plusEqual) (hLine : plus.line = operator.line)
    (hFile : plus.file = operator.file)
    (hNumber : ∀ w₁ place value w₂, Reads fuel ctx target operator w w₁ place value w₂ →
        ∃ n, value = .number n) : evaluate (fuel + 1) ctx (.increment target operator true) w =
      evaluate (fuel + 1) ctx (.compound target plus (.literal (.number 1))) w := by
  cases fuel with
  | zero => rfl
  | succ fuel =>
    simp only [evaluate, evaluatePlace_at hLine hFile]
    cases hPlace : evaluatePlace (fuel + 1) ctx target operator w with
    | stopped reason => rw [bind_stopped _ hPlace, bind_stopped _ hPlace]
    | failed fault w₁ => rw [bind_failed _ hPlace, bind_failed _ hPlace]
    | done place w₁ =>
      rw [bind_done _ hPlace, bind_done _ hPlace]
      cases hRead : place.read ctx w₁ with
      | stopped reason => rw [bind_stopped _ hRead, bind_stopped _ hRead]
      | failed fault w₂ => rw [bind_failed _ hRead, bind_failed _ hRead]
      | done value w₂ =>
        obtain ⟨n, rfl⟩ := hNumber w₁ place value w₂ ⟨hPlace, hRead⟩
        rw [bind_done _ hRead, bind_done _ hRead, hPlus]
        simp only [stepSize, hStep, if_true]
        rfl

/-
  Nothing that can be read has changed, neither variables nor
  elements nor fields, and nothing has been printed.
-/
structure Unwritten (w w' : World) : Prop where
  host : w'.host = w.host
  frames {frame : FrameId} : frame < w.heap.frames.size →
      w'.heap.frames[frame]? = w.heap.frames[frame]?
  arrays : w'.heap.arrays = w.heap.arrays
  objects : w'.heap.objects = w.heap.objects
  classes : w'.heap.classes = w.heap.classes

theorem Unwritten.refl (w : World) : Unwritten w w := ⟨rfl, fun _ => rfl, rfl, rfl, rfl⟩

variable {object : ObjectId}

/- To bind a method adds a frame and a function. -/
theorem Unwritten.of_bound {method : Closure}
    (h : bound method object w = .done value w₁) : Unwritten w w₁ := by
  rw [bound_eq] at h
  cases h
  refine ⟨rfl, fun hFrame => ?_, rfl, rfl, rfl⟩
  exact Heap.frames_addFrame _ _ _ hFrame

variable {name : Token}

theorem getMember_unwritten
    (h : getMember object name w = .done value w₁) : Unwritten w w₁ := by
  unfold getMember at h
  rw [bind_inspect] at h
  cases hField : w.heap.field? object name.lexeme with
  | some found =>
    rw [hField] at h
    cases h
    exact .refl w
  | none =>
    rw [hField] at h
    dsimp only at h
    rw [bind_inspect] at h
    cases hMethod : w.heap.methodOf? object name.lexeme with
    | some method =>
      rw [hMethod] at h
      exact .of_bound h
    | none =>
      rw [hMethod] at h
      cases h

theorem getProperty_unwritten {object : Value}
    (h : getProperty object name w = .done value w₁) : Unwritten w w₁ := by
  unfold getProperty at h
  cases object with
  | object id => exact getMember_unwritten h
  | array id
  | string text =>
    dsimp only at h
    split at h
    · cases h
      exact .refl w
    · cases h
  | _ => cases h

theorem getElement_unwritten {object index : Value} {bracket : Token}
    (h : getElement object index bracket w = .done value w₁) : Unwritten w w₁ := by
  cases object with
  | array id =>
    obtain ⟨rfl, _⟩ := getElement_done h
    exact .refl _
  | string text =>
    unfold getElement locate at h
    dsimp only at h
    split at h
    · cases h
      exact .refl w
    · cases h
  | _ => cases h

/- To read a place is to write nothing. -/
theorem Place.read_unwritten (h : place.read ctx w = .done value w₁) : Unwritten w w₁ := by
  cases place with
  | named id name =>
    unfold Place.read readVariable require at h
    dsimp only at h
    split at h
    · cases h
      exact .refl w
    · cases h
  | property object name => exact getProperty_unwritten h
  | element object index bracket => exact getElement_unwritten h

end

/-
  What a step does to a target.  A step up is a combined
  assignment of one if nothing but a number is read, and a
  step down adds the negative of one.  In either place the
  operator leaves the same state; behind the target it gives
  what was read.  Anything but a number is not written to.
-/
structure Stepping (fuel : Nat) (ctx : Context) (target : Expr)
    (operator : Token) (w : World) : Prop where
  up {plus : Token} : operator.kind = .symbol .plusPlus →
    plus.kind = .symbol .plusEqual → plus.line = operator.line → plus.file = operator.file →
    (∀ w₁ place value w₂, Reads fuel ctx target operator w w₁ place value w₂ →
        ∃ n, value = .number n) → evaluate (fuel + 1) ctx (.increment target operator true) w =
      evaluate (fuel + 1) ctx (.compound target plus (.literal (.number 1))) w
  down {w₁ place n w₂} (before : Bool) : operator.kind = .symbol .minusMinus →
    Reads fuel ctx target operator w w₁ place (.number n) w₂ →
    evaluate (fuel + 1) ctx (.increment target operator before) w =
      (place.write ctx (.number (n + -1)) >>= fun _ =>
        pure (.number (if before then n + -1 else n))) w₂
  behind {w₁ place n w₂} : Reads fuel ctx target operator w w₁ place (.number n) w₂ →
    evaluate (fuel + 1) ctx (.increment target operator false) w =
      (evaluate (fuel + 1) ctx (.increment target operator true) >>= fun _ => pure (.number n)) w
  other {w₁ place value w₂} (before : Bool) : Reads fuel ctx target operator w w₁ place value w₂ →
    (∀ n, value ≠ .number n) → Unwritten w₁ w₂ ∧ evaluate (fuel + 1) ctx
          (.increment target operator before) w = .failed
          (.atToken operator (.stepOperand operator.lexeme value.typeName)) w₂

theorem stepping (fuel : Nat) (ctx : Context) (target : Expr) (operator : Token)
    (w : World) : Stepping fuel ctx target operator w where
  up := evaluate_increment_eq_compound
  down := by
    intro w₁ place n w₂ before hDown hReads
    rw [evaluate_increment_number hReads before, stepSize, if_neg (by rw [hDown]; decide)]
  behind := by
    intro w₁ place n w₂ hReads
    have hBefore := evaluate_increment_number hReads true
    rw [evaluate_increment_number hReads false]
    cases hWrite : place.write ctx (.number (n + stepSize operator)) w₂ with
    | stopped reason =>
      rw [bind_stopped _ hWrite] at hBefore ⊢
      rw [bind_stopped _ hBefore]
    | failed fault w₃ =>
      rw [bind_failed _ hWrite] at hBefore ⊢
      rw [bind_failed _ hBefore]
    | done _ w₃ =>
      rw [bind_done _ hWrite] at hBefore ⊢
      rw [bind_done _ hBefore]
      rfl
  other := by
    intro w₁ place value w₂ before hReads hOther
    exact ⟨Place.read_unwritten hReads.found, evaluate_increment_other hReads hOther before⟩

/-
  A combined assignment agrees with a plain one.

  For a variable it is the assignment of a binary operation
  to it, wherever the nodes refer to the same variable, as
  they do in the same scopes.  For a property or an element
  the parts of the target are evaluated once, in order; what
  follows is the plain assignment with the values of these
  parts in their place.  Results, faults and the worlds that
  are left are the same.
-/
theorem compound_agrees_with_assignment
    (fuel : Nat)
    (ctx : Context)
    {operator plain : Token}
    (hBare : Bare operator plain)
    (value : Expr) :
    Node.Composes fuel ctx ∧
    (∀ id read write name,
      Refers ctx.distances id read →
      Refers ctx.distances id write →
        evaluate (fuel + 1) ctx
            (.compound (.name id name) operator value) =
          evaluate (fuel + 2) ctx
            (.assign write name
              (.binary (.name read name) plain value))) ∧
    (∀ known kinds scopes id read write name,
      Tabled known ctx.distances →
      Expr.Known known kinds
        (.compound (.name id name) operator value) scopes →
      Expr.Known known kinds
        (.assign write name
          (.binary (.name read name) plain value)) scopes →
        Refers ctx.distances id read ∧
          Refers ctx.distances id write) ∧
    (∀ object name,
      evaluate (fuel + 2) ctx
          (.compound (.get object name) operator value) =
        evaluate fuel ctx object >>= fun v =>
          Node.set (pure v) name
            (Node.binary (Node.get (pure v) name) plain
              (evaluate (fuel + 1) ctx value))) ∧
    (∀ object bracket position,
      evaluate (fuel + 2) ctx
          (.compound (.index object bracket position) operator
            value) =
        evaluate fuel ctx object >>= fun v =>
          evaluate fuel ctx position >>= fun k =>
            Node.indexSet (pure v) bracket (pure k)
              (Node.binary
                (Node.index (pure v) bracket (pure k)) plain
                (evaluate (fuel + 1) ctx value))) ∧
    ∀ target step w, Stepping fuel ctx target step w := by
  refine ⟨Node.composes fuel ctx, ?_, ?_, ?_, ?_,
    stepping fuel ctx⟩
  · intro id read write name hRead hWrite
    exact evaluate_compound_name hBare hRead hWrite name value
  · intro known kinds scopes id read write name hTable h h'
    exact refers_of_known hTable h h'
  · exact fun object name =>
      evaluate_compound_get hBare object name value
  · exact fun object bracket position =>
      evaluate_compound_index hBare object bracket position value

/- A global variable holds an object with a field. -/
def counter : World where
  heap :=
    { Heap.empty with
      frames := #[⟨[("o", .object 0)], none⟩]
      objects := #[⟨0, [("n", .number 5)]⟩] }
  host := {}

/- The field is raised by two, and another time by one. -/
theorem counter_raised :
    let ctx := Context.top {}
    let word (name : String) : Token :=
      ⟨.identifier, name, 1, "count"⟩
    let sign (s : Symbol) (text : String) : Token :=
      ⟨.symbol s, text, 1, "count"⟩
    let target : Expr := .get (.name 0 (word "o")) (word "n")
    let two : Expr := .literal (.number 2)
    Bare (sign .plusEqual "+=") (sign .plus "+") ∧
      evaluate 3 ctx
          (.compound target (sign .plusEqual "+=") two) counter =
        (Node.set (pure (.object 0)) (word "n")
          (Node.binary
            (Node.get (pure (.object 0)) (word "n"))
            (sign .plus "+") (evaluate 2 ctx two))) counter ∧
      evaluate 3 ctx
          (.increment target (sign .plusPlus "++") true) counter =
        evaluate 3 ctx
          (.compound target (sign .plusEqual "+=")
            (.literal (.number 1))) counter ∧
      evaluate 3 ctx
          (.increment target (sign .plusPlus "++") true) counter =
        .done (.number 6)
          { counter with
            heap :=
              { counter.heap with
                objects := #[⟨0, [("n", .number 6)]⟩] } } := by
  intro ctx word sign target two
  have hBare :
      Bare (sign .plusEqual "+=") (sign .plus "+") :=
    ⟨rfl, rfl, rfl⟩
  have hObject : evaluate 1 ctx (.name 0 (word "o")) counter =
      .done (.object 0) counter := by
    simp [evaluate, readVariable, require, Heap.get?, ctx, word,
      Context.top, Heap.local?, counter, Heap.globals,
      Bindings.get?]
  have hReads : Reads 2 ctx target (sign .plusPlus "++") counter
      counter (.property (.object 0) (word "n")) (.number 5)
      counter :=
    ⟨bind_done _ hObject, rfl⟩
  have hSum : (5 : Float) + 1 = 6 := by decide +kernel
  rcases compound_agrees_with_assignment 1 ctx hBare two with
    ⟨_, _, _, hGet, _, _⟩
  rcases compound_agrees_with_assignment 2 ctx hBare two with
    ⟨_, _, _, _, _, hStepping⟩
  have hPlus : (sign .plusEqual "+=").kind =
      .symbol .plusEqual := rfl
  refine ⟨hBare, ?_,
    (hStepping target (sign .plusPlus "++") counter).up rfl
      hPlus rfl rfl ?_, ?_⟩
  · exact (congrFun (hGet _ _) counter).trans
      (bind_done _ hObject)
  · rintro w₁ place value w₂ ⟨hPlace, hRead⟩
    cases hReads.located.symm.trans hPlace
    cases hReads.found.symm.trans hRead
    exact ⟨5, rfl⟩
  · rw [evaluate_increment_number hReads true]
    simp only [stepSize, sign, if_true, hSum]
    rfl

end Eval

end Scriptlet
