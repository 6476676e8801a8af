import Scriptlet.Proofs.Eval.Sound

/-
  What holds of every function and frame in a run.

  Key declarations include:
    * `Expr.Every`
    * `Stmt.Every`
    * `Heap.Holds`
    * `Heap.Spares`
    * `Eval.Maintains`
    * `Stmt.Contained`

  The functions in a heap come from the trees that were run.
  What holds of every function that a tree makes, and of
  those that the bodies of such functions make, holds of
  every function in the heap: such as that every `break` is
  in a loop and every `return` in a function body.  Names are
  declared in the current frame only, and other frames bind
  the names they did.
-/

namespace Scriptlet

section

mutual

/- Every function that is made by the expression. -/
def Expr.Every (P : Function → Prop) : Expr → Prop
  | .literal _ => True
  | .name _ _ => True
  | .assign _ _ value => value.Every P
  | .compound target _ value => target.Every P ∧ value.Every P
  | .increment target _ _ => target.Every P
  | .unary _ operand => operand.Every P
  | .binary left _ right => left.Every P ∧ right.Every P
  | .logical left _ right => left.Every P ∧ right.Every P
  | .call callee _ arguments => callee.Every P ∧ exprsEvery P arguments
  | .get object _ => object.Every P
  | .set object _ value => object.Every P ∧ value.Every P
  | .index object _ position => object.Every P ∧ position.Every P
  | .indexSet object _ position value => object.Every P ∧ position.Every P ∧ value.Every P
  | .self _ _ => True
  | .superMethod _ _ _ => True
  | .function f => P f
  | .group inner => inner.Every P
  | .array _ elements => exprsEvery P elements

def exprsEvery (P : Function → Prop) : List Expr → Prop
  | [] => True
  | first :: others => first.Every P ∧ exprsEvery P others

end

mutual

/- Every function that is made by the statement. -/
def Stmt.Every (P : Function → Prop) : Stmt → Prop
  | .expression expr => expr.Every P
  | .print _ value => value.Every P
  | .letDecl _ none => True
  | .letDecl _ (some value) => value.Every P
  | .functionDecl f => P f
  | .classDecl _ none methods => ∀ f ∈ methods, P f
  | .classDecl _ (some parent) methods => parent.Every P ∧ ∀ f ∈ methods, P f
  | .block body => stmtsEvery P body
  | .conditional condition thenBranch none => condition.Every P ∧ thenBranch.Every P
  | .conditional condition thenBranch (some elseBranch) =>
    condition.Every P ∧ thenBranch.Every P ∧ elseBranch.Every P
  | .whileLoop condition body => condition.Every P ∧ body.Every P
  | .breakLoop _ => True
  | .returnValue _ none => True
  | .returnValue _ (some value) => value.Every P

def stmtsEvery (P : Function → Prop) : List Stmt → Prop
  | [] => True
  | first :: others => first.Every P ∧ stmtsEvery P others

end

section

variable {P : Function → Prop} {nodes : List Reference}

/- What holds of the functions among some nodes. -/
def Among (P : Function → Prop) (nodes : List Reference) : Prop :=
  ∀ f : Function, f.references ⊆ nodes → P f

/- The functions of a tree have only nodes of the tree. -/
theorem trees_every_among (hP : Among P nodes) :
    (∀ expr : Expr, expr.references ⊆ nodes → expr.Every P) ∧
    (∀ f : Function, f.references ⊆ nodes → stmtsEvery P f.body) ∧
    (∀ stmts, stmtsReferences stmts ⊆ nodes → stmtsEvery P stmts) ∧
    (∀ stmt : Stmt, stmt.references ⊆ nodes → stmt.Every P) ∧
    (∀ methods, functionsReferences methods ⊆ nodes → ∀ f ∈ methods, P f) ∧
    ∀ exprs, exprsReferences exprs ⊆ nodes → exprsEvery P exprs := by
  apply Expr.references.mutual_induct <;> intros
  case case16 f _ h | case23 f _ h => exact hP f h
  all_goals grind [Among, Expr.references, Stmt.references, Function.references, exprsReferences,
    stmtsReferences, functionsReferences, List.append_subset, Expr.Every, Stmt.Every, exprsEvery,
    stmtsEvery, Function.body]

/- What holds of all functions holds in every tree. -/
theorem Expr.every_of (h : ∀ f, P f) (expr : Expr) : expr.Every P :=
  (trees_every_among fun f _ => h f).1 expr (List.Subset.refl _)

theorem exprsEvery_of (h : ∀ f, P f) (exprs : List Expr) : exprsEvery P exprs :=
  (trees_every_among fun f _ => h f).2.2.2.2.2 exprs (List.Subset.refl _)

theorem Stmt.every_of (h : ∀ f, P f) (stmt : Stmt) : stmt.Every P :=
  (trees_every_among fun f _ => h f).2.2.2.1 stmt (List.Subset.refl _)

theorem stmtsEvery_of (h : ∀ f, P f) (stmts : List Stmt) : stmtsEvery P stmts :=
  (trees_every_among fun f _ => h f).2.2.1 stmts (List.Subset.refl _)

end

variable {P : Function → Prop}

/- Every function and every method in the heap. -/
structure Heap.Holds (P : Function → Prop) (heap : Heap) : Prop where
  functions : ∀ closure ∈ heap.functions, P closure.function
  methods : ∀ blueprint ∈ heap.classes, ∀ name method,
    blueprint.methods.get? name = some method → P method.function

theorem Heap.holds_any (heap : Heap) : heap.Holds fun _ => True :=
  ⟨fun _ _ => trivial, fun _ _ _ _ _ => trivial⟩

namespace Heap.Holds

variable {heap : Heap}

theorem initial : Heap.Holds P Heap.initial where
  functions := fun closure hMem => absurd hMem (Array.not_mem_empty closure)
  methods := fun blueprint hMem => absurd hMem (Array.not_mem_empty blueprint)

variable (h : heap.Holds P)

include h

theorem mono {Q : Function → Prop} (hWider : ∀ f, P f → Q f) : heap.Holds Q where
  functions := fun closure hMem => hWider _ (h.functions closure hMem)
  methods := fun blueprint hMem name method hGet =>
    hWider _ (h.methods blueprint hMem name method hGet)

theorem of_same {heap' : Heap} (hFunctions : heap'.functions = heap.functions)
    (hClasses : heap'.classes = heap.classes) : heap'.Holds P where
  functions := by
    rw [hFunctions]
    exact h.functions
  methods := by
    rw [hClasses]
    exact h.methods

variable {closure : Closure}

theorem addFunction
    (hNew : P closure.function) : (heap.addFunction closure).2.Holds P where
  functions := by
    intro other hMem
    rcases Array.mem_push.mp hMem with hMem | rfl
    · exact h.functions other hMem
    · exact hNew
  methods := h.methods

theorem addClass {blueprint : Blueprint}
    (hNew : ∀ name method, blueprint.methods.get? name = some method →
        P method.function) : (heap.addClass blueprint).2.Holds P where
  functions := h.functions
  methods := by
    intro other hMem
    rcases Array.mem_push.mp hMem with hMem | rfl
    · exact h.methods other hMem
    · exact hNew

/- A function that is found in the heap. -/
theorem of_function {id : FunctionId}
    (hFound : heap.functions[id]? = some closure) : P closure.function :=
  h.functions closure (Array.mem_of_getElem? hFound)

/- A method that is found in the heap. -/
theorem of_method {classId : ClassId} {name : String}
    {method : Closure} (hFound : heap.findMethod? classId name = some method) :
    P method.function := by
  rcases Eval.mem_of_findMethod? hFound with ⟨blueprint, hMem, hGet⟩
  exact h.methods blueprint hMem name method hGet

end Heap.Holds

variable {old : Nat}

/- The frames before `old` are there, and bind the names they did. -/
structure Heap.Spares (old : Nat) (heap heap' : Heap) : Prop where
  size : old ≤ heap'.frames.size
  bound : ∀ frame < old, ∀ name,
    (heap'.local? frame name).isSome = (heap.local? frame name).isSome

namespace Heap.Spares

variable {heap heap' : Heap}

theorem trans {heap'' : Heap} (h : heap.Spares old heap') (h' : heap'.Spares old heap'') :
    heap.Spares old heap'' where
  size := h'.size
  bound frame hFrame name := (h'.bound frame hFrame name).trans (h.bound frame hFrame name)

variable (hSize : old ≤ heap.frames.size)

include hSize

theorem settles (h : heap.Settles heap') : heap.Spares old heap' where
  size := h.size ▸ hSize
  bound frame _ name := h.bound frame name

theorem addFrame (bindings : Bindings Value) (outer : Option FrameId) :
    heap.Spares old (heap.addFrame bindings outer).2 where
  size := Nat.le_trans hSize (heap.grows_addFrame bindings outer).size
  bound frame hFrame name := by
    simp only [Heap.local?, Heap.frames_addFrame _ _ _ (Nat.lt_of_lt_of_le hFrame hSize)]

theorem define {current : FrameId} (hCurrent : old ≤ current) (name : String) (value : Value) :
    heap.Spares old (heap.define current name value) where
  size := Nat.le_trans hSize (heap.grows_define ..).size
  bound frame hFrame key := by
    rw [Heap.local?_define, if_neg]
    rintro ⟨rfl, _⟩
    exact Nat.not_lt.mpr hCurrent hFrame

end Heap.Spares

------------------------------------------------------------
-- Actions That Keep Code
------------------------------------------------------------

namespace Eval

variable {α : Type}

def Outcome.Spares (old : Nat) (heap : Heap) : Outcome α → Prop
  | .done _ w => heap.Spares old w.heap
  | .failed _ w => heap.Spares old w.heap
  | .stopped _ => True

/-
  No other function is brought in, and no new name into the
  frames before `old`.
-/
structure World.Keeps (P : Function → Prop) (old : Nat) (w w' : World) : Prop where
  printer : w'.host.printFailure = w.host.printFailure
  holds : w.heap.Holds P → w'.heap.Holds P
  spares : old ≤ w.heap.frames.size → w.heap.Spares old w'.heap

variable {w : World}

theorem World.Settles.keeps {w' : World} (h : w.Settles w') : w.Keeps P old w' where
  printer := h.printer
  holds hHeap := hHeap.of_same h.heap.functions h.heap.classes
  spares hSize := .settles hSize h.heap

def keeping (P : Function → Prop) (old : Nat) : Bounds where
  change := World.Keeps P old
  allows _ := True
  trans h h' := {
    printer := h'.printer.trans h.printer
    holds hHeap := h'.holds (h.holds hHeap)
    spares hSize := (h.spares hSize).trans (h'.spares (h.spares hSize).size) }
  same hFrames hFunctions hClasses hPrinter :=
    World.Settles.keeps ⟨.of_same hFrames hFunctions hClasses, hPrinter⟩
  external _ := trivial

variable {outcome : Outcome α}

theorem spares_of_keeping (h : (keeping P old).Ends w outcome)
    (hSize : old ≤ w.heap.frames.size) : outcome.Spares old w.heap := by
  cases h with
  | done hKeeps
  | failed hKeeps => exact hKeeps.spares hSize
  | stopped => trivial

/- The action keeps functions and old frames as they are. -/
abbrev Maintains (P : Function → Prop) (old : Nat) (action : Action α) : Prop :=
  Within (keeping P old) action

theorem keeping_storing (h : storing.Ends w outcome) :
    (keeping P old).Ends w outcome := by
  cases h with
  | done hSame => exact .done hSame.keeps
  | failed hSame => exact .failed hSame.keeps trivial
  | stopped => exact .stopped

namespace Maintains

theorem stores {action : Action α} (h : StoresOnly action) : Maintains P old action :=
  ⟨fun w => keeping_storing (h.ends w)⟩

variable {create : Heap → α × Heap}

/- What is put into the heap is no function and no frame. -/
theorem allocate (h : ∀ heap : Heap, heap.Settles (create heap).2) :
    Maintains P old (allocate create) :=
  Within.allocate fun w => World.Settles.keeps ⟨h w.heap, rfl⟩

theorem openFrame (bindings : Bindings Value) (outer : Option FrameId)
    (h : ∀ heap, (create heap).2 = (heap.addFrame bindings outer).2) :
    Maintains P old (Eval.allocate create) := by
  refine Within.allocate fun w => ?_
  rw [h]
  exact ⟨rfl, fun hHeap => hHeap.of_same rfl rfl, fun hSize => .addFrame hSize bindings outer⟩

theorem binding {action : Action Value} (h : Binding action) : Maintains P old action := by
  constructor
  intro w
  rcases h.ends w with hEnds | ⟨classId, name, method, object, hFound, hEq⟩
  · exact keeping_storing hEnds
  · rw [hEq]
    refine .done ⟨rfl, fun hHeap => ?_, fun hSize => ?_⟩
    · have hMethod := hHeap.of_method hFound
      have hFrame : (w.heap.bindMethod method object).2.Holds P := hHeap.of_same rfl rfl
      exact hFrame.addFunction hMethod
    · have hFrame := Heap.Spares.addFrame hSize [("this", .object object)] (some method.frame)
      exact ⟨hFrame.size, hFrame.bound⟩

theorem makeFunction (ctx : Context) {f : Function} (hFunction : P f) :
    Maintains P old (makeFunction ctx f) := by
  refine ⟨fun _ => .done ⟨rfl, fun hHeap => hHeap.addFunction hFunction, ?_⟩⟩
  exact fun hSize => ⟨hSize, fun _ _ _ => rfl⟩

variable {ctx : Context} (hFrame : old ≤ ctx.frame)

include hFrame

theorem declare (name : String) (value : Value) : Maintains P old (declare ctx name value) :=
  Within.updateHeap fun _ =>
    ⟨rfl, fun hHeap => hHeap.of_same rfl rfl, fun hSize => .define hSize hFrame name value⟩

theorem makeClass (name : Token) (superclass : Option ClassId) {methods : List Function}
    (hMethods : ∀ f ∈ methods, P f) : Maintains P old (makeClass ctx name superclass methods) := by
  apply Within.bind (declare hFrame name.lexeme .nil)
  intro _
  have hClassFrame : Maintains P old (classFrame ctx superclass) := by
    cases superclass with
    | some id => exact openFrame _ _ fun _ => rfl
    | none => exact .pure _
  apply Within.bind hClassFrame
  intro frame
  have hTable : ∀ key method, (methodTable frame methods).get? key = some method →
        P method.function := by
    intro key method hGet
    have hMem := Bindings.mem_of_get?_ofPairs hGet
    rcases List.mem_map.mp hMem with ⟨f, hFunction, hSame⟩
    cases hSame
    exact hMethods f hFunction
  refine .bind (.allocate fun _ => ⟨rfl, fun hHeap => hHeap.addClass hTable, ?_⟩) ?_
  · exact fun hSize => ⟨hSize, fun _ _ _ => rfl⟩
  · exact fun id => stores (assign_stores name _ fun _ _ => Heap.isSome_of_holder?)

end Maintains

end Eval

end

open Scope (Context Walk)

mutual

/- In every function of the expression. -/
def Expr.Contained : Expr → Prop
  | .literal _ => True
  | .name _ _ => True
  | .assign _ _ value => value.Contained
  | .compound target _ value => target.Contained ∧ value.Contained
  | .increment target _ _ => target.Contained
  | .unary _ operand => operand.Contained
  | .binary left _ right => left.Contained ∧ right.Contained
  | .logical left _ right => left.Contained ∧ right.Contained
  | .call callee _ arguments => callee.Contained ∧ exprsContained arguments
  | .get object _ => object.Contained
  | .set object _ value => object.Contained ∧ value.Contained
  | .index object _ position => object.Contained ∧ position.Contained
  | .indexSet object _ position value => object.Contained ∧ position.Contained ∧ value.Contained
  | .self _ _ => True
  | .superMethod _ _ _ => True
  | .function f => f.Contained
  | .group inner => inner.Contained
  | .array _ elements => exprsContained elements

/- In the statement, inside a function or loop or not. -/
def Stmt.Contained (inFunction inLoop : Bool) : Stmt → Prop
  | .expression expr => expr.Contained
  | .print _ value => value.Contained
  | .letDecl _ none => True
  | .letDecl _ (some value) => value.Contained
  | .functionDecl f => f.Contained
  | .classDecl _ none methods => methodsContained methods
  | .classDecl _ (some parent) methods => parent.Contained ∧ methodsContained methods
  | .block body => stmtsContained inFunction inLoop body
  | .conditional condition thenBranch none =>
    condition.Contained ∧ thenBranch.Contained inFunction inLoop
  | .conditional condition thenBranch (some elseBranch) =>
    condition.Contained ∧ thenBranch.Contained inFunction inLoop ∧
        elseBranch.Contained inFunction inLoop
  | .whileLoop condition body => condition.Contained ∧ body.Contained inFunction true
  | .breakLoop _ => inLoop = true
  | .returnValue _ none => inFunction = true
  | .returnValue _ (some value) => inFunction = true ∧ value.Contained

/- A body is in a function and not yet in a loop. -/
def Function.Contained : Function → Prop
  | .mk _ _ _ body => stmtsContained true false body

def exprsContained : List Expr → Prop
  | [] => True
  | first :: others => first.Contained ∧ exprsContained others

def stmtsContained (inFunction inLoop : Bool) :
    List Stmt → Prop
  | [] => True
  | first :: others => first.Contained inFunction inLoop ∧ stmtsContained inFunction inLoop others

def methodsContained : List Function → Prop
  | [] => True
  | first :: others => first.Contained ∧ methodsContained others

end

theorem trees_contained_every :
    (∀ expr : Expr, expr.Contained → expr.Every Function.Contained) ∧
    (∀ f : Function, f.Contained → stmtsEvery Function.Contained f.body) ∧
    (∀ stmts inFunction inLoop, stmtsContained inFunction inLoop stmts →
      stmtsEvery Function.Contained stmts) ∧
    (∀ (stmt : Stmt) inFunction inLoop, stmt.Contained inFunction inLoop →
      stmt.Every Function.Contained) ∧
    (∀ methods, methodsContained methods → ∀ f ∈ methods, f.Contained) ∧
    ∀ exprs, exprsContained exprs → exprsEvery Function.Contained exprs := by
  apply Expr.references.mutual_induct <;> intros
  all_goals grind [Expr.Contained, Stmt.Contained, Function.Contained, exprsContained,
    stmtsContained, methodsContained, Expr.Every, Stmt.Every, exprsEvery, stmtsEvery, Function.body]

theorem Function.Contained.body {f : Function} (h : f.Contained) :
    stmtsContained true false f.body := by
  cases f with
  | mk name keyword params body =>
    exact h

theorem stmtsContained_mem {inFunction inLoop : Bool} {stmts : List Stmt}
    (h : stmtsContained inFunction inLoop stmts) :
    ∀ stmt ∈ stmts, stmt.Contained inFunction inLoop := by
  induction stmts with
  | nil => exact fun _ hMem => nomatch hMem
  | cons first others ih =>
    intro stmt hMem
    rcases List.mem_cons.mp hMem with rfl | hMem
    · exact h.1
    · exact ih h.2 stmt hMem

end Scriptlet
