import Scriptlet.Proofs.Eval.Advance
import Scriptlet.Proofs.Eval.Blameless

/-
  What is run in the course of a run.

  Key declarations include:
    * `Eval.Task`
    * `Eval.Task.parts`
    * `Eval.Task.Within`
    * `Eval.Task.Sound`
    * `Eval.Task.Sound.within`
    * `Eval.Task.Sound.leaves`

  A run evaluates, executes and calls one thing after the
  other, each in the world that was left by those before it.
  All of them find the heap in order, and their code where it
  belongs.
-/

namespace Scriptlet

namespace Eval

/- Something to be run in a world. -/
inductive Task where
  | evaluate (fuel : Nat) (ctx : Context) (expr : Expr) (world : World)
  | evaluateAll (fuel : Nat) (ctx : Context) (exprs : List Expr) (world : World)
  | evaluatePlace (fuel : Nat) (ctx : Context) (target : Expr) (operator : Token) (world : World)
  | apply (fuel : Nat) (ctx : Context) (callee : Value) (paren : Token)
      (arguments : List Value) (world : World)
  | invoke (fuel : Nat) (ctx : Context) (closure : Closure) (paren : Token)
      (arguments : List Value) (world : World)
  | execute (fuel : Nat) (ctx : Context) (stmt : Stmt) (world : World)
  | executeAll (fuel : Nat) (ctx : Context) (stmts : List Stmt) (world : World)

/- The world that is left behind. -/
def Outcome.world? {α : Type} : Outcome α → Option World
  | .done _ w => some w
  | .failed _ w => some w
  | .stopped _ => none

/- What follows if something comes to an end. -/
def Outcome.after {α : Type} (outcome : Outcome α) (next : α → World → List Task) :
    List Task :=
  match outcome with
  | .done value w => next value w
  | _ => []

theorem Outcome.mem_after {α : Type} {outcome : Outcome α}
    {next : α → World → List Task} {task : Task} :
    task ∈ outcome.after next ↔ ∃ value w, outcome = .done value w ∧ task ∈ next value w := by
  cases outcome <;> simp [Outcome.after]

namespace Task

section

variable (fuel : Nat) (ctx : Context) (w : World)

/- What is run to evaluate an expression. -/
def ofExpr : Expr → List Task
  | .assign _ _ value => [.evaluate fuel ctx value w]
  | .compound target operator value =>
    .evaluatePlace fuel ctx target operator w ::
      (Eval.evaluatePlace fuel ctx target operator w).after fun place w =>
          (place.read ctx w).after fun _ w => [.evaluate fuel ctx value w]
  | .increment target operator _ => [.evaluatePlace fuel ctx target operator w]
  | .unary _ operand => [.evaluate fuel ctx operand w]
  | .binary left _ right =>
    .evaluate fuel ctx left w :: (Eval.evaluate fuel ctx left w).after fun _ w =>
        [.evaluate fuel ctx right w]
  | .logical left operator right =>
    .evaluate fuel ctx left w :: (Eval.evaluate fuel ctx left w).after fun value w =>
        if decides operator value then []
        else [.evaluate fuel ctx right w]
  | .call callee paren arguments =>
    .evaluate fuel ctx callee w :: (Eval.evaluate fuel ctx callee w).after fun callee w =>
        .evaluateAll fuel ctx arguments w ::
          (Eval.evaluateAll fuel ctx arguments w).after fun arguments w =>
              [.apply fuel ctx callee paren arguments w]
  | .get object _ => [.evaluate fuel ctx object w]
  | .set object _ value =>
    .evaluate fuel ctx object w :: (Eval.evaluate fuel ctx object w).after fun _ w =>
        [.evaluate fuel ctx value w]
  | .index object _ position =>
    .evaluate fuel ctx object w :: (Eval.evaluate fuel ctx object w).after fun _ w =>
        [.evaluate fuel ctx position w]
  | .indexSet object _ position value =>
    .evaluate fuel ctx object w :: (Eval.evaluate fuel ctx object w).after fun _ w =>
        .evaluate fuel ctx position w :: (Eval.evaluate fuel ctx position w).after fun _ w =>
            [.evaluate fuel ctx value w]
  | .group inner => [.evaluate fuel ctx inner w]
  | .array _ elements => [.evaluateAll fuel ctx elements w]
  | _ => []

/- What is run to evaluate the parts of a target. -/
def ofTarget : Expr → List Task
  | .get object _ => [.evaluate fuel ctx object w]
  | .index object _ position =>
    .evaluate fuel ctx object w :: (Eval.evaluate fuel ctx object w).after fun _ w =>
        [.evaluate fuel ctx position w]
  | _ => []

/- What is run to call a value: a function or an initializer. -/
def ofCallee (paren : Token) (arguments : List Value) :
    Value → List Task
  | .function id =>
    match w.heap.functions[id]? with
    | some closure => [.invoke fuel ctx closure paren arguments w]
    | none => []
  | .blueprint id =>
    let (object, heap) := w.heap.addObject id
    match heap.initializer? id with
    | some method =>
      let (closure, heap) := heap.bindMethod method object
      [.invoke fuel ctx closure paren arguments { w with heap := heap }]
    | none => []
  | _ => []

/- What is run inside of a call that is not refused. -/
def ofClosure (closure : Closure) (arguments : List Value) : List Task :=
  let (frame, heap) := w.heap.addFrame (parameters closure.function arguments) (some closure.frame)
  let inside := { ctx with frame := frame, depth := ctx.depth + 1 }
  [.executeAll fuel inside closure.function.body { w with heap := heap }]

/- What is run to execute a statement. -/
def ofStmt : Stmt → List Task
  | .expression expr => [.evaluate fuel ctx expr w]
  | .print _ value => [.evaluate fuel ctx value w]
  | .letDecl _ (some value) => [.evaluate fuel ctx value w]
  | .classDecl _ (some parent) _ => [.evaluate fuel ctx parent w]
  | .block body =>
    let (frame, heap) := w.heap.addFrame [] (some ctx.frame)
    [.executeAll fuel { ctx with frame := frame } body { w with heap := heap }]
  | .conditional condition thenBranch elseBranch =>
    .evaluate fuel ctx condition w :: (Eval.evaluate fuel ctx condition w).after fun value w =>
          if value.isTruthy then
            [.execute fuel ctx thenBranch w]
          else
            match elseBranch with
            | some stmt => [.execute fuel ctx stmt w]
            | none => []
  | .whileLoop condition body =>
    .evaluate fuel ctx condition w :: (Eval.evaluate fuel ctx condition w).after fun value w =>
          if value.isTruthy then
            .execute fuel ctx body w :: (Eval.execute fuel ctx body w).after fun flow w =>
                  match flow with
                  | .normal => [.execute fuel ctx (.whileLoop condition body) w]
                  | _ => []
          else []
  | .returnValue _ (some value) => [.evaluate fuel ctx value w]
  | _ => []

end

/- What a task runs, in order. -/
def parts : Task → List Task
  | .evaluate (fuel + 1) ctx expr w => ofExpr fuel ctx w expr
  | .evaluateAll (fuel + 1) ctx (first :: others) w =>
    .evaluate fuel ctx first w :: (Eval.evaluate fuel ctx first w).after fun _ w =>
        [.evaluateAll fuel ctx others w]
  | .evaluatePlace (fuel + 1) ctx target _ w => ofTarget fuel ctx w target
  | .apply (fuel + 1) ctx callee paren arguments w =>
    (checkCall callee paren arguments.length w).after
      fun _ w => ofCallee fuel ctx w paren arguments callee
  | .invoke (fuel + 1) ctx closure _ arguments w =>
    if depthLimit ≤ ctx.depth then []
    else ofClosure fuel ctx w closure arguments
  | .execute (fuel + 1) ctx stmt w => ofStmt fuel ctx w stmt
  | .executeAll (fuel + 1) ctx (first :: others) w =>
    .execute fuel ctx first w :: (Eval.execute fuel ctx first w).after fun flow w =>
        match flow with
        | .normal => [.executeAll fuel ctx others w]
        | _ => []
  | _ => []

/- What a task is run in. -/
def context : Task → Context
  | .evaluate _ ctx _ _ => ctx
  | .evaluateAll _ ctx _ _ => ctx
  | .evaluatePlace _ ctx _ _ _ => ctx
  | .apply _ ctx _ _ _ _ => ctx
  | .invoke _ ctx _ _ _ _ => ctx
  | .execute _ ctx _ _ => ctx
  | .executeAll _ ctx _ _ => ctx

/- The world that a task begins in. -/
def world : Task → World
  | .evaluate _ _ _ w => w
  | .evaluateAll _ _ _ w => w
  | .evaluatePlace _ _ _ _ w => w
  | .apply _ _ _ _ _ w => w
  | .invoke _ _ _ _ _ w => w
  | .execute _ _ _ w => w
  | .executeAll _ _ _ w => w

/- The world that a task leaves, if it comes to an end. -/
def end? : Task → Option World
  | .evaluate fuel ctx expr w => (Eval.evaluate fuel ctx expr w).world?
  | .evaluateAll fuel ctx exprs w => (Eval.evaluateAll fuel ctx exprs w).world?
  | .evaluatePlace fuel ctx target operator w =>
    (Eval.evaluatePlace fuel ctx target operator w).world?
  | .apply fuel ctx callee paren arguments w =>
    (Eval.apply fuel ctx callee paren arguments w).world?
  | .invoke fuel ctx closure paren arguments w =>
    (Eval.invoke fuel ctx closure paren arguments w).world?
  | .execute fuel ctx stmt w => (Eval.execute fuel ctx stmt w).world?
  | .executeAll fuel ctx stmts w => (Eval.executeAll fuel ctx stmts w).world?

/- One task is run in the course of another one. -/
abbrev Within : Task → Task → Prop := Relation.ReflTransGen fun task part => part ∈ task.parts

/- What is run in the course of a task, to some depth. -/
def inside : Nat → Task → List Task
  | 0, task => [task]
  | depth + 1, task => task :: task.parts.flatMap (inside depth)

theorem within_of_mem_inside {depth : Nat} {task other : Task}
    (h : other ∈ task.inside depth) : task.Within other := by
  induction depth generalizing task with
  | zero =>
    cases List.mem_singleton.mp h
    exact .refl
  | succ depth ih =>
    rcases List.mem_cons.mp h with rfl | h
    · exact .refl
    · rcases List.mem_flatMap.mp h with ⟨part, hPart, hMem⟩
      exact .head hPart (ih hMem)

end Task

------------------------------------------------------------
-- What Runs Leave
------------------------------------------------------------

open Scope (Distances Kind Names Site)

section

variable {α : Type} {table : Distances} {ctx : Context} {w w' : World}

/- The heap is in order, and so is the current frame. -/
structure Standing (table : Distances) (ctx : Context) (w : World) : Prop where
  distances : ctx.distances = table
  allRunnable : AllRunnable table w.heap
  sane : w.heap.Sane
  frame : ctx.frame < w.heap.frames.size

theorem Standing.ready (h : Standing table ctx w) (history : History) :
    Ready ⟨history, w.heap⟩ ctx := ⟨h.sane, h.frame⟩

/- What a run leaves to what comes after it. -/
structure Leaves (table : Distances) (ctx : Context) (w w' : World) : Prop where
  keeps : w.heap.Keeps w'.heap
  grows : w.heap.Extends w'.heap
  standing : Standing table ctx w'

variable {inside : Context}

/- The second run may be in another context. -/
theorem Leaves.trans {w'' : World}
    (h : Leaves table ctx w w') (h' : Leaves table inside w' w'') : Leaves table ctx w w'' :=
  ⟨h.keeps.trans h'.keeps, h.grows.trans h'.grows,
    h.standing.distances, h'.standing.allRunnable, h'.standing.sane,
    Nat.lt_of_lt_of_le h.standing.frame h'.keeps.size⟩

/- How a run ends that leaves all in order. -/
inductive Left (table : Distances) (ctx : Context) (w : World)
    (Q : α → Heap → Prop) : Outcome α → Prop where
  | done {value w'} : Leaves table ctx w w' → Q value w'.heap → Left table ctx w Q (.done value w')
  | failed {fault w'} : Leaves table ctx w w' → Left table ctx w Q (.failed fault w')
  | stopped {reason} : Left table ctx w Q (.stopped reason)

variable {Q : α → Heap → Prop} {outcome : Outcome α}

theorem Left.ended {value : α}
    (h : Left table ctx w Q outcome) (hEnd : outcome = .done value w') :
    Leaves table ctx w w' ∧ Q value w'.heap := by
  cases h with
  | done hLeaves hValue =>
    cases hEnd
    exact ⟨hLeaves, hValue⟩
  | failed => cases hEnd
  | stopped => cases hEnd

theorem Left.leaves
    (h : Left table ctx w Q outcome) (hEnd : outcome.world? = some w') : Leaves table ctx w w' := by
  cases h with
  | done hLeaves _ =>
    cases hEnd
    exact hLeaves
  | failed hLeaves =>
    cases hEnd
    exact hLeaves
  | stopped => cases hEnd

/- Something may have been run before. -/
theorem Left.behind (h : Left table inside w' Q outcome)
    (hLeaves : Leaves table ctx w w') : Left table ctx w Q outcome := by
  cases h with
  | done hAfter hValue => exact .done (hLeaves.trans hAfter) hValue
  | failed hAfter => exact .failed (hLeaves.trans hAfter)
  | stopped => exact .stopped

variable {R : α → Heap → Prop}

theorem Left.mono (h : Left table ctx w Q outcome)
    (hImp : ∀ {value heap}, Q value heap → R value heap) : Left table ctx w R outcome := by
  cases h with
  | done hLeaves hValue => exact .done hLeaves (hImp hValue)
  | failed hLeaves => exact .failed hLeaves
  | stopped => exact .stopped

variable {F : Cause → Prop} {traced : Traced α}

/- An action that keeps code in place and takes its course. -/
theorem Standing.left
    {action : Action α} (h : Standing table ctx w)
    (hActs : Acts table w.heap action F Q) (hAdvances : Advances ⟨[], w.heap⟩ traced R)
    (hTraces : Traces traced action) :
    Left table ctx w (fun value heap => Q value heap ∧ R value heap) (action w) := by
  have hActed := hActs.acted w.host
  have hAdvanced := hAdvances.advanced w.host
  have hOutcome := hTraces.outcome [] w
  change Acted table w.heap F Q (action w) at hActed
  generalize traced [] ⟨w.heap, w.host⟩ = ending at hAdvanced hOutcome
  rcases ending with ⟨history, outcome⟩
  cases hOutcome
  have hLeaves {w' : World} (hKeeps : w.heap.Keeps w'.heap) (hAllRun : AllRunnable table w'.heap)
      (hCourse : Course ⟨[], w.heap⟩ ⟨history, w'.heap⟩) : Leaves table ctx w w' :=
    ⟨hKeeps, hCourse.extends, h.distances, hAllRun, hCourse.sane h.sane, hCourse.frame_lt h.frame⟩
  generalize action w = outcome at hActed hAdvanced
  cases hActed with
  | done hKeeps hAllRun hValue =>
    cases hAdvanced with
    | done hCourse hPresent => exact .done (hLeaves hKeeps hAllRun hCourse) ⟨hValue, hPresent⟩
  | failed hKeeps hAllRun _ =>
    cases hAdvanced with
    | failed hCourse => exact .failed (hLeaves hKeeps hAllRun hCourse)
  | stopped => exact .stopped

/- The registers that a context stands for. -/
def Context.registers (ctx : Context) : Registers := ⟨ctx.frame, ctx.depth⟩

theorem Standing.context (h : Standing table ctx w) : ctx.registers.context table = ctx := by
  cases h.distances
  rfl

/- An action that a machine follows. -/
theorem Standing.left_machine {n : Nat} {S : List Record → Ending α → Prop}
    {machine : Machine α} (h : Standing table ctx w)
    (action : Context → Action α) (hConducts : Conducts table ctx.registers w.heap machine F Q)
    (hFollows : Follows (fun _ => True) 0 n ctx.registers
        (action (ctx.registers.context table)) S machine)
    (hAdvances : Advances ⟨[], w.heap⟩ traced R) (hTraces : Traces traced (action ctx)) :
    Left table ctx w (fun value heap => Q value heap ∧ R value heap) (action ctx w) := by
  have hHeap := w.heap.holds_any
  have hActs : Acts table w.heap (action ctx) F Q := by
    constructor
    intro host
    have hSame := (hFollows.fits ⟨w.heap, host⟩ hHeap).same
    rw [h.context] at hSame
    rw [← hSame]
    exact (hConducts.conducted host).acted
  exact h.left hActs hAdvances hTraces

end

section

variable {table : Distances} {P : Site → Prop} {kinds : List Kind} {scopes : List Names}
variable {ctx : Context} {w w' : World}

/- Code with sites in `P` may be run in the current frame. -/
structure Sits (table : Distances) (P : Site → Prop) (kinds : List Kind)
    (ctx : Context) (w : World) : Prop extends Standing table ctx w where
  runsIn : RunnableIn table w.heap P kinds ctx.frame

theorem Sits.after (h : Sits table P kinds ctx w)
    (hLeaves : Leaves table ctx w w') : Sits table P kinds ctx w' :=
  ⟨hLeaves.standing, h.runsIn.keep hLeaves.keeps⟩

theorem readPlace_left (h : Standing table ctx w) {place : Place}
    (hPlace : place.IsOrdinary) (hPresent : presentPlace place w.heap) :
    Left table ctx w present (place.read ctx w) :=
  (h.left (Place.read_acts h.allRunnable ctx hPlace)
    (readPlace_advances h.sane hPresent) (.opening _ _)).mono And.right

variable (fuel : Nat)

section

variable (h : Sits table P kinds ctx w)
include h

theorem evaluate_left {expr : Expr} (hSensible : expr.Sensible)
    (hKnown : expr.Known P kinds scopes) :
    Left table ctx w present (evaluate fuel ctx expr w) :=
  (h.left_machine (evaluate fuel · expr)
    ((conductsAll table fuel).evaluate h.allRunnable h.runsIn hSensible hKnown)
    ((follows_any table fuel).evaluate _ expr (expr.every_of fun _ => trivial))
    ((advancesAll fuel).evaluate (h.ready []) expr)
    ((tracesAll fuel).evaluate ctx expr)).mono And.right

theorem evaluateAll_left {exprs : List Expr} (hSensible : exprsSensible exprs)
    (hKnown : exprsKnown P kinds exprs scopes) :
    Left table ctx w presentAll (evaluateAll fuel ctx exprs w) :=
  (h.left_machine (evaluateAll fuel · exprs)
    ((conductsAll table fuel).evaluateAll h.allRunnable h.runsIn hSensible hKnown)
    ((follows_any table fuel).evaluateAll _ exprs (exprsEvery_of (fun _ => trivial) exprs))
    ((advancesAll fuel).evaluateAll (h.ready []) exprs)
    ((tracesAll fuel).evaluateAll ctx exprs)).mono And.right

theorem evaluatePlace_left {target : Expr} (operator : Token)
    (hTarget : target.isAssignable = true) (hSensible : target.Sensible)
    (hKnown : target.Known P kinds scopes) :
    Left table ctx w (fun place heap => place.IsOrdinary ∧ presentPlace place heap)
      (evaluatePlace fuel ctx target operator w) :=
  h.left_machine (evaluatePlace fuel · target operator)
    ((conductsAll table fuel).evaluatePlace operator
      h.allRunnable h.runsIn hTarget hSensible hKnown)
    ((follows_any table fuel).evaluatePlace _ target operator (target.every_of fun _ => trivial))
    ((advancesAll fuel).evaluatePlace (h.ready []) target operator)
    ((tracesAll fuel).evaluatePlace ctx target operator)

theorem execute_left {stmt : Stmt} (hSensible : stmt.Sensible)
    (hKnown : stmt.Known P kinds scopes) :
    Left table ctx w presentFlow (execute fuel ctx stmt w) :=
  (h.left_machine (execute fuel · stmt)
    ((conductsAll table fuel).execute h.allRunnable h.runsIn hSensible hKnown)
    ((follows_any table fuel).execute _ stmt (stmt.every_of fun _ => trivial))
    ((advancesAll fuel).execute (h.ready []) stmt)
    ((tracesAll fuel).execute ctx stmt)).mono And.right

theorem executeAll_left {stmts : List Stmt} (hSensible : stmtsSensible stmts)
    (hKnown : stmtsKnown P kinds stmts scopes) :
    Left table ctx w presentFlow (executeAll fuel ctx stmts w) :=
  (h.left_machine (executeAll fuel · stmts)
    ((conductsAll table fuel).executeAll h.allRunnable h.runsIn hSensible hKnown)
    ((follows_any table fuel).executeAll _ stmts (stmtsEvery_of (fun _ => trivial) stmts))
    ((advancesAll fuel).executeAll (h.ready []) stmts)
    ((tracesAll fuel).executeAll ctx stmts)).mono And.right

end

variable {arguments : List Value}

theorem apply_left {callee : Value} (paren : Token)
    (h : Standing table ctx w) (hCallee : w.heap.Has callee)
    (hArguments : presentAll arguments w.heap) :
    Left table ctx w present (apply fuel ctx callee paren arguments w) :=
  (h.left_machine (apply fuel · callee paren arguments)
    ((conductsAll table fuel).apply callee paren arguments h.allRunnable)
    ((follows_any table fuel).apply _ callee paren arguments)
    ((advancesAll fuel).apply (h.ready []) hCallee hArguments paren)
    ((tracesAll fuel).apply ctx callee paren arguments)).mono And.right

theorem invoke_left {closure : Closure} (paren : Token)
    (h : Standing table ctx w) (hClosure : Runnable table w.heap closure)
    (hArguments : presentAll arguments w.heap) :
    Left table ctx w present (invoke fuel ctx closure paren arguments w) := by
  rcases hClosure.runs with ⟨P, kinds, hRuns⟩
  exact
    (h.left_machine (invoke fuel · closure paren arguments)
      ((conductsAll table fuel).invoke paren arguments h.allRunnable hClosure)
      ((follows_any table fuel).invoke _ closure paren arguments trivial)
      ((advancesAll fuel).invoke (h.ready []) hRuns.runsIn.lined.frame_lt hArguments paren)
      ((tracesAll fuel).invoke ctx closure paren arguments)).mono And.right

end

section

variable {table : Distances} {P : Site → Prop} {kinds : List Kind} {scopes : List Names}
variable {fuel : Nat} {ctx : Context} {w w' : World}

/- A task that finds all in order. -/
inductive Task.Sound (table : Distances) : Task → Prop where
  | evaluate {P kinds scopes fuel ctx expr w} : Sits table P kinds ctx w →
      expr.Sensible → expr.Known P kinds scopes → Sound table (.evaluate fuel ctx expr w)
  | evaluateAll {P kinds scopes fuel ctx exprs w} : Sits table P kinds ctx w →
      exprsSensible exprs → exprsKnown P kinds exprs scopes →
      Sound table (.evaluateAll fuel ctx exprs w)
  | evaluatePlace {P kinds scopes fuel ctx target operator w} :
      Sits table P kinds ctx w → target.isAssignable = true → target.Sensible →
      target.Known P kinds scopes → Sound table (.evaluatePlace fuel ctx target operator w)
  | apply {fuel ctx callee paren arguments w} : Standing table ctx w →
      w.heap.Has callee → presentAll arguments w.heap →
      Sound table (.apply fuel ctx callee paren arguments w)
  | invoke {fuel ctx closure paren arguments w} : Standing table ctx w →
      Runnable table w.heap closure → presentAll arguments w.heap →
      Sound table (.invoke fuel ctx closure paren arguments w)
  | execute {P kinds scopes fuel ctx stmt w} : Sits table P kinds ctx w →
      stmt.Sensible → stmt.Known P kinds scopes → Sound table (.execute fuel ctx stmt w)
  | executeAll {P kinds scopes fuel ctx stmts w} : Sits table P kinds ctx w →
      stmtsSensible stmts → stmtsKnown P kinds stmts scopes →
      Sound table (.executeAll fuel ctx stmts w)

/- All of them do. -/
def Sounds (table : Distances) (tasks : List Task) : Prop := ∀ task ∈ tasks, task.Sound table

namespace Sounds

variable {task : Task} {tasks : List Task}

theorem nil : Sounds table [] := fun _ hMem => nomatch hMem

theorem cons (hFirst : task.Sound table) (hOthers : Sounds table tasks) :
    Sounds table (task :: tasks) := List.forall_mem_cons.mpr ⟨hFirst, hOthers⟩

theorem single (h : task.Sound table) : Sounds table [task] := .cons h .nil

theorem after {α : Type} {outcome : Outcome α} {next : α → World → List Task}
    (h : ∀ {value w}, outcome = .done value w → Sounds table (next value w)) :
    Sounds table (outcome.after next) := by
  intro task hMem
  rcases Outcome.mem_after.mp hMem with ⟨value, w, hEnd, hNext⟩
  exact h hEnd task hNext

end Sounds

variable {expr : Expr}

/- An expression is evaluated, then what its value asks for. -/
theorem Sounds.evaluated {next : Value → World → List Task}
    (h : Sits table P kinds ctx w) (hSensible : expr.Sensible) (hKnown : expr.Known P kinds scopes)
    (hNext : ∀ {value w'}, Sits table P kinds ctx w' → w'.heap.Has value →
      Sounds table (next value w')) : Sounds table (.evaluate fuel ctx expr w ::
      (evaluate fuel ctx expr w).after next) := by
  refine .cons (.evaluate h hSensible hKnown) (.after fun hEnd => ?_)
  rcases (evaluate_left fuel h hSensible hKnown).ended hEnd with ⟨hLeaves, hValue⟩
  exact hNext (h.after hLeaves) hValue

theorem ofExpr_sounds (h : Sits table P kinds ctx w)
    (hSensible : expr.Sensible) (hKnown : expr.Known P kinds scopes) :
    Sounds table (Task.ofExpr fuel ctx w expr) := by
  cases expr with
      try simp only [Expr.Sensible, Expr.Known] at hSensible hKnown
  | assign id name value => exact .single (.evaluate h hSensible.2 hKnown.1)
  | compound target operator value =>
    rcases hSensible with ⟨⟨hTarget, _⟩, hPlace, hValue⟩
    refine .cons (.evaluatePlace h hTarget hPlace hKnown.1) ?_
    refine .after fun hEnd => .after fun hRead => ?_
    rcases (evaluatePlace_left fuel h operator hTarget hPlace hKnown.1).ended hEnd with
      ⟨hLeaves, hOrdinary, hPresent⟩
    have h₁ := h.after hLeaves
    have hRead := (readPlace_left h₁.toStanding hOrdinary hPresent).ended hRead
    exact .single (.evaluate (h₁.after hRead.1) hValue hKnown.2)
  | increment target operator before =>
    exact .single (.evaluatePlace h hSensible.1.1 hSensible.2 hKnown)
  | unary operator operand => exact .single (.evaluate h hSensible.2 hKnown)
  | binary left operator right =>
    rcases hSensible with ⟨_, hLeft, hRight⟩
    exact .evaluated h hLeft hKnown.1 fun h₁ _ => .single (.evaluate h₁ hRight hKnown.2)
  | logical left operator right =>
    refine .evaluated h hSensible.2.1 hKnown.1 fun h₁ _ => ?_
    split
    · exact .nil
    · exact .single (.evaluate h₁ hSensible.2.2 hKnown.2)
  | call callee paren arguments =>
    refine .evaluated h hSensible.1 hKnown.1 fun h₁ hCallee => ?_
    refine .cons (.evaluateAll h₁ hSensible.2 hKnown.2) ?_
    refine .after fun hEnd => ?_
    rcases (evaluateAll_left fuel h₁ hSensible.2 hKnown.2).ended hEnd with ⟨hLeaves, hArguments⟩
    exact .single (.apply hLeaves.standing (hCallee.later hLeaves.grows) hArguments)
  | get object name => exact .single (.evaluate h hSensible.2 hKnown)
  | set object name value =>
    rcases hSensible with ⟨_, hObject, hValue⟩
    exact .evaluated h hObject hKnown.1 fun h₁ _ => .single (.evaluate h₁ hValue hKnown.2)
  | index object bracket position =>
    exact .evaluated h hSensible.1 hKnown.1 fun h₁ _ => .single (.evaluate h₁ hSensible.2 hKnown.2)
  | indexSet object bracket position value =>
    rcases hSensible with ⟨hObject, hPosition, hValue⟩
    refine .evaluated h hObject hKnown.1 fun h₁ _ => ?_
    exact .evaluated h₁ hPosition hKnown.2.1 fun h₂ _ => .single (.evaluate h₂ hValue hKnown.2.2)
  | group inner => exact .single (.evaluate h hSensible hKnown)
  | array bracket elements => exact .single (.evaluateAll h hSensible hKnown)
  | _ => exact .nil

theorem ofTarget_sounds {target : Expr} (h : Sits table P kinds ctx w)
    (hSensible : target.Sensible) (hKnown : target.Known P kinds scopes) :
    Sounds table (Task.ofTarget fuel ctx w target) := by
  cases target with
      try simp only [Expr.Sensible, Expr.Known] at hSensible hKnown
  | get object name => exact .single (.evaluate h hSensible.2 hKnown)
  | index object bracket position =>
    exact .evaluated h hSensible.1 hKnown.1 fun h₁ _ => .single (.evaluate h₁ hSensible.2 hKnown.2)
  | _ => exact .nil

/- The heap changes in one of the ways it can. -/
theorem Standing.step {heap : Heap} (h : Standing table ctx w)
    (hStep : w.heap.Step heap) (hKeeps : w.heap.Keeps heap) (hAllRun : AllRunnable table heap) :
    Leaves table ctx w { w with heap := heap } :=
  ⟨hKeeps, hStep.extends, h.distances, hAllRun, hStep.sane h.sane,
    Nat.lt_of_lt_of_le h.frame hStep.extends.frames.size_le⟩

variable {id : ClassId}

/- An object is created. -/
theorem Standing.addObject (h : Standing table ctx w)
    (hClass : w.heap.Has (.blueprint id)) :
    Leaves table ctx w { w with heap := (w.heap.addObject id).2 } :=
  have hCode : SameCode w.heap (w.heap.addObject id).2 := .of_same rfl rfl rfl
  h.step (.addObject hClass) hCode.keeps (h.allRunnable.of_sameCode hCode)

/- A frame is opened. -/
theorem Standing.addFrame {bindings : Bindings Value} {outer : FrameId}
    (h : Standing table ctx w) (hBindings : bindings.All w.heap.Has)
    (hOuter : outer < w.heap.frames.size) :
    Leaves table ctx w
      { w with heap :=
        (w.heap.addFrame bindings (some outer)).2 } :=
  h.step (.addFrame hBindings hOuter) (.addFrame w.heap bindings (some outer))
    (h.allRunnable.addFrame bindings (some outer))

theorem presentAll.grow {values : List Value} (h : presentAll values w.heap)
    (hGrows : w.heap.Extends w'.heap) : presentAll values w'.heap :=
  fun value hMem => (h value hMem).later hGrows

/- A frame for a new object is opened for its initializer. -/
theorem Standing.construct {method : Closure}
    (h : Standing table ctx w) (hClass : w.heap.Has (.blueprint id))
    (hFound : (w.heap.addObject id).2.initializer? id = some method) :
    let ready := (w.heap.addObject id).2.bindMethod method w.heap.objects.size
    Leaves table ctx w { w with heap := ready.2 } ∧ Runnable table ready.2 ready.1 := by
  have hLeaves := h.addObject hClass
  have h₁ := hLeaves.standing
  have hObject : (w.heap.addObject id).2.Has (.object w.heap.objects.size) := by
    simp [Heap.Has, Heap.addObject]
  have hOpen := h₁.addFrame (.single "this" hObject) (h₁.sane.findMethod?_lt hFound)
  have hOffered := h₁.allRunnable.offered hFound
  exact ⟨hLeaves.trans hOpen, hOffered.bindMethod w.heap.objects.size⟩

variable {callee : Value} {arguments : List Value}

theorem ofCallee_sounds
    (paren : Token) (h : Standing table ctx w) (hCallee : w.heap.Has callee)
    (hArguments : presentAll arguments w.heap) :
    Sounds table (Task.ofCallee fuel ctx w paren arguments callee) := by
  cases callee with
  | function id =>
    simp only [Task.ofCallee]
    split
    · rename_i closure hFound
      exact .single (.invoke h
        (h.allRunnable.functions closure (Array.mem_of_getElem? hFound)) hArguments)
    · exact .nil
  | blueprint id =>
    unfold Task.ofCallee
    dsimp only
    split
    · rename_i method hFound
      rcases h.construct hCallee hFound with ⟨hLeaves, hRunnable⟩
      exact .single (.invoke hLeaves.standing hRunnable (hArguments.grow hLeaves.grows))
    · exact .nil
  | _ => exact .nil

/- A check looks at the heap only. -/
theorem checkCall_eq (callee : Value) (paren : Token) (given : Nat) (w : World) :
    checkCall callee paren given w =
      match arity? w.heap callee with
      | none => .failed (.atToken paren (.notCallable callee.typeName)) w
      | some expected =>
        if given = expected then .done () w
        else
          .failed (.atToken paren (.arity expected given)) w := by
  have hLook : inspect (arity? · callee) w = .done (arity? w.heap callee) w :=
    rfl
  refine (bind_done _ hLook).trans ?_
  generalize arity? w.heap callee = found
  cases found with
  | none => rfl
  | some expected =>
    dsimp only
    split <;> rfl

theorem checkCall_same {paren : Token} {given : Nat}
    (h : checkCall callee paren given w = .done () w') : w' = w := by
  rw [checkCall_eq] at h
  split at h
  · cases h
  · split at h <;> cases h
    rfl

/- The body of a function is run where it belongs. -/
theorem ofClosure_sounds {closure : Closure}
    (h : Standing table ctx w) (hClosure : Runnable table w.heap closure)
    (hArguments : presentAll arguments w.heap) :
    Sounds table (Task.ofClosure fuel ctx w closure arguments) := by
  rcases hClosure.runs with ⟨P, kinds, hRuns⟩
  rcases hRuns.known with ⟨scopes, hKnown⟩
  have hFrame := hRuns.runsIn.lined.frame_lt
  have hParameters : (parameters closure.function arguments).All w.heap.Has :=
    .ofPairs fun pair hMem => hArguments _ (List.of_mem_zip hMem).2
  have hStanding := (h.addFrame hParameters hFrame).standing
  have hRunsIn :=
    hRuns.runsIn.addFrame (.inr rfl) (parameters closure.function arguments)
      (parameters_absent hRuns.sensible arguments)
  have hSits : Sits table P (.function :: kinds)
        { ctx with
          frame := w.heap.frames.size
          depth := ctx.depth + 1 }
        { w with heap :=
          (w.heap.addFrame (parameters closure.function arguments) (some closure.frame)).2 } :=
    ⟨⟨h.distances, hStanding.allRunnable, hStanding.sane, hRunsIn.lined.frame_lt⟩, hRunsIn⟩
  exact .single (.executeAll hSits hRuns.sensible.body hKnown.body)

theorem ofStmt_sounds {stmt : Stmt} (h : Sits table P kinds ctx w)
    (hSensible : stmt.Sensible) (hKnown : stmt.Known P kinds scopes) :
    Sounds table (Task.ofStmt fuel ctx w stmt) := by
  cases stmt with
      try simp only [Stmt.Sensible, Stmt.Known] at hSensible hKnown
  | expression expr =>
    exact .single (.evaluate h hSensible hKnown)
  | print keyword value =>
    exact .single (.evaluate h hSensible hKnown)
  | letDecl name value =>
    cases value with
        try simp only [Stmt.Sensible, Stmt.Known] at hSensible hKnown
    | none => exact .nil
    | some value =>
      exact .single (.evaluate h hSensible.2 hKnown)
  | classDecl name parent methods =>
    cases parent with
        try simp only [Stmt.Sensible, Stmt.Known] at hSensible hKnown
    | none => exact .nil
    | some parent =>
      rcases hKnown with ⟨⟨id, token, rfl, _, hSite⟩, _⟩
      have hParent : (Expr.name id token).Known P kinds
            (scopes.modifyHead (·.settle name.lexeme)) := by
        exact hSite
      exact .single (.evaluate h hSensible.2.1.2 hParent)
  | block body =>
    have hStanding := (h.toStanding.addFrame .nil h.frame).standing
    have hRunsIn := h.runsIn.addFrame (.inl rfl) [] fun _ => rfl
    have hSits : Sits table P (.block :: kinds) { ctx with frame := w.heap.frames.size }
          { w with heap :=
            (w.heap.addFrame [] (some ctx.frame)).2 } :=
      ⟨⟨h.distances, hStanding.allRunnable, hStanding.sane, hRunsIn.lined.frame_lt⟩, hRunsIn⟩
    exact .single (.executeAll hSits hSensible hKnown)
  | conditional condition thenBranch elseBranch =>
    cases elseBranch with
        try simp only [Stmt.Sensible, Stmt.Known] at hSensible hKnown
    | none =>
      refine .evaluated h hSensible.1 hKnown.1 fun h₁ _ => ?_
      split
      · exact .single (.execute h₁ hSensible.2.1 hKnown.2.1)
      · exact .nil
    | some elseBranch =>
      rcases hKnown with ⟨hCondition, ⟨hThen, _⟩, hElse, _⟩
      refine .evaluated h hSensible.1 hCondition fun h₁ _ => ?_
      split
      · exact .single (.execute h₁ hSensible.2.1.1 hThen)
      · exact .single (.execute h₁ hSensible.2.2.1 hElse)
  | whileLoop condition body =>
    refine .evaluated h hSensible.1 hKnown.1 fun h₁ _ => ?_
    split
    · refine .cons (.execute h₁ hSensible.2.1 hKnown.2.1) ?_
      refine .after fun {flow w₂} hEnd => ?_
      have hLeft := execute_left fuel h₁ hSensible.2.1 hKnown.2.1
      have h₂ := h₁.after (hLeft.ended hEnd).1
      cases flow with
      | normal => exact .single (.execute h₂ hSensible hKnown)
      | broke => exact .nil
      | returned value => exact .nil
    · exact .nil
  | returnValue keyword value =>
    cases value with
        try simp only [Stmt.Sensible, Stmt.Known] at hSensible hKnown
    | none => exact .nil
    | some value =>
      exact .single (.evaluate h hSensible hKnown)
  | _ => exact .nil

/- A step: what a sound task runs is sound. -/
theorem Task.Sound.parts {task : Task} (h : task.Sound table) : Sounds table task.parts := by
  cases h with
  | @evaluate P kinds scopes fuel ctx expr w h hSensible hKnown =>
    cases fuel with
    | zero => exact .nil
    | succ fuel => exact ofExpr_sounds h hSensible hKnown
  | @evaluateAll P kinds scopes fuel ctx exprs w h hSensible hKnown =>
    cases fuel with
    | zero => exact .nil
    | succ fuel =>
      cases exprs with
      | nil => exact .nil
      | cons first others =>
        exact .evaluated h hSensible.1 hKnown.1 fun h₁ _ =>
          .single (.evaluateAll h₁ hSensible.2 hKnown.2)
  | @evaluatePlace P kinds scopes fuel ctx target operator w h hTarget hSensible hKnown =>
    cases fuel with
    | zero => exact .nil
    | succ fuel => exact ofTarget_sounds h hSensible hKnown
  | @apply fuel ctx callee paren arguments w h hCallee hArguments =>
    cases fuel with
    | zero => exact .nil
    | succ fuel =>
      refine .after fun {_ w₁} hEnd => ?_
      obtain rfl := checkCall_same hEnd
      exact ofCallee_sounds paren h hCallee hArguments
  | @invoke fuel ctx closure paren arguments w h hClosure hArguments =>
    cases fuel with
    | zero => exact .nil
    | succ fuel =>
      simp only [Task.parts]
      split
      · exact .nil
      · exact ofClosure_sounds h hClosure hArguments
  | @execute P kinds scopes fuel ctx stmt w h hSensible hKnown =>
    cases fuel with
    | zero => exact .nil
    | succ fuel => exact ofStmt_sounds h hSensible hKnown
  | @executeAll P kinds scopes fuel ctx stmts w h hSensible hKnown =>
    cases fuel with
    | zero => exact .nil
    | succ fuel =>
      cases stmts with
      | nil => exact .nil
      | cons first others =>
        refine .cons (.execute h hSensible.1 hKnown.1) ?_
        refine .after fun {flow w₁} hEnd => ?_
        have hLeft := execute_left fuel h hSensible.1 hKnown.1
        cases flow with
        | normal => exact .single (.executeAll (h.after (hLeft.ended hEnd).1) hSensible.2 hKnown.2)
        | broke => exact .nil
        | returned value => exact .nil

/- A run: so is all that is run in its course. -/
theorem Task.Sound.within {task other : Task} (h : task.Sound table)
    (hWithin : task.Within other) : other.Sound table := by
  induction hWithin with
  | refl => exact h
  | tail _ hPart ih => exact ih.parts _ hPart

theorem Task.Sound.standing {task : Task} (h : task.Sound table) :
    Standing table task.context task.world := by
  cases h with
  | evaluate h => exact h.toStanding
  | evaluateAll h => exact h.toStanding
  | evaluatePlace h => exact h.toStanding
  | apply h => exact h
  | invoke h => exact h
  | execute h => exact h.toStanding
  | executeAll h => exact h.toStanding

/- What a sound task leaves is in order again. -/
theorem Task.Sound.leaves {task : Task} (h : task.Sound table)
    (hEnd : task.end? = some w') : Leaves table task.context task.world w' := by
  cases h with
  | evaluate h hSensible hKnown => exact (evaluate_left _ h hSensible hKnown).leaves hEnd
  | evaluateAll h hSensible hKnown => exact (evaluateAll_left _ h hSensible hKnown).leaves hEnd
  | evaluatePlace h hTarget hSensible hKnown =>
    exact (evaluatePlace_left _ h _ hTarget hSensible hKnown).leaves hEnd
  | apply h hCallee hArguments => exact (apply_left _ _ h hCallee hArguments).leaves hEnd
  | invoke h hClosure hArguments => exact (invoke_left _ _ h hClosure hArguments).leaves hEnd
  | execute h hSensible hKnown => exact (execute_left _ h hSensible hKnown).leaves hEnd
  | executeAll h hSensible hKnown => exact (executeAll_left _ h hSensible hKnown).leaves hEnd

end

end Eval

end Scriptlet
