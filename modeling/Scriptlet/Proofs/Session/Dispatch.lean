import Scriptlet.Proofs.Eval.Task
import Scriptlet.Proofs.Session.Blameless

/-
  What `this` and `super` stand for.

  Key declarations include:
    * `Session.tasks`
    * `Session.Reached.sound`
    * `Eval.InMethod`
    * `Eval.superMethod_dispatches`

  The steps of a session run top-level statements and
  expressions.  Whatever is run in their course is sound.  A
  method of a superclass is looked for from the superclass of
  the class that the use of `super` is written in, and
  whatever the class of the object is:
    * `Session.super_dispatches_from_class`
-/

namespace Scriptlet

namespace Eval

open Scope (Distances)

/- The top-level statements that are run, in order. -/
def Task.tops (fuel : Nat) (policy : Policy) (ctx : Context) : List Stmt → World → List Task
  | [], _ => []
  | first :: others, w =>
    .execute fuel ctx first w ::
      match Eval.execute fuel ctx first w with
      | .done _ w => tops fuel policy ctx others w
      | .failed _ w =>
        match policy with
        | .halt => []
        | .proceed => tops fuel policy ctx others w
      | .stopped _ => []

theorem tops_sounds {table : Distances} {ctx : Context} {w : World}
    {body : List Stmt} (fuel : Nat) (policy : Policy)
    (h : Sits table (Served table) [] ctx w) (hSensible : stmtsSensible body)
    (hKnown : stmtsKnown (Served table) [] body []) :
    Sounds table (Task.tops fuel policy ctx body w) := by
  induction body generalizing w with
  | nil => exact .nil
  | cons first others ih =>
    simp only [stmtsKnown, Stmt.after_nil] at hKnown
    refine .cons (.execute h hSensible.1 hKnown.1) ?_
    have hLeft := execute_left fuel h hSensible.1 hKnown.1
    generalize execute fuel ctx first w = outcome at hLeft
    cases hLeft with
    | done hLeaves => exact ih (h.after hLeaves) hSensible.2 hKnown.2
    | failed hLeaves =>
      cases policy with
      | halt => exact .nil
      | proceed => exact ih (h.after hLeaves) hSensible.2 hKnown.2
    | stopped => exact .nil

end Eval

namespace Session

open Eval (Sits Served Task)

variable {steps : List Step} {session : Session}

/- The top-level statements and expressions of a step. -/
def tasks (session : Session) : Step → List Task
  | .run fuel source file =>
    let verdict := judge session.report.hadError session.nextId source file
    match verdict.accepted with
    | none => []
    | some (body, found) =>
      let ready := (session.judged verdict).extended found
      Task.tops fuel ready.policy ready.context body ready.world
  | .evaluate fuel source file =>
    let verdict := judgeExpression session.report.hadError session.nextId source file
    match verdict.accepted with
    | none => []
    | some (expr, found) =>
      let ready := (session.judged verdict).extended found
      [.evaluate fuel ready.context expr ready.world]
  | _ => []

/- Something is run in the course of a step. -/
def Performs (session : Session) (step : Step) (task : Task) : Prop :=
  ∃ top ∈ session.tasks step, top.Within task

/- What is run in the course of a step, to some depth. -/
def performed (session : Session) (step : Step) (depth : Nat) : List Task :=
  (session.tasks step).flatMap (Task.inside depth)

variable {step : Step} {task : Task}

theorem performs_of_mem {depth : Nat}
    (h : task ∈ session.performed step depth) : session.Performs step task := by
  rcases List.mem_flatMap.mp h with ⟨top, hTop, hMem⟩
  exact ⟨top, hTop, Task.within_of_mem_inside hMem⟩

/- Code at top level may be run. -/
theorem Orderly.sits (h : Orderly session) (hSane : session.world.heap.Sane) :
    Sits session.distances (Served session.distances) [] session.context session.world :=
  ⟨⟨rfl, h.allRunnable, hSane, hSane.globals⟩, h.globals⟩

theorem Reached.tasks_sound (h : Reached steps session) (step : Step) :
    ∃ table, Eval.Sounds table (session.tasks step) := by
  rcases h.logged with ⟨seen, history, hLogged⟩
  have hScoped := hLogged.scoped
  have hSane := hLogged.course.sane Heap.initial_sane
  cases step with
  | run fuel source file =>
    simp only [tasks]
    split
    · exact ⟨session.distances, .nil⟩
    · rename_i body found hAccepted
      rcases h.orderly.accept hScoped (judge_accepted hAccepted) with ⟨hReady, hKnown⟩
      have hSensible := judge_sensible hAccepted
      exact ⟨_, Eval.tops_sounds fuel _ (hReady.sits hSane) hSensible hKnown⟩
  | evaluate fuel source file =>
    simp only [tasks]
    split
    · exact ⟨session.distances, .nil⟩
    · rename_i expr found hAccepted
      rcases h.orderly.accept hScoped (judgeExpression_accepted hAccepted) with ⟨hReady, hKnown⟩
      have hSensible := judgeExpression_sensible hAccepted
      exact ⟨_, .single (.evaluate (hReady.sits hSane) hSensible hKnown)⟩
  | _ => exact ⟨session.distances, .nil⟩

/- All that is run in the course of a session is sound. -/
theorem Reached.sound (h : Reached steps session)
    (hTask : session.Performs step task) : ∃ table, task.Sound table := by
  rcases h.tasks_sound step with ⟨table, hSounds⟩
  rcases hTask with ⟨top, hMem, hWithin⟩
  exact ⟨table, (hSounds top hMem).within hWithin⟩

end Session

namespace Eval

open Scope (Distances Kind Names Site)

/-
  Code in a frame runs for an object in a method that a class
  declares.  The nearest frame that binds `this` binds it to
  the object, right inside the frame of the method.
-/
structure InMethod (heap : Heap) (frame : FrameId) (c : Blueprint)
    (method : Closure) (object : ObjectId) : Prop where
  declared : ∃ classId : ClassId, heap.classes[classId]? = some c
  found : ∃ name, c.methods.get? name = some method
  self : ∃ f, heap.holder? frame "this" = some f ∧ heap.local? f "this" = some (.object object) ∧
        heap.parent? f = some method.frame

variable {table : Distances} {P : Site → Prop} {kinds : List Kind} {scopes : List Names}
variable {ctx : Context} {id : Nat} {keyword : Token} {w w' : World}

/- `this` is what the nearest frame binds it to. -/
theorem readSelf_finds (h : Sits table P kinds ctx w) (hWord : keyword.lexeme = "this")
    (hSite : P ⟨⟨.self, id, keyword⟩, kinds, scopes⟩) :
    ∃ f object, w.heap.holder? ctx.frame "this" = some f ∧
        w.heap.local? f "this" = some (.object object) ∧
          readVariable ctx id keyword w = .done (.object object) w := by
  rcases h.runsIn.served _ hSite with ⟨d, hDistance, hNearest⟩
  rcases h.runsIn.lined.selfFrame_at hNearest with ⟨f, hFrame, hSelf, object, hObject⟩
  refine ⟨f, object, hSelf.holder?_eq h.sane, hObject, ?_⟩
  unfold readVariable require
  simp only [h.distances, hDistance, Heap.getAt?, hFrame, Option.bind_some, hWord, hObject]

/- What is done with the superclass and the object. -/
theorem superMethod_eq {d : Nat} {parent : ClassId} {object : ObjectId}
    (hDistance : ctx.distances[id]? = some (d + 1))
    (hClass : w.heap.getAt? ctx.frame (d + 1) keyword.lexeme = some (.blueprint parent))
    (hObject : w.heap.getAt? ctx.frame d "this" = some (.object object)) (method : Token) :
    superMethod ctx id keyword method w =
      match w.heap.findMethod? parent method.lexeme with
      | some found => bound found object w
      | none =>
        .failed (.atToken method (.undefinedProperty method.lexeme)) w := by
  unfold superMethod
  rw [hDistance]
  dsimp only
  rw [bind_done _ (require_done keyword _ hClass)]
  dsimp only
  rw [bind_done _ (require_done keyword _ hObject)]
  dsimp only
  cases hFound : w.heap.findMethod? parent method.lexeme with
  | some found => rw [bind_done _ (require_done method _ hFound)]
  | none => rw [bind_failed _ (require_failed method _ hFound)]

theorem message_undefinedProperty (name : String) :
    (Cause.undefinedProperty name).message = "Undefined property '" ++ name ++ "'." := by
  have hBefore : "Undefined property " ++ "'" = "Undefined property '" := by decide +kernel
  have hAfter : "'" ++ "." = "'." := by decide +kernel
  calc (Cause.undefinedProperty name).message
    _ = "Undefined property " ++ ("'" ++ name ++ "'") ++ "." :=
      rfl
    _ = "Undefined property " ++ "'" ++ name ++ ("'" ++ ".") := by simp only [String.append_assoc]
    _ = _ := congrArg₂ (fun before after => before ++ name ++ after) hBefore hAfter

/- A method is bound to an object. -/
theorem bound_done (method : Closure) (object : ObjectId) (w : World) :
    ∃ value w', bound method object w = .done value w' ∧ w'.heap.Bound value method object := by
  refine ⟨_, _, rfl, w.heap.functions.size, w.heap.frames.size, rfl, ?_, ?_, ?_⟩
  · exact Array.getElem?_push_size
  · exact Heap.local?_addFrame_new ..
  · exact Heap.parent?_addFrame_new ..

/-
  A method of a superclass is looked for from the superclass
  of the class around.
-/
theorem superMethod_dispatches (h : Sits table P kinds ctx w)
    (hWord : keyword.lexeme = "super")
    (hSite : P ⟨⟨.superMethod, id, keyword⟩, kinds, scopes⟩) (method : Token) :
    ∃ c own object parent, InMethod w.heap ctx.frame c own object ∧
        id ∈ own.function.supers ∧ c.superclass = some parent ∧
            superMethod ctx id keyword method w =
              match w.heap.findMethod? parent method.lexeme with
              | some found => bound found object w
              | none =>
                .failed (.atToken method (.undefinedProperty method.lexeme)) w := by
  rcases h.runsIn.served _ hSite with ⟨d, hDistance, hSelf, hSuper⟩
  rcases h.runsIn.homed _ hSite rfl rfl with ⟨f, c, name, own, hFrame, hHosts, hOwn⟩
  -- the object at the distance is that of the method around
  rcases h.runsIn.lined.selfFrame_at hSelf with ⟨f', hAt, hFrame', object, hObject⟩
  obtain rfl := hFrame.unique hFrame'
  -- and so is the superclass around it
  have hOuter : w.heap.ancestor? ctx.frame (d + 1) = some own.frame := by
    rw [Heap.ancestor?, hAt, Option.bind_some, hHosts.parent]
  rcases h.runsIn.lined.at_distance hSuper.at_distance with ⟨f', hAt', _, parent, hParent⟩
  cases hOuter.symm.trans hAt'
  have hMethod := h.allRunnable.methods c hHosts.declared name own hHosts.found
  have hSuperclass : c.superclass = some parent := by
    have hSame := hMethod.superclass.symm.trans hParent
    rcases Option.map_eq_some_iff.mp hSame with ⟨other, hOther, hValue⟩
    cases hValue
    exact hOther
  have hIn : InMethod w.heap ctx.frame c own object :=
    ⟨Array.mem_iff_getElem?.mp hHosts.declared,
      ⟨name, hHosts.found⟩, f, hFrame.holder?_eq h.sane, hObject, hHosts.parent⟩
  refine ⟨c, own, object, parent, hIn, hOwn, hSuperclass, ?_⟩
  apply superMethod_eq
  · rw [h.distances]
    exact hDistance
  · rw [Heap.getAt?, hOuter, Option.bind_some, hWord, hParent]
  · rw [Heap.getAt?, hAt, Option.bind_some, hObject]

variable {name : Token} {methods : List Function}

/- A class keeps the superclass that it is declared with. -/
theorem makeClass_done {superclass : Option ClassId}
    (h : makeClass ctx name superclass methods w = .done () w') :
    ∃ frame, w'.heap.classes = w.heap.classes.push ⟨name.lexeme, superclass,
            methodTable frame methods⟩ := by
  rcases of_bind_done h with ⟨_, w₁, hDeclare, h⟩
  cases hDeclare
  rcases of_bind_done h with ⟨frame, w₂, hFrame, h⟩
  have hClasses : w₂.heap.classes = w.heap.classes := by
    cases superclass <;> cases hFrame <;> rfl
  rcases of_bind_done h with ⟨id, w₃, hAdd, h⟩
  cases hAdd
  rcases of_bind_done h with ⟨holder, w₄, hHolder, h⟩
  unfold require at hHolder
  split at hHolder
  · cases hHolder
    cases h
    refine ⟨frame, ?_⟩
    rw [← hClasses]
    rfl
  · cases hHolder

theorem execute_class_done {fuel : Nat} {parent : Expr} {flow : Flow}
    (h : execute (fuel + 1) ctx (.classDecl name (some parent) methods) w =
          .done flow w') : ∃ superclass w₁ frame, evaluate fuel ctx parent w =
          .done (.blueprint superclass) w₁ ∧ w'.heap.classes =
          w₁.heap.classes.push ⟨name.lexeme, some superclass, methodTable frame methods⟩ := by
  rcases of_bind_done h with ⟨value, w₁, hParent, h⟩
  rcases of_bind_done h with ⟨superclass, w₂, hClass, h⟩
  rcases of_bind_done h with ⟨_, w₃, hMade, h⟩
  cases h
  unfold asSuperclass at hClass
  split at hClass
  · cases hClass
    rcases makeClass_done hMade with ⟨frame, hClasses⟩
    exact ⟨superclass, w₁, frame, hParent, hClasses⟩
  · cases hClass

end Eval

------------------------------------------------------------
-- Dispatch
------------------------------------------------------------

namespace Session

open Eval (InMethod methodTable)

/-
  In every session and every step, whenever a method of a
  superclass is used, the use is written in a method of a
  class, with all functions inside of it but outside of other
  classes.  That method has been bound to an object, the one
  that `this` stands for.  The method used is the nearest
  one in the superclass of the class and its superclasses.
  It is bound to the same object, whose own class is not
  asked.  A class has the superclass that was there when it
  was declared.
-/
theorem super_dispatches_from_class
    {steps : List Step}
    {session : Session}
    (h : Reached steps session)
    (step : Step) :
    (∀ fuel ctx id keyword method w,
      let expr := Expr.superMethod id keyword method
      session.Performs step
          (.evaluate (fuel + 1) ctx expr w) →
        ∃ c own object parent classes,
          InMethod w.heap ctx.frame c own object ∧
          id ∈ own.function.supers ∧
          c.superclass = some parent ∧
          w.heap.Lineage parent classes ∧
          match classes.findSome?
              (w.heap.ownMethod? method.lexeme) with
          | some found =>
              ∃ value w',
                Eval.evaluate (fuel + 1) ctx expr w =
                    .done value w' ∧
                  w'.heap.Bound value found object
          | none =>
              ∃ fault,
                Eval.evaluate (fuel + 1) ctx expr w =
                    .failed fault w ∧
                  fault.diagnostic =
                    .runtime method.line method.file
                      ("Undefined property '" ++
                        method.lexeme ++ "'.")) ∧
    (∀ fuel ctx id keyword w,
      session.Performs step
          (.evaluate (fuel + 1) ctx (.self id keyword) w) →
        ∃ f object,
          w.heap.holder? ctx.frame "this" = some f ∧
          w.heap.local? f "this" = some (.object object) ∧
          Eval.evaluate (fuel + 1) ctx (.self id keyword) w =
            .done (.object object) w) ∧
    ∀ fuel ctx name parent methods w flow w',
      Eval.execute (fuel + 1) ctx
          (.classDecl name (some parent) methods) w =
            .done flow w' →
        ∃ superclass w₁ frame,
          Eval.evaluate fuel ctx parent w =
              .done (.blueprint superclass) w₁ ∧
            w'.heap.classes =
              w₁.heap.classes.push
                ⟨name.lexeme, some superclass,
                  methodTable frame methods⟩ := by
  refine ⟨?_, ?_, ?_⟩
  · intro fuel ctx id keyword method w expr hTask
    rcases h.sound hTask with ⟨table, hSound⟩
    cases hSound with
    | evaluate hSits hSensible hKnown =>
        simp only [expr, Expr.Sensible] at hSensible
        simp only [expr, Expr.Known] at hKnown
        rcases Eval.superMethod_dispatches hSits hSensible.1
            hKnown method with
          ⟨c, own, object, parent, hIn, hOwn, hSuper, hSame⟩
        rcases hSits.sane.lineage parent with
          ⟨classes, hLineage⟩
        refine ⟨c, own, object, parent, classes, hIn, hOwn,
          hSuper, hLineage, ?_⟩
        simp only [expr, Eval.evaluate, hSame]
        rw [hLineage.findMethod?_eq hSits.sane]
        cases classes.findSome?
            (w.heap.ownMethod? method.lexeme) with
        | some found => exact Eval.bound_done found object w
        | none =>
            refine ⟨_, rfl, ?_⟩
            rw [← Eval.message_undefinedProperty]
            rfl
  · intro fuel ctx id keyword w hTask
    rcases h.sound hTask with ⟨table, hSound⟩
    cases hSound with
    | evaluate hSits hSensible hKnown =>
        simp only [Expr.Sensible] at hSensible
        simp only [Expr.Known] at hKnown
        simp only [Eval.evaluate]
        exact Eval.readSelf_finds hSits hSensible hKnown
  · intro fuel ctx name parent methods w flow w' hEnd
    exact Eval.execute_class_done hEnd

/- The line of the method that a use of `super` finds. -/
def superLine? : Eval.Task → Option Nat
  | .evaluate (fuel + 1) ctx (.superMethod id keyword method) w =>
    match Eval.evaluate (fuel + 1) ctx (.superMethod id keyword method) w with
    | .done (.function f) w' => (w'.heap.functions[f]?.bind (·.function.name)).map Token.line
    | _ => none
  | _ => none

/-
  A function that a method of the class in the middle has
  returned is called for an object of the last class.  The
  method used is on the first line.
-/
theorem super_in_returned_function :
    let session := Session.start {} .halt
    let step :=
      Step.run 40
        ("class A \x7b m() \x7b return 1; \x7d \x7d\n" ++
          "class B < A \x7b m() \x7b return 2; \x7d\n" ++
          "f() \x7b return fn () " ++
          "\x7b return super.m(); \x7d; \x7d \x7d\n" ++
          "class C < B \x7b m() \x7b return 3; \x7d \x7d\n" ++
          "let g = C().f(); g();")
        "classes"
    Reached [] session ∧
      ∃ fuel ctx id keyword method w,
        let expr := Expr.superMethod id keyword method
        session.Performs step
            (.evaluate (fuel + 1) ctx expr w) ∧
          ∃ c own object found value w',
            InMethod w.heap ctx.frame c own object ∧
              id ∈ own.function.supers ∧
                Eval.evaluate (fuel + 1) ctx expr w =
                    .done value w' ∧
                  w'.heap.Bound value found object ∧
                    found.function.name.map Token.line =
                      some 1 := by
  intro session step
  have hReached : Reached [] session := .start {} .halt
  have hUsed :
      (session.performed step 30).any
        (superLine? · == some 1) = true := by
    decide +kernel
  rcases List.any_eq_true.mp hUsed with ⟨task, hMem, hTask⟩
  replace hTask := eq_of_beq hTask
  unfold superLine? at hTask
  split at hTask
  · rename_i fuel ctx id keyword method w
    have hPerforms := performs_of_mem hMem
    rcases (super_dispatches_from_class hReached step).1 fuel
        ctx id keyword method w hPerforms with
      ⟨c, own, object, parent, classes, hIn, hOwn, _, _,
        hSame⟩
    refine ⟨hReached, fuel, ctx, id, keyword, method, w,
      hPerforms, c, own, object, ?_⟩
    split at hSame
    · rename_i found _
      rcases hSame with ⟨value, w', hEnd, hBound⟩
      refine ⟨found, value, w', hIn, hOwn, hEnd, hBound, ?_⟩
      rcases hBound with ⟨f, frame, rfl, hFunction, _⟩
      rw [hEnd] at hTask
      simp only [hFunction, Option.bind_some] at hTask
      exact hTask
    · rcases hSame with ⟨fault, hEnd, _⟩
      rw [hEnd] at hTask
      cases hTask
  · cases hTask

end Session

end Scriptlet
