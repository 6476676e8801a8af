import Scriptlet.Proofs.Eval.Blameless
import Scriptlet.Proofs.Session.Registers
import Scriptlet.Proofs.Session.Scopes
import Scriptlet.Proofs.Session.Stages

/-
  Faults in the course of a session.

  Key declarations include:
    * `Eval.Excused`
    * `Session.Orderly`
    * `Session.Orderly.drive_clears`

  Whatever a session is given, operators and targets have a
  meaning, and `this` and `super` have values of their kind:
    * `Session.internal_faults_unreachable`
-/

namespace Scriptlet

namespace Eval

open Scope (Distances)

/- Every pending fault of a run has an external cause. -/
def Excused (report : Report) : Prop :=
  ∀ d ∈ report.pending, d.isRuntime = true → ∃ fault : Fault,
      d = fault.diagnostic ∧ fault.cause.External

namespace Excused

variable {report : Report}

variable {ds : List Diagnostic}

theorem addAll (h : Excused report)
    (hNew : ∀ d ∈ ds, d.isRuntime = true → ∃ fault : Fault,
        d = fault.diagnostic ∧ fault.cause.External) : Excused (report.addAll ds) := by
  intro d hMem
  rw [(report.addAll_flags ds).1] at hMem
  rcases List.mem_append.mp hMem with hOld | hMem
  · exact h d hOld
  · exact hNew d hMem

theorem addStatic (h : Excused report)
    (hStatic : ∀ d ∈ ds, d.isStatic = true) : Excused (report.addAll ds) := by
  apply h.addAll
  intro d hMem hRuntime
  rw [Diagnostic.isRuntime_of_isStatic (hStatic d hMem)] at hRuntime
  cases hRuntime

theorem add (h : Excused report) {fault : Fault} (hFault : fault.cause.External) :
    Excused (report.add fault.diagnostic) := by
  have hAll : Excused (report.addAll [fault.diagnostic]) := by
    apply h.addAll
    intro d hMem _
    exact ⟨fault, List.mem_singleton.mp hMem, hFault⟩
  exact hAll

end Excused

/- Code is where it belongs, and faults are external. -/
structure Orderly (table : Distances) (world : World) (report : Report) : Prop where
  allRunnable : AllRunnable table world.heap
  globals : RunnableIn table world.heap (Served table) [] Heap.globals
  excused : Excused report

/- The records are blameless, and so is the report. -/
structure Clears (table : Distances) (drive : Machine.Drive (World × Report)) : Prop where
  blameless : ∀ top ∈ drive.records, top.Blameless
  orderly {world report} : drive.result = .ok (world, report) → Orderly table world report

variable {table : Distances}

theorem Clears.prepend
    {drive : Machine.Drive (World × Report)} {records : List Record}
    (h : Clears table drive) (hRecords : ∀ record ∈ records, record.Blameless) :
    Clears table { drive with records := records ++ drive.records } :=
  ⟨List.forall_mem_append.mpr ⟨hRecords, h.blameless⟩, h.orderly⟩

/- Top-level statements run one after the other. -/
theorem interpret_clears (fuel : Nat) (policy : Policy)
    {body : List Stmt} {world : World} {report : Report}
    (h : Orderly table world report) (hSensible : stmtsSensible body)
    (hKnown : stmtsKnown (Served table) [] body []) :
    Clears table (Machine.interpret fuel policy table body .top world report) := by
  induction body generalizing world report with
  | nil =>
    refine ⟨List.forall_mem_nil _, ?_⟩
    intro world' report' hSame
    cases hSame
    exact h
  | cons first others ih =>
    simp only [stmtsKnown, Stmt.after_nil] at hKnown
    have hConducts : Conducts table .top world.heap
          (Machine.execute table fuel first) Cause.External
          whatever := (conductsAll table fuel).execute h.allRunnable h.globals hSensible.1 hKnown.1
    have hRan := hConducts.conducted world.host
    change Ran.Conducted table .top world.heap Cause.External
      whatever (Machine.execute table fuel first .top world) at hRan
    unfold Machine.interpret
    generalize Machine.execute table fuel first .top world = ran at hRan
    rcases ran with ⟨registers, records, outcome⟩
    rcases hRan with ⟨hRegisters, hRecords, hActed⟩
    obtain rfl : registers = .top := hRegisters
    cases hActed with
    | done hKeeps hAllRun _ =>
      have hNext := ih ⟨hAllRun, h.globals.keep hKeeps, h.excused⟩ hSensible.2 hKnown.2
      exact hNext.prepend hRecords
    | failed hKeeps hAllRun hCause =>
      have hOrderly := Orderly.mk hAllRun (h.globals.keep hKeeps) (h.excused.add hCause)
      cases policy with
      | halt =>
        refine ⟨hRecords, ?_⟩
        intro world' report' hSame
        cases hSame
        exact hOrderly
      | proceed => exact (ih hOrderly hSensible.2 hKnown.2).prepend hRecords
    | stopped => exact ⟨hRecords, by rintro _ _ ⟨⟩⟩

end Eval

namespace Session

open Eval (Path Record Served AllRunnable)
open Eval.Machine (Drive)
open Scope (Distances Site)

variable {ready session : Session} {seen : List Site} {history : Eval.History}

/- A session between two steps. -/
def Orderly (session : Session) : Prop :=
  Eval.Orderly session.distances session.world session.report

theorem Orderly.start (host : Host) (policy : Eval.Policy) : Orderly (.start host policy) where
  allRunnable := .initial
  globals := .top (.globals Nat.zero_lt_one) rfl
  excused := fun _ hMem => nomatch hMem

/- What a step runs is blameless, and it leaves all well. -/
structure Clears (drive : Drive (Answer × Session)) : Prop where
  blameless : ∀ top ∈ drive.records, top.Blameless
  orderly {answer next} : drive.result = .ok (answer, next) → Orderly next

/- Nothing is run. -/
theorem Clears.idle {next : Session} (h : Orderly next)
    (registers : Eval.Registers) (answer : Answer) :
    Clears ⟨registers, [], .ok (answer, next)⟩ where
  blameless := fun _ hMem => nomatch hMem
  orderly hSame := by
    cases hSame
    exact h

theorem Orderly.judged (h : Orderly session) {α : Type} {verdict : Verdict α}
    (hStatic : ∀ d ∈ verdict.reported, d.isStatic = true) : Orderly (session.judged verdict) :=
  ⟨h.allRunnable, h.globals, h.excused.addStatic hStatic⟩

theorem driveProgram_clears (h : Orderly ready) (fuel : Nat) {body : List Stmt}
    (hSensible : stmtsSensible body) (hKnown : stmtsKnown (Served ready.distances) [] body []) :
    Clears (ready.driveProgram fuel body .top) := by
  have hClears := Eval.interpret_clears fuel ready.policy h hSensible hKnown
  unfold driveProgram
  generalize Eval.Machine.interpret fuel ready.policy
    ready.distances body .top ready.world ready.report = drive at hClears
  rcases drive with ⟨registers, records, result⟩
  cases result with
  | error reason => exact ⟨hClears.blameless, fun hSame => nomatch hSame⟩
  | ok ended =>
    refine ⟨hClears.blameless, ?_⟩
    intro answer next hSame
    cases hSame
    exact hClears.orderly rfl

theorem driveExpression_clears (h : Orderly ready) (fuel : Nat) {expr : Expr}
    (hSensible : expr.Sensible) (hKnown : expr.Known (Served ready.distances) [] []) :
    Clears (ready.driveExpression fuel expr .top) := by
  have hConducts : Eval.Conducts ready.distances .top ready.world.heap
        (Eval.Machine.evaluate ready.distances fuel expr) Eval.Cause.External Eval.whatever :=
    (Eval.conductsAll ready.distances fuel).evaluate h.allRunnable h.globals hSensible hKnown
  have hRan := hConducts.conducted ready.world.host
  change Eval.Ran.Conducted ready.distances .top ready.world.heap Eval.Cause.External Eval.whatever
    (Eval.Machine.evaluate ready.distances fuel expr .top ready.world) at hRan
  unfold driveExpression
  generalize Eval.Machine.evaluate ready.distances fuel expr .top ready.world = ran at hRan
  rcases ran with ⟨registers, records, outcome⟩
  rcases hRan with ⟨_, hRecords, hActed⟩
  cases hActed with
  | done hKeeps hAllRun _ =>
    refine ⟨hRecords, ?_⟩
    intro answer next hSame
    cases hSame
    exact ⟨hAllRun, h.globals.keep hKeeps, h.excused⟩
  | failed hKeeps hAllRun hCause =>
    refine ⟨hRecords, ?_⟩
    intro answer next hSame
    cases hSame
    exact ⟨hAllRun, h.globals.keep hKeeps, h.excused.add hCause⟩
  | stopped => exact ⟨hRecords, fun hSame => nomatch hSame⟩

theorem served_of_owned {table : Scope.Distances} {site : Site}
    (h : site.OwnedIn fun site => table[site.reference.id]? = site.distance?) :
    Served table site := by
  unfold Served
  rw [h.1]
  exact h.2

section

variable (h : Orderly session) (hScoped : Scoped seen history session)

include h hScoped

variable {α : Type} {verdict : Verdict α} {new : List Site}

/- The distances of new sites are added to the table. -/
theorem Orderly.extended
    (hStatic : ∀ d ∈ verdict.reported, d.isStatic = true)
    (hNew : Grammar.Numbered session.nextId verdict.nextId (new.map Site.reference)) :
    let ready := (session.judged verdict).extended (new.filterMap Site.record?)
    Orderly ready ∧ ∀ site ∈ new, ready.distances[site.reference.id]? = site.distance? := by
  intro ready
  have hTable := (hScoped.extended hNew).table
  have hKept {id d : Nat} (hEntry : session.distances[id]? = some d) :
      ready.distances[id]? = some d := by
    rw [← hEntry]
    refine Scope.Distances.extend_other (fun hMem => ?_) _
    rcases List.mem_map.mp hMem with ⟨site, hSite, rfl⟩
    have hAbove := (hNew.bounds _ (List.mem_map_of_mem hSite)).1
    rw [hScoped.unused _ hAbove] at hEntry
    cases hEntry
  have hGlobals : Eval.RunnableIn ready.distances ready.world.heap
        (Served ready.distances) [] Heap.globals := .top h.globals.lined h.globals.inner
  refine ⟨⟨?_, hGlobals, h.excused.addStatic hStatic⟩, ?_⟩
  · exact h.allRunnable.mono fun _ => Served.mono hKept
  · exact fun site hSite => hTable site (List.mem_append_right seen hSite)

/- What is accepted may be run. -/
theorem Orderly.accept
    {found : List (Nat × Nat)} {Known : (Site → Prop) → Prop}
    (hAccepted : Accepted session.nextId verdict found new Known) :
    let ready := (session.judged verdict).extended found
    Orderly ready ∧ Known (Served ready.distances) := by
  rw [hAccepted.found]
  have hExtended := h.extended hScoped hAccepted.static hAccepted.numbered
  exact ⟨hExtended.1, hAccepted.known hExtended.2 fun _ => served_of_owned⟩

theorem Orderly.run_clears (fuel : Nat) (source file : String) :
    Clears (session.drive .top (.run fuel source file)) := by
  simp only [drive]
  cases hAccepted : (judge session.report.hadError session.nextId source file).accepted with
  | none => exact .idle (h.judged (judge_fair ..).static) _ _
  | some accepted =>
    rcases h.accept hScoped (judge_accepted hAccepted) with ⟨hReady, hKnown⟩
    exact driveProgram_clears hReady fuel (judge_sensible hAccepted) hKnown

theorem Orderly.evaluate_clears (fuel : Nat) (source file : String) :
    Clears (session.drive .top (.evaluate fuel source file)) := by
  simp only [drive]
  cases hAccepted :
      (judgeExpression session.report.hadError session.nextId source file).accepted with
  | none => exact .idle (h.judged (judgeExpression_fair ..).static) _ _
  | some accepted =>
    rcases h.accept hScoped (judgeExpression_accepted hAccepted) with ⟨hReady, hKnown⟩
    exact driveExpression_clears hReady fuel (judgeExpression_sensible hAccepted) hKnown

/- One step. -/
theorem Orderly.drive_clears (step : Step) : Clears (session.drive .top step) := by
  cases step with
  | run fuel source file => exact h.run_clears hScoped fuel source file
  | evaluate fuel source file => exact h.evaluate_clears hScoped fuel source file
  | resetErrors =>
    have hReset : Orderly session.resetErrors :=
      ⟨h.allRunnable, h.globals, fun _ hMem => nomatch hMem⟩
    exact .idle hReset _ _
  | takeErrors =>
    have hTaken : Orderly session.takeErrors.2 :=
      ⟨h.allRunnable, h.globals, fun _ hMem => nomatch hMem⟩
    exact .idle hTaken _ _
  | withHost host =>
    have hHost : Orderly (session.withHost host) := ⟨h.allRunnable, h.globals, h.excused⟩
    exact .idle hHost _ _

end

/- Every step. -/
theorem Reached.orderly {steps : List Step} (h : Reached steps session) : Orderly session := by
  induction h with
  | start host policy => exact .start host policy
  | @next _ session step answer next hReached hStep ih =>
    rcases hReached.logged with ⟨seen, history, hLogged⟩
    have hClears := ih.drive_clears hLogged.scoped step
    have hDrives := drive_step hReached.driven.holds.2 step
    rw [← hDrives.same] at hStep
    exact hClears.orderly hStep

/-
  In every session and every step, whatever is run inside of
  whatever, no operator and no target is without a meaning,
  and `this` and `super` are found with values of their kind,
  also where an initializer hands back its object.  Of a
  method of a superclass only the method may be missing.
  What has been reported of runs is none of this either.
-/
theorem internal_faults_unreachable
    {steps : List Step}
    {session : Session}
    (h : Reached steps session) :
    (∀ d ∈ session.report.pending, d.isRuntime = true →
      ∃ fault : Eval.Fault,
        d = fault.diagnostic ∧
          fault.cause.isInternal = false) ∧
    ∀ step,
      let drive := session.drive .top step
      drive.result = session.step step ∧
      ∀ top ∈ drive.records, ∀ path record cause,
        Path top path record →
        record.cause? = some cause →
          cause.isInternal = false ∧
            (∀ id keyword method start inside ending,
              record =
                  .evaluated (.superMethod id keyword method)
                    start inside ending →
                ∃ name, cause = .undefinedProperty name) := by
  refine ⟨h.orderly.excused, ?_⟩
  intro step drive
  have hDrives := drive_step h.driven.holds.2 step
  refine ⟨hDrives.same, ?_⟩
  intro top hMem path record cause hPath hCause
  rcases h.logged with ⟨seen, history, hLogged⟩
  have hClears := h.orderly.drive_clears hLogged.scoped step
  have hAllows :=
    ((hClears.blameless top hMem).at_path hPath).allows hCause
  refine ⟨hAllows.external, ?_⟩
  rintro id keyword method start inside ending rfl
  exact hAllows

example :
    [Eval.Cause.assignmentTarget, .unaryOperator, .binaryOperator, .superOutsideMethod,
        .selfNotObject].map Eval.Cause.message =
      ["Invalid assignment target.", "Invalid unary operator.", "Invalid binary operator.",
        "Can't use 'super' outside of a method.", "'this' is not an instance."] := rfl

/- A method that the superclass does not have. -/
theorem missing_superclass_method_external :
    let session := Session.start {} .halt
    let step :=
      Step.run 40
        ("class A \x7b init(x) \x7b this.x = x; \x7d \x7d " ++
          "class B < A \x7b init(x) \x7b super.init(x); " ++
          "this.x += 1; \x7d " ++
          "m() \x7b return -super.none(); \x7d \x7d " ++
          "B(2).m();")
        "classes"
    let drive := session.drive .top step
    Reached [] session ∧
      ∃ top ∈ drive.records,
        top.cause? = some (.undefinedProperty "none") ∧
          (Eval.Cause.undefinedProperty "none").isInternal =
            false := by
  intro session step drive
  have hReached : Reached [] session := .start {} .halt
  have hFailed :
      drive.records.any
        (fun top =>
          top.cause? = some (.undefinedProperty "none")) =
        true := by
    decide +kernel
  rcases List.any_eq_true.mp hFailed with
    ⟨top, hMem, hCause⟩
  have hCause := of_decide_eq_true hCause
  have hStep := (internal_faults_unreachable hReached).2 step
  exact ⟨hReached, top, hMem, hCause,
    (hStep.2 top hMem [] top _ .top hCause).1⟩

end Session

end Scriptlet
