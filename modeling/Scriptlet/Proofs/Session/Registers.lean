import Scriptlet.Proofs.Eval.Paths
import Scriptlet.Proofs.Session.Verdict

/-
  Registers and signals in the course of a session.

  Key declarations include:
    * `Session.drive`
    * `Session.Driven`
    * `Eval.Confined`

  Every step starts with the registers that the step before
  has left.  They are always those of top-level code, and
  what is accepted keeps its control signals inside:
    * `Session.registers_restored`
    * `Session.signals_stay_inside`
-/

namespace Scriptlet

namespace Eval

open Machine (Drive)

/-
  The machine has run top-level statements as the evaluator
  does, with the registers as before.
-/
structure Drives (P : Function → Prop) (registers : Registers)
    (body : List Stmt) (result : Except Stop (World × Report))
    (drive : Drive (World × Report)) : Prop where
  restored : drive.registers = registers
  same : drive.result = result
  heap {world report} : result = .ok (world, report) → world.heap.Holds P
  formed : ∀ top ∈ drive.records, Formed P registers.depth top
  statement : ∀ top ∈ drive.records, ∃ stmt ∈ body, ∃ inside ending,
      top = .executed stmt registers inside ending

variable {P : Function → Prop}

/- A statement and then the others. -/
theorem Drives.cons {registers : Registers} {first : Stmt}
    {others : List Stmt} {result : Except Stop (World × Report)}
    {drive : Drive (World × Report)} {records : List Record} {ending : Ending Flow}
    (hFormed : ∀ record ∈ records, Formed P registers.depth record)
    (hSingle : Single first registers records ending) (h : Drives P registers others result drive) :
    Drives P registers (first :: others) result
      { drive with records := records ++ drive.records } where
  restored := h.restored
  same := h.same
  heap := h.heap
  formed := by
    intro top hMem
    rcases List.mem_append.mp hMem with hMem | hMem
    · exact hFormed top hMem
    · exact h.formed top hMem
  statement := by
    intro top hMem
    rcases List.mem_append.mp hMem with hMem | hMem
    · cases hSingle with
      | executed =>
        obtain rfl := List.mem_singleton.mp hMem
        exact ⟨first, List.mem_cons_self .., _, _, rfl⟩
      | exhausted => cases hMem
    · rcases h.statement top hMem with ⟨stmt, hStmt, hTop⟩
      exact ⟨stmt, List.mem_cons_of_mem first hStmt, hTop⟩

/- A program starts every statement with its registers. -/
theorem interpret_drives
    {distances : Scope.Distances}
    {fuel : Nat}
    (hAll : FollowsAll P 0 distances fuel)
    (policy : Policy)
    (registers : Registers)
    {body : List Stmt}
    (hBody : stmtsEvery P body)
    {world : World}
    (hHeap : world.heap.Holds P)
    (report : Report) :
    Drives P registers body
      (interpret fuel policy (registers.context distances)
        body world report)
      (Machine.interpret fuel policy distances body
        registers world report) := by
  induction body generalizing world report with
  | nil =>
    refine ⟨rfl, rfl, ?_, ?_, ?_⟩
    · intro world' report' hSame
      cases hSame
      exact hHeap
    · exact List.forall_mem_nil _
    · exact List.forall_mem_nil _
  | cons first others ih =>
    have hFits := (hAll.execute registers first hBody.1).fits world hHeap
    unfold Machine.interpret interpret
    generalize Machine.execute distances fuel first registers world = ran at hFits
    rcases ran with ⟨registers', records, outcome⟩
    rcases hFits with ⟨hRegisters, hSame, hKept, hFormed, hSingle⟩
    obtain rfl : registers' = registers := hRegisters
    obtain rfl : outcome = _ := hSame
    generalize execute fuel (registers'.context distances) first world = outcome at hKept hSingle
    have hAlone {result : Except Stop (World × Report)}
        (hResult : ∀ {world report}, result = .ok (world, report) →
            world.heap.Holds P) : Drives P registers' (first :: others) result
          ⟨registers', records, result⟩ := by
      have hNone : Drives P registers' others result ⟨registers', [], result⟩ :=
        ⟨rfl, rfl, hResult, List.forall_mem_nil _, List.forall_mem_nil _⟩
      have hCons := Drives.cons hFormed hSingle hNone
      rwa [List.append_nil] at hCons
    cases hKept with
    | done hKeeps => exact .cons hFormed hSingle (ih hBody.2 (hKeeps.holds hHeap) report)
    | failed hKeeps =>
      cases policy with
      | halt =>
        apply hAlone
        intro last report' hSame
        cases hSame
        exact hKeeps.holds hHeap
      | proceed => exact .cons hFormed hSingle (ih hBody.2 (hKeeps.holds hHeap) _)
    | stopped =>
      apply hAlone
      rintro _ _ ⟨⟩

/- An expression starts with the registers. -/
theorem Machine.evaluate_start (distances : Scope.Distances) (fuel : Nat)
    (expr : Expr) (registers : Registers) (world : World) :
    ∀ top ∈ (Machine.evaluate distances fuel expr registers world).records,
      ∃ inside ending, top = .evaluated expr registers inside ending := by
  intro top hMem
  cases fuel with
  | zero => cases hMem
  | succ fuel =>
    obtain rfl := List.mem_singleton.mp hMem
    exact ⟨_, _, rfl⟩

/- The ending of the evaluator, and the same registers. -/
structure Restores {α : Type} (registers : Registers) (outcome : Outcome α)
    (ran : Ran α) : Prop where
  restored : ran.registers = registers
  same : ran.outcome = outcome

/-
  A call is refused at the limit and nothing is run, or the
  body is entered below the limit.
-/
inductive Enters (closure : Closure) (paren : Token) (registers : Registers)
    (world : World) (ran : Ran Value) : Prop where
  | refused : depthLimit ≤ registers.depth → ran = ⟨registers, [.refused closure paren registers],
          .failed (.atToken paren .callDepth) world⟩ → Enters closure paren registers world ran
  | entered {inside ending} : registers.depth < depthLimit → ran.records =
        [.entered closure registers inside ending] → Enters closure paren registers world ran

theorem Machine.invoke_enters (distances : Scope.Distances) (fuel : Nat)
    (closure : Closure) (paren : Token) (arguments : List Value)
    (registers : Registers) (world : World) :
    Enters closure paren registers world
      (Machine.invoke distances (fuel + 1) closure paren arguments registers world) := by
  by_cases hDepth : depthLimit ≤ registers.depth
  · apply Enters.refused hDepth
    simp only [Machine.invoke, if_pos hDepth]
    rfl
  · simp only [Machine.invoke, if_neg hDepth]
    have hLt := Nat.lt_of_not_le hDepth
    change Enters closure paren registers world
      (Machine.bind (Machine.act distances _)
        (fun frame => Machine.bind (Machine.enter closure frame _) _) registers world)
    simp only [Machine.bind, Machine.act, allocate]
    split
    · exact .entered hLt rfl
    · exact .entered hLt rfl
    · exact .entered hLt rfl

end Eval

namespace Session

open Eval (Registers Record Machine Path Accounted Restores Enters)
open Eval.Machine (Drive)

/- Run checked statements with registers. -/
def driveProgram (ready : Session) (fuel : Nat) (body : List Stmt)
    (registers : Registers) : Drive (Answer × Session) :=
  let drive :=
    Machine.interpret fuel ready.policy ready.distances body registers ready.world ready.report
  match drive.result with
  | .ok (world, report) =>
    let next := { ready with world := world, report := report }
    ⟨drive.registers, drive.records, .ok (.status next.runStatus, next)⟩
  | .error reason => ⟨drive.registers, drive.records, .error reason⟩

/- Evaluate a checked expression with registers. -/
def driveExpression (ready : Session) (fuel : Nat) (expr : Expr)
    (registers : Registers) : Drive (Answer × Session) :=
  let ran := Machine.evaluate ready.distances fuel expr registers ready.world
  match ran.outcome with
  | .done value world =>
    let next := { ready with world := world }
    ⟨ran.registers, ran.records, .ok (.value (some (next.shown value)), next)⟩
  | .failed fault world =>
    let next := ready.reporting [fault.diagnostic]
    ⟨ran.registers, ran.records, .ok (.value none, { next with world := world })⟩
  | .stopped reason => ⟨ran.registers, ran.records, .error reason⟩

/- Take a step with registers. -/
def drive (session : Session) (registers : Registers) :
    Step → Drive (Answer × Session)
  | .run fuel source file =>
    let verdict := judge session.report.hadError session.nextId source file
    match verdict.accepted with
    | none => ⟨registers, [], .ok (.status .staticError, session.judged verdict)⟩
    | some (body, found) =>
      ((session.judged verdict).extended found).driveProgram fuel body registers
  | .evaluate fuel source file =>
    let verdict := judgeExpression session.report.hadError session.nextId source file
    match verdict.accepted with
    | none => ⟨registers, [], .ok (.value none, session.judged verdict)⟩
    | some (expr, found) =>
      ((session.judged verdict).extended found).driveExpression fuel expr registers
  | other => ⟨registers, [], session.step other⟩

/-
  Sessions that are reached by steps with registers, and the
  registers that are left.
-/
inductive Driven : List Step → Registers → Session → Prop where
  | start (host : Host) (policy : Eval.Policy) : Driven [] .top (.start host policy)
  | next {steps registers session step answer next} :
      Driven steps registers session → (session.drive registers step).result =
        .ok (answer, next) → Driven (steps ++ [step]) (session.drive registers step).registers next

/- What a step from the registers of top-level code does. -/
structure Drives (result : Except Eval.Stop (Answer × Session))
    (drive : Drive (Answer × Session)) : Prop where
  restored : drive.registers = .top
  same : drive.result = result
  heap {answer next} : result = .ok (answer, next) → next.world.heap.Holds Function.Contained
  formed : ∀ top ∈ drive.records, Eval.Formed Function.Contained 0 top
  top : ∀ top ∈ drive.records, top.Grounded ∧ top.start = .top

/- A step that runs nothing. -/
theorem Drives.idle {next : Session} (answer : Answer)
    (hNext : next.world.heap.Holds Function.Contained) :
    Drives (.ok (answer, next)) ⟨.top, [], .ok (answer, next)⟩ where
  restored := rfl
  same := rfl
  heap hSame := by
    cases hSame
    exact hNext
  formed := fun _ hMem => nomatch hMem
  top := fun _ hMem => nomatch hMem

section

variable {ready : Session} (h : ready.world.heap.Holds Function.Contained) (fuel : Nat)
include h

theorem driveProgram_drives {body : List Stmt} (hBody : stmtsContained false false body) :
    Drives
      (match ready.interpret fuel body with
        | .ok next => .ok (.status next.runStatus, next)
        | .error reason => .error reason)
      (ready.driveProgram fuel body .top) := by
  have hDrives : Eval.Drives Function.Contained .top body
        (Eval.interpret fuel ready.policy ready.context body ready.world ready.report)
        (Machine.interpret fuel ready.policy ready.distances body .top ready.world ready.report) :=
    Eval.interpret_drives (Eval.followsAll (trees_contained_every.2.1 _) ready.distances fuel)
      ready.policy .top (trees_contained_every.2.2.1 body _ _ hBody) h ready.report
  unfold Session.interpret driveProgram
  generalize Machine.interpret fuel ready.policy
    ready.distances body .top ready.world ready.report = drive,
    Eval.interpret fuel ready.policy ready.context body ready.world ready.report = result at hDrives
  rcases drive with ⟨registers, records, other⟩
  rcases hDrives with ⟨hRestored, hSame, hHeap, hFormed, hStatement⟩
  obtain rfl : other = result := hSame
  have hTop : ∀ top ∈ records, top.Grounded ∧ top.start = .top := by
    intro top hMem
    rcases hStatement top hMem with ⟨stmt, hStmt, inside, ending, rfl⟩
    exact ⟨stmtsContained_mem hBody stmt hStmt, rfl⟩
  cases other with
  | error reason => exact ⟨hRestored, rfl, nofun, hFormed, hTop⟩
  | ok ended =>
    refine ⟨hRestored, rfl, ?_, hFormed, hTop⟩
    intro answer next hSame
    cases hSame
    exact hHeap rfl

theorem driveExpression_drives {expr : Expr} (hExpr : expr.Contained) :
    Drives
      (match Eval.evaluate fuel ready.context expr ready.world with
        | .done value world =>
          let next := { ready with world := world }
          .ok (.value (some (next.shown value)), next)
        | .failed fault world =>
          let next := ready.reporting [fault.diagnostic]
          .ok (.value none, { next with world := world })
        | .stopped reason => .error reason)
      (ready.driveExpression fuel expr .top) := by
  have hFits : Eval.Ran.Fits Function.Contained 0 0 .top ready.world
        (Eval.evaluate fuel ready.context expr ready.world) Eval.Evaluations
        (Machine.evaluate ready.distances fuel expr .top ready.world) :=
    ((Eval.followsAll (trees_contained_every.2.1 _) ready.distances fuel).evaluate .top expr
      (trees_contained_every.1 expr hExpr)).fits ready.world h
  have hTop : ∀ top ∈ (Machine.evaluate ready.distances fuel
      expr .top ready.world).records, top.Grounded ∧ top.start = .top := by
    intro top hMem
    rcases Machine.evaluate_start _ _ _ _ _ top hMem with ⟨inside, ending, rfl⟩
    exact ⟨trivial, rfl⟩
  unfold driveExpression
  generalize Machine.evaluate ready.distances fuel expr .top ready.world = ran,
    Eval.evaluate fuel ready.context expr ready.world = outcome at hFits hTop
  rcases ran with ⟨registers, records, other⟩
  rcases hFits with ⟨hRestored, hSame, hKept, hFormed, _⟩
  obtain rfl : other = outcome := hSame
  cases hKept with
  | stopped => exact ⟨hRestored, rfl, nofun, hFormed, hTop⟩
  | done hKeeps
  | failed hKeeps =>
    refine ⟨hRestored, rfl, ?_, hFormed, hTop⟩
    intro answer next hSame
    cases hSame
    exact hKeeps.holds h

end

variable {session : Session}

/- Every step leaves the registers as they were. -/
theorem drive_step (h : session.world.heap.Holds Function.Contained) (step : Step) :
    Drives (session.step step) (session.drive .top step) := by
  cases step with
  | run fuel source file =>
    simp only [drive, Session.step, run_eq]
    generalize hVerdict : judge session.report.hadError session.nextId source file = verdict
    cases hAccepted : verdict.accepted with
    | none => exact .idle _ h
    | some accepted =>
      rw [← hVerdict] at hAccepted
      have hBody := (judge_settled hAccepted fun _ _ => trivial).2
      have hReady : ((session.judged verdict).extended accepted.2).world.heap.Holds
            Function.Contained := h
      have hDrives := driveProgram_drives hReady fuel hBody
      dsimp only
      generalize (session.judged verdict).extended accepted.2 = ready at hDrives
      cases hResult : ready.interpret fuel accepted.1 with
      | ok next
      | error reason =>
        rw [hResult] at hDrives
        exact hDrives
  | evaluate fuel source file =>
    simp only [drive, Session.step, evaluate_eq]
    generalize hVerdict : judgeExpression session.report.hadError session.nextId
        source file = verdict
    cases hAccepted : verdict.accepted with
    | none => exact .idle _ h
    | some accepted =>
      rw [← hVerdict] at hAccepted
      have hExpr := (judgeExpression_settled hAccepted fun _ _ => trivial).2
      have hReady : ((session.judged verdict).extended accepted.2).world.heap.Holds
            Function.Contained := h
      have hDrives := driveExpression_drives hReady fuel hExpr
      dsimp only
      generalize (session.judged verdict).extended accepted.2 = ready at hDrives
      cases hOutcome : Eval.evaluate fuel ready.context accepted.1 ready.world with
      | done value world
      | failed fault world
      | stopped reason =>
        rw [hOutcome] at hDrives
        exact hDrives
  | resetErrors => exact .idle _ h
  | takeErrors => exact .idle _ h
  | withHost host => exact .idle _ h

variable {steps : List Step}

theorem Driven.holds {registers : Registers}
    (h : Driven steps registers session) :
    registers = .top ∧ session.world.heap.Holds Function.Contained := by
  induction h with
  | start host policy => exact ⟨rfl, .initial⟩
  | @next steps registers session step answer next _ hStep ih =>
    obtain ⟨rfl, hHeap⟩ := ih
    have hDrives := drive_step hHeap step
    exact ⟨hDrives.restored, hDrives.heap (hDrives.same ▸ hStep)⟩

/- Every session that is reached is reached with registers. -/
theorem Reached.driven
    (h : Reached steps session) : Driven steps .top session := by
  induction h with
  | start host policy => exact .start host policy
  | @next steps session step answer next _ hStep ih =>
    have hDrives := drive_step ih.holds.2 step
    rw [← hDrives.same] at hStep
    have hNext := ih.next hStep
    rwa [hDrives.restored] at hNext

/-
  Frame and call depth are always restored.

  Whatever is executed, evaluated or called, from whatever
  registers, ends as it should with the registers it started
  with.  A call enters the body below the limit; at the
  limit it fails and runs nothing.

  In the course of a session every top-level thing starts in
  the global frame at depth zero.  Whatever is run inside of
  it, the depth is the number of bodies in progress.
-/
theorem registers_restored :
    (∀ (distances : Scope.Distances) (fuel : Nat)
        (registers : Registers) (world : Eval.World),
      let ctx := registers.context distances
      (∀ stmt,
        Restores registers (Eval.execute fuel ctx stmt world)
          (Machine.execute distances fuel stmt registers
            world)) ∧
      (∀ expr,
        Restores registers (Eval.evaluate fuel ctx expr world)
          (Machine.evaluate distances fuel expr registers
            world)) ∧
      (∀ callee paren arguments,
        Restores registers
          (Eval.apply fuel ctx callee paren arguments world)
          (Machine.apply distances fuel callee paren arguments
            registers world)) ∧
      ∀ closure paren arguments,
        Enters closure paren registers world
          (Machine.invoke distances (fuel + 1) closure paren
            arguments registers world)) ∧
    (∀ steps session, Reached steps session →
      Driven steps .top session) ∧
    ∀ steps registers session,
      Driven steps registers session →
      registers = .top ∧
      ∀ step,
        let drive := session.drive registers step
        drive.registers = .top ∧
        drive.result = session.step step ∧
        ∀ top ∈ drive.records,
          top.start = .top ∧
          ∀ path record, Path top path record →
            Accounted path record := by
  refine ⟨?_, fun _ _ => Reached.driven, ?_⟩
  · intro distances fuel registers world ctx
    have hAll := Eval.follows_any distances fuel
    have hHeap := world.heap.holds_any
    refine ⟨?_, ?_, ?_, ?_⟩
    · intro stmt
      have hEvery := stmt.every_of fun _ => trivial
      have hFits :=
        (hAll.execute registers stmt hEvery).fits world hHeap
      exact ⟨hFits.registers, hFits.same⟩
    · intro expr
      have hEvery := expr.every_of fun _ => trivial
      have hFits :=
        (hAll.evaluate registers expr hEvery).fits world hHeap
      exact ⟨hFits.registers, hFits.same⟩
    · intro callee paren arguments
      have hFits :=
        (hAll.apply registers callee paren arguments).fits
          world hHeap
      exact ⟨hFits.registers, hFits.same⟩
    · intro closure paren arguments
      exact Machine.invoke_enters distances fuel closure paren
        arguments registers world
  · intro steps registers session hDriven
    obtain ⟨rfl, hHeap⟩ := hDriven.holds
    refine ⟨rfl, ?_⟩
    intro step drive
    have hDrives := drive_step hHeap step
    refine ⟨hDrives.restored, hDrives.same, ?_⟩
    intro top hMem
    refine ⟨(hDrives.top top hMem).2, ?_⟩
    intro path record hPath
    exact (hDrives.formed top hMem).accounted hPath

example : Eval.depthLimit = 128 := rfl

example :
    Eval.Cause.callDepth.message = "Stack overflow." := rfl

/- A record so far inside passes the test. -/
def holdsAt (test : Record → Bool) : Nat → Record → Bool
  | 0, record => test record
  | depth + 1, record => record.inside.any (holdsAt test depth)

theorem path_of_holdsAt
    {test : Record → Bool}
    {depth : Nat}
    {top record : Record}
    {path : List Record}
    (hPath : Path top path record)
    (h : holdsAt test depth record = true) :
    ∃ path found, Path top path found ∧ test found = true := by
  induction depth generalizing path record with
  | zero => exact ⟨path, record, hPath, h⟩
  | succ depth ih =>
    rcases List.any_eq_true.mp h with ⟨child, hMem, hChild⟩
    exact ih (hPath.inside hMem) hChild

/- What a test finds has been run inside of something. -/
theorem exists_path
    {records : List Record}
    {test : Record → Bool}
    (depth : Nat)
    (h : records.any (holdsAt test depth) = true) :
    ∃ top ∈ records, ∃ path record,
      Path top path record ∧ test record = true := by
  rcases List.any_eq_true.mp h with ⟨top, hMem, hTop⟩
  exact ⟨top, hMem, path_of_holdsAt .top hTop⟩

/-
  A fault in a block in a call, and then a statement.  The
  body is entered from the top, and what is run in it has a
  frame of its own, one call deeper.
-/
theorem registers_restored_after_fault :
    let session := Session.start {} .proceed
    let step :=
      Step.run 30 "fn f() { { print x; } } f(); print 2;" "x"
    let drive := session.drive .top step
    Driven [] .top session ∧
      drive.records.length = 3 ∧
        (∃ top ∈ drive.records, ∃ path body,
          Path top path body ∧
            body.isEntered = true ∧
              body.start = .top ∧
                body.inside.map Record.start = [⟨1, 1⟩]) ∧
          ∀ top ∈ drive.records,
            top.start = .top ∧
              ∀ path record, Path top path record →
                Accounted path record := by
  intro session step drive
  have hDriven : Driven [] .top session := .start {} .proceed
  have hLength : drive.records.length = 3 := by
    decide +kernel
  have hFound :
      drive.records.any
        (holdsAt
          (fun record => record.isEntered &&
            decide (record.start = .top ∧
              record.inside.map Record.start = [⟨1, 1⟩]))
          2) = true := by
    decide +kernel
  rcases exists_path 2 hFound with
    ⟨top, hMem, path, body, hPath, hBody⟩
  rw [Bool.and_eq_true, decide_eq_true_eq] at hBody
  have hStep :=
    (registers_restored.2.2 [] .top session hDriven).2 step
  exact ⟨hDriven, hLength,
    ⟨top, hMem, path, body, hPath, hBody⟩, hStep.2.2⟩

end Session

------------------------------------------------------------
-- Signals inside of Records
------------------------------------------------------------

namespace Eval

/- A statement is executed inside of what it is written in. -/
def Record.WrittenIn : Record → Record → Prop
  | .executed stmt _ _ _, .executed around _ _ _ => stmt ∈ around.parts
  | .executed stmt _ _ _, .entered closure _ _ _ => stmt ∈ closure.function.body
  | .executed .., _ => False
  | _, _ => True

/-
  How control signals stay inside of what is run.  Only a
  statement in a loop of the same body breaks, and ends the
  innermost such loop.  Only a statement in a body returns,
  and ends the innermost such body.
-/
structure Confined (path : List Record) (record : Record) : Prop where
  written {around outer} : path = around :: outer → record.WrittenIn around
  broke : record.signal? = some .broke → BreaksLoop path record
  returned {value} : record.signal? = some (.returned value) → ReturnsFrom value path record
  top {stmt start inside flow} : path = [] →
      record = .executed stmt start inside (.done flow) → flow = .normal
  body {closure start inside flow} :
    record = .entered closure start inside (.done flow) → flow ≠ .broke
  breaks {keyword start inside ending} : record =
        .executed (.breakLoop keyword) start inside ending → ending = .done .broke
  returns {keyword value? start inside flow} : record =
        .executed (.returnValue keyword value?) start inside (.done flow) →
      ∃ value, flow = .returned value

/- There is something around a signal. -/
theorem not_breaksLoop_nil (record : Record) : ¬ BreaksLoop [] record := by
  rintro ⟨loop, outer, hReaches, _⟩
  cases hReaches

theorem not_returnsFrom_nil (value : Value) (record : Record) :
    ¬ ReturnsFrom value [] record := by
  rintro ⟨body, outer, _, _, _, _, _, hReaches, _⟩
  cases hReaches

theorem Formed.confined {top : Record} (h : Formed Function.Contained 0 top)
    (hTop : top.Grounded) {path : List Record} {record : Record}
    (hPath : Path top path record) : Confined path record where
  written := by
    rintro around outer rfl
    cases hPath with
    | inside hAround hMem =>
      cases record with
      | executed stmt =>
        cases h.at_path hAround with
        | evaluated _ hTried => exact not_executed_of_tried hTried hMem
        | executed _ hEnded => exact hEnded.handed.part hMem
        | entered _ _ _ hHanded => exact hHanded.part hMem
        | refused => cases hMem
      | _ => trivial
  broke := h.breaks_loop hTop hPath
  returned := h.returns_from hTop hPath
  top := by
    rintro stmt start inside flow rfl rfl
    cases flow with
    | normal => rfl
    | broke => exact absurd (h.breaks_loop hTop hPath rfl) (not_breaksLoop_nil _)
    | returned value => exact absurd (h.returns_from hTop hPath rfl) (not_returnsFrom_nil value _)
  body := by
    rintro closure start inside flow rfl rfl
    exact h.body_not_broke hPath rfl
  breaks := by
    rintro keyword start inside ending rfl
    cases h.at_path hPath with
    | executed _ hEnded => exact hEnded.answers
  returns := by
    rintro keyword value? start inside flow rfl
    cases h.at_path hPath with
    | executed _ hEnded => exact hEnded.answers

end Eval

namespace Session

open Eval (BreaksLoop Confined Path ReturnsFrom)

/-
  Control signals stay inside of their construct, in every
  step that any session may take.
-/
theorem signals_stay_inside
    {steps : List Step}
    {session : Session}
    (h : Reached steps session)
    (step : Step) :
    let drive := session.drive .top step
    drive.result = session.step step ∧
      ∀ top ∈ drive.records, ∀ path record,
        Path top path record → Confined path record := by
  intro drive
  have hDrives := drive_step h.driven.holds.2 step
  refine ⟨hDrives.same, ?_⟩
  intro top hMem path record hPath
  exact (hDrives.formed top hMem).confined
    (hDrives.top top hMem).1 hPath

/-
  A `break` in a branch in a loop, and a `return` after.  The
  one ends the loop, the other the body.
-/
theorem break_and_return_stay_inside :
    let session := Session.start {} .halt
    let step :=
      Step.run 30
        ("fn f() \x7b while (true) \x7b " ++
          "if (true) break; \x7d " ++
          "return 7; \x7d print f();")
        "loops"
    let drive := session.drive .top step
    let seven := Value.number 7
    Reached [] session ∧
      (∃ top ∈ drive.records, ∃ path record,
        Path top path record ∧
          record.signal? = some .broke ∧
            record.inside = [] ∧
              BreaksLoop path record) ∧
        (∃ top ∈ drive.records, ∃ path record,
          Path top path record ∧
            record.signal? = some (.returned seven) ∧
              ReturnsFrom seven path record) ∧
          ∀ top ∈ drive.records, ∀ path record,
            Path top path record → Confined path record := by
  intro session step drive seven
  have hReached : Reached [] session := .start {} .halt
  have hConfined := (signals_stay_inside hReached step).2
  have hBreak :
      drive.records.any
        (holdsAt
          (fun record => record.inside.isEmpty &&
            decide (record.signal? = some .broke))
          6) = true := by
    decide +kernel
  have hReturn :
      drive.records.any
        (holdsAt
          (fun record =>
            decide (record.signal? = some (.returned seven)))
          3) = true := by
    decide +kernel
  refine ⟨hReached, ?_, ?_, hConfined⟩
  · rcases exists_path 6 hBreak with
      ⟨top, hMem, path, record, hPath, hTest⟩
    rw [Bool.and_eq_true, List.isEmpty_iff,
      decide_eq_true_eq] at hTest
    exact ⟨top, hMem, path, record, hPath, hTest.2, hTest.1,
      (hConfined top hMem path record hPath).broke hTest.2⟩
  · rcases exists_path 3 hReturn with
      ⟨top, hMem, path, record, hPath, hTest⟩
    rw [decide_eq_true_eq] at hTest
    exact ⟨top, hMem, path, record, hPath, hTest,
      (hConfined top hMem path record hPath).returned hTest⟩

end Session

end Scriptlet
