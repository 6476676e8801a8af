import Scriptlet.Proofs.Session.Alike
import Scriptlet.Proofs.Session.Scopes

/-
  Sources that are rejected leave no trace.

  Key declarations include:
    * `Likeness.ahead`
    * `Session.Ahead`
    * `Session.View`
    * `Session.transcript`
    * `Session.Rejects`

  A rejected source may use up node numbers, so what comes
  after it is numbered later.  Sessions that differ by node
  numbers show the same in every step:
    * `Session.transcript_after_rejected`
-/

namespace Scriptlet

/- Numbers from `n` on stand for those `k` later. -/
def Likeness.ahead (n k : Nat) : Likeness :=
  { Likeness.anyNumbers with node := fun id id' => id' = if id < n then id else id + k }

/- Different numbers stand for different numbers. -/
theorem Likeness.ahead_inj {n k id id' other other' : Nat}
    (h : (Likeness.ahead n k).node id id')
    (hOther : (Likeness.ahead n k).node other other') : id' = other' ↔ id = other := by
  simp only [Likeness.ahead] at h hOther
  split at h <;> split at hOther <;> omega

/- Faults at the same token are the same. -/
theorem Likeness.fault_ahead {n k : Nat} {fault fault' : Eval.Fault}
    (h : Eval.Fault.Alike (.ahead n k) fault fault') : fault' = fault := by
  cases h with
  | atToken cause hToken => rw [(hToken : _ = _)]

namespace Session

theorem steady_equal (n k : Nat) : Steady (.ahead n k) Eq where
  node := Likeness.ahead_inj
  fault h hFault := by rw [h, Likeness.fault_ahead hFault]
  static h _ := by rw [h]
  take h := by rw [h]
  reset h := by rw [h]
  hadError h := by rw [h]
  hadRuntimeError h := by rw [h]

/-
  The same reports; or nothing is reported yet, and the
  latest texts are older ones.
-/
def Caught (a b : Option String) (report report' : Report) : Prop :=
  report' = report ∨ report = { latest := a } ∧ report' = { latest := b }

theorem Caught.pending {a b : Option String} {report report' : Report}
    (h : Caught a b report report') : report'.pending = report.pending := by
  rcases h with rfl | ⟨rfl, rfl⟩ <;> rfl

theorem steady_caught (n k : Nat) (a b : Option String) :
    Steady (.ahead n k) (Caught a b) where
  node := Likeness.ahead_inj
  fault h hFault := by
    rw [Likeness.fault_ahead hFault]
    rcases h with rfl | ⟨rfl, rfl⟩ <;> exact .inl rfl
  static h _ := by rcases h with rfl | ⟨rfl, rfl⟩ <;> exact .inl rfl
  take h := by
    rcases h with rfl | ⟨rfl, rfl⟩
    · exact .inl rfl
    · exact .inr ⟨rfl, rfl⟩
  reset h := by
    rcases h with rfl | ⟨rfl, rfl⟩
    · exact .inl rfl
    · exact .inr ⟨rfl, rfl⟩
  hadError h := by rcases h with rfl | ⟨rfl, rfl⟩ <;> rfl
  hadRuntimeError h := by rcases h with rfl | ⟨rfl, rfl⟩ <;> rfl

/-
  The second session is the first one with numbers from `n`
  on later by `k`.
-/
structure Ahead (n k : Nat) (Q : Report → Report → Prop) (session session' : Session) : Prop
    extends Alike (.ahead n k) Q k session session' where
  least : n ≤ session.nextId

variable {n k : Nat} {session session' : Session}

/- Sessions that differ in numbers answer the same. -/
theorem Ahead.step {Q : Report → Report → Prop} (hSteady : Steady (.ahead n k) Q)
    (hPending : ∀ {report report'}, Q report report' → report'.pending = report.pending)
    (h : Ahead n k Q session session') (step : Step) :
    Eval.Agree (fun result result' => result'.1 = result.1 ∧ Ahead n k Q result.2 result'.2)
      (session.step step) (session'.step step) := by
  have hAdmits : Admits (.ahead n k) k session step := by
    refine ⟨fun _ _ => rfl, fun id hFrom _ => ?_⟩
    exact (if_neg (Nat.not_lt.mpr (Nat.le_trans h.least hFrom))).symm
  rcases (step_alike hSteady h.toAlike hAdmits).ends with
    ⟨⟨answer, next⟩, ⟨answer', next'⟩, hOk, hOk', hAnswer, hNext⟩ | ⟨reason, hStop, hStop'⟩
  · rw [hOk, hOk']
    have hLeast : session.nextId ≤ next.nextId := by
      rw [step_nextId hOk]
      exact session.le_lastId step
    refine .ok ⟨?_, hNext, Nat.le_trans h.least hLeast⟩
    cases hAnswer with
    | status
    | value
    | nothing => rfl
    | errors hReport => exact congrArg Answer.errors (hPending hReport)
  · rw [hStop, hStop']
    exact .error reason

/- What can be seen of a session after a step. -/
structure View where
  answer : Answer
  host : Host
  report : Report

/-
  What is seen after each step, and why the steps were
  broken off if they were.
-/
def transcript (session : Session) :
    List Step → List View × Option Eval.Stop
  | [] => ([], none)
  | first :: others =>
    match session.step first with
    | .ok (answer, next) =>
      let rest := next.transcript others
      (⟨answer, next.world.host, next.report⟩ :: rest.1, rest.2)
    | .error reason => ([], some reason)

/-
  Views before the first report: nothing differs but the
  latest texts, which are older ones.
-/
structure View.Silent (a b : Option String) (view view' : View) : Prop where
  answer : view'.answer = view.answer
  host : view'.host = view.host
  before : view.report = { latest := a }
  after : view'.report = { latest := b }

/- With equal reports everything seen is the same. -/
theorem transcript_ahead (later : List Step) (h : Ahead n k Eq session session') :
    session'.transcript later = session.transcript later := by
  induction later generalizing session session' with
  | nil => rfl
  | cons first others ih =>
    unfold transcript
    rcases (h.step (steady_equal n k) (fun hSame => by rw [hSame])
        first).ends with
      ⟨⟨answer, next⟩, ⟨answer', next'⟩, hOk, hOk', hSame, hNext⟩ |
      ⟨reason, hStop, hStop'⟩
    · simp only [hOk, hOk']
      obtain rfl : answer' = answer := hSame
      rw [ih hNext, hNext.world.host, ← hNext.report]
    · simp only [hStop, hStop']

/-
  Up to the first report only the latest texts differ, and
  nothing from then on.
-/
theorem transcript_caught {a b : Option String} (later : List Step)
    (h : Ahead n k (Caught a b) session session') :
    ∃ silent silent' told stop?, session.transcript later = (silent ++ told, stop?) ∧
        session'.transcript later = (silent' ++ told, stop?) ∧
        List.Forall₂ (View.Silent a b) silent silent' := by
  induction later generalizing session session' with
  | nil => exact ⟨[], [], [], none, rfl, rfl, .nil⟩
  | cons first others ih =>
    unfold transcript
    rcases (h.step (steady_caught n k a b) Caught.pending
        first).ends with
      ⟨⟨answer, next⟩, ⟨answer', next'⟩, hOk, hOk', hSame, hNext⟩ |
      ⟨reason, hStop, hStop'⟩
    · simp only [hOk, hOk']
      obtain rfl : answer' = answer := hSame
      rcases hNext.report with hReport | ⟨hBefore, hAfter⟩
      · -- the first report was made, or none is needed
        have hEqual : Ahead n k Eq next next' := { hNext with report := hReport.symm }
        rw [transcript_ahead others hEqual, hNext.world.host, hReport]
        exact ⟨[], [], _, _, rfl, rfl, .nil⟩
      · rcases ih hNext with ⟨silent, silent', told, stop?, hLeft, hRight, hSilent⟩
        rw [hLeft, hRight]
        refine ⟨_ :: silent, _ :: silent', told, stop?, rfl,
          rfl, .cons ?_ hSilent⟩
        exact ⟨rfl, hNext.world.host, hBefore, hAfter⟩
    · simp only [hStop, hStop']
      exact ⟨[], [], [], some reason, rfl, rfl, .nil⟩

/- A source was submitted and rejected before it could run. -/
inductive Rejects (session next : Session) : Prop where
  | run {fuel : Nat} {source file : String} : session.run fuel source file =
        .ok (.staticError, next) → Rejects session next
  | evaluate {fuel : Nat} {source file : String} :
      session.evaluate fuel source file = .ok (none, next) →
      next.report.hadError = true → Rejects session next

/- What was run was not rejected. -/
theorem runStatus_ne (session : Session) : session.runStatus ≠ .staticError := by
  unfold runStatus
  split
  · exact Status.noConfusion
  · exact Status.noConfusion

/- Nothing is accepted while a fault is pending. -/
theorem hadError_of_accepted {hadError : Bool} {source file : String}
    {accepted : Expr × List (Nat × Nat)}
    (h : (judgeExpression hadError n source file).accepted = some accepted) : hadError = false := by
  cases hadError with
  | false => rfl
  | true => cases h

/- Only reports and node numbers come from it. -/
theorem Rejects.judged {next : Session} (h : Rejects session next) :
    ∃ report nextId, session.nextId ≤ nextId ∧
      next = { session with report := report, nextId := nextId } := by
  cases h with
  | @run fuel source file hRun =>
    rw [run_eq] at hRun
    dsimp only at hRun
    split at hRun
    · cases hRun
      exact ⟨_, _, (judge_fair ..).le, rfl⟩
    · split at hRun
      · rename_i last hLast
        have hBoth := Prod.mk.inj (Except.ok.inj hRun)
        exact absurd hBoth.1 last.runStatus_ne
      · cases hRun
  | @evaluate fuel source file hRun hError =>
    rw [evaluate_eq] at hRun
    dsimp only at hRun
    split at hRun
    · cases hRun
      exact ⟨_, _, (judgeExpression_fair ..).le, rfl⟩
    · -- what was accepted fails in a run only
      rename_i accepted hAccepted
      have hClear := hadError_of_accepted hAccepted
      have hNone := ((judgeExpression_fair ..).good hAccepted).1
      rw [hClear] at hNone
      split at hRun
      · cases hRun
      · cases hRun
        simp [reporting, Session.extended, Session.judged, hNone, Report.addAll, Report.add, hClear,
          Eval.Fault.diagnostic, Diagnostic.isRuntime] at hError
      · cases hRun

/-
  A source that is rejected leaves no trace.  Whatever steps
  follow a reset, each answers as if the source had not been
  submitted, with the same printed lines, pending faults and
  flags; only the text of the latest fault may be another
  one, until the next fault is reported.
-/
theorem transcript_after_rejected
    {steps : List Step}
    {session next : Session}
    (hReached : Reached steps session)
    (hRejects : Rejects session next)
    (later : List Step) :
    ∃ silent silent' told stop?,
      session.transcript (.resetErrors :: later) =
          (silent ++ told, stop?) ∧
        next.transcript (.resetErrors :: later) =
          (silent' ++ told, stop?) ∧
        List.Forall₂
          (View.Silent session.report.latest
            next.report.latest)
          silent silent' := by
  rcases hRejects.judged with ⟨report, nextId, hLe, rfl⟩
  rcases hReached.logged with ⟨sites, history, hLogged⟩
  have hUnused := hLogged.scoped.unused
  have hWorld : Eval.World.Alike
      (.ahead session.nextId (nextId - session.nextId))
      session.world session.world := by
    apply hReached.owns.world.mono
    constructor
    · rintro token _ ⟨rfl, _⟩
      rfl
    · rintro id _ ⟨rfl, hBound⟩
      exact (if_pos hBound).symm
  have hDistances : ∀ {id id'},
      (Likeness.ahead session.nextId
          (nextId - session.nextId)).node id id' →
        session.distances[id']? = session.distances[id]? := by
    intro id id' hNode
    simp only [Likeness.ahead] at hNode
    split at hNode
    · rw [hNode]
    · rw [hUnused id (by omega), hUnused id' (by omega)]
  have hAhead : Ahead session.nextId
      (nextId - session.nextId)
      (Caught session.report.latest report.latest)
      session.resetErrors
      ({ session with report := report, nextId := nextId } :
        Session).resetErrors :=
    ⟨⟨hWorld, hDistances, .inr ⟨rfl, rfl⟩,
      (by
        simp only [resetErrors]
        omega),
      rfl⟩, Nat.le_refl _⟩
  rcases transcript_caught later hAhead with
    ⟨silent, silent', told, stop?, hLeft, hRight, hSilent⟩
  refine ⟨⟨.nothing, session.world.host,
      session.report.reset⟩ :: silent,
    ⟨.nothing, session.world.host, report.reset⟩ :: silent',
    told, stop?, ?_, ?_, .cons ?_ hSilent⟩
  · simp only [transcript, Session.step, hLeft]
    rfl
  · simp only [transcript, Session.step, hRight]
    rfl
  · exact ⟨rfl, rfl, rfl, rfl⟩

/-
  A text whose first statement uses up a node number and
  whose second one has no name.  The names of what follows
  are numbered one later.
-/
theorem transcript_after_missing_name :
    let session := Session.start {} .halt
    let later : List Step :=
      [.run 9 "let y = 1; print y;" "later",
        .evaluate 9 "x" "later"]
    ∃ next, Rejects session next ∧
      next.nextId = session.nextId + 1 ∧
      ∃ silent silent' told stop?,
        session.transcript (.resetErrors :: later) =
            (silent ++ told, stop?) ∧
          next.transcript (.resetErrors :: later) =
            (silent' ++ told, stop?) ∧
          List.Forall₂
            (View.Silent none next.report.latest) silent
            silent' := by
  intro session later
  have hRejected :
      (judge false 0 "x; let = 1;" "first").accepted =
        none := by
    decide +kernel
  have hNumber :
      (judge false 0 "x; let = 1;" "first").nextId = 1 := by
    decide +kernel
  have hRun :
      session.run 9 "x; let = 1;" "first" =
        .ok (.staticError, session.judged
          (judge false 0 "x; let = 1;" "first")) := by
    simp only [run_eq, session, Session.start, hRejected]
  exact ⟨_, .run hRun, hNumber,
    transcript_after_rejected (.start {} .halt) (.run hRun)
      later⟩

end Session

end Scriptlet
