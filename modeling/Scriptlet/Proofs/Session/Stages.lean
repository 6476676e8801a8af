import Mathlib.Data.List.DropRight
import Scriptlet.Proofs.Session.Verdict

/-
  Which stages a source text gets through, and what the
  error flags of a session tell.

  Key declarations include:
    * `Session.Entry`
    * `Session.sinceReset`
    * `Session.sinceTaken`
    * `Session.checkedProgram`
    * `Session.checkedExpression`
    * `Session.Chronicle`

  A chronicle lists what was reported in a session, and when
  faults were taken or reset.  The facts about it are:
    * `Session.Chronicle.told`
    * `Session.programGated`
    * `Session.expressionGated`
    * `Session.stages_gated_and_flags_told`
-/

namespace Scriptlet

namespace Report

/- How a program ended, by the flags. -/
def status (report : Report) : Status :=
  if report.hadError then .staticError
  else if report.hadRuntimeError then .runtimeError
  else .ok

end Report

namespace Eval

/- The faults that running statements raises. -/
def raised (fuel : Nat) (policy : Policy) (ctx : Context) :
    List Stmt → World → List Fault
  | [], _ => []
  | first :: others, world =>
    match execute fuel ctx first world with
    | .done _ world => raised fuel policy ctx others world
    | .failed fault world =>
      fault ::
        match policy with
        | .halt => []
        | .proceed => raised fuel policy ctx others world
    | .stopped _ => []

theorem interpret_report {fuel : Nat} {policy : Policy} {ctx : Context}
    {body : List Stmt} {world world' : World} {report report' : Report}
    (h : interpret fuel policy ctx body world report = .ok (world', report')) :
    report' = report.addAll ((raised fuel policy ctx body world).map Fault.diagnostic) := by
  induction body generalizing world report with
  | nil =>
    cases h
    rfl
  | cons first others ih =>
    unfold interpret at h
    unfold raised
    cases hFirst : execute fuel ctx first world with
    | done flow next =>
      simp only [hFirst] at h ⊢
      exact ih h
    | failed fault next =>
      simp only [hFirst] at h ⊢
      cases policy with
      | halt =>
        cases h
        rfl
      | proceed => exact ih h
    | stopped reason =>
      simp only [hFirst] at h
      cases h

end Eval

namespace Session

open Grammar (Parsed parseProgram parseExpression parseExpression_derives)
open Scope (resolveProgram resolveExpression)

/- What happens to the faults of a session. -/
inductive Entry where
  | reported (fault : Diagnostic)
  | taken
  | reset
  deriving DecidableEq, Repr

def Entry.fault? : Entry → Option Diagnostic
  | .reported fault => some fault
  | _ => none

def Entry.isReset : Entry → Bool
  | .reset => true
  | _ => false

def Entry.isReported : Entry → Bool
  | .reported _ => true
  | _ => false

/- The faults reported since the last reset. -/
def sinceReset (entries : List Entry) : List Diagnostic :=
  (entries.rtakeWhile (!·.isReset)).filterMap Entry.fault?

/- Those since the last reset or taking. -/
def sinceTaken (entries : List Entry) : List Diagnostic :=
  (entries.rtakeWhile Entry.isReported).filterMap Entry.fault?

/- Was a fault found before a run since the last reset? -/
def pendingIn (entries : List Entry) : Bool := (sinceReset entries).any Diagnostic.isStatic

/- What is reported last is among the latest faults. -/
theorem latest_reported (p : Entry → Bool) (hp : ∀ fault, p (.reported fault) = true)
    (entries : List Entry) (faults : List Diagnostic) :
    ((entries ++ faults.map Entry.reported).rtakeWhile p).filterMap Entry.fault? =
      (entries.rtakeWhile p).filterMap Entry.fault? ++ faults := by
  induction faults using List.reverseRecOn with
  | nil => simp
  | append_singleton others fault ih =>
    rw [List.map_append, List.map_singleton, ← List.append_assoc,
      List.rtakeWhile_concat_pos _ _ _ (hp fault), List.filterMap_append, ih]
    simp [Entry.fault?]

section

variable (entries : List Entry)

include entries

theorem sinceReset_reported (faults : List Diagnostic) :
    sinceReset (entries ++ faults.map .reported) = sinceReset entries ++ faults :=
  latest_reported (!·.isReset) (fun _ => rfl) entries faults

theorem sinceTaken_reported (faults : List Diagnostic) :
    sinceTaken (entries ++ faults.map .reported) = sinceTaken entries ++ faults :=
  latest_reported Entry.isReported (fun _ => rfl) entries faults

theorem sinceReset_taken :
    sinceReset (entries ++ [.taken]) =
      sinceReset entries := by
  simp [sinceReset, Entry.isReset, Entry.fault?]

theorem sinceTaken_taken : sinceTaken (entries ++ [.taken]) = [] := by
  simp [sinceTaken, Entry.isReported]

theorem sinceReset_reset : sinceReset (entries ++ [.reset]) = [] := by
  simp [sinceReset, Entry.isReset]

theorem sinceTaken_reset : sinceTaken (entries ++ [.reset]) = [] := by
  simp [sinceTaken, Entry.isReported]

end

/-
  The faults of stages that follow one another.  The next
  stage is reached only while no fault is pending.
-/
def stageFaults (pending : Bool) :
    List (List Diagnostic) → List Diagnostic
  | [] => []
  | faults :: later =>
    if pending || !faults.isEmpty then faults
    else stageFaults false later

/- The statements parsed from a source text. -/
def parsedProgram (session : Session) (source file : String) : Parsed (List Stmt) :=
  parseProgram (Token.tokens (Token.scan source file)) session.nextId

/- The expression parsed from a source text. -/
def parsedExpression (session : Session) (source file : String) : Parsed (Option Expr) :=
  parseExpression (Token.tokens (Token.scan source file)) session.nextId

/- What the stages report of a program. -/
def programFaults (session : Session) (pending : Bool) (source file : String) :
    List Diagnostic :=
  let parsed := session.parsedProgram source file
  stageFaults pending
    [lexical source file, grammatical parsed, scoping (resolveProgram parsed.value)]

/-
  What the stages report of an expression.  A tree is
  resolved even if faults were found in parsing it.
-/
def expressionFaults (session : Session) (pending : Bool)
    (source file : String) : List Diagnostic :=
  let parsed := session.parsedExpression source file
  stageFaults pending
    [lexical source file, grammatical parsed ++
        match parsed.value with
        | none => []
        | some expr => scoping (resolveExpression expr)]

/- The last stage keeps nothing back. -/
theorem stageFaults_last (pending : Bool) (faults : List Diagnostic) :
    stageFaults pending [faults] = faults := by
  cases pending <;> cases faults <;> rfl

theorem stageFaults_static (pending : Bool) {stages : List (List Diagnostic)}
    (h : ∀ faults ∈ stages, ∀ fault ∈ faults, fault.isStatic = true) :
    ∀ fault ∈ stageFaults pending stages, fault.isStatic = true := by
  induction stages generalizing pending with
  | nil => simp [stageFaults]
  | cons faults later ih =>
    unfold stageFaults
    split
    · exact h faults (List.mem_cons_self ..)
    · exact ih false fun others hMem => h others (List.mem_cons_of_mem _ hMem)

variable {faults : List Diagnostic}

theorem clear_of_not {pending : Bool}
    (h : ¬(pending || !faults.isEmpty) = true) : pending = false ∧ faults = [] := by
  simpa using h

/- The error flag is what keeps later stages back. -/
theorem addAll_stageFaults (report : Report)
    (later : List (List Diagnostic)) (hStatic : ∀ fault ∈ faults, fault.isStatic = true) :
    report.addAll (stageFaults report.hadError (faults :: later)) =
      let next := report.addAll faults
      if next.hadError then next
      else next.addAll (stageFaults next.hadError later) := by
  simp only [stageFaults, report.hadError_addAll_static hStatic]
  split
  · rfl
  · rename_i hClear
    rcases clear_of_not hClear with ⟨hPending, hNone⟩
    rw [hPending, hNone]
    rfl

/-
  The session after a program was scanned, and then parsed
  and resolved as far as no fault was pending.
-/
def checkedProgram (session : Session) (source file : String) : Session :=
  let (tokens, scanned) := session.scan source file
  if scanned.report.hadError then scanned
  else
    let (body, parsed) := scanned.parsed (parseProgram tokens scanned.nextId)
    if parsed.report.hadError then parsed
    else parsed.resolved (resolveProgram body)

/- The session after the stages of an expression. -/
def checkedExpression (session : Session) (source file : String) : Session :=
  let (tokens, scanned) := session.scan source file
  if scanned.report.hadError then scanned
  else
    let (expr?, parsed) := scanned.parsed (parseExpression tokens scanned.nextId)
    match expr? with
    | none => parsed
    | some expr => parsed.resolved (resolveExpression expr)

variable (session : Session) (source file : String)

theorem checkedProgram_report :
    (session.checkedProgram source file).report = session.report.addAll
        (session.programFaults session.report.hadError source file) := by
  unfold programFaults
  rw [addAll_stageFaults _ _ (lexical_static source file)]
  unfold checkedProgram
  dsimp only
  split
  · rename_i hError
    exact (if_pos hError).symm
  · rename_i hClear
    refine Eq.trans ?_ (if_neg hClear).symm
    rw [addAll_stageFaults _ _ (grammatical_static _)]
    split
    · rename_i hError
      exact (if_pos hError).symm
    · rename_i hClear
      refine Eq.trans ?_ (if_neg hClear).symm
      rw [stageFaults_last]
      rfl

theorem checkedExpression_report :
    (session.checkedExpression source file).report = session.report.addAll
        (session.expressionFaults session.report.hadError source file) := by
  unfold expressionFaults
  rw [addAll_stageFaults _ _ (lexical_static source file)]
  unfold checkedExpression
  dsimp only
  split
  · rename_i hError
    exact (if_pos hError).symm
  · rename_i hClear
    refine Eq.trans ?_ (if_neg hClear).symm
    rw [stageFaults_last, Report.addAll_append]
    split
    · rename_i hValue
      have hNone : (session.parsedExpression source file).value = none := hValue
      rw [hNone]
      rfl
    · rename_i hValue
      have hSome : (session.parsedExpression source file).value =
            some _ := hValue
      rw [hSome]
      rfl

theorem programFaults_static (pending : Bool) :
    ∀ fault ∈ session.programFaults pending source file, fault.isStatic = true := by
  apply stageFaults_static
  simp only [List.forall_mem_cons]
  exact ⟨lexical_static source file, grammatical_static _, scoping_static _, List.forall_mem_nil _⟩

theorem expressionFaults_static (pending : Bool) :
    ∀ fault ∈ session.expressionFaults pending source file, fault.isStatic = true := by
  apply stageFaults_static
  simp only [List.forall_mem_cons]
  refine ⟨lexical_static source file, ?_, List.forall_mem_nil _⟩
  cases (session.parsedExpression source file).value with
  | none => simpa using grammatical_static _
  | some expr => exact found_static _ _

/- Only reports and node numbers come from the stages. -/
theorem checkedProgram_keeps :
    let checked := session.checkedProgram source file
    checked.world = session.world ∧ checked.distances = session.distances ∧
        checked.policy = session.policy := by
  unfold checkedProgram
  dsimp only
  split
  · exact ⟨rfl, rfl, rfl⟩
  · split <;> exact ⟨rfl, rfl, rfl⟩

theorem checkedExpression_keeps :
    let checked := session.checkedExpression source file
    checked.world = session.world ∧ checked.distances = session.distances ∧
        checked.policy = session.policy := by
  unfold checkedExpression
  dsimp only
  split
  · exact ⟨rfl, rfl, rfl⟩
  · split <;> exact ⟨rfl, rfl, rfl⟩

/- No tree without a fault. -/
theorem parsedExpression_none (h : (session.parsedExpression source file).value = none) :
    grammatical (session.parsedExpression source file) ≠ [] := by
  intro hFaults
  have hFaults := List.map_eq_nil_iff.mp hFaults
  unfold parsedExpression at h hFaults
  rw [Token.tokens_scan] at h hFaults
  have hKinds := Token.kind_body source file
  rcases parseExpression_derives rfl hKinds session.nextId hFaults with ⟨expr, n, hDerives⟩
  rw [hDerives.parseExpression_eq rfl hKinds] at h
  cases h

/- So one that leaves the flag down has a tree. -/
theorem checkedExpression_some
    (h : (session.checkedExpression source file).report.hadError = false) :
    ∃ expr, (session.parsedExpression source file).value =
        some expr := by
  rw [checkedExpression_report, Report.hadError_addAll_static _
      (session.expressionFaults_static source file _)] at h
  rcases clear_of_not (Bool.not_eq_true _ |>.mpr h) with ⟨hPending, hNone⟩
  cases hValue : (session.parsedExpression source file).value with
  | some expr => exact ⟨expr, rfl⟩
  | none =>
    have hFaults := session.parsedExpression_none source file hValue
    rw [hPending, expressionFaults, hValue] at hNone
    unfold stageFaults at hNone
    split at hNone
    · rename_i hLexical
      simp [hNone] at hLexical
    · rw [stageFaults_last, List.append_nil] at hNone
      exact absurd hNone hFaults

/- Run a program that got through the stages. -/
def executeProgram (session : Session) (fuel : Nat)
    (body : List Stmt) : Except Eval.Stop (Status × Session) :=
  let ready := session.linked (resolveProgram body)
  match ready.interpret fuel body with
  | .ok next => .ok (next.report.status, next)
  | .error reason => .error reason

/- Evaluate an expression that got through them. -/
def executeExpression (session : Session) (fuel : Nat) (expr : Expr) :
    Except Eval.Stop (Option Value × Session) :=
  let ready := session.linked (resolveExpression expr)
  match Eval.evaluate fuel ready.context expr ready.world with
  | .done value world => .ok (some value, { ready with world := world })
  | .failed fault world =>
    .ok
      (none,
        { ready.reporting [fault.diagnostic] with
          world := world })
  | .stopped reason => .error reason

variable {next : Session}

theorem interpret_adds {session : Session} {fuel : Nat} {body : List Stmt}
    (h : session.interpret fuel body = .ok next) :
    next.report = session.report.addAll
        ((Eval.raised fuel session.policy session.context body
          session.world).map Eval.Fault.diagnostic) := by
  unfold Session.interpret at h
  split at h
  · rename_i world report hRun
    cases h
    exact Eval.interpret_report hRun
  · cases h

/- A run finds no fault that a stage would find. -/
theorem executeProgram_eq {session : Session} {fuel : Nat} {body : List Stmt}
    (h : session.report.hadError = false) :
    session.executeProgram fuel body =
      match (session.linked (resolveProgram body)).interpret fuel body with
      | .ok next => .ok (next.runStatus, next)
      | .error reason => .error reason := by
  unfold executeProgram
  dsimp only
  split
  · rename_i next hRun
    have hFlag : next.report.hadError = false := by
      rw [interpret_adds hRun, (Report.addAll_flags ..).2.1]
      simp [linked, h, Eval.Fault.diagnostic, Diagnostic.isRuntime]
    simp [runStatus, Report.status, hFlag]
  · rfl

/- A program is executed unless its stages leave a fault. -/
theorem run_checked (fuel : Nat) :
    session.run fuel source file =
      let checked := session.checkedProgram source file
      let parsed := session.parsedProgram source file
      if checked.report.hadError then
        .ok (.staticError, checked)
      else checked.executeProgram fuel parsed.value := by
  unfold Session.run checkedProgram
  dsimp only
  split
  · rfl
  · split
    · rfl
    · split
      · rfl
      · rename_i hClear
        rw [Bool.not_eq_true] at hClear
        exact (executeProgram_eq hClear).symm

theorem evaluate_checked (fuel : Nat) :
    session.evaluate fuel source file =
      let checked := session.checkedExpression source file
      let parsed := session.parsedExpression source file
      if checked.report.hadError then .ok (none, checked)
      else
        match parsed.value with
        | none => .ok (none, checked)
        | some expr => checked.executeExpression fuel expr := by
  unfold Session.evaluate checkedExpression
  dsimp only
  split
  · rfl
  · have hParsed :
        ((session.scan source file).2.parsed
          (parseExpression (session.scan source file).1 (session.scan source file).2.nextId)).1 =
          (session.parsedExpression source file).value := rfl
    rw [hParsed]
    cases (session.parsedExpression source file).value with
    | none => exact (ite_self _).symm
    | some expr => rfl

------------------------------------------------------------
-- Reports of Steps
------------------------------------------------------------

/-
  What a step reports, where it is known whether a fault was
  pending: the faults of the stages, or those of the run.
-/
def reports (session : Session) (pending : Bool) : Step → List Diagnostic
  | .run fuel source file =>
    let body := (session.parsedProgram source file).value
    let faults := session.programFaults pending source file
    if pending || !faults.isEmpty then faults
    else
      let ready := session.linked (resolveProgram body)
      (Eval.raised fuel ready.policy ready.context body ready.world).map Eval.Fault.diagnostic
  | .evaluate fuel source file =>
    let faults := session.expressionFaults pending source file
    if pending || !faults.isEmpty then faults
    else
      match (session.parsedExpression source file).value with
      | none => []
      | some expr =>
        let ready := session.linked (resolveExpression expr)
        match Eval.evaluate fuel ready.context expr ready.world with
        | .failed fault _ => [fault.diagnostic]
        | _ => []
  | _ => []

variable {session} {source file} {fuel : Nat}

/- What stands in the report after a run. -/
theorem run_report {status : Status} (h : session.run fuel source file = .ok (status, next)) :
    next.report = session.report.addAll
        (session.reports session.report.hadError (.run fuel source file)) := by
  have hReport := session.checkedProgram_report source file
  have hFlag :=
    session.report.hadError_addAll_static
      (session.programFaults_static source file session.report.hadError)
  rcases session.checkedProgram_keeps source file with ⟨hWorld, hDistances, hPolicy⟩
  rw [run_checked] at h
  simp only [hReport, hFlag] at h
  simp only [reports]
  split at h
  · rename_i hError
    cases h
    rw [if_pos hError, hReport]
  · rename_i hClear
    have hNone := (clear_of_not hClear).2
    rw [if_neg hClear]
    simp only [executeProgram] at h
    split at h
    · rename_i last hRun
      cases h
      have hAdds := interpret_adds hRun
      simp only [linked, context, hWorld, hDistances, hPolicy, hReport, hNone] at hAdds
      exact hAdds
    · cases h

/-
  What stands in the report after an evaluation, which has a
  value unless a stage or the evaluation found a fault.
-/
theorem evaluate_report {value? : Option Value}
    (h : session.evaluate fuel source file = .ok (value?, next)) :
    let faults := session.reports session.report.hadError (.evaluate fuel source file)
    next.report = session.report.addAll faults ∧
      (value?.isSome = true ↔ next.report.hadError = false ∧
          ∀ fault ∈ faults, fault.isRuntime = false) := by
  have hReport := session.checkedExpression_report source file
  have hFlag :=
    session.report.hadError_addAll_static
      (session.expressionFaults_static source file session.report.hadError)
  rcases session.checkedExpression_keeps source file with ⟨hWorld, hDistances, hPolicy⟩
  rw [evaluate_checked] at h
  dsimp only at h
  split at h
  · rename_i hError
    cases h
    rw [hReport, hFlag] at hError
    simp only [reports]
    rw [if_pos hError]
    exact ⟨hReport, by simp [hReport, hFlag, hError]⟩
  · rename_i hClear
    rw [Bool.not_eq_true] at hClear
    rcases session.checkedExpression_some source file hClear with ⟨expr, hValue⟩
    rw [hReport, hFlag] at hClear
    have hNone := (clear_of_not (Bool.not_eq_true _ |>.mpr hClear)).2
    simp only [reports, hClear]
    simp only [hValue, executeExpression, linked, context, hWorld, hDistances] at h ⊢
    cases hRun : Eval.evaluate fuel (.top (session.distances.extend (resolveExpression expr).found))
          expr session.world with
    | done value world =>
      simp only [hRun] at h ⊢
      cases h
      refine ⟨hReport.trans (by rw [hNone]; rfl), ?_⟩
      simp [hReport, hFlag, hClear]
    | failed fault world =>
      simp only [hRun] at h ⊢
      cases h
      refine ⟨?_, by simp [Eval.Fault.diagnostic, Diagnostic.isRuntime]⟩
      simp only [reporting, hReport, hNone]
      rfl
    | stopped reason =>
      simp only [hRun] at h
      cases h

/- What a step adds to the chronicle. -/
def entries (session : Session) (pending : Bool) (step : Step) : List Entry :=
  match step with
  | .resetErrors => [.reset]
  | .takeErrors => [.taken]
  | _ => (session.reports pending step).map .reported

/- The chronicle of the steps that lead to a session. -/
inductive Chronicle : List Step → List Entry → Session → Prop where
  | start (host : Host) (policy : Eval.Policy) : Chronicle [] [] (.start host policy)
  | next {steps chronicle session step answer next} : Chronicle steps chronicle session →
      session.step step = .ok (answer, next) → Chronicle (steps ++ [step])
        (chronicle ++ session.entries (pendingIn chronicle) step)
        next

theorem Reached.chronicle {steps : List Step} {session : Session} (h : Reached steps session) :
    ∃ chronicle, Chronicle steps chronicle session := by
  induction h with
  | start host policy => exact ⟨_, .start host policy⟩
  | next _ hStep ih =>
    rcases ih with ⟨chronicle, hChronicle⟩
    exact ⟨_, .next hChronicle hStep⟩

/- A report tells what the chronicle tells. -/
structure Told (chronicle : List Entry) (report : Report) : Prop where
  hadError : report.hadError = pendingIn chronicle
  hadRuntimeError : report.hadRuntimeError = (sinceReset chronicle).any Diagnostic.isRuntime
  pending : report.pending = sinceTaken chronicle

/- Faults of stages and runs; no script is loaded. -/
def Submitted (fault : Diagnostic) : Prop := (!fault.isRuntime) = fault.isStatic

theorem submitted_static {fault : Diagnostic} (h : fault.isStatic = true) :
    Submitted fault := by
  rw [Submitted, h, Diagnostic.isRuntime_of_isStatic h]
  rfl

variable {chronicle : List Entry}

theorem Told.reported {report : Report} (h : Told chronicle report)
    (hFaults : ∀ fault ∈ faults, Submitted fault) :
    Told (chronicle ++ faults.map .reported) (report.addAll faults) where
  hadError := by
    have hStatic : faults.any (!·.isRuntime) = faults.any Diagnostic.isStatic := by
      rw [Bool.eq_iff_iff, List.any_eq_true, List.any_eq_true]
      exact exists_congr fun fault => and_congr_right fun hMem => by rw [hFaults fault hMem]
    rw [(report.addAll_flags _).2.1, h.hadError, pendingIn,
      pendingIn, sinceReset_reported, List.any_append, hStatic]
  hadRuntimeError := by
    rw [(report.addAll_flags _).2.2, h.hadRuntimeError, sinceReset_reported, List.any_append]
  pending := by rw [(report.addAll_flags _).1, h.pending, sinceTaken_reported]

theorem submitted_reports (session : Session) (pending : Bool) (step : Step) :
    ∀ fault ∈ session.reports pending step, Submitted fault := by
  cases step with
  | run fuel source file =>
    simp only [reports]
    split
    · exact fun fault hMem => submitted_static (session.programFaults_static _ _ _ fault hMem)
    · rintro fault hMem
      rcases List.mem_map.mp hMem with ⟨cause, _, rfl⟩
      rfl
  | evaluate fuel source file =>
    simp only [reports]
    split
    · exact fun fault hMem => submitted_static (session.expressionFaults_static _ _ _ fault hMem)
    · split
      · exact nofun
      · split
        · rintro fault hMem
          cases List.mem_singleton.mp hMem
          rfl
        · exact nofun
  | _ => exact nofun

/- One step keeps the report in line with the chronicle. -/
theorem Told.step {session : Session}
    {step : Step} {answer : Answer} (h : Told chronicle session.report)
    (hStep : session.step step = .ok (answer, next)) :
    Told (chronicle ++ session.entries (pendingIn chronicle) step) next.report := by
  have hReports := h.reported (session.submitted_reports (pendingIn chronicle) step)
  rw [← h.hadError] at hReports ⊢
  cases step with
  | run fuel source file =>
    simp only [Session.step] at hStep
    split at hStep
    · rename_i status last hRun
      cases hStep
      rw [run_report hRun]
      exact hReports
    · cases hStep
  | evaluate fuel source file =>
    simp only [Session.step] at hStep
    split at hStep
    · rename_i value? last hRun
      cases hStep
      rw [(evaluate_report hRun).1]
      exact hReports
    · cases hStep
  | resetErrors =>
    cases hStep
    constructor
    · simp [entries, pendingIn, sinceReset_reset, resetErrors, Report.reset]
    · simp [entries, sinceReset_reset, resetErrors, Report.reset]
    · simp [entries, sinceTaken_reset, resetErrors, Report.reset]
  | takeErrors =>
    cases hStep
    constructor
    · rw [entries, pendingIn, sinceReset_taken]
      exact h.hadError
    · rw [entries, sinceReset_taken]
      exact h.hadRuntimeError
    · rw [entries, sinceTaken_taken]
  | withHost host =>
    cases hStep
    exact hReports

theorem Chronicle.told {steps : List Step}
    {session : Session} (h : Chronicle steps chronicle session) :
    Told chronicle session.report := by
  induction h with
  | start host policy => exact ⟨rfl, rfl, rfl⟩
  | next _ hStep ih => exact ih.step hStep

/-
  How a program gets through the stages.  They leave alone
  what it would work on; it is executed if and only if they
  leave the flag down.
-/
structure ProgramGated (session : Session) (fuel : Nat) (source file : String) : Prop where
  world : (session.checkedProgram source file).world = session.world
  distances : (session.checkedProgram source file).distances = session.distances
  gate : session.run fuel source file =
      let checked := session.checkedProgram source file
      let parsed := session.parsedProgram source file
      if checked.report.hadError then
        .ok (.staticError, checked)
      else checked.executeProgram fuel parsed.value
  ended : ∀ status next, session.run fuel source file = .ok (status, next) →
        status = next.report.status

/- How an expression gets through them. -/
structure ExpressionGated (session : Session) (fuel : Nat) (source file : String) : Prop where
  world : (session.checkedExpression source file).world = session.world
  distances : (session.checkedExpression source file).distances = session.distances
  refused : (session.checkedExpression source file).report.hadError = true →
      session.evaluate fuel source file = .ok (none, session.checkedExpression source file)
  executed : (session.checkedExpression source file).report.hadError = false →
      ∃ expr, (session.parsedExpression source file).value = some expr ∧
          session.evaluate fuel source file =
            (session.checkedExpression source file).executeExpression fuel expr
  valued : ∀ value? next, session.evaluate fuel source file = .ok (value?, next) →
        (value?.isSome = true ↔ next.report.hadError = false ∧ ∀ fault ∈
                session.reports session.report.hadError
                  (.evaluate fuel source file), fault.isRuntime = false)

theorem programGated (session : Session) (fuel : Nat) (source file : String) :
    ProgramGated session fuel source file := by
  rcases session.checkedProgram_keeps source file with ⟨hWorld, hDistances, _⟩
  have hGate := session.run_checked source file fuel
  refine ⟨hWorld, hDistances, hGate, ?_⟩
  intro status next hNext
  rw [hGate] at hNext
  dsimp only at hNext
  split at hNext
  · rename_i hError
    cases hNext
    simp [Report.status, hError]
  · simp only [executeProgram] at hNext
    split at hNext <;> cases hNext
    rfl

theorem expressionGated (session : Session) (fuel : Nat)
    (source file : String) : ExpressionGated session fuel source file := by
  rcases session.checkedExpression_keeps source file with ⟨hWorld, hDistances, _⟩
  have hGate := session.evaluate_checked source file fuel
  refine ⟨hWorld, hDistances, ?_, ?_, ?_⟩
  · intro hError
    exact hGate.trans (if_pos hError)
  · intro hClear
    rcases session.checkedExpression_some source file hClear with ⟨expr, hValue⟩
    refine ⟨expr, hValue, hGate.trans ?_⟩
    simp only [hClear, hValue]
    rfl
  · intro value? next hNext
    exact (evaluate_report hNext).2

/-
  Whatever steps a session has taken, its flags and pending
  faults are those of its chronicle, and the next source text
  is executed if and only if the flag is down after its own
  stages.
-/
theorem stages_gated_and_flags_told
    {steps : List Step}
    {session : Session}
    (h : Reached steps session) :
    (∃ chronicle, Chronicle steps chronicle session) ∧
      ∀ chronicle, Chronicle steps chronicle session →
        Told chronicle session.report ∧
          ∀ fuel source file,
            ProgramGated session fuel source file ∧
              ExpressionGated session fuel source file := by
  refine ⟨h.chronicle, ?_⟩
  intro chronicle hChronicle
  refine ⟨hChronicle.told, ?_⟩
  intro fuel source file
  exact ⟨session.programGated fuel source file,
    session.expressionGated fuel source file⟩

/-
  A source text without a name, then its fault is taken: the
  flag stays up and a good program is not executed.
-/
theorem flag_outlives_taking :
    ∃ session chronicle,
      Chronicle [.run 9 "let = 1;" "first", .takeErrors]
          chronicle session ∧
        Told chronicle session.report ∧
          session.report.pending = [] ∧
            session.run 9 "print 1;" "later" =
              .ok
                (.staticError,
                  session.checkedProgram "print 1;"
                    "later") := by
  let first := Session.start {} .halt
  let checked := first.checkedProgram "let = 1;" "first"
  have hError : checked.report.hadError = true := by
    decide +kernel
  have hRun :
      first.step (.run 9 "let = 1;" "first") =
        .ok (.status .staticError, checked) := by
    simp only [Session.step, run_checked]
    rw [if_pos hError]
  have hTake :
      checked.step .takeErrors =
        .ok (.errors checked.report.pending,
          checked.takeErrors.2) := rfl
  have hReached := Reached.start {} .halt
  have hResult :=
    stages_gated_and_flags_told
      ((hReached.next hRun).next hTake)
  have hChronicle := Chronicle.start {} .halt
  have hTold :=
    hResult.2 _ ((hChronicle.next hRun).next hTake)
  have hGate := (hTold.2 9 "print 1;" "later").1.gate
  have hLater :
      (checked.takeErrors.2.checkedProgram "print 1;"
        "later").report.hadError = true := by
    rw [checkedProgram_report]
    exact Report.hadError_addAll _ _ hError
  exact ⟨_, _, (hChronicle.next hRun).next hTake, hTold.1, rfl,
    hGate.trans (if_pos hLater)⟩

end Session

end Scriptlet
