import Scriptlet.Proofs.Grammar.Exact
import Scriptlet.Proofs.Scope.Judged
import Scriptlet.Session

/-
  What the stages before a run say about a source text, and
  what may be done with a session.

  Key declarations include:
    * `Session.Verdict`
    * `Session.judge`
    * `Session.run_eq`
    * `Session.Step`
    * `Session.step`
    * `Session.Reached`

  The stages read of a session only whether a fault is
  pending and which node number is the next one.  What they
  accept is derived by the grammar.
-/

namespace Scriptlet

/- Was it found before a run? -/
def Diagnostic.isStatic : Diagnostic → Bool
  | .static .. => true
  | _ => false

theorem Diagnostic.isRuntime_of_isStatic {d : Diagnostic}
    (h : d.isStatic = true) : d.isRuntime = false := by
  cases d with
  | static => rfl
  | _ => cases h

namespace Report

theorem addAll_append (report : Report) (ds es : List Diagnostic) :
    report.addAll (ds ++ es) = (report.addAll ds).addAll es := by
  simp only [Report.addAll, List.foldl_append]

variable (report : Report) (ds : List Diagnostic)

theorem addAll_flags :
    (report.addAll ds).pending = report.pending ++ ds ∧
      (report.addAll ds).hadError = (report.hadError || ds.any (!·.isRuntime)) ∧
        (report.addAll ds).hadRuntimeError =
          (report.hadRuntimeError || ds.any Diagnostic.isRuntime) := by
  induction ds generalizing report with
  | nil => simp [Report.addAll]
  | cons d others ih =>
    have hOthers := ih (report.add d)
    simpa [Report.addAll, Report.add, Bool.or_assoc] using hOthers

/- A fault pending before a run stays pending. -/
theorem hadError_addAll (h : report.hadError = true) : (report.addAll ds).hadError = true := by
  rw [(report.addAll_flags ds).2.1, h]
  rfl

variable {ds}

/- A fault found before a run is pending. -/
theorem hadError_addAll_static (hStatic : ∀ d ∈ ds, d.isStatic = true) :
    (report.addAll ds).hadError = (report.hadError || !ds.isEmpty) := by
  rw [(report.addAll_flags ds).2.1]
  cases ds with
  | nil => rfl
  | cons d others =>
    have hFirst := Diagnostic.isRuntime_of_isStatic (hStatic d (List.mem_cons_self ..))
    simp [hFirst]

theorem hadError_of_faults (hStatic : ∀ d ∈ ds, d.isStatic = true) (hFaults : ds ≠ []) :
    (report.addAll ds).hadError = true := by
  rw [report.hadError_addAll_static hStatic]
  simp [hFaults]

end Report

namespace Session

open Grammar (Parsed parseProgram parseExpression)
open Scope (Walk resolveProgram resolveExpression)

/-
  The faults reported, the next node number, and what may
  run, with the distances of its references.
-/
structure Verdict (α : Type) where
  reported : List Diagnostic
  nextId : Nat
  accepted : Option (α × List (Nat × Nat))

/- Faults in the text. -/
def lexical (source file : String) : List Diagnostic :=
  (Token.faults (Token.scan source file)).map Token.Fault.diagnostic

/- Faults in the order of tokens. -/
def grammatical {α : Type} (parsed : Parsed α) : List Diagnostic :=
  parsed.faults.map Grammar.Fault.diagnostic

/- Faults in the use of names. -/
def scoping (walk : Walk) : List Diagnostic := walk.faults.map Scope.Fault.diagnostic

/- Nothing runs. -/
def rejected {α : Type} (reported : List Diagnostic)
    (nextId : Nat) : Verdict α := ⟨reported, nextId, none⟩

/- Judge a program: the first stage with faults rejects it. -/
def judge (hadError : Bool) (firstId : Nat) (source file : String) : Verdict (List Stmt) :=
  let parsed := parseProgram (Token.tokens (Token.scan source file)) firstId
  let walk := resolveProgram parsed.value
  match hadError, lexical source file with
  | false, [] =>
    match grammatical parsed, scoping walk with
    | [], [] => ⟨[], parsed.nextId, some (parsed.value, walk.found)⟩
    | [], faults => rejected faults parsed.nextId
    | faults, _ => rejected faults parsed.nextId
  | _, faults => rejected faults firstId

/- Judge an expression. -/
def judgeExpression (hadError : Bool) (firstId : Nat) (source file : String) : Verdict Expr :=
  let parsed := parseExpression (Token.tokens (Token.scan source file)) firstId
  match hadError, lexical source file, parsed.value with
  | false, [], some expr =>
    let walk := resolveExpression expr
    match grammatical parsed ++ scoping walk with
    | [] => ⟨[], parsed.nextId, some (expr, walk.found)⟩
    | faults => rejected faults parsed.nextId
  | false, [], none => rejected (grammatical parsed) parsed.nextId
  | _, faults, _ => rejected faults firstId

/- The session that a verdict leaves. -/
def judged {α : Type} (session : Session) (verdict : Verdict α) : Session :=
  { session with
    report := session.report.addAll verdict.reported
    nextId := verdict.nextId }

/- The session with the distances of what may run. -/
def extended (session : Session) (found : List (Nat × Nat)) : Session :=
  { session with
    distances := session.distances.extend found }

theorem lexical_static (source file : String) :
    ∀ d ∈ lexical source file, d.isStatic = true := by
  intro d hMem
  rcases List.mem_map.mp hMem with ⟨fault, _, rfl⟩
  rfl

variable {α : Type}

theorem grammatical_static (parsed : Parsed α) :
    ∀ d ∈ grammatical parsed, d.isStatic = true := by
  intro d hMem
  rcases List.mem_map.mp hMem with ⟨fault, _, rfl⟩
  rfl

theorem scoping_static (walk : Walk) : ∀ d ∈ scoping walk, d.isStatic = true := by
  intro d hMem
  rcases List.mem_map.mp hMem with ⟨fault, _, rfl⟩
  rfl

theorem found_static (parsed : Parsed α) (walk : Walk) :
    ∀ d ∈ grammatical parsed ++ scoping walk, d.isStatic = true := by
  intro d hMem
  rcases List.mem_append.mp hMem with hMem | hMem
  · exact grammatical_static parsed d hMem
  · exact scoping_static walk d hMem

variable (fuel : Nat) (session : Session) (source file : String)

/- A sound text leaves the session as it is. -/
theorem scan_sound (h : lexical source file = []) :
    session.scan source file = (Token.tokens (Token.scan source file), session) := by
  have hReport : session.report.addAll (lexical source file) = session.report := by
    rw [h]
    rfl
  exact congrArg
    (fun report => (Token.tokens (Token.scan source file), { session with report := report }))
    hReport

/- Tokens in order only move the next number. -/
theorem parsed_sound {result : Parsed α} (h : grammatical result = []) :
    session.parsed result = (result.value, { session with nextId := result.nextId }) := by
  have hReport : session.report.addAll (grammatical result) = session.report := by
    rw [h]
    rfl
  exact congrArg
    (fun report =>
      (result.value,
        { session with
          report := report
          nextId := result.nextId }))
    hReport

/- Names used well leave the session as it is. -/
theorem resolved_sound {walk : Walk} (h : scoping walk = []) :
    session.resolved walk = session := by
  have hReport : session.report.addAll (scoping walk) = session.report := by
    rw [h]
    rfl
  exact congrArg (fun report => { session with report := report }) hReport

/- A run is a verdict, and then what it accepts is run. -/
theorem run_eq :
    session.run fuel source file =
      let verdict := judge session.report.hadError session.nextId source file
      match verdict.accepted with
      | none => .ok (.staticError, session.judged verdict)
      | some (body, found) =>
        match ((session.judged verdict).extended found).interpret fuel body with
        | .ok next => .ok (next.runStatus, next)
        | .error reason => .error reason := by
  cases hError : session.report.hadError with
  | true => exact if_pos (Report.hadError_addAll _ _ hError)
  | false =>
    cases hLexical : lexical source file with
    | cons fault others =>
      have hRejected :=
        session.report.hadError_of_faults (lexical_static source file) (by simp [hLexical])
      simp only [judge, hLexical]
      rw [← hLexical]
      exact if_pos hRejected
    | nil =>
      unfold Session.run
      rw [scan_sound session source file hLexical]
      simp only [hError, judge, hLexical]
      generalize parseProgram (Token.tokens (Token.scan source file)) session.nextId = parsed
      cases hGrammar : grammatical parsed with
      | cons fault others =>
        have hRejected :=
          session.report.hadError_of_faults (grammatical_static parsed) (by simp [hGrammar])
        dsimp only
        rw [← hGrammar]
        exact if_pos hRejected
      | nil =>
        rw [parsed_sound session hGrammar]
        simp only [hError]
        cases hScope : scoping (resolveProgram parsed.value) with
        | cons fault others =>
          have hRejected :=
            session.report.hadError_of_faults (scoping_static (resolveProgram parsed.value))
              (by simp [hScope])
          dsimp only
          rw [← hScope]
          exact if_pos hRejected
        | nil =>
          rw [resolved_sound _ hScope]
          simp only [hError]
          rfl

/-
  An evaluation is a verdict, and then what it accepts is
  evaluated.
-/
theorem evaluate_eq :
    session.evaluate fuel source file =
      let verdict := judgeExpression session.report.hadError session.nextId source file
      match verdict.accepted with
      | none => .ok (none, session.judged verdict)
      | some (expr, found) =>
        let ready := (session.judged verdict).extended found
        match Eval.evaluate fuel ready.context expr ready.world with
        | .done value world => .ok (some value, { ready with world := world })
        | .failed fault world =>
          .ok
            (none,
              { ready.reporting [fault.diagnostic] with
                world := world })
        | .stopped reason => .error reason := by
  cases hError : session.report.hadError with
  | true => exact if_pos (Report.hadError_addAll _ _ hError)
  | false =>
    cases hLexical : lexical source file with
    | cons fault others =>
      have hRejected :=
        session.report.hadError_of_faults (lexical_static source file) (by simp [hLexical])
      simp only [judgeExpression, hLexical]
      rw [← hLexical]
      exact if_pos hRejected
    | nil =>
      unfold Session.evaluate
      rw [scan_sound session source file hLexical]
      simp only [hError, judgeExpression, hLexical]
      generalize parseExpression (Token.tokens (Token.scan source file)) session.nextId = parsed
      cases hValue : parsed.value with
      | none =>
        simp only [Session.parsed, hValue]
        rfl
      | some expr =>
        have hReport :=
          session.report.addAll_append (grammatical parsed) (scoping (resolveExpression expr))
        cases hScope : grammatical parsed ++ scoping (resolveExpression expr) with
        | cons fault others =>
          have hRejected :=
            session.report.hadError_of_faults (found_static parsed (resolveExpression expr))
              (by simp [hScope])
          simp only [Session.parsed, hValue, hScope]
          rw [← hScope]
          unfold Session.judged rejected
          rw [hReport] at hRejected ⊢
          exact if_pos hRejected
        | nil =>
          have hNone := List.append_eq_nil_iff.mp hScope
          rw [parsed_sound session hNone.1]
          simp only [hValue, hScope]
          rw [resolved_sound _ hNone.2]
          simp only [hError]
          rfl

------------------------------------------------------------
-- What Verdicts Say
------------------------------------------------------------

/-
  Faults that were found before a run and a number that is
  not earlier, or something good without faults.
-/
inductive Verdict.Fair (n : Nat) (Good : α → List (Nat × Nat) → Nat → Prop) : Verdict α → Prop where
  | rejected {reported n'} : (∀ d ∈ reported, d.isStatic = true) → n ≤ n' →
      Fair n Good (rejected reported n')
  | accepted {value found n'} : n ≤ n' → Good value found n' →
      Fair n Good ⟨[], n', some (value, found)⟩

namespace Verdict.Fair

variable {n : Nat} {Good : α → List (Nat × Nat) → Nat → Prop} {verdict : Verdict α}

theorem le (h : verdict.Fair n Good) : n ≤ verdict.nextId := by
  cases h <;> assumption

theorem static (h : verdict.Fair n Good) : ∀ d ∈ verdict.reported, d.isStatic = true := by
  cases h with
  | rejected hStatic => exact hStatic
  | accepted => exact fun _ hMem => nomatch hMem

theorem good (h : verdict.Fair n Good) {value : α} {found : List (Nat × Nat)}
    (hAccepted : verdict.accepted = some (value, found)) :
    verdict.reported = [] ∧ Good value found verdict.nextId := by
  cases h with
  | rejected => cases hAccepted
  | accepted _ hGood =>
    cases hAccepted
    exact ⟨rfl, hGood⟩

end Verdict.Fair

open Grammar (Derives parseProgram_derives parseExpression_derives parseExpression_le)

section

variable {source file : String} {hadError : Bool} {n : Nat}

/- The end of a source text is its last token. -/
theorem parseProgram_scan (source file : String) (n : Nat) :
    let parsed := parseProgram (Token.tokens (Token.scan source file)) n
    Derives (0 < parsed.faults.length) .declarations n
      (Token.body source file) parsed.value parsed.nextId := by
  rw [Token.tokens_scan]
  exact parseProgram_derives rfl (Token.kind_body source file) n

/- What is accepted is a program without faults. -/
theorem judge_fair (hadError : Bool) (n : Nat) (source file : String) :
    (judge hadError n source file).Fair n fun body found n' =>
      found = (resolveProgram body).found ∧ (resolveProgram body).faults = [] ∧
        Derives False .declarations n (Token.body source file) body n' := by
  have hDerives := parseProgram_scan source file n
  unfold judge
  dsimp only
  split
  · split
    · rename_i hGrammar hScope
      refine .accepted hDerives.le ⟨rfl, List.map_eq_nil_iff.mp hScope, hDerives.mono ?_⟩
      simp [List.map_eq_nil_iff.mp hGrammar]
    · exact .rejected (scoping_static _) hDerives.le
    · exact .rejected (grammatical_static _) hDerives.le
  · exact .rejected (lexical_static source file) (Nat.le_refl n)

variable {body : List Stmt} {found : List (Nat × Nat)}

section

variable (h : (judge hadError n source file).accepted = some (body, found))

include h

theorem judge_sensible : stmtsSensible body :=
  ((judge_fair ..).good h).2.2.2.sensible (Token.written_body source file)

/- Its sites are owned, and control words have an effect. -/
theorem judge_settled {P : Scope.Site → Prop}
    (hSites : ∀ site ∈ Scope.programSites body, P site) :
    stmtsKnown (Scope.Site.OwnedIn P) [] body [] ∧
      stmtsContained false false body :=
  Scope.accepted_of_resolved (judge_sensible h) ((judge_fair ..).good h).2.2.1 hSites

end

theorem judgeExpression_fair (hadError : Bool) (n : Nat) (source file : String) :
    (judgeExpression hadError n source file).Fair n fun expr found n' =>
      found = (resolveExpression expr).found ∧ (resolveExpression expr).faults = [] ∧
        Derives False .expression n (Token.body source file) expr n' := by
  have hKinds := Token.kind_body source file
  have hLe : n ≤ (parseExpression (Token.tokens (Token.scan source file)) n).nextId := by
    rw [Token.tokens_scan]
    exact parseExpression_le rfl hKinds n
  unfold judgeExpression
  dsimp only
  split
  · rename_i hValue
    split
    · rename_i hFaults
      have hNone := List.append_eq_nil_iff.mp hFaults
      have hGrammar := List.map_eq_nil_iff.mp hNone.1
      refine .accepted hLe ⟨rfl, List.map_eq_nil_iff.mp hNone.2, ?_⟩
      rw [Token.tokens_scan] at hGrammar hValue ⊢
      rcases parseExpression_derives rfl hKinds n hGrammar with ⟨other, n', hDerives⟩
      rw [hDerives.parseExpression_eq rfl hKinds] at hValue ⊢
      cases hValue
      exact hDerives
    · exact .rejected (found_static _ _) hLe
  · exact .rejected (grammatical_static _) hLe
  · exact .rejected (lexical_static source file) (Nat.le_refl n)

variable {expr : Expr}

variable (h : (judgeExpression hadError n source file).accepted = some (expr, found))

include h

theorem judgeExpression_sensible : expr.Sensible :=
  ((judgeExpression_fair ..).good h).2.2.2.sensible (Token.written_body source file)

theorem judgeExpression_settled {P : Scope.Site → Prop}
    (hSites : ∀ site ∈ Scope.expressionSites expr, P site) :
    expr.Known (Scope.Site.OwnedIn P) [] [] ∧ expr.Contained :=
  Expr.accepted_of_resolved (judgeExpression_sensible h)
    ((judgeExpression_fair ..).good h).2.2.1 hSites

end

end Session

namespace Session

/- Something a client does with a session. -/
inductive Step where
  | run (fuel : Nat) (source file : String)
  | evaluate (fuel : Nat) (source file : String)
  | resetErrors
  | takeErrors
  | withHost (host : Host)

/-
  What a step shows: how a program ended, a value with its
  text, or faults.
-/
inductive Answer where
  | status (status : Status)
  | value (value? : Option (Value × String))
  | errors (taken : List Diagnostic)
  | nothing

/- A value with its text. -/
def shown (session : Session) (value : Value) : Value × String :=
  (value, session.world.heap.display value)

/- Take a step, unless it is broken off. -/
def step (session : Session) :
    Step → Except Eval.Stop (Answer × Session)
  | .run fuel source file =>
    match session.run fuel source file with
    | .ok (status, next) => .ok (.status status, next)
    | .error reason => .error reason
  | .evaluate fuel source file =>
    match session.evaluate fuel source file with
    | .ok (value?, next) => .ok (.value (value?.map next.shown), next)
    | .error reason => .error reason
  | .resetErrors => .ok (.nothing, session.resetErrors)
  | .takeErrors =>
    let (taken, next) := session.takeErrors
    .ok (.errors taken, next)
  | .withHost host => .ok (.nothing, session.withHost host)

/- Take steps in order. -/
def perform (session : Session) :
    List Step → Except Eval.Stop (List Answer × Session)
  | [] => .ok ([], session)
  | first :: others =>
    match session.step first with
    | .ok (answer, next) =>
      match next.perform others with
      | .ok (answers, last) => .ok (answer :: answers, last)
      | .error reason => .error reason
    | .error reason => .error reason

/- The tokens of the source text of a step. -/
def Step.tokens : Step → List Token
  | .run _ source file => Token.body source file
  | .evaluate _ source file => Token.body source file
  | _ => []

/- The sessions that steps lead to. -/
inductive Reached : List Step → Session → Prop where
  | start (host : Host) (policy : Eval.Policy) : Reached [] (.start host policy)
  | next {steps session step answer next} : Reached steps session →
      session.step step = .ok (answer, next) → Reached (steps ++ [step]) next

/- The node number after a step. -/
def lastId (session : Session) : Step → Nat
  | .run _ source file => (judge session.report.hadError session.nextId source file).nextId
  | .evaluate _ source file =>
    (judgeExpression session.report.hadError session.nextId source file).nextId
  | _ => session.nextId

theorem le_lastId (session : Session) (step : Step) :
    session.nextId ≤ session.lastId step := by
  cases step with
  | run => exact (judge_fair ..).le
  | evaluate => exact (judgeExpression_fair ..).le
  | _ => exact Nat.le_refl _

theorem interpret_table {fuel : Nat} {ready next : Session} {body : List Stmt}
    (h : ready.interpret fuel body = .ok next) :
    next.nextId = ready.nextId ∧ next.distances = ready.distances := by
  unfold Session.interpret at h
  split at h <;> cases h
  exact ⟨rfl, rfl⟩

/- A step moves the next number as its verdict says. -/
theorem step_nextId {session next : Session} {step : Step} {answer : Answer}
    (h : session.step step = .ok (answer, next)) : next.nextId = session.lastId step := by
  cases step with
  | run fuel source file =>
    simp only [Session.step] at h
    split at h
    · rename_i status reached hRun
      cases h
      rw [run_eq] at hRun
      dsimp only at hRun
      split at hRun
      · cases hRun
        rfl
      · split at hRun
        · rename_i hInterpret
          cases hRun
          exact (interpret_table hInterpret).1
        · cases hRun
    · cases h
  | evaluate fuel source file =>
    simp only [Session.step] at h
    split at h
    · rename_i value? reached hRun
      cases h
      rw [evaluate_eq] at hRun
      dsimp only at hRun
      split at hRun
      · cases hRun
        rfl
      · split at hRun <;> cases hRun <;> rfl
    · cases h
  | resetErrors => cases h; rfl
  | takeErrors => cases h; rfl
  | withHost host => cases h; rfl

end Session

end Scriptlet
