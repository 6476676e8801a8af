import Scriptlet.Proofs.Eval.Mirror
import Scriptlet.Proofs.Grammar.Related
import Scriptlet.Proofs.Scope.Alike
import Scriptlet.Proofs.Session.Verdict

/-
  Sessions that differ in the places of tokens and in the
  numbers of nodes only.

  Key declarations include:
    * `Report.Tells`
    * `Steady`
    * `Session.Alike`
    * `Session.step_alike`
    * `Session.perform_alike`
    * `Session.Reached.owns`

  In sessions alike every step shows the same, up to the
  places of runtime faults, and leaves sessions alike.
-/

namespace Scriptlet

/- What is pending, and what the latest text tells. -/
structure Report.Tells
    (P : Diagnostic → Prop)
    (report : Report) : Prop where
  pending : ∀ d ∈ report.pending, P d
  latest : ∀ text ∈ report.latest, ∃ d, P d ∧ text = d.text

variable {P : Diagnostic → Prop} {report : Report}

theorem Report.Tells.add
    (h : report.Tells P)
    {d : Diagnostic}
    (hNew : P d) :
    (report.add d).Tells P := by
  constructor
  · intro e hMem
    rcases List.mem_append.mp hMem with hMem | hMem
    · exact h.pending e hMem
    · rw [List.mem_singleton.mp hMem]
      exact hNew
  · intro text hText
    exact ⟨d, hNew, (Option.some.inj hText).symm⟩

variable {l : Likeness}

/-
  Reports that stay related whatever is reported alike, for
  nodes that stand for one another, one for one.
-/
structure Steady (l : Likeness) (Q : Report → Report → Prop) : Prop where
  node {id id' other other'} : l.node id id' → l.node other other' →
      (id' = other' ↔ id = other)
  fault {report report' fault fault'} :
    Q report report' → Eval.Fault.Alike l fault fault' →
      Q (report.add fault.diagnostic) (report'.add fault'.diagnostic)
  static {report report'} {d : Diagnostic} :
    Q report report' → d.isStatic = true → Q (report.add d) (report'.add d)
  take {report report'} : Q report report' → Q report.take.2 report'.take.2
  reset {report report'} : Q report report' → Q report.reset report'.reset
  hadError {report report'} : Q report report' → report'.hadError = report.hadError
  hadRuntimeError {report report'} : Q report report' →
      report'.hadRuntimeError = report.hadRuntimeError

theorem Steady.addAll {Q : Report → Report → Prop} (hSteady : Steady l Q)
    {ds : List Diagnostic} (hStatic : ∀ d ∈ ds, d.isStatic = true)
    {report' : Report} (h : Q report report') :
    Q (report.addAll ds) (report'.addAll ds) := by
  induction ds generalizing report report' with
  | nil => exact h
  | cons d others ih =>
    exact ih (fun e hMem => hStatic e (List.mem_cons_of_mem d hMem))
      (hSteady.static h (hStatic d (List.mem_cons_self ..)))

/- Equal reports, where faults alike are the same. -/
theorem Steady.same
    (hNode : ∀ {id id' : Nat}, l.node id id' → id' = id)
    (hFault :
      ∀ {fault fault' : Eval.Fault},
        Eval.Fault.Alike l fault fault' →
          fault' = fault ∧ P fault.diagnostic)
    (hStatic : ∀ d : Diagnostic, d.isStatic = true → P d) :
    Steady l fun report report' =>
      report' = report ∧ report.Tells P where
  node h hOther := by rw [hNode h, hNode hOther]
  fault h hAlike := by
    rcases hFault hAlike with ⟨hSame, hNew⟩
    rw [h.1, hSame]
    exact ⟨rfl, h.2.add hNew⟩
  static h hFound := by
    rw [h.1]
    exact ⟨rfl, h.2.add (hStatic _ hFound)⟩
  take h := by
    rw [h.1]
    exact ⟨rfl, List.forall_mem_nil _, h.2.latest⟩
  reset h := by
    rw [h.1]
    exact ⟨rfl, List.forall_mem_nil _, h.2.latest⟩
  hadError h := by rw [h.1]
  hadRuntimeError h := by rw [h.1]

namespace Session

open Grammar (parseProgram parseExpression
  parseProgram_later parseExpression_later parseExpression_some)
open Scope (EntryAlike resolveProgram resolveExpression)

theorem fits_anyNumbers (k n : Nat) (ts : List Token) (n' : Nat) :
    Grammar.Fits .anyNumbers id k n ts n' := ⟨fun _ => rfl, fun _ _ => trivial⟩

variable {body body' : List Stmt}

/- What is found in programs alike. -/
theorem found_alike (h : stmtsAlike l body body') :
    List.Forall₂ (EntryAlike l) (resolveProgram body).found
        (resolveProgram body').found ∧ List.Forall₂ (Scope.Fault.Alike l)
        (resolveProgram body).faults (resolveProgram body').faults := by
  rcases resolveProgram_alike h {} rfl with ⟨found, faults, hWalk, hFound, hFaults⟩
  have hWalk' : resolveProgram body' = ⟨[], found, faults⟩ := hWalk
  rw [hWalk']
  exact ⟨hFound, hFaults⟩

/- Faults do not depend on numbers. -/
theorem faults_anyNumbers (h : stmtsAlike .anyNumbers body body') :
    (resolveProgram body').faults = (resolveProgram body).faults := by
  have hSame : List.Forall₂ Eq (resolveProgram body).faults (resolveProgram body').faults := by
    apply (found_alike h).2.imp
    rintro ⟨cause, token⟩ ⟨cause', token'⟩ ⟨hCause, hToken⟩
    exact congrArg₂ Scope.Fault.mk hCause.symm hToken.symm
  exact (List.forall₂_eq_eq_eq ▸ hSame).symm

/- An expression is resolved like a program of its own. -/
theorem resolveExpression_eq (expr : Expr) :
    resolveExpression expr = resolveProgram [.expression expr] := by
  simp only [resolveExpression, resolveProgram, resolveStmts, Stmt.resolve]

theorem faultMap_id : Grammar.Fault.map id = id := funext fun _ => rfl

/- The same faults, and a tree with later numbers. -/
structure Verdict.Later {α : Type} (k : Nat) (f : α → α) (verdict verdict' : Verdict α) : Prop where
  reported : verdict'.reported = verdict.reported
  nextId : verdict'.nextId = verdict.nextId + k
  accepted : verdict'.accepted.map Prod.fst = verdict.accepted.map fun accepted => f accepted.1

section

variable (hadError : Bool) (n k : Nat) (source file : String)

theorem judge_later :
    Verdict.Later k (stmtsMap id k) (judge hadError n source file)
      (judge hadError (n + k) source file) := by
  have hFaults := faults_anyNumbers ((parseProgram_scan source file n).alike (fits_anyNumbers k ..))
  simp only [Grammar.Phrase.mapped] at hFaults
  unfold judge
  rw [parseProgram_later]
  simp only [Grammar.Parsed.map, grammatical, scoping, hFaults, faultMap_id, List.map_id]
  split
  · split
    · exact ⟨rfl, rfl, rfl⟩
    · exact ⟨rfl, rfl, rfl⟩
    · exact ⟨rfl, rfl, rfl⟩
  · exact ⟨rfl, rfl, rfl⟩

theorem judgeExpression_later :
    Verdict.Later k (Expr.map id k) (judgeExpression hadError n source file)
      (judgeExpression hadError (n + k) source file) := by
  have hFaults : ∀ expr, (parseExpression (Token.tokens (Token.scan source file)) n).value =
          some expr → (resolveExpression (expr.map id k)).faults =
          (resolveExpression expr).faults := by
    intro expr hValue
    rw [Token.tokens_scan] at hValue
    rcases parseExpression_some rfl (Token.kind_body source file) hValue with ⟨gaps, hDerives⟩
    have hExpr := hDerives.alike (fits_anyNumbers k ..)
    rw [resolveExpression_eq, resolveExpression_eq]
    exact faults_anyNumbers (.cons (.expression hExpr) .nil)
  unfold judgeExpression
  rw [parseExpression_later]
  generalize parseExpression _ n = parsed at hFaults
  rcases parsed with ⟨value, nextId, faults⟩
  simp only [Grammar.Parsed.map, grammatical, faultMap_id, List.map_id]
  cases hadError with
  | true => exact ⟨rfl, rfl, rfl⟩
  | false =>
    cases lexical source file with
    | cons fault others => exact ⟨rfl, rfl, rfl⟩
    | nil =>
      cases value with
      | none => exact ⟨rfl, rfl, rfl⟩
      | some expr =>
        simp only [Option.map_some, scoping, hFaults expr rfl]
        split
        · exact ⟨rfl, rfl, rfl⟩
        · exact ⟨rfl, rfl, rfl⟩

end

/- Both accept, or neither does. -/
theorem Verdict.Later.accepted_cases {α : Type} {k : Nat} {f : α → α}
    {verdict verdict' : Verdict α} (h : Verdict.Later k f verdict verdict') :
    (verdict.accepted = none ∧ verdict'.accepted = none) ∨ ∃ tree found found',
        verdict.accepted = some (tree, found) ∧ verdict'.accepted = some (f tree, found') := by
  have hAccepted := h.accepted
  cases hOld : verdict.accepted with
  | none =>
    rw [hOld, Option.map_none, Option.map_eq_none_iff] at hAccepted
    exact .inl ⟨rfl, hAccepted⟩
  | some accepted =>
    rw [hOld, Option.map_some, Option.map_eq_some_iff] at hAccepted
    rcases hAccepted with ⟨⟨tree, found⟩, hNew, rfl⟩
    exact .inr ⟨_, _, found, rfl, hNew⟩

------------------------------------------------------------
-- Sessions
------------------------------------------------------------

/-
  Sessions alike: the numbers of nodes to come are later by
  `k`, and all else but the places of tokens is the same.
-/
structure Alike (l : Likeness) (Q : Report → Report → Prop) (k : Nat)
    (session session' : Session) : Prop where
  world : Eval.World.Alike l session.world session'.world
  distances {id id' : Nat} : l.node id id' → session'.distances[id']? = session.distances[id]?
  report : Q session.report session'.report
  nextId : session'.nextId = session.nextId + k
  policy : session'.policy = session.policy

/- Tables for nodes that stand for each other. -/
theorem extend_alike {Q : Report → Report → Prop} (hSteady : Steady l Q)
    {found found' : List (Nat × Nat)} (hFound : List.Forall₂ (EntryAlike l) found found')
    {table table' : Scope.Distances}
    (h : ∀ {id id'}, l.node id id' → table'[id']? = table[id]?) {id id' : Nat}
    (hNode : l.node id id') : (table'.extend found')[id']? = (table.extend found)[id]? := by
  induction hFound generalizing table table' with
  | nil => exact h hNode
  | @cons entry entry' _ _ hEntry _ ih =>
    apply ih
    intro id id' hNode
    have hSame := hSteady.node hEntry.1 hNode
    simp only [Std.TreeMap.getElem?_insert, Nat.compare_eq_eq, hSame, hEntry.2]
    rw [h hNode]

namespace Alike

variable {Q : Report → Report → Prop} {k : Nat} {session session' : Session}

theorem context (h : Alike l Q k session session') :
    Eval.Context.Guised l.guise ⟨fun _ => (), session.world.heap⟩ (fun _ => ())
      session.context session'.context := h.world.context h.distances

variable (hSteady : Steady l Q) (h : Alike l Q k session session')
include hSteady h

theorem judged {α : Type} {f : α → α} {verdict verdict' : Verdict α}
    (hLater : Verdict.Later k f verdict verdict')
    (hStatic : ∀ d ∈ verdict.reported, d.isStatic = true) :
    Alike l Q k (session.judged verdict) (session'.judged verdict') := by
  refine ⟨h.world, h.distances, ?_, hLater.nextId, h.policy⟩
  simp only [Session.judged, hLater.reported]
  exact hSteady.addAll hStatic h.report

theorem extended {found found' : List (Nat × Nat)}
    (hFound : List.Forall₂ (EntryAlike l) found found') :
    Alike l Q k (session.extended found) (session'.extended found') :=
  { h with distances := extend_alike hSteady hFound h.distances }

/- Programs alike run alike. -/
theorem interpret (fuel : Nat) {body body' : List Stmt} (hBody : stmtsAlike l body body') :
    Eval.Agree (Alike l Q k) (session.interpret fuel body) (session'.interpret fuel body') := by
  have hAgree :=
    Eval.interpret_guised (fun hReport hFault => hSteady.fault hReport hFault.alike)
      fuel session.policy h.context hBody h.world.guised h.report
  unfold Session.interpret
  rw [h.policy]
  rcases hAgree.ends with ⟨result, result', hOk, hOk', ⟨_, hLeads, hWorld⟩,
      hReport⟩ | ⟨reason, hStop, hStop'⟩
  · simp only [hOk, hOk']
    exact .ok ⟨h.world.reached hLeads hWorld, h.distances, hReport, h.nextId, rfl⟩
  · simp only [hStop, hStop']
    exact .error reason

/- So do their ends. -/
theorem runs (fuel : Nat) {body body' : List Stmt} (hBody : stmtsAlike l body body') :
    Eval.Agree (fun result result' => result'.1 = result.1 ∧ Alike l Q k result.2 result'.2)
      (match session.interpret fuel body with
        | .ok next => .ok (next.runStatus, next)
        | .error reason => .error reason)
      (match session'.interpret fuel body' with
        | .ok next => .ok (next.runStatus, next)
        | .error reason => .error reason) := by
  rcases (h.interpret hSteady fuel hBody).ends with
    ⟨next, next', hOk, hOk', hNext⟩ | ⟨reason, hStop, hStop'⟩
  · rw [hOk, hOk']
    refine .ok ⟨?_, hNext⟩
    simp only [runStatus, hSteady.hadRuntimeError hNext.report]
  · rw [hStop, hStop']
    exact .error reason

end Alike

/- The same answers, or the faults of related reports. -/
inductive Answer.Related (Q : Report → Report → Prop) : Answer → Answer → Prop where
  | status (status) : Answer.Related Q (.status status) (.status status)
  | value (value?) : Answer.Related Q (.value value?) (.value value?)
  | errors {report report'} : Q report report' →
      Answer.Related Q (.errors report.pending) (.errors report'.pending)
  | nothing : Answer.Related Q .nothing .nothing

/-
  Sessions alike answer a step alike, for a likeness that
  takes in what the step brings along.
-/
structure Admits (m : Likeness) (k : Nat) (session : Session) (step : Step) : Prop where
  token : ∀ token ∈ step.tokens, m.token token token
  node : ∀ id, session.nextId ≤ id → id < session.lastId step → m.node id (id + k)

section Step

variable {Q : Report → Report → Prop} (hSteady : Steady l Q) {k : Nat} {session session' : Session}
variable (h : Alike l Q k session session')
include hSteady h

variable {fuel : Nat} {source file : String}

theorem run_alike
    (hAdmits : Admits l k session (.run fuel source file)) :
    Eval.Agree (fun result result' => result'.1 = result.1 ∧ Alike l Q k result.2 result'.2)
      (session.run fuel source file) (session'.run fuel source file) := by
  have hLater := judge_later session.report.hadError session.nextId k source file
  have hJudged := h.judged hSteady hLater (judge_fair ..).static
  rw [run_eq, run_eq, hSteady.hadError h.report, h.nextId]
  rcases hLater.accepted_cases with ⟨hNone, hNone'⟩ | ⟨body, found, found', hSome, hSome'⟩
  · simp only [hNone, hNone']
    exact .ok ⟨rfl, hJudged⟩
  · rcases (judge_fair ..).good hSome with ⟨_, rfl, _, hDerives⟩
    rcases (judge_fair ..).good hSome' with ⟨_, rfl, _⟩
    simp only [hSome, hSome']
    have hBody := hDerives.alike (g := id) ⟨fun hMem => hAdmits.token _ hMem, hAdmits.node _⟩
    have hReady := hJudged.extended hSteady (found_alike hBody).1
    exact hReady.runs hSteady fuel hBody

theorem evaluate_alike
    (hAdmits : Admits l k session (.evaluate fuel source file)) :
    Eval.Agree (fun result result' => result'.1 = result.1 ∧ Alike l Q k result.2 result'.2)
      (session.evaluate fuel source file) (session'.evaluate fuel source file) := by
  have hLater := judgeExpression_later session.report.hadError session.nextId k source file
  have hJudged := h.judged hSteady hLater (judgeExpression_fair ..).static
  rw [evaluate_eq, evaluate_eq, hSteady.hadError h.report, h.nextId]
  rcases hLater.accepted_cases with ⟨hNone, hNone'⟩ | ⟨expr, found, found', hSome, hSome'⟩
  · simp only [hNone, hNone']
    exact .ok ⟨rfl, hJudged⟩
  · rcases (judgeExpression_fair ..).good hSome with ⟨_, rfl, _, hDerives⟩
    rcases (judgeExpression_fair ..).good hSome' with ⟨_, rfl, _⟩
    simp only [hSome, hSome']
    have hExpr : expr.Alike l (expr.map id k) :=
      hDerives.alike (g := id) ⟨fun hMem => hAdmits.token _ hMem, hAdmits.node _⟩
    have hFound := (found_alike (l := l) (.cons (.expression hExpr) .nil)).1
    rw [← resolveExpression_eq, ← resolveExpression_eq] at hFound
    have hReady := hJudged.extended hSteady hFound
    have hOutcome :=
      ((Eval.mirrorsAll l.guise fuel).evaluate hReady.context hExpr).outcome hReady.world.guised
    revert hOutcome
    generalize Eval.evaluate fuel _ expr _ = outcome
    generalize Eval.evaluate fuel _ (expr.map id k) _ = outcome'
    intro hOutcome
    cases hOutcome with
    | done hLeads hWorld hValue =>
      exact .ok ⟨congrArg some hValue,
        { hReady with
          world := hReady.world.reached hLeads hWorld }⟩
    | failed hLeads hWorld hFault =>
      exact .ok ⟨rfl,
        { hReady with
          world := hReady.world.reached hLeads hWorld
          report := hSteady.fault hReady.report hFault.alike }⟩
    | stopped reason => exact .error reason

/- Sessions alike answer alike and stay alike. -/
theorem step_alike {step : Step} (hAdmits : Admits l k session step) :
    Eval.Agree
      (fun result result' => Answer.Related Q result.1 result'.1 ∧ Alike l Q k result.2 result'.2)
      (session.step step) (session'.step step) := by
  cases step with
  | run fuel source file =>
    unfold Session.step
    rcases (run_alike hSteady h hAdmits).ends with
      ⟨⟨status, next⟩, ⟨status', next'⟩, hOk, hOk', hSame, hNext⟩ | ⟨reason, hStop, hStop'⟩
    · simp only [hOk, hOk']
      obtain rfl : status' = status := hSame
      exact .ok ⟨.status status', hNext⟩
    · simp only [hStop, hStop']
      exact .error reason
  | evaluate fuel source file =>
    unfold Session.step
    rcases (evaluate_alike hSteady h hAdmits).ends with
      ⟨⟨value?, next⟩, ⟨value?', next'⟩, hOk, hOk', hSame, hNext⟩ | ⟨reason, hStop, hStop'⟩
    · simp only [hOk, hOk']
      obtain rfl : value?' = value? := hSame
      have hShown : next'.shown = next.shown := by
        funext value
        simp only [shown, hNext.world.heap.shows.display]
      rw [hShown]
      exact .ok ⟨.value _, hNext⟩
    · simp only [hStop, hStop']
      exact .error reason
  | resetErrors => exact .ok ⟨.nothing, { h with report := hSteady.reset h.report }⟩
  | takeErrors => exact .ok ⟨.errors h.report, { h with report := hSteady.take h.report }⟩
  | withHost host =>
    exact .ok ⟨.nothing,
      { h with
        world := ⟨h.world.globals, h.world.heap, rfl⟩ }⟩

end Step

/- Sessions alike answer alike for ever after. -/
theorem perform_alike
    {Q : Report → Report → Prop}
    (hSteady : Steady l Q)
    (hNode : ∀ id, l.node id id)
    {later : List Step}
    (hTokens :
      ∀ step ∈ later, ∀ token ∈ step.tokens,
        l.token token token)
    {session session' : Session}
    (h : Alike l Q 0 session session') :
    Eval.Agree
      (fun result result' =>
        List.Forall₂ (Answer.Related Q) result.1 result'.1 ∧
          Alike l Q 0 result.2 result'.2)
      (session.perform later)
      (session'.perform later) := by
  induction later generalizing session session' with
  | nil => exact .ok ⟨.nil, h⟩
  | cons step others ih =>
    have hAdmits : Admits l 0 session step :=
      ⟨hTokens step (List.mem_cons_self ..), fun id _ _ => hNode id⟩
    have hOthers := fun other hMem =>
      hTokens other (List.mem_cons_of_mem step hMem)
    unfold perform
    rcases (step_alike hSteady h hAdmits).ends with
      ⟨⟨answer, next⟩, ⟨answer', next'⟩, hOk, hOk', hAnswer,
        hNext⟩ | ⟨reason, hStop, hStop'⟩
    · simp only [hOk, hOk']
      rcases (ih hOthers hNext).ends with
        ⟨⟨answers, last⟩, ⟨answers', last'⟩, hOk, hOk',
          hAnswers, hLast⟩ | ⟨reason, hStop, hStop'⟩
      · simp only [hOk, hOk']
        exact .ok ⟨.cons hAnswer hAnswers, hLast⟩
      · simp only [hStop, hStop']
        exact .error reason
    · simp only [hStop, hStop']
      exact .error reason

/- A token of the source text of one of the steps. -/
def Mentioned (steps : List Step) (token : Token) : Prop :=
  ∃ step ∈ steps, token ∈ step.tokens

variable {steps : List Step}

theorem Mentioned.append
    {token : Token}
    (h : Mentioned steps token)
    (later : List Step) :
    Mentioned (steps ++ later) token := by
  rcases h with ⟨step, hMem, hToken⟩
  exact ⟨step, List.mem_append_left _ hMem, hToken⟩

/- Found before a run, or at a token of one of the steps. -/
def Placed (steps : List Step) (d : Diagnostic) : Prop :=
  d.isStatic = true ∨
    ∃ token cause, Mentioned steps token ∧
      d = (Eval.Fault.atToken token cause).diagnostic

theorem Placed.append
    {d : Diagnostic}
    (h : Placed steps d)
    (later : List Step) :
    Placed (steps ++ later) d := by
  rcases h with hStatic | ⟨token, cause, hToken, hFault⟩
  · exact .inl hStatic
  · exact .inr ⟨token, cause, hToken.append later, hFault⟩

/- Faults at one token are the same. -/
theorem fault_within
    {nodes : Nat → Prop}
    {fault fault' : Eval.Fault}
    (h : Eval.Fault.Alike (.within (Mentioned steps) nodes)
      fault fault') :
    fault' = fault ∧ Placed steps fault.diagnostic := by
  cases h with
  | atToken cause hToken =>
    rw [hToken.1]
    exact ⟨rfl, .inr ⟨_, cause, hToken.2, rfl⟩⟩

/-
  The code in a session: its tokens are those of the steps
  that led to it, and its node numbers were handed out.  So
  faults are at such tokens.
-/
structure Owns
    (steps : List Step)
    (session : Session) : Prop where
  world :
    Eval.World.Alike
      (.within (Mentioned steps) (· < session.nextId))
      session.world session.world
  report : session.report.Tells (Placed steps)

/- Every session that is reached has its own code only. -/
theorem Reached.owns
    {session : Session}
    (h : Reached steps session) :
    Owns steps session := by
  induction h with
  | start host policy =>
    refine ⟨⟨Nat.zero_lt_one, ⟨rfl, ?_, rfl, rfl, .nil, .nil⟩,
      rfl⟩, List.forall_mem_nil _, ?_⟩
    · intro frame
      cases (Session.start host policy).world.heap.frames[frame]? with
      | none => exact .none
      | some found =>
        exact .some ⟨(List.map_id found.bindings).symm, rfl⟩
    · rintro text ⟨⟩
  | @next steps session step answer next _ hStep ih =>
    have hLastId := step_nextId hStep
    have hLe := session.le_lastId step
    let l := Likeness.within (Mentioned (steps ++ [step]))
      (· < next.nextId)
    have hWider :
        (Likeness.within (Mentioned steps)
          (· < session.nextId)).Le l := by
      constructor
      · rintro token _ ⟨rfl, hToken⟩
        exact ⟨rfl, hToken.append _⟩
      · rintro id _ ⟨rfl, hBound⟩
        exact ⟨rfl, by omega⟩
    have hAdmits : Admits l 0 session step := by
      constructor
      · intro token hToken
        exact ⟨rfl, step, by simp, hToken⟩
      · intro id _ hTo
        exact ⟨rfl, by omega⟩
    have hTells : session.report.Tells (Placed (steps ++ [step])) := by
      refine ⟨fun d hMem => (ih.report.pending d hMem).append _, ?_⟩
      intro text hText
      rcases ih.report.latest text hText with ⟨d, hTold, hSame⟩
      exact ⟨d, hTold.append _, hSame⟩
    have hSteady :=
      Steady.same (l := l) And.left fault_within fun _ => .inl
    have hAgree := step_alike hSteady
      ⟨ih.world.mono hWider, fun hNode => by rw [hNode.1],
        ⟨rfl, hTells⟩, rfl, rfl⟩ hAdmits
    rw [hStep] at hAgree
    cases hAgree with
    | ok hNext => exact ⟨hNext.2.world, hNext.2.report.2⟩

end Session

end Scriptlet
