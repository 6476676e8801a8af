import Scriptlet.Proofs.Session.Alike

/-
  Running a program in parts.

  Key declarations include:
    * `Session.Sound`
    * `Relocation`
    * `Report.Relocated`
    * `Session.Relocated`

  Two programs that run one after another do what a single
  program of both texts does:
    * `Session.run_append_newline`

  A fault tells its file and line only.  To tell the faults
  of the second text from others, this text is also run in a
  file of its own.
-/

namespace Scriptlet

open Grammar (parseProgram Derives)
open Scope (Distances resolveProgram)

namespace Session

/- A text that all stages before a run accept. -/
structure Sound (source file : String) : Prop where
  scans : Token.faults (Token.scan source file) = []
  parses : (parseProgram (Token.tokens (Token.scan source file)) 0).faults = []
  resolves :
    (resolveProgram (parseProgram (Token.tokens (Token.scan source file)) 0).value).faults = []

/- All stages accept: a verdict from a derivation. -/
theorem judge_of_derives {source file : String} {n n' : Nat} {body : List Stmt}
    (hScans : Token.faults (Token.scan source file) = [])
    (hParses : Derives False .declarations n (Token.body source file) body n')
    (hResolves : (resolveProgram body).faults = []) :
    judge false n source file = ⟨[], n', some (body, (resolveProgram body).found)⟩ := by
  have hParsed : parseProgram (Token.tokens (Token.scan source file)) n = ⟨body, n', []⟩ := by
    rw [Token.tokens_scan]
    exact hParses.parseProgram_eq rfl (Token.kind_body source file)
  simp only [judge, lexical, hScans, hParsed, grammatical, scoping, hResolves, List.map_nil]

end Session

/-
  Places in the file `own` become places in `file`, some
  lines further down.
-/
structure Relocation where
  own : String
  file : String
  lines : Nat

namespace Relocation

variable (r : Relocation)

def token (t : Token) : Token :=
  { t with
    line := if t.file = r.own then t.line + r.lines else t.line
    file := if t.file = r.own then r.file else t.file }

/- The faults of runs have moved, and no others. -/
def diagnostic : Diagnostic → Diagnostic
  | .runtime line file message =>
    .runtime
      (if file = r.own then line + r.lines else line)
      (if file = r.own then r.file else file)
      message
  | d => d

def answer : Session.Answer → Session.Answer
  | .errors taken => .errors (taken.map r.diagnostic)
  | answer => answer

def likeness : Likeness where
  token t t' := t' = r.token t
  node id id' := id' = id
  kind_eq h := by rw [h]; rfl
  lexeme_eq h := by rw [h]; rfl

theorem token_of_ne
    {t : Token}
    (h : t.file ≠ r.own) :
    r.token t = t := by
  simp only [token, if_neg h]

/- The tokens of a text are in its file. -/
theorem file_of_mem_body
    {source file : String}
    {t : Token}
    (h : t ∈ Token.body source file) :
    t.file = file := by
  rw [Token.body_eq] at h
  rcases List.mem_map.mp h with ⟨_, _, rfl⟩
  rfl

/- A text as it stands in the other file. -/
theorem map_body (source : String) :
    (Token.body source r.own).map r.token =
      (Token.body source r.file).map
        (Token.shift r.lines) := by
  rw [Token.body_eq, Token.body_eq, List.map_map, List.map_map]
  apply List.map_congr_left
  intro token _
  simp [Relocation.token, Token.located, Token.shift]

theorem isRuntime (d : Diagnostic) :
    (r.diagnostic d).isRuntime = d.isRuntime := by
  cases d <;> rfl

theorem diagnostic_of_static
    {d : Diagnostic}
    (h : d.isStatic = true) :
    r.diagnostic d = d := by
  cases d with
  | runtime => cases h
  | static => rfl
  | script => rfl

end Relocation

/- Everything that is reported has moved. -/
structure Report.Relocated
    (r : Relocation)
    (report report' : Report) : Prop where
  pending :
    report'.pending = report.pending.map r.diagnostic
  hadError : report'.hadError = report.hadError
  hadRuntimeError :
    report'.hadRuntimeError = report.hadRuntimeError
  latest :
    Option.Rel
      (fun text text' =>
        ∃ d : Diagnostic,
          text = d.text ∧ text' = (r.diagnostic d).text)
      report.latest report'.latest

namespace Report.Relocated

variable {r : Relocation} {report report' : Report}

theorem add
    (h : Report.Relocated r report report')
    (d : Diagnostic) :
    Report.Relocated r (report.add d)
      (report'.add (r.diagnostic d)) := by
  refine ⟨?_, ?_, ?_, .some ⟨d, rfl, rfl⟩⟩
  · simp only [Report.add, h.pending, List.map_append,
      List.map_singleton]
  · simp only [Report.add, h.hadError, r.isRuntime]
  · simp only [Report.add, h.hadRuntimeError, r.isRuntime]

/- Nothing moves that was told of other files. -/
theorem refl
    {P : Diagnostic → Prop}
    (hTells : report.Tells P)
    (hStays : ∀ d, P d → r.diagnostic d = d) :
    Report.Relocated r report report := by
  refine ⟨?_, rfl, rfl, ?_⟩
  · have hSame := List.map_congr_left fun d hMem =>
      hStays d (hTells.pending d hMem)
    exact (hSame.trans (List.map_id _)).symm
  · cases hLatest : report.latest with
    | none => exact .none
    | some text =>
      rcases hTells.latest text hLatest with ⟨d, hPlaced, rfl⟩
      exact .some ⟨d, rfl, by rw [hStays d hPlaced]⟩

end Report.Relocated

theorem Steady.relocated (r : Relocation) :
    Steady r.likeness (Report.Relocated r) where
  node h hOther := by
    rw [(h : _ = _), (hOther : _ = _)]
  fault h hFault := by
    cases hFault with
    | atToken cause hToken =>
      rw [(hToken : _ = _)]
      exact h.add _
  static {_ _ d} h hStatic := by
    have hAdd := h.add d
    rw [r.diagnostic_of_static hStatic] at hAdd
    exact hAdd
  take h := ⟨rfl, h.hadError, h.hadRuntimeError, h.latest⟩
  reset h := ⟨rfl, rfl, rfl, h.latest⟩
  hadError h := h.hadError
  hadRuntimeError h := h.hadRuntimeError

------------------------------------------------------------
-- Two Texts
------------------------------------------------------------

namespace Session

/- Soundness depends on no file and no first number. -/
theorem Sound.derives
    {source file : String}
    (h : Sound source file)
    (other : String)
    (n : Nat) :
    Token.faults (Token.scan source other) = [] ∧
      ∃ body n',
        Derives False .declarations n
            (Token.body source other) body n' ∧
          (resolveProgram body).faults = [] := by
  have hScans := h.scans
  rw [Token.scan, Token.faults_items] at hScans
  refine ⟨(Token.faults_items ..).mpr hScans, ?_⟩
  have hDerives :
      Derives False .declarations 0 (Token.body source file)
        _ _ :=
    (parseProgram_scan source file 0).mono (by simp [h.parses])
  let r : Relocation := ⟨file, other, 0⟩
  let l : Likeness :=
    { r.likeness with node := fun _ _ => True }
  rcases hDerives.exchange (g := r.token) (fun _ => rfl)
      (Token.kind_body source file) (l := l) (k := n)
      ⟨fun _ => rfl, fun _ _ => trivial⟩ with
    ⟨body, hBody, hAlike⟩
  have hSame :
      (Token.body source file).map r.token =
        Token.body source other :=
    (r.map_body source).trans (List.map_id _)
  rw [hSame, Nat.zero_add] at hBody
  have hFaults := (found_alike hAlike).2
  rw [h.resolves] at hFaults
  exact ⟨body, _, hBody, List.forall₂_nil_left_iff.mp hFaults⟩

section Texts

variable {a b file : String} {n n' : Nat} {body : List Stmt}

/- Distances are recorded for the nodes of a program only. -/
theorem found_below (h : Derives False .declarations n (Token.body a file) body n') :
    ∀ entry ∈ (resolveProgram body).found, n ≤ entry.1 := by
  have hFits : Grammar.Fits (.within (fun _ => True) (fun id => n ≤ id ∧ id < n'))
        id 0 n (Token.body a file) n' :=
    ⟨fun _ => ⟨rfl, trivial⟩, fun hFrom hTo => ⟨rfl, hFrom, hTo⟩⟩
  have hEntries := (found_alike (h.alike hFits)).1
  have hBoth := hEntries.imp fun entry entry' hEntry =>
    And.intro (hEntry.1.2.1 : n ≤ entry.1) hEntry
  exact ((List.forall₂_and_left _ _).mp hBoth).1

/-
  The statements of a text that has moved, after any other
  program.
-/
theorem moved_derives
    (r : Relocation)
    (h : Derives False .declarations n (Token.body b r.own)
      body n')
    (hFaults : (resolveProgram body).faults = []) :
    ∃ moved,
      Derives False .declarations n
          ((Token.body b r.file).map (Token.shift r.lines))
          moved n' ∧
        stmtsAlike r.likeness body moved ∧
        ∀ earlier : Scope.Walk, earlier.scopes = [] →
          resolveStmts {} moved earlier =
            ⟨[], earlier.found ++ (resolveProgram body).found,
              earlier.faults⟩ := by
  have hFits :
      Grammar.Fits r.likeness r.token 0 n
        (Token.body b r.own) n' :=
    ⟨fun _ => rfl, fun _ _ => rfl⟩
  rcases h.exchange (g := r.token) (fun _ => rfl)
      (Token.kind_body b r.own) hFits with
    ⟨moved, hMoved, hAlike⟩
  rw [r.map_body] at hMoved
  refine ⟨moved, hMoved, hAlike, fun earlier hScopes => ?_⟩
  rcases resolveProgram_alike hAlike earlier hScopes with
    ⟨found, faults, hWalk, hFound, hNone⟩
  have hSameFound : found = (resolveProgram body).found := by
    have hEqual := hFound.imp fun entry entry' hEntry =>
      (Prod.ext hEntry.1 hEntry.2 : entry' = entry).symm
    rw [List.forall₂_eq_eq_eq] at hEqual
    exact hEqual.symm
  rw [hFaults] at hNone
  rw [hWalk, hSameFound, List.forall₂_nil_left_iff.mp hNone,
    List.append_nil]

/-
  The verdict on two sound texts: the statements of both,
  those of the second one moved.
-/
theorem judge_append_newline
    (hA : Sound a file)
    (hB : Sound b file)
    {n₁ n₂ : Nat}
    {first moved : List Stmt}
    {found : List (Nat × Nat)}
    (hFirst :
      Derives False .declarations n (Token.body a file) first
        n₁)
    (hFaults : (resolveProgram first).faults = [])
    (hMoved :
      Derives False .declarations n₁
        ((Token.body b file).map
          (Token.shift (Token.newlines a.toList + 1)))
        moved n₂)
    (hWalk :
      ∀ earlier : Scope.Walk, earlier.scopes = [] →
        resolveStmts {} moved earlier =
          ⟨[], earlier.found ++ found, earlier.faults⟩) :
    judge false n (a ++ "\n" ++ b) file =
      ⟨[], n₂, some (first ++ moved,
        (resolveProgram first).found ++ found)⟩ := by
  have hBoth :
      resolveProgram (first ++ moved) =
        ⟨[], (resolveProgram first).found ++ found, []⟩ := by
    rw [resolveProgram, resolveStmts_append]
    refine (hWalk _ (resolveProgram_scopes first)).trans ?_
    rw [hFaults]
  have hDerives :
      Derives False .declarations n
        (Token.body (a ++ "\n" ++ b) file) (first ++ moved)
        n₂ := by
    rw [Token.body_append_newline hA.scans]
    exact hFirst.append hMoved
  have hJudge := judge_of_derives
    (Token.faults_append_newline hA.scans hB.scans) hDerives
    (by rw [hBoth])
  rw [hBoth] at hJudge
  exact hJudge

end Texts

variable {fuel : Nat}

/- Runs do not make a program wrong. -/
theorem interpret_hadError {policy : Eval.Policy}
    {ctx : Eval.Context} {stmts : List Stmt} {w w' : Eval.World} {report report' : Report}
    (h : Eval.interpret fuel policy ctx stmts w report = .ok (w', report')) :
    report'.hadError = report.hadError := by
  induction stmts generalizing w report with
  | nil =>
    cases h
    rfl
  | cons first others ih =>
    have hAdd : ∀ fault : Eval.Fault, (report.add fault.diagnostic).hadError = report.hadError := by
      intro fault
      simp [Report.add, Eval.Fault.diagnostic, Diagnostic.isRuntime]
    unfold Eval.interpret at h
    split at h
    · exact ih h
    · rename_i fault _ _
      split at h
      · cases h
        exact hAdd fault
      · exact (ih h).trans (hAdd fault)
    · cases h

/- The session in which an accepted program runs. -/
def ready (session : Session) (found : List (Nat × Nat)) (nextId : Nat) : Session :=
  { session with
    distances := session.distances.extend found
    nextId := nextId }

/- An accepted program is run. -/
theorem run_of_judge {session : Session} {source file : String}
    {n : Nat} {body : List Stmt} {found : List (Nat × Nat)}
    (hError : session.report.hadError = false)
    (h : judge false session.nextId source file = ⟨[], n, some (body, found)⟩) :
    session.run fuel source file =
      match (session.ready found n).interpret fuel body with
      | .ok next => .ok (next.runStatus, next)
      | .error reason => .error reason := by
  rw [run_eq, hError, h]
  rfl

/- How a run in a session ends, from the run itself. -/
theorem interpret_of_ok {session : Session} {body : List Stmt} {w : Eval.World}
    {report : Report}
    (h : Eval.interpret fuel session.policy session.context
      body session.world session.report = .ok (w, report)) : session.interpret fuel body =
      .ok { session with world := w, report := report } := by
  simp only [Session.interpret, h]

theorem interpret_of_error {session : Session} {body : List Stmt} {reason : Eval.Stop}
    (h : Eval.interpret fuel session.policy session.context
      body session.world session.report = .error reason) :
    session.interpret fuel body = .error reason := by
  simp only [Session.interpret, h]

/- Sessions that go on after faults run parts in order. -/
theorem interpret_append {session : Session} (hPolicy : session.policy = .proceed) (fuel : Nat)
    (body others : List Stmt) :
    session.interpret fuel (body ++ others) =
      match session.interpret fuel body with
      | .ok next => next.interpret fuel others
      | .error reason => .error reason := by
  unfold Session.interpret
  rw [hPolicy, Eval.interpret_append]
  cases Eval.interpret fuel .proceed session.context body session.world session.report with
  | ok result => rfl
  | error reason => rfl

/- Run a text, and then another one. -/
def runBoth
    (fuel : Nat)
    (session : Session)
    (first file second other : String) :
    Except Eval.Stop (Status × Session) :=
  match session.run fuel first file with
  | .ok (_, next) => next.run fuel second other
  | .error reason => .error reason

/- The file that the text of a step is in. -/
def Step.file? : Step → Option String
  | .run _ _ file => some file
  | .evaluate _ _ file => some file
  | _ => none

/- No step is in this file. -/
def Elsewhere (own : String) (steps : List Step) : Prop :=
  ∀ step ∈ steps, step.file? ≠ some own

namespace Elsewhere

variable {r : Relocation} {steps : List Step}

theorem token_eq
    (h : Elsewhere r.own steps)
    {token : Token}
    (hToken : Mentioned steps token) :
    r.token token = token := by
  rcases hToken with ⟨step, hStep, hMem⟩
  refine r.token_of_ne fun hSame => h step hStep ?_
  cases step with
  | run _ source file
  | evaluate _ source file =>
    have hFile : token.file = file := Relocation.file_of_mem_body hMem
    rw [← hSame, hFile]
    rfl
  | _ => cases hMem

theorem diagnostic_eq
    (h : Elsewhere r.own steps)
    {d : Diagnostic}
    (hPlaced : Placed steps d) :
    r.diagnostic d = d := by
  rcases hPlaced with hStatic | ⟨token, cause, hToken, rfl⟩
  · exact r.diagnostic_of_static hStatic
  · have hMoved := congrArg
      (fun t => (Eval.Fault.atToken t cause).diagnostic)
      (h.token_eq hToken)
    exact hMoved

/- The code of these steps stays where it is. -/
theorem within_le
    (h : Elsewhere r.own steps)
    (nodes : Nat → Prop) :
    (Likeness.within (Mentioned steps) nodes).Le
      r.likeness := by
  constructor
  · rintro t _ ⟨rfl, hToken⟩
    exact (h.token_eq hToken).symm
  · rintro id _ ⟨rfl, _⟩
    rfl

end Elsewhere

/-
  One run ends like another one whose faults have moved, and
  so do all later steps that are in other files.
-/
structure Relocated
    (r : Relocation)
    (result result' : Status × Session) : Prop where
  status : result'.1 = result.1
  host : result'.2.world.host = result.2.world.host
  report :
    Report.Relocated r result.2.report result'.2.report
  later (steps : List Step) :
    Elsewhere r.own steps →
      Eval.Agree
        (fun ends ends' =>
          ends'.1 = ends.1.map r.answer ∧
            ends'.2.world.host = ends.2.world.host ∧
            Report.Relocated r ends.2.report ends'.2.report)
        (result.2.perform steps)
        (result'.2.perform steps)

theorem Answer.Related.relocated
    {r : Relocation}
    {answer answer' : Answer}
    (h :
      Answer.Related (Report.Relocated r) answer answer') :
    r.answer answer = answer' := by
  cases h with
  | errors hReport =>
    exact congrArg Answer.errors hReport.pending.symm
  | _ => rfl

/- Sessions alike but for what has moved. -/
theorem Relocated.of_alike
    {r : Relocation}
    {result result' : Status × Session}
    (hStatus : result'.1 = result.1)
    (h : Alike r.likeness (Report.Relocated r) 0 result.2
      result'.2) :
    Relocated r result result' := by
  refine ⟨hStatus, h.world.host, h.report, ?_⟩
  intro steps hElsewhere
  have hTokens :
      ∀ step ∈ steps, ∀ token ∈ step.tokens,
        r.likeness.token token token :=
    fun step hStep token hMem =>
      (hElsewhere.token_eq ⟨step, hStep, hMem⟩).symm
  refine (perform_alike (Steady.relocated r)
    (fun _ => rfl) hTokens h).mono fun hEnds => ⟨?_, hEnds.2.world.host,
      hEnds.2.report⟩
  have hEqual := hEnds.1.imp fun _ _ => Answer.Related.relocated
  rw [← List.forall₂_map_left_iff, List.forall₂_eq_eq_eq]
    at hEqual
  exact hEqual.symm

/-
  What runs of the first text leave is alike, whether or not
  the distances of the second text are known: all code there
  is the code of this text or of earlier ones.
-/
theorem firstPart_alike
    {steps : List Step}
    {session : Session}
    (hReached : Reached steps session)
    {a b file own : String}
    {n₁ n₂ : Nat}
    {first second : List Stmt}
    (hFirst :
      Derives False .declarations session.nextId
        (Token.body a file) first n₁)
    (hSecond :
      Derives False .declarations n₁ (Token.body b own)
        second n₂)
    (fuel : Nat) :
    let found := (resolveProgram first).found
    let more := (resolveProgram second).found
    Eval.Agree
      (fun result result' =>
        Eval.World.Alike
            (.within
              (Mentioned (steps ++ [.run fuel a file]))
              (· < n₁))
            result.1 result'.1 ∧
          result'.2 = result.2)
      (Eval.interpret fuel session.policy
        (session.ready found n₁).context first session.world
        session.report)
      (Eval.interpret fuel session.policy
        (session.ready (found ++ more) n₂).context first
        session.world session.report) := by
  intro found more
  let below : Likeness :=
    .within (Mentioned (steps ++ [.run fuel a file]))
      (· < n₁)
  have hLe := hFirst.le
  have hWorld :
      Eval.World.Alike below session.world session.world := by
    refine hReached.owns.world.mono ⟨?_, ?_⟩
    · rintro token _ ⟨rfl, hToken⟩
      exact ⟨rfl, hToken.append _⟩
    · rintro id _ ⟨rfl, hBound⟩
      exact ⟨rfl, by omega⟩
  have hFits :
      Grammar.Fits below id 0 session.nextId
        (Token.body a file) n₁ :=
    ⟨fun hToken => ⟨rfl, .run fuel a file, by simp, hToken⟩,
      fun _ hTo => ⟨rfl, hTo⟩⟩
  have hBody : stmtsAlike below first first := by
    have hAlike := hFirst.alike hFits
    rw [Grammar.Phrase.mapped,
      hFirst.stmtsMap_id (Token.kind_body a file)] at hAlike
    exact hAlike
  have hTables : ∀ {id id'}, below.node id id' →
      (session.distances.extend (found ++ more))[id']? =
        (session.distances.extend found)[id]? := by
    rintro id _ ⟨rfl, hBound⟩
    rw [Distances.extend_append]
    refine Distances.extend_of_ne (fun entry hMem => ?_) _
    have hFrom := found_below hSecond entry hMem
    exact Nat.ne_of_gt (Nat.lt_of_lt_of_le hBound hFrom)
  have hFault
      {report report' : Report}
      {fault fault' : Eval.Fault}
      (hSame : report' = report)
      (hGuised : Eval.Fault.Guised below.guise fault fault') :
      report'.add fault'.diagnostic =
        report.add fault.diagnostic := by
    rw [hSame, (fault_within hGuised.alike).1]
  have hAgree :=
    Eval.interpret_guised
      (Q := fun report report' => report' = report) hFault
      fuel session.policy (hWorld.context hTables) hBody
      hWorld.guised (rfl : session.report = session.report)
  apply hAgree.mono
  rintro _ _ ⟨⟨_, hLeads, hNext⟩, hBoth⟩
  exact ⟨hWorld.reached hLeads hNext, hBoth⟩

section Both

variable {steps : List Step} {session : Session}
variable {a b file own : String} {n₁ n₂ : Nat}
variable {first second : List Stmt}
variable {found : List (Nat × Nat)}

/- The second text is run in what the first one leaves. -/
theorem runBoth_eq
    (hError : session.report.hadError = false)
    (hJudge :
      judge false session.nextId a file =
        ⟨[], n₁, some (first, found)⟩)
    (second other : String) :
    session.runBoth fuel a file second other =
      match (session.ready found n₁).interpret fuel first with
      | .ok next => next.run fuel second other
      | .error reason => .error reason := by
  rw [runBoth, run_of_judge hError hJudge]
  cases (session.ready found n₁).interpret fuel first with
  | ok next => rfl
  | error reason => rfl

variable {next : Session}
variable (hError : session.report.hadError = false)
variable
  (hNext :
    (session.ready found n₁).interpret fuel first =
      .ok next)

include hError hNext

theorem reached_first
    (hReached : Reached steps session)
    (hJudge :
      judge false session.nextId a file =
        ⟨[], n₁, some (first, found)⟩) :
    Reached (steps ++ [.run fuel a file]) next := by
  have hStep :
      session.step (.run fuel a file) =
        .ok (.status next.runStatus, next) := by
    rw [Session.step, run_of_judge hError hJudge, hNext]
  exact .next hReached hStep

theorem first_hadError : next.report.hadError = false := by
  unfold Session.interpret at hNext
  split at hNext
  · rename_i hRun
    cases hNext
    exact (interpret_hadError hRun).trans hError
  · cases hNext

end Both

section Places

variable {steps : List Step} {session : Session}
variable {a b file own : String}
variable (hReached : Reached steps session)
variable (hError : session.report.hadError = false)
variable (hA : Sound a file) (hB : Sound b file)
variable
  (hOwn : Elsewhere own (steps ++ [.run fuel a file]))

include hReached hError hA hB hOwn

/- The second text in its own file, or in the common one. -/
theorem runBoth_relocated :
    Eval.Agree (Relocated ⟨own, file, 0⟩)
      (session.runBoth fuel a file b own)
      (session.runBoth fuel a file b file) := by
  let r : Relocation := ⟨own, file, 0⟩
  rcases hA.derives file session.nextId with
    ⟨hScansA, first, n₁, hFirst, hFirstFaults⟩
  rcases hB.derives own n₁ with
    ⟨hScansOwn, second, n₂, hSecond, hSecondFaults⟩
  rcases moved_derives r hSecond hSecondFaults with
    ⟨moved, hMoved, hAlike, hWalk⟩
  have hResolved :
      resolveProgram moved =
        ⟨[], (resolveProgram second).found, []⟩ :=
    hWalk {} rfl
  have hSame :
      (Token.body b file).map (Token.shift 0) =
        Token.body b file :=
    List.map_id _
  rw [hSame] at hMoved
  have hJudge := judge_of_derives hScansA hFirst hFirstFaults
  have hJudgeOwn :=
    judge_of_derives hScansOwn hSecond hSecondFaults
  have hJudgeFile :=
    judge_of_derives hB.scans hMoved (by rw [hResolved])
  rw [hResolved] at hJudgeFile
  rw [runBoth_eq hError hJudge, runBoth_eq hError hJudge]
  cases hNext : (session.ready (resolveProgram first).found
      n₁).interpret fuel first with
  | error reason => exact .error reason
  | ok next =>
    have hOwns :=
      (reached_first hError hNext hReached hJudge).owns
    have hClear := first_hadError hError hNext
    have hId : n₁ = next.nextId := (interpret_table hNext).1.symm
    rw [hId] at hJudgeOwn hJudgeFile
    dsimp only
    rw [run_of_judge hClear hJudgeOwn,
      run_of_judge hClear hJudgeFile]
    have hReady :
        Alike r.likeness (Report.Relocated r) 0
          (next.ready (resolveProgram second).found n₂)
          (next.ready (resolveProgram second).found n₂) :=
      ⟨hOwns.world.mono (hOwn.within_le _),
        fun hNode => by rw [(hNode : _ = _)],
        .refl hOwns.report fun _ => hOwn.diagnostic_eq, rfl, rfl⟩
    exact (hReady.runs (.relocated r) fuel hAlike).mono
      fun hEnds => .of_alike hEnds.1 hEnds.2

/- Both texts apart, or as one text. -/
theorem run_relocated (hPolicy : session.policy = .proceed) :
    Eval.Agree
      (Relocated ⟨own, file, Token.newlines a.toList + 1⟩)
      (session.runBoth fuel a file b own)
      (session.run fuel (a ++ "\n" ++ b) file) := by
  let r : Relocation :=
    ⟨own, file, Token.newlines a.toList + 1⟩
  rcases hA.derives file session.nextId with
    ⟨hScansA, first, n₁, hFirst, hFirstFaults⟩
  rcases hB.derives own n₁ with
    ⟨hScansOwn, second, n₂, hSecond, hSecondFaults⟩
  rcases moved_derives r hSecond hSecondFaults with
    ⟨moved, hMoved, hAlike, hWalk⟩
  have hJudge := judge_of_derives hScansA hFirst hFirstFaults
  have hJudgeOwn :=
    judge_of_derives hScansOwn hSecond hSecondFaults
  have hJudgeBoth :=
    judge_append_newline hA hB hFirst hFirstFaults hMoved hWalk
  have hBothPolicy :
      (session.ready ((resolveProgram first).found ++
        (resolveProgram second).found) n₂).policy =
          .proceed :=
    hPolicy
  rw [runBoth_eq hError hJudge, run_of_judge hError hJudgeBoth,
    interpret_append hBothPolicy]
  rcases (firstPart_alike hReached hFirst hSecond fuel).ends
    with ⟨⟨w, report⟩, ⟨w', report'⟩, hOk, hOk', hWorld, hSame⟩ |
      ⟨reason, hStop, hStop'⟩
  · obtain rfl : report' = report := hSame
    have hNext :
        (session.ready (resolveProgram first).found
          n₁).interpret fuel first =
            .ok ⟨w, session.distances.extend
              (resolveProgram first).found, report', n₁,
              session.policy⟩ :=
      interpret_of_ok hOk
    have hOwns :=
      (reached_first hError hNext hReached hJudge).owns
    have hClear := first_hadError hError hNext
    rw [hNext, interpret_of_ok hOk']
    dsimp only
    rw [run_of_judge hClear hJudgeOwn]
    have hDistances {id id' : Nat} (hNode : id' = id) :=
      congrArg₂ (fun (table : Distances) i => table[i]?)
        (session.distances.extend_append
          (resolveProgram first).found
          (resolveProgram second).found) hNode
    have hReady :
        Alike r.likeness (Report.Relocated r) 0
          (Session.ready
            ⟨w, session.distances.extend
              (resolveProgram first).found, report', n₁,
              session.policy⟩
            (resolveProgram second).found n₂)
          ⟨w', _, report', n₂, session.policy⟩ :=
      ⟨hWorld.mono (hOwn.within_le _), hDistances,
        .refl hOwns.report fun _ => hOwn.diagnostic_eq, rfl, rfl⟩
    exact (hReady.runs (.relocated r) fuel hAlike).mono
      fun hEnds => .of_alike hEnds.1 hEnds.2
  · rw [interpret_of_error hStop, interpret_of_error hStop']
    exact .error reason

end Places

/-
  Running line by line: from a session that was reached, that
  has no static fault pending and goes on after runtime
  faults, running one sound text and then another one and
  running both as one text end in the same way, with the same
  status, printed lines and rest of the input.  To see which
  faults are those of the second text, it is also run in a
  file of its own.  Reports and the answers to later steps
  are then what they are in that run, with the faults of that
  file moved to the common file: on their lines if the texts
  were run apart, and down by the lines of the first text if
  they were run as one.
-/
theorem run_append_newline
    {steps : List Step}
    {session : Session}
    (hReached : Reached steps session)
    (hError : session.report.hadError = false)
    (hPolicy : session.policy = .proceed)
    {a b file : String}
    (hA : Sound a file)
    (hB : Sound b file)
    (fuel : Nat)
    {own : String}
    (hOwn : Elsewhere own (steps ++ [.run fuel a file])) :
    Eval.Agree
      (fun apart together =>
        together.1 = apart.1 ∧
          together.2.world.host = apart.2.world.host ∧
          ∃ marked,
            session.runBoth fuel a file b own = .ok marked ∧
              Relocated ⟨own, file, 0⟩ marked apart ∧
              Relocated
                ⟨own, file, Token.newlines a.toList + 1⟩
                marked together)
      (session.runBoth fuel a file b file)
      (session.run fuel (a ++ "\n" ++ b) file) := by
  have hApart :=
    runBoth_relocated hReached hError hA hB hOwn
  have hTogether :=
    run_relocated hReached hError hA hB hOwn hPolicy
  rcases hApart.ends with
    ⟨marked, apart, hMarked, hOk, hMoved⟩ |
      ⟨reason, hMarked, hStop⟩
  · rw [hMarked] at hTogether
    rw [hOk, hMarked]
    generalize session.run fuel _ file = ended at hTogether
    cases hTogether with
    | ok hBoth =>
      exact .ok ⟨hBoth.status.trans hMoved.status.symm,
        hBoth.host.trans hMoved.host.symm, marked, rfl,
        hMoved, hBoth⟩
  · rw [hMarked] at hTogether
    rw [hStop]
    generalize session.run fuel _ file = ended at hTogether
    cases hTogether with
    | error => exact .error reason

/-
  The second text fails in a function of the first one and
  then at its own end, where the fault has moved.
-/
theorem run_two_lines :
    let session := Session.start {} .proceed
    let a := "fn f() \x7b z; \x7d"
    let b := "f(); y;"
    let inside : Diagnostic :=
      .runtime 1 "lines" "Undefined variable 'z'."
    let last (line : Nat) : Diagnostic :=
      .runtime line "lines" "Undefined variable 'y'."
    ∃ apart together,
      session.runBoth 9 a "lines" b "lines" = .ok apart ∧
        session.run 9 (a ++ "\n" ++ b) "lines" =
          .ok together ∧
        apart.2.report.pending = [inside, last 1] ∧
        together.2.report.pending = [inside, last 2] := by
  intro session a b inside last
  have hA : Sound a "lines" :=
    ⟨by decide +kernel, by decide +kernel, by decide +kernel⟩
  have hB : Sound b "lines" :=
    ⟨by decide +kernel, by decide +kernel, by decide +kernel⟩
  have hOwn : Elsewhere "own" ([] ++ [.run 9 a "lines"]) := by
    intro step hStep
    rw [List.mem_singleton.mp hStep]
    decide
  have hPending :
      (session.runBoth 9 a "lines" b "own").toOption.map
          (·.2.report.pending) =
        some [inside,
          .runtime 1 "own" "Undefined variable 'y'."] := by
    decide +kernel
  rcases (run_append_newline (.start {} .proceed) rfl rfl hA hB
      9 hOwn).ends with
    ⟨apart, together, hApart, hTogether, -, -, marked, hMarked,
      hMoved, hBoth⟩ | ⟨reason, hStop, -⟩
  · rw [hMarked] at hPending
    have hFaults := Option.some.inj hPending
    refine ⟨apart, together, hApart, hTogether, ?_, ?_⟩
    · rw [hMoved.report.pending]
      exact congrArg (List.map _) hFaults
    · rw [hBoth.report.pending]
      exact (congrArg (List.map _) hFaults).trans
        (by decide +kernel)
  · have hEnds :
        (session.runBoth 9 a "lines" b "lines").toOption.isSome =
          true := by
      decide +kernel
    rw [hStop] at hEnds
    cases hEnds

end Session

end Scriptlet
