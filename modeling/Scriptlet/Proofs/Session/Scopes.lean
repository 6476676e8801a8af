import Scriptlet.Proofs.Eval.Advance
import Scriptlet.Proofs.Eval.Scoped
import Scriptlet.Proofs.Session.Verdict

/-
  Scopes, frames and the heap of a session.

  Key declarations include:
    * `Session.sites`
    * `Session.watch`
    * `Session.Logged`
    * `Session.Scoped`
    * `Session.OnCourse`

  A session is watched: what its steps run is traced, and
  the sites of all programs are collected.  Whenever a
  reference node is visited, in whatever step, the frames
  are those of the scopes around the node.  All that a
  session runs is one course from the initial heap, along
  which the heap is sane and only grows:
    * `Session.visits_match_sites`
    * `Session.heap_only_grows`
-/

namespace Scriptlet

namespace Session

open Eval (History Matches Tabled Traced Witnessed)
open Grammar (Numbered)
open Scope (Distances Site)

/- The sites of what a step runs. -/
def sites (session : Session) : Step → List Site
  | .run _ source file =>
    let verdict := judge session.report.hadError session.nextId source file
    match verdict.accepted with
    | some (body, _) => Scope.programSites body
    | none => []
  | .evaluate _ source file =>
    let verdict := judgeExpression session.report.hadError session.nextId source file
    match verdict.accepted with
    | some (expr, _) => Scope.expressionSites expr
    | none => []
  | _ => []

/- Take a step, and trace what it runs. -/
def watch (session : Session) (history : History) :
    Step → History × Except Eval.Stop (Answer × Session)
  | .run fuel source file =>
    let verdict := judge session.report.hadError session.nextId source file
    match verdict.accepted with
    | none => (history, .ok (.status .staticError, session.judged verdict))
    | some (body, found) =>
      let ready := (session.judged verdict).extended found
      match Traced.interpret fuel ready.policy
          ready.context body history ready.world ready.report with
      | (history, .ok (world, report)) =>
        let next := { ready with world := world, report := report }
        (history, .ok (.status next.runStatus, next))
      | (history, .error reason) => (history, .error reason)
  | .evaluate fuel source file =>
    let verdict := judgeExpression session.report.hadError session.nextId source file
    match verdict.accepted with
    | none => (history, .ok (.value none, session.judged verdict))
    | some (expr, found) =>
      let ready := (session.judged verdict).extended found
      match Traced.evaluate fuel ready.context expr history ready.world with
      | (history, .done value world) =>
        let next := { ready with world := world }
        (history, .ok (.value (some (next.shown value)), next))
      | (history, .failed fault world) =>
        (history, .ok
            (.value none,
              { ready.reporting [fault.diagnostic] with
                world := world }))
      | (history, .stopped reason) => (history, .error reason)
  | other => (history, session.step other)

/- A step that is watched is the step itself. -/
theorem watch_step (session : Session) (history : History) (step : Step) :
    (session.watch history step).2 = session.step step := by
  cases step with
  | run fuel source file =>
    simp only [watch, Session.step, run_eq]
    generalize judge session.report.hadError session.nextId source file = verdict
    cases verdict.accepted with
    | none => rfl
    | some accepted =>
      rcases accepted with ⟨body, found⟩
      simp only [Session.interpret]
      rw [← Eval.interpret_traces fuel _ _ body history]
      generalize Traced.interpret fuel _ _ body history _ _ = ending
      rcases ending with ⟨history', _ | ⟨world, report⟩⟩
      · rfl
      · rfl
  | evaluate fuel source file =>
    simp only [watch, Session.step, evaluate_eq]
    generalize judgeExpression session.report.hadError session.nextId source file = verdict
    cases verdict.accepted with
    | none => rfl
    | some accepted =>
      rcases accepted with ⟨expr, found⟩
      dsimp only
      rw [← ((Eval.tracesAll fuel).evaluate _ expr).outcome history]
      generalize Traced.evaluate fuel _ expr history _ = ending
      rcases ending with ⟨history', outcome⟩
      cases outcome with
      | done value world => rfl
      | failed fault world => rfl
      | stopped reason => rfl
  | _ => rfl

/-
  What has been seen of a session: the sites of all that has
  run, and the history of all runs.
-/
inductive Logged : List Step → List Site → History → Session → Prop where
  | start (host : Host) (policy : Eval.Policy) : Logged [] [] [] (.start host policy)
  | next {steps sites history session step history' answer next} :
      Logged steps sites history session → session.watch history step =
        (history', .ok (answer, next)) →
      Logged (steps ++ [step]) (sites ++ session.sites step) history' next

variable {steps : List Step}

theorem Reached.logged {session : Session} (h : Reached steps session) :
    ∃ sites history, Logged steps sites history session := by
  induction h with
  | start host policy => exact ⟨[], [], .start host policy⟩
  | @next _ session step answer next _ hStep ih =>
    rcases ih with ⟨sites, history, hLogged⟩
    have hWatch : session.watch history step =
          ((session.watch history step).1, .ok (answer, next)) :=
      Prod.ext rfl ((session.watch_step history step).trans hStep)
    exact ⟨_, _, hLogged.next hWatch⟩

/-
  Something is accepted with new sites, numbered in order.
  If they are in `P`, then it is known by what owned sites
  in `P` are in.
-/
structure Accepted {α : Type} (n : Nat) (verdict : Verdict α) (found : List (Nat × Nat))
    (new : List Site) (Known : (Site → Prop) → Prop) : Prop where
  static : ∀ d ∈ verdict.reported, d.isStatic = true
  found : found = new.filterMap Site.record?
  numbered : Numbered n verdict.nextId (new.map Site.reference)
  known {P Q : Site → Prop} : (∀ site ∈ new, P site) → (∀ site, site.OwnedIn P → Q site) → Known Q

section

variable {hadError : Bool} {n : Nat} {source file : String} {found : List (Nat × Nat)}

theorem judge_accepted {body : List Stmt}
    (h : (judge hadError n source file).accepted = some (body, found)) :
    Accepted n (judge hadError n source file) found (Scope.programSites body)
      fun P => stmtsKnown P [] body [] := by
  rcases (judge_fair ..).good h with ⟨_, hFound, hResolved, hDerives⟩
  refine ⟨(judge_fair ..).static, hFound.trans (Scope.resolveProgram_found hResolved), ?_,
    fun hSites hOwned => stmtsKnown_mono hOwned body (judge_settled h hSites).1⟩
  rw [Scope.programSites_references]
  exact hDerives.numbered

theorem judgeExpression_accepted {expr : Expr}
    (h : (judgeExpression hadError n source file).accepted = some (expr, found)) :
    Accepted n (judgeExpression hadError n source file) found (Scope.expressionSites expr)
      fun P => expr.Known P [] [] := by
  rcases (judgeExpression_fair ..).good h with ⟨_, hFound, hResolved, hDerives⟩
  refine ⟨(judgeExpression_fair ..).static,
    hFound.trans (Scope.resolveExpression_found hResolved), ?_,
    fun hSites hOwned => Expr.Known.mono hOwned expr (judgeExpression_settled h hSites).1⟩
  rw [Scope.expressionSites_references]
  exact hDerives.numbered

end

/-
  All code in a session is where it belongs, and the table
  has the distances of its reference nodes.
-/
structure Scoped (sites : List Site) (history : History) (session : Session) : Prop where
  sound : Eval.Sound (· ∈ sites) ⟨history, session.world.heap⟩
  globals : Eval.Fits ⟨history, session.world.heap⟩ [] [] Heap.globals
  table : Tabled (· ∈ sites) session.distances
  numbered : Numbered 0 session.nextId (sites.map Site.reference)
  unused : ∀ id, session.nextId ≤ id → session.distances[id]? = none

namespace Scoped

variable {session : Session} {seen : List Site} {history : History}

theorem start (host : Host) (policy : Eval.Policy) : Scoped [] [] (.start host policy) where
  sound := {
    functions := fun closure hMem => absurd hMem (Array.not_mem_empty closure)
    methods := fun blueprint hMem => absurd hMem (Array.not_mem_empty blueprint)
    events := fun _ hMem => by cases hMem
    visits := fun _ _ _ _ hPrefix =>
      absurd (List.prefix_nil.mp hPrefix)
        (List.append_ne_nil_of_right_ne_nil _ (List.cons_ne_nil _ _)) }
  globals := .globals Nat.zero_lt_one rfl
  table := fun _ hSite => by cases hSite
  numbered := .nil (Nat.le_refl 0)
  unused := fun _ _ => rfl

section

variable (h : Scoped seen history session)

include h

variable {α : Type} {verdict : Verdict α}

/- A verdict may have used up node numbers. -/
theorem judged (hLe : session.nextId ≤ verdict.nextId) :
    Scoped seen history (session.judged verdict) where
  sound := h.sound
  globals := h.globals
  table := h.table
  numbered := by
    have hMore := h.numbered.append (.nil hLe)
    rw [List.append_nil] at hMore
    exact hMore
  unused := fun id hId => h.unused id (Nat.le_trans hLe hId)

/- The sites of a program are added, with their distances. -/
theorem extended {new : List Site}
    (hNew : Numbered session.nextId verdict.nextId (new.map Site.reference)) :
    Scoped (seen ++ new) history
      ((session.judged verdict).extended (new.filterMap Site.record?)) where
  sound := h.sound.mono fun _ => List.mem_append_left new
  globals := h.globals
  table := by
    intro site hSite
    rcases List.mem_append.mp hSite with hOld | hSite
    · rw [← h.table site hOld]
      refine Distances.extend_other (fun hMem => ?_) _
      rcases List.mem_map.mp hMem with ⟨other, hOther, hSame⟩
      have hBelow := h.numbered.bounds _ (List.mem_map_of_mem hOld)
      have hAbove := hNew.bounds _ (List.mem_map_of_mem hOther)
      omega
    · have hDistinct := hNew.distinct
      rw [List.map_map] at hDistinct
      refine Distances.extend_sites hDistinct ?_ hSite
      intro other hOther
      have hBounds := hNew.bounds _ (List.mem_map_of_mem hOther)
      exact h.unused _ hBounds.1
  numbered := by
    rw [List.map_append]
    exact h.numbered.append hNew
  unused := by
    intro id hId
    have hLe : verdict.nextId ≤ id := hId
    rw [← h.unused id (Nat.le_trans hNew.le hLe)]
    refine Distances.extend_other (fun hMem => ?_) _
    rcases List.mem_map.mp hMem with ⟨other, hOther, hSame⟩
    have hBounds := hNew.bounds _ (List.mem_map_of_mem hOther)
    omega

/- Code at top level may run. -/
theorem stands :
    Eval.Stands session.distances
      ⟨history, session.world.heap⟩ session.context [] [] := ⟨rfl, h.globals⟩

/- The world has moved on in a run. -/
theorem later {history' : History} {world : Eval.World}
    (hLeads : Eval.Moment.Leads ⟨history, session.world.heap⟩ ⟨history', world.heap⟩)
    (hSound : Eval.Sound (· ∈ seen) ⟨history', world.heap⟩) (report : Report) :
    Scoped seen history' { session with world := world, report := report } where
  sound := hSound
  globals := h.globals.later hLeads
  table := h.table
  numbered := h.numbered
  unused := h.unused

end

/- What is accepted may run. -/
theorem accept (h : Scoped seen history session) {α : Type} {verdict : Verdict α}
    {found : List (Nat × Nat)} {new : List Site} {Known : (Site → Prop) → Prop}
    (hAccepted : Accepted session.nextId verdict found new Known) :
    Scoped (seen ++ new) history ((session.judged verdict).extended found) ∧
      Known (· ∈ seen ++ new) := by
  rw [hAccepted.found]
  exact ⟨h.extended hAccepted.numbered,
    hAccepted.known (fun _ => List.mem_append_right seen) fun _ => And.left⟩

/- No two sites have the same node. -/
theorem distinct (h : Scoped seen history session) : (seen.map (·.reference.id)).Nodup := by
  have hDistinct := h.numbered.distinct
  rw [List.map_map] at hDistinct
  exact hDistinct

/-
  What a step visits is known, and what it leaves is scoped.
-/
structure Proceeds (known : List Site)
    (ending : History × Except Eval.Stop (Answer × Session)) : Prop where
  distinct : (known.map (·.reference.id)).Nodup
  visits : Witnessed (· ∈ known) ending.1
  leaves : ∀ answer next, ending.2 = .ok (answer, next) → Scoped known ending.1 next

variable (h : Scoped seen history session)

include h

/- Nothing is run. -/
theorem idle {answer : Answer} {next : Session} (hNext : Scoped seen history next) :
    Proceeds (seen ++ []) (history, .ok (answer, next)) := by
  rw [List.append_nil]
  refine ⟨h.distinct, h.sound.visits, ?_⟩
  intro answer' next' hEnd
  cases hEnd
  exact hNext

theorem watch_run (fuel : Nat) (source file : String) :
    Proceeds (seen ++ session.sites (.run fuel source file))
      (session.watch history (.run fuel source file)) := by
  simp only [watch, Session.sites]
  cases hAccepted : (judge session.report.hadError session.nextId source file).accepted with
  | none => exact h.idle (h.judged (judge_fair ..).le)
  | some accepted =>
    rcases accepted with ⟨body, found⟩
    rcases h.accept (judge_accepted hAccepted) with ⟨hReady, hKnown⟩
    dsimp only
    generalize (session.judged _).extended _ = ready at hReady ⊢
    have hKeeps :=
      Eval.interpret_keeps hReady.table fuel ready.policy
        hReady.sound hReady.stands hKnown ready.world.host ready.report
    generalize Traced.interpret fuel ready.policy ready.context body
        history ready.world ready.report = ended at hKeeps ⊢
    rcases ended with ⟨history', _ | ⟨world, report⟩⟩
    · refine ⟨hReady.distinct, hKeeps.1, ?_⟩
      intro answer next hEnd
      cases hEnd
    · refine ⟨hReady.distinct, hKeeps.1, ?_⟩
      intro answer next hEnd
      cases hEnd
      rcases hKeeps.2 world report rfl with ⟨hLeads, hSound⟩
      exact hReady.later hLeads hSound report

theorem watch_evaluate (fuel : Nat) (source file : String) :
    Proceeds (seen ++ session.sites (.evaluate fuel source file))
      (session.watch history (.evaluate fuel source file)) := by
  simp only [watch, Session.sites]
  cases hAccepted :
      (judgeExpression session.report.hadError session.nextId source file).accepted with
  | none => exact h.idle (h.judged (judgeExpression_fair ..).le)
  | some accepted =>
    rcases accepted with ⟨expr, found⟩
    rcases h.accept (judgeExpression_accepted hAccepted) with ⟨hReady, hKnown⟩
    dsimp only
    generalize (session.judged _).extended _ = ready at hReady ⊢
    have hKeeps :=
      ((Eval.keepsAll hReady.table fuel).evaluate
        hReady.sound hReady.stands hKnown).kept ready.world.host
    change Eval.Kept _ _ _ (Traced.evaluate fuel ready.context expr history ready.world) at hKeeps
    generalize Traced.evaluate fuel ready.context expr history ready.world = ended at hKeeps ⊢
    cases hKeeps with
    | done hLeads hSound _ =>
      refine ⟨hReady.distinct, hSound.visits, ?_⟩
      intro answer next hEnd
      cases hEnd
      exact hReady.later hLeads hSound ready.report
    | failed hLeads hSound =>
      refine ⟨hReady.distinct, hSound.visits, ?_⟩
      intro answer next hEnd
      cases hEnd
      exact hReady.later hLeads hSound _
    | stopped hVisits =>
      refine ⟨hReady.distinct, hVisits, ?_⟩
      intro answer next hEnd
      cases hEnd

/- One step. -/
theorem watch_proceeds (step : Step) :
    Proceeds (seen ++ session.sites step) (session.watch history step) := by
  cases step with
  | run fuel source file => exact h.watch_run fuel source file
  | evaluate fuel source file => exact h.watch_evaluate fuel source file
  | resetErrors
  | takeErrors
  | withHost host => exact h.idle ⟨h.sound, h.globals, h.table, h.numbered, h.unused⟩

end Scoped

/- Every step. -/
theorem Logged.scoped {seen : List Site} {history : History}
    {session : Session} (h : Logged steps seen history session) : Scoped seen history session := by
  induction h with
  | start host policy => exact .start host policy
  | @next _ _ _ _ step _ _ _ _ hWatch ih =>
    have hNext := (ih.watch_proceeds step).leaves
    rw [hWatch] at hNext
    exact hNext _ _ rfl

/-
  In every session and every step, whenever a reference node
  is visited, it is the node of a single site of a program,
  and the frames are those of the scopes open at that site.
-/
theorem visits_match_sites
    {steps : List Step}
    {session : Session}
    (h : Reached steps session) :
    (∃ seen history, Logged steps seen history session) ∧
      ∀ seen history, Logged steps seen history session →
        ∀ step,
          let known := seen ++ session.sites step
          let ending := session.watch history step
          ending.2 = session.step step ∧
            (known.map (·.reference.id)).Nodup ∧
              ∀ before reference ctx heap,
                before ++ [.visited reference ctx heap] <+:
                    ending.1 →
                  ∃ site ∈ known,
                    site.reference = reference ∧
                      Matches ⟨before, heap⟩ ctx site := by
  refine ⟨h.logged, fun seen history hLogged step => ?_⟩
  have hProceeds := hLogged.scoped.watch_proceeds step
  exact ⟨session.watch_step history step,
    hProceeds.distinct, hProceeds.visits⟩

def isSuperVisit : Eval.Event → Bool
  | .visited reference _ _ => reference.role = .superMethod
  | _ => false

/- A method that calls the one it overrides. -/
theorem super_visit_matches_site :
    let session := Session.start {} .halt
    let step :=
      Step.run 20
        ("class A { m() {} } " ++
          "class B < A { m() { super.m(); } } B().m();")
        "classes"
    Reached [] session ∧
      ∃ before reference ctx heap,
        before ++ [.visited reference ctx heap] <+:
            (session.watch [] step).1 ∧
          ∃ site ∈ session.sites step,
            site.reference = reference ∧
              reference.role = .superMethod ∧
                site.kinds = [.function, .self, .superclass] ∧
                  Matches ⟨before, heap⟩ ctx site := by
  intro session step
  have hReached : Reached [] session := .start {} .halt
  have hVisit :
      (session.watch [] step).1.any isSuperVisit = true := by
    decide +kernel
  have hKinds :
      ∀ site ∈ session.sites step,
        site.reference.role = .superMethod →
          site.kinds = [.function, .self, .superclass] := by
    decide +kernel
  have hVisits :=
    ((visits_match_sites hReached).2 [] []
      (.start {} .halt) step).2.2
  rcases List.any_eq_true.mp hVisit with
    ⟨event, hMem, hRole⟩
  cases event with
  | visited reference ctx heap =>
      have hRole := of_decide_eq_true hRole
      rcases List.append_of_mem hMem with
        ⟨before, rest, hSplit⟩
      have hPrefix :
          before ++ [.visited reference ctx heap] <+:
            (session.watch [] step).1 :=
        ⟨rest, by rw [hSplit, List.append_assoc]; rfl⟩
      rcases hVisits before reference ctx heap hPrefix with
        ⟨site, hSite, rfl, hMatches⟩
      exact ⟨hReached, before, site.reference, ctx, heap,
        hPrefix, site, hSite, rfl, hRole,
        hKinds site hSite hRole, hMatches⟩
  | _ => cases hRole

end Session

------------------------------------------------------------
-- Steps of a Session
------------------------------------------------------------

namespace Session

open Eval (Course Event Happens History Moment Ready Traced)

/- Nothing has happened yet. -/
def first : Moment := ⟨[], Heap.initial⟩

/-
  What has been recorded is a course, to the heap that is
  left if there is one.
-/
def TakesCourse {α : Type} (m : Moment) (heap : α → Heap)
    (ending : History × Except Eval.Stop α) : Prop :=
  ∃ last, Course m last ∧ last.history = ending.1 ∧
    ∀ left, ending.2 = .ok left → heap left = last.heap

/- The heap of a session after a step. -/
abbrev heapAfter (left : Answer × Session) : Heap := left.2.world.heap

variable {m : Moment}

theorem interpret_takesCourse (fuel : Nat) (policy : Eval.Policy)
    {ctx : Eval.Context} (body : List Stmt) (h : Ready m ctx) (host : Host) (report : Report) :
    TakesCourse m (fun left => left.1.heap)
      (Traced.interpret fuel policy ctx body m.history ⟨m.heap, host⟩ report) := by
  induction body generalizing m host report with
  | nil => exact ⟨m, .refl, rfl, by rintro _ ⟨⟩; rfl⟩
  | cons stmt others ih =>
    have hFirst := ((Eval.advancesAll fuel).execute h stmt).advanced host
    unfold Traced.interpret
    generalize Traced.execute fuel ctx stmt m.history ⟨m.heap, host⟩ = ending at hFirst
    cases hFirst with
    | @done _ _ w hCourse =>
      rcases ih (h.later hCourse) w.host report with ⟨last, hRest, hLast⟩
      exact ⟨last, hCourse.trans hRest, hLast⟩
    | @failed _ fault w hCourse =>
      cases policy with
      | halt => exact ⟨_, hCourse, rfl, by rintro _ ⟨⟩; rfl⟩
      | proceed =>
        rcases ih (h.later hCourse) w.host (report.add fault.diagnostic) with ⟨last, hRest, hLast⟩
        exact ⟨last, hCourse.trans hRest, hLast⟩
    | stopped hCourse => exact ⟨_, hCourse, rfl, by rintro _ ⟨⟩⟩

variable {session : Session}

/- Nothing is run. -/
theorem takesCourse_idle {next : Session} {answer : Answer}
    (history : History) (hHeap : next.world.heap = session.world.heap) :
    TakesCourse ⟨history, session.world.heap⟩ heapAfter (history, .ok (answer, next)) :=
  ⟨_, .refl, rfl, by rintro _ ⟨⟩; exact hHeap⟩

/- Code at top level may run. -/
theorem context_ready (h : session.world.heap.Sane)
    (history : History) : Ready ⟨history, session.world.heap⟩ session.context := ⟨h, h.globals⟩

theorem watch_takesCourse (session : Session) (history : History)
    (h : session.world.heap.Sane) (step : Step) :
    TakesCourse ⟨history, session.world.heap⟩ heapAfter (session.watch history step) := by
  cases step with
  | run fuel source file =>
    simp only [watch]
    split
    · exact takesCourse_idle history rfl
    · rename_i body found _
      generalize hNext : (session.judged _).extended _ = next
      have hWorld : session.world = next.world := by
        rw [← hNext]
        rfl
      rw [hWorld] at h ⊢
      rcases interpret_takesCourse fuel next.policy body
          (context_ready h history) next.world.host next.report with
        ⟨last, hCourse, hHistory, hLeft⟩
      refine ⟨last, hCourse, ?_⟩
      generalize Traced.interpret fuel next.policy next.context body history next.world next.report
          = ended at hHistory hLeft ⊢
      rcases ended with ⟨history', _ | left⟩
      · exact ⟨hHistory, by rintro _ ⟨⟩⟩
      · exact ⟨hHistory, by
          rintro _ ⟨⟩
          exact hLeft left rfl⟩
  | evaluate fuel source file =>
    simp only [watch]
    split
    · exact takesCourse_idle history rfl
    · rename_i expr found _
      generalize hNext : (session.judged _).extended _ = next
      have hWorld : session.world = next.world := by
        rw [← hNext]
        rfl
      rw [hWorld] at h ⊢
      have hAdvanced :=
        ((Eval.advancesAll fuel).evaluate (context_ready h history) expr).advanced next.world.host
      generalize Traced.evaluate fuel next.context expr history next.world = ended at hAdvanced ⊢
      cases hAdvanced with
      | done hCourse
      | failed hCourse => exact ⟨_, hCourse, rfl, by rintro _ ⟨⟩; rfl⟩
      | stopped hCourse => exact ⟨_, hCourse, rfl, by rintro _ ⟨⟩⟩
  | resetErrors => exact takesCourse_idle history rfl
  | takeErrors => exact takesCourse_idle history rfl
  | withHost host => exact takesCourse_idle history rfl

/- A session has taken its course. -/
theorem Logged.course {steps : List Step} {seen : List Scope.Site}
    {history : History} (h : Logged steps seen history session) :
    Course first ⟨history, session.world.heap⟩ := by
  induction h with
  | start host policy => exact .refl
  | @next _ _ history session step _ _ _ _ hWatch ih =>
    rcases watch_takesCourse session history (ih.sane Heap.initial_sane) step with
      ⟨last, hCourse, hHistory, hLeft⟩
    rw [hWatch] at hHistory hLeft
    have hHeap := hLeft _ rfl
    rcases last with ⟨history', heap⟩
    cases hHistory
    cases hHeap
    exact ih.trans hCourse

/- The frame that an event opens. -/
def openedFrame? : Event → Option FrameId
  | .opened _ frame => some frame
  | _ => none

/-
  What has happened so far: every frame but that of the
  globals has been opened once, in order, and each visit of
  a node was on the way.
-/
structure OnCourse (m : Moment) : Prop where
  opened : m.history.filterMap openedFrame? = List.range' 1 (m.heap.frames.size - 1)
  visits : ∀ before reference ctx heap, before ++ [.visited reference ctx heap] <+: m.history →
        Course first ⟨before, heap⟩ ∧ Course ⟨before, heap⟩ m ∧ ctx.frame < heap.frames.size

theorem happens_opened {m' : Moment} (h : Happens m m') :
    m'.history.filterMap openedFrame? = m.history.filterMap openedFrame? ++
        List.range' m.heap.frames.size (m'.heap.frames.size - m.heap.frames.size) := by
  cases h with
  | changes hStep hSize => simp [hSize]
  | opens => simp [openedFrame?, Heap.addFrame]
  | _ => simp [openedFrame?]

theorem happens_visited {m' : Moment} {before : History}
    {reference : Reference} {ctx : Eval.Context} {heap : Heap} (h : Happens m m')
    (hPrefix : before ++ [.visited reference ctx heap] <+: m'.history) :
    before ++ [.visited reference ctx heap] <+: m.history ∨
      m = ⟨before, heap⟩ ∧ ctx.frame < heap.frames.size := by
  cases h with
  | changes => exact .inl hPrefix
  | visits _ hFrame =>
    rcases List.prefix_concat_iff.mp hPrefix with hSame | hOld
    · rcases List.append_inj' hSame rfl with ⟨rfl, hLast⟩
      cases hLast
      exact .inr ⟨rfl, hFrame⟩
    · exact .inl hOld
  | _ =>
    rcases List.prefix_concat_iff.mp hPrefix with hSame | hOld
    · cases (List.append_inj' hSame rfl).2
    · exact .inl hOld

theorem onCourse_of_course (h : Course first m) : OnCourse m := by
  induction h with
  | refl =>
    refine ⟨rfl, fun _ _ _ _ hPrefix => ?_⟩
    exact absurd (List.prefix_nil.mp hPrefix)
      (List.append_ne_nil_of_right_ne_nil _ (List.cons_ne_nil _ _))
  | @tail m m' hCourse hLast ih =>
    constructor
    · have hOld : 0 < m.heap.frames.size := (Eval.Course.sane hCourse Heap.initial_sane).globals
      have hSize := hLast.extends.frames.size_le
      have hSplit : m'.heap.frames.size - 1 = (m.heap.frames.size - 1) +
              (m'.heap.frames.size - m.heap.frames.size) := by
        omega
      have hNext : 1 + (m.heap.frames.size - 1) = m.heap.frames.size := by omega
      rw [happens_opened hLast, ih.opened, hSplit, ← List.range'_append_1, hNext]
    · intro before reference ctx heap hPrefix
      rcases happens_visited hLast hPrefix with hOld | ⟨rfl, hFrame⟩
      · rcases ih.visits before reference ctx heap hOld with ⟨hBefore, hAfter, hFrame⟩
        exact ⟨hBefore, hAfter.tail hLast, hFrame⟩
      · exact ⟨hCourse, .single hLast, hFrame⟩

/-
  What a session runs is one course from the initial heap.
  From any moment of such a course to any later one, the
  heap keeps its shape.  At each moment all that is referred
  to exists, and the frames have been opened one after the
  other.  So searches end only where no frame or class is
  left, in the end at the globals, and elements of arrays
  that were read can be written.
-/
theorem heap_only_grows
    {steps : List Step}
    {session : Session}
    (h : Reached steps session) :
    (∃ seen history, Logged steps seen history session) ∧
      (∀ seen history, Logged steps seen history session →
        ∀ step,
          let ending := session.watch history step
          let now : Moment := ⟨history, session.world.heap⟩
          ending.2 = session.step step ∧
            Course first now ∧ TakesCourse now heapAfter ending) ∧
        ∀ m m', Course first m → Course m m' →
          m.heap.Extends m'.heap ∧
          m.heap.Sane ∧
          OnCourse m ∧
          (∀ frame, frame < m.heap.frames.size →
            ∃ distance, m.heap.ancestor? frame distance =
              some Heap.globals) ∧
          m.heap.parent? Heap.globals = none ∧
          (∀ frame name,
            m.heap.get? frame name =
                (m.heap.local? frame name).or
                  ((m.heap.parent? frame).bind
                    (m.heap.get? · name)) ∧
              m.heap.holder? frame name =
                ((m.heap.local? frame name).map
                    fun _ => frame).or
                  ((m.heap.parent? frame).bind
                    (m.heap.holder? · name))) ∧
          (∀ classId name,
            m.heap.findMethod? classId name =
              m.heap.classes[classId]?.bind fun c =>
                (c.methods.get? name).or
                  (c.superclass.bind
                    (m.heap.findMethod? · name))) ∧
          ∀ ctx host, ctx.frame < m.heap.frames.size →
            Eval.Writable ⟨m.heap, host⟩ ctx := by
  refine ⟨h.logged, ?_, ?_⟩
  · intro seen history hLogged step ending now
    have hCourse := hLogged.course
    have hSane := hCourse.sane Heap.initial_sane
    exact ⟨session.watch_step history step, hCourse,
      watch_takesCourse session history hSane step⟩
  · intro m m' hStart hCourse
    have hSane := hStart.sane Heap.initial_sane
    exact ⟨hCourse.extends, hSane, onCourse_of_course hStart,
      fun _ => hSane.chain, hSane.parent?_globals,
      fun frame name =>
        ⟨hSane.get?_eq frame name, hSane.holder?_eq frame name⟩,
      hSane.findMethod?_eq,
      fun ctx host hFrame => Ready.writable ⟨hSane, hFrame⟩ host⟩

/- A method is bound and called, and opens a block. -/
theorem frames_opened_in_order :
    let session := Session.start {} .halt
    let step :=
      Step.run 20 "class A { m() { { } } } A().m();" "frames"
    Reached [] session ∧
      ∃ last, Course first last ∧
        last.history = (session.watch [] step).1 ∧
          last.history.filterMap openedFrame? = [1, 2, 3] ∧
            Heap.initial.Extends last.heap ∧
              last.heap.Sane ∧ last.heap.frames.size = 4 := by
  intro session step
  have hReached : Reached [] session := .start {} .halt
  have hOpened :
      (session.watch [] step).1.filterMap openedFrame? =
        [1, 2, 3] := by
    decide +kernel
  rcases heap_only_grows hReached with ⟨_, hSteps, hHolds⟩
  rcases hSteps [] [] (.start {} .halt) step with
    ⟨_, _, last, hCourse, hHistory, _⟩
  have hExtends := (hHolds first last .refl hCourse).1
  rcases hHolds last last hCourse .refl with
    ⟨_, hSane, hOnCourse, _⟩
  rw [← hHistory] at hOpened
  refine ⟨hReached, last, hCourse, hHistory, hOpened, hExtends,
    hSane, ?_⟩
  have hOpened := congrArg List.length
    (hOnCourse.opened.symm.trans hOpened)
  have hGlobals : 0 < last.heap.frames.size := hSane.globals
  simp only [List.length_range', List.length_cons,
    List.length_nil] at hOpened
  omega

end Session

end Scriptlet
