import Scriptlet.Proofs.Session.Registers
import Scriptlet.Proofs.Session.Scopes
import Scriptlet.Proofs.Session.Stages

/-
  Numbers of reference nodes in the course of a session.

  Key declarations include:
    * `Session.nodes`
    * `Session.Resolution`
    * `Session.Archive`

  The parser hands out numbers that no node of the session
  has had before, whatever becomes of the trees.  So the
  table of distances only grows, and old functions read what
  was found when their source was resolved:
    * `Session.numbers_never_shared`
-/

namespace Scriptlet

namespace Session

open Grammar (Numbered)
open Scope (Distances Site resolveProgram resolveExpression)

/- The nodes of the tree that the parser makes in a step. -/
def nodes (session : Session) : Step → List Reference
  | .run _ source file =>
    match session.report.hadError, lexical source file with
    | false, [] => stmtsReferences (session.parsedProgram source file).value
    | _, _ => []
  | .evaluate _ source file =>
    match session.report.hadError, lexical source file with
    | false, [] => exprsReferences (session.parsedExpression source file).value.toList
    | _, _ => []
  | _ => []

/- The nodes of a source, and the distances found for them. -/
structure Resolution where
  nodes : List Reference
  found : List (Nat × Nat)

/- The distance that was found for a number. -/
def Resolution.distance?
    (resolution : Resolution)
    (id : Nat) : Option Nat :=
  resolution.found.lookup id

/- What is resolved in a step and added to the table. -/
def resolutions (session : Session) :
    Step → List Resolution
  | .run _ source file =>
    let verdict := judge session.report.hadError session.nextId source file
    match verdict.accepted with
    | some (body, found) => [⟨stmtsReferences body, found⟩]
    | none => []
  | .evaluate _ source file =>
    let verdict := judgeExpression session.report.hadError session.nextId source file
    match verdict.accepted with
    | some (expr, found) => [⟨expr.references, found⟩]
    | none => []
  | _ => []

/- The distances that a step adds to the table. -/
def links (session : Session) (step : Step) : List (Nat × Nat) :=
  (session.resolutions step).flatMap Resolution.found

/-
  All nodes that the parser has made in the steps that lead
  to a session, and all that was resolved.
-/
inductive Archive : List Step → List Reference → List Resolution → Session → Prop where
  | start (host : Host) (policy : Eval.Policy) : Archive [] [] [] (.start host policy)
  | next {steps nodes resolved session step answer next} : Archive steps nodes resolved session →
      session.step step = .ok (answer, next) →
      Archive (steps ++ [step]) (nodes ++ session.nodes step)
        (resolved ++ session.resolutions step) next

theorem Reached.archive {steps : List Step} {session : Session} (h : Reached steps session) :
    ∃ nodes resolved, Archive steps nodes resolved session := by
  induction h with
  | start host policy => exact ⟨_, _, .start host policy⟩
  | next _ hStep ih =>
    rcases ih with ⟨nodes, resolved, hArchive⟩
    exact ⟨_, _, hArchive.next hStep⟩

/-
  What is resolved with numbers from `n` on: every entry is
  about a node, and no two are about the same one.
-/
structure Resolution.Fresh (resolution : Resolution) (n n' : Nat) : Prop where
  numbered : Numbered n n' resolution.nodes
  distinct : (resolution.found.map Prod.fst).Nodup
  about : ∀ entry ∈ resolution.found, ∃ node ∈ resolution.nodes, node.id = entry.1

theorem keys_sublist (sites : List Site) :
    ((sites.filterMap Site.record?).map Prod.fst).Sublist (sites.map (·.reference.id)) := by
  induction sites with
  | nil => exact .slnil
  | cons first others ih =>
    cases hEntry : first.record? with
    | none =>
      rw [List.filterMap_cons_none hEntry]
      exact ih.cons _
    | some entry =>
      rw [List.filterMap_cons_some hEntry, List.map_cons, Site.fst_record? hEntry]
      exact ih.cons_cons _

theorem fresh_of_sites {n n' : Nat} {sites : List Site}
    (h : Numbered n n' (sites.map Site.reference)) :
    Resolution.Fresh ⟨sites.map Site.reference, sites.filterMap Site.record?⟩ n n' where
  numbered := h
  distinct := by
    have hDistinct := h.distinct
    rw [List.map_map] at hDistinct
    exact (keys_sublist sites).nodup hDistinct
  about := by
    intro entry hMem
    rcases List.mem_filterMap.mp hMem with ⟨site, hSite, hEntry⟩
    exact ⟨site.reference, List.mem_map_of_mem hSite, (Site.fst_record? hEntry).symm⟩

section

variable (session : Session) (source file : String)

/-
  The nodes of a program have new numbers, whether or not it
  is accepted.
-/
theorem judge_nodes (fuel : Nat) :
    let verdict := judge session.report.hadError session.nextId source file
    let nodes := session.nodes (.run fuel source file)
    Numbered session.nextId verdict.nextId nodes ∧
      ∀ body found, verdict.accepted = some (body, found) → nodes = stmtsReferences body := by
  have hNumbered := (parseProgram_scan source file session.nextId).numbered
  simp only [nodes, parsedProgram]
  cases session.report.hadError with
  | true => exact ⟨.nil (Nat.le_refl _), by rintro _ _ ⟨⟩⟩
  | false =>
    cases hLexical : lexical source file with
    | cons fault others =>
      simp only [judge, hLexical]
      exact ⟨.nil (Nat.le_refl _), by rintro _ _ ⟨⟩⟩
    | nil =>
      simp only [judge, hLexical]
      split
      · refine ⟨hNumbered, ?_⟩
        intro body found hSame
        cases hSame
        rfl
      · exact ⟨hNumbered, by rintro _ _ ⟨⟩⟩
      · exact ⟨hNumbered, by rintro _ _ ⟨⟩⟩

theorem parsedExpression_numbered {expr : Expr}
    (h : (session.parsedExpression source file).value = some expr) :
    Numbered session.nextId (session.parsedExpression source file).nextId expr.references := by
  unfold parsedExpression at h ⊢
  rw [Token.tokens_scan] at h ⊢
  rcases Grammar.parseExpression_some rfl (Token.kind_body source file) h with ⟨gaps, hDerives⟩
  exact hDerives.numbered

/- So have those of an expression. -/
theorem judgeExpression_nodes (fuel : Nat) :
    let verdict := judgeExpression session.report.hadError session.nextId source file
    let nodes := session.nodes (.evaluate fuel source file)
    Numbered session.nextId verdict.nextId nodes ∧
      ∀ expr found, verdict.accepted = some (expr, found) → nodes = expr.references := by
  simp only [nodes, parsedExpression]
  cases session.report.hadError with
  | true => exact ⟨.nil (Nat.le_refl _), by rintro _ _ ⟨⟩⟩
  | false =>
    cases hLexical : lexical source file with
    | cons fault others =>
      simp only [judgeExpression, hLexical]
      exact ⟨.nil (Nat.le_refl _), by rintro _ _ ⟨⟩⟩
    | nil =>
      have hLe := (judgeExpression_fair false session.nextId source file).le
      simp only [judgeExpression, hLexical] at hLe ⊢
      cases hValue :
          (Grammar.parseExpression (Token.tokens (Token.scan source file))
            session.nextId).value with
      | none =>
        simp only [hValue] at hLe ⊢
        exact ⟨.nil hLe, by rintro _ _ ⟨⟩⟩
      | some expr =>
        have hNumbered := parsedExpression_numbered session source file hValue
        simp only [Option.toList_some, exprsReferences, List.append_nil]
        split
        · refine ⟨hNumbered, ?_⟩
          intro other found hSame
          cases hSame
          rfl
        · exact ⟨hNumbered, by rintro _ _ ⟨⟩⟩

end

------------------------------------------------------------
-- Steps
------------------------------------------------------------

theorem nodes_numbered (session : Session) (step : Step) :
    Numbered session.nextId (session.lastId step) (session.nodes step) := by
  cases step with
  | run fuel source file => exact (session.judge_nodes source file fuel).1
  | evaluate fuel source file => exact (session.judgeExpression_nodes source file fuel).1
  | _ => exact .nil (Nat.le_refl _)

/- What is resolved in a step is about new nodes. -/
theorem resolutions_fresh {session : Session} {step : Step}
    {resolution : Resolution} (h : resolution ∈ session.resolutions step) :
    session.resolutions step = [resolution] ∧
      resolution.nodes = session.nodes step ∧ resolution.Fresh session.nextId
          (session.lastId step) := by
  cases step with
  | run fuel source file =>
    simp only [resolutions] at h ⊢
    cases hAccepted : (judge session.report.hadError session.nextId source file).accepted with
    | none =>
      rw [hAccepted] at h
      cases h
    | some accepted =>
      rcases accepted with ⟨body, found⟩
      rw [hAccepted] at h
      cases List.mem_singleton.mp h
      rcases session.judge_nodes source file fuel with ⟨_, hNodes⟩
      rcases judge_accepted hAccepted with ⟨_, rfl, hNumbered, _⟩
      refine ⟨rfl, (hNodes _ _ hAccepted).symm, ?_⟩
      rw [← Scope.programSites_references]
      exact fresh_of_sites hNumbered
  | evaluate fuel source file =>
    simp only [resolutions] at h ⊢
    cases hAccepted :
        (judgeExpression session.report.hadError session.nextId source file).accepted with
    | none =>
      rw [hAccepted] at h
      cases h
    | some accepted =>
      rcases accepted with ⟨expr, found⟩
      rw [hAccepted] at h
      cases List.mem_singleton.mp h
      rcases session.judgeExpression_nodes source file fuel with ⟨_, hNodes⟩
      rcases judgeExpression_accepted hAccepted with ⟨_, rfl, hNumbered, _⟩
      refine ⟨rfl, (hNodes _ _ hAccepted).symm, ?_⟩
      rw [← Scope.expressionSites_references]
      exact fresh_of_sites hNumbered
  | _ => cases h

/- No two entries of a step are about the same number. -/
theorem links_distinct (session : Session) (step : Step) :
    ((session.links step).map Prod.fst).Nodup := by
  cases hAll : session.resolutions step with
  | nil => simp [links, hAll]
  | cons first others =>
    rcases resolutions_fresh
        (hAll ▸ List.mem_cons_self :
          first ∈ session.resolutions step) with
      ⟨hSingle, _, hFresh⟩
    rw [links, hSingle, List.flatMap_singleton]
    exact hFresh.distinct

/-
  What a step leaves: a table with the new distances, and
  functions of old nodes or of the nodes that were resolved.
-/
structure Leaves (session : Session) (step : Step) (next : Session) : Prop where
  distances : next.distances = session.distances.extend (session.links step)
  heap {P : Function → Prop} : (∀ {f}, P f → stmtsEvery P f.body) →
    (∀ resolution ∈ session.resolutions step, Among P resolution.nodes) →
    session.world.heap.Holds P → next.world.heap.Holds P

variable {fuel : Nat}

/- The functions after a run of resolved statements. -/
theorem interpret_holds {P : Function → Prop}
    (hBodies : ∀ {f}, P f → stmtsEvery P f.body) {ready next : Session} {body : List Stmt}
    (hBody : stmtsEvery P body) (hHeap : ready.world.heap.Holds P)
    (h : ready.interpret fuel body = .ok next) : next.world.heap.Holds P := by
  unfold Session.interpret at h
  split at h
  · rename_i world report hRan
    cases h
    exact
      (Eval.interpret_drives (Eval.followsAll hBodies ready.distances fuel)
        ready.policy .top hBody hHeap ready.report).heap hRan
  · cases h

/- Those after an evaluation. -/
theorem evaluate_holds {P : Function → Prop}
    (hBodies : ∀ {f}, P f → stmtsEvery P f.body) (ready : Session) (fuel : Nat)
    {expr : Expr} (hExpr : expr.Every P) (hHeap : ready.world.heap.Holds P) :
    (Eval.keeping P 0).Ends ready.world (Eval.evaluate fuel ready.context expr ready.world) :=
  (((Eval.followsAll hBodies ready.distances fuel).evaluate
    .top expr hExpr).fits ready.world hHeap).kept

theorem leaves_run {session next : Session} {source file : String}
    {status : Status} (h : session.run fuel source file = .ok (status, next)) :
    Leaves session (.run fuel source file) next := by
  rw [run_eq] at h
  dsimp only at h
  cases hAccepted : (judge session.report.hadError session.nextId source file).accepted with
  | none =>
    rw [hAccepted] at h
    cases h
    refine ⟨?_, fun _ _ hHeap => hHeap⟩
    simp only [links, resolutions, hAccepted]
    rfl
  | some accepted =>
    rcases accepted with ⟨body, found⟩
    rw [hAccepted] at h
    dsimp only at h
    split at h
    · rename_i last hRun
      cases h
      refine ⟨?_, ?_⟩
      · simp only [links, resolutions, hAccepted,
          List.flatMap_cons, List.flatMap_nil, List.append_nil]
        exact (interpret_table hRun).2
      · intro P hBodies hNew hHeap
        have hAmong :=
          hNew ⟨stmtsReferences body, found⟩
            (by simp only [resolutions, hAccepted]
                exact List.mem_singleton_self _)
        have hBody := (trees_every_among hAmong).2.2.1 body fun _ => id
        have hReady :
            ((session.judged
              (judge session.report.hadError session.nextId
                source file)).extended found).world.heap.Holds P := hHeap
        exact interpret_holds hBodies hBody hReady hRun
    · cases h

theorem leaves_evaluate {session next : Session} {source file : String} {value? : Option Value}
    (h : session.evaluate fuel source file = .ok (value?, next)) :
    Leaves session (.evaluate fuel source file) next := by
  rw [evaluate_eq] at h
  dsimp only at h
  cases hAccepted :
      (judgeExpression session.report.hadError session.nextId source file).accepted with
  | none =>
    rw [hAccepted] at h
    cases h
    refine ⟨?_, fun _ _ hHeap => hHeap⟩
    simp only [links, resolutions, hAccepted]
    rfl
  | some accepted =>
    rcases accepted with ⟨expr, found⟩
    rw [hAccepted] at h
    have hLinks : session.links (.evaluate fuel source file) =
          found := by
      simp only [links, resolutions, hAccepted,
        List.flatMap_cons, List.flatMap_nil, List.append_nil]
    have hHolds {P : Function → Prop} (hBodies : ∀ {f}, P f → stmtsEvery P f.body)
        (hNew : ∀ resolution ∈ session.resolutions (.evaluate fuel source file),
          Among P resolution.nodes) (hHeap : session.world.heap.Holds P) := by
      have hAmong :=
        hNew ⟨expr.references, found⟩
          (by simp only [resolutions, hAccepted]
              exact List.mem_singleton_self _)
      exact evaluate_holds hBodies
        ((session.judged
          (judgeExpression session.report.hadError session.nextId source file)).extended found)
        fuel ((trees_every_among hAmong).1 expr fun _ => id) hHeap
    dsimp only at h
    split at h
    · rename_i value world hRan
      cases h
      refine ⟨by rw [hLinks]; rfl, ?_⟩
      intro P hBodies hNew hHeap
      have hOutcome := hHolds hBodies hNew hHeap
      rw [hRan] at hOutcome
      cases hOutcome with
      | done hKeeps => exact hKeeps.holds hHeap
    · rename_i fault world hRan
      cases h
      refine ⟨by rw [hLinks]; rfl, ?_⟩
      intro P hBodies hNew hHeap
      have hOutcome := hHolds hBodies hNew hHeap
      rw [hRan] at hOutcome
      cases hOutcome with
      | failed hKeeps => exact hKeeps.holds hHeap
    · cases h

theorem step_leaves {session next : Session} {step : Step} {answer : Answer}
    (h : session.step step = .ok (answer, next)) : Leaves session step next := by
  cases step with
  | run fuel source file =>
    simp only [Session.step] at h
    split at h
    · rename_i hRun
      cases h
      exact leaves_run hRun
    · cases h
  | evaluate fuel source file =>
    simp only [Session.step] at h
    split at h
    · rename_i hRun
      cases h
      exact leaves_evaluate hRun
    · cases h
  | resetErrors
  | takeErrors
  | withHost host =>
    cases h
    exact ⟨rfl, fun _ _ hHeap => hHeap⟩

/- The table has for a new number what was found for it. -/
theorem extend_lookup
    {table : Distances}
    {id : Nat}
    (h : table[id]? = none)
    {found : List (Nat × Nat)}
    (hDistinct : (found.map Prod.fst).Nodup) :
    (table.extend found)[id]? = found.lookup id := by
  induction found generalizing table with
  | nil => exact h
  | cons entry others ih =>
    rcases entry with ⟨key, distance⟩
    rw [List.map_cons, List.nodup_cons] at hDistinct
    change (Distances.extend (table.insert key distance)
      others)[id]? = _
    by_cases hKey : id = key
    · subst hKey
      rw [List.lookup_cons_self, Distances.extend_of_ne,
        Std.TreeMap.getElem?_insert_self]
      intro entry hMem hSame
      exact hDistinct.1 (List.mem_map.mpr ⟨entry, hMem, hSame⟩)
    · rw [List.lookup_cons, beq_false_of_ne hKey]
      apply ih _ hDistinct.2
      rw [Std.TreeMap.getElem?_insert, h]
      simp [Ne.symm hKey]

/- A function with no other nodes than those of one source. -/
def Stems (resolved : List Resolution) (f : Function) : Prop :=
  ∃ resolution ∈ resolved, f.references ⊆ resolution.nodes

theorem Stems.body {resolved : List Resolution} {f : Function}
    (h : Stems resolved f) : stmtsEvery (Stems resolved) f.body := by
  rcases h with ⟨resolution, hMem, hNodes⟩
  have hAmong : Among (Stems resolved) resolution.nodes :=
    fun _ hOther => ⟨resolution, hMem, hOther⟩
  exact (trees_every_among hAmong).2.1 _ hNodes

theorem Stems.more {resolved : List Resolution} {f : Function}
    (h : Stems resolved f) (others : List Resolution) : Stems (resolved ++ others) f := by
  rcases h with ⟨resolution, hMem, hNodes⟩
  exact ⟨resolution, List.mem_append_left others hMem, hNodes⟩

/-
  What holds of the archive of a session.  Every function in
  the heap stems from one source, and the table has the
  distances that were found for its nodes.
-/
structure Catalogued (nodes : List Reference) (resolved : List Resolution)
    (session : Session) : Prop where
  numbered : Numbered 0 session.nextId nodes
  unused : ∀ id, session.nextId ≤ id → session.distances[id]? = none
  known : ∀ resolution ∈ resolved, resolution.nodes ⊆ nodes
  table : ∀ resolution ∈ resolved, ∀ node ∈ resolution.nodes,
      session.distances[node.id]? = resolution.distance? node.id
  heap : session.world.heap.Holds (Stems resolved)

namespace Catalogued

variable {nodes : List Reference} {resolved : List Resolution} {session : Session}

theorem start (host : Host) (policy : Eval.Policy) :
    Catalogued [] [] (.start host policy) where
  numbered := .nil (Nat.le_refl 0)
  unused := fun _ _ => rfl
  known := nofun
  table := nofun
  heap := .initial

variable {step : Step}

/- The entries of a step are about new numbers. -/
theorem above {entry : Nat × Nat} (hEntry : entry ∈ session.links step) :
    session.nextId ≤ entry.1 ∧ entry.1 < session.lastId step := by
  rcases List.mem_flatMap.mp hEntry with ⟨resolution, hMem, hFound⟩
  rcases resolutions_fresh hMem with ⟨_, _, hFresh⟩
  rcases hFresh.about entry hFound with ⟨node, hNode, hSame⟩
  rw [← hSame]
  exact hFresh.numbered.bounds node hNode

/- What stands in the table of a step for old nodes. -/
theorem old (h : Catalogued nodes resolved session) (step : Step)
    {resolution : Resolution} (hMem : resolution ∈ resolved) {node : Reference}
    (hNode : node ∈ resolution.nodes) :
    (session.distances.extend (session.links step))[node.id]? = resolution.distance? node.id := by
  rw [← h.table resolution hMem node hNode]
  apply Distances.extend_of_ne
  intro entry hEntry hSame
  have hAbove := (above hEntry).1
  have hBelow := (h.numbered.bounds node (h.known resolution hMem hNode)).2
  omega

/- What stands there for the new ones. -/
theorem new (h : Catalogued nodes resolved session)
    {resolution : Resolution} (hMem : resolution ∈ session.resolutions step)
    {node : Reference} (hNode : node ∈ resolution.nodes) :
    (session.distances.extend (session.links step))[node.id]? = resolution.distance? node.id := by
  rcases resolutions_fresh hMem with ⟨hAll, _, hFresh⟩
  have hLinks : session.links step = resolution.found := by rw [links, hAll, List.flatMap_singleton]
  have hUnused := h.unused node.id (hFresh.numbered.bounds node hNode).1
  rw [hLinks]
  exact extend_lookup hUnused hFresh.distinct

/- One step. -/
theorem next (h : Catalogued nodes resolved session)
    {answer : Answer} {next : Session} (hStep : session.step step = .ok (answer, next)) :
    Catalogued (nodes ++ session.nodes step) (resolved ++ session.resolutions step) next := by
  have hLeaves := step_leaves hStep
  have hNext := step_nextId hStep
  have hNumbered := session.nodes_numbered step
  constructor
  · rw [hNext]
    exact h.numbered.append hNumbered
  · intro id hId
    rw [hNext] at hId
    rw [hLeaves.distances, Distances.extend_of_ne]
    · exact h.unused id (Nat.le_trans hNumbered.le hId)
    · intro entry hEntry hSame
      have hBelow := (above hEntry).2
      omega
  · intro resolution hMem
    rcases List.mem_append.mp hMem with hOld | hNew
    · exact List.subset_append_of_subset_left _ (h.known resolution hOld)
    · rw [(resolutions_fresh hNew).2.1]
      exact List.subset_append_right _ _
  · intro resolution hMem node hNode
    rw [hLeaves.distances]
    rcases List.mem_append.mp hMem with hOld | hNew
    · exact h.old step hOld hNode
    · exact h.new hNew hNode
  · refine hLeaves.heap Stems.body ?_ ?_
    · intro resolution hMem f hNodes
      exact ⟨resolution, List.mem_append_right _ hMem, hNodes⟩
    · exact h.heap.mono fun _ hStems => hStems.more (session.resolutions step)

end Catalogued

theorem Archive.catalogued {steps : List Step} {nodes : List Reference}
    {resolved : List Resolution} {session : Session} (h : Archive steps nodes resolved session) :
    Catalogued nodes resolved session := by
  induction h with
  | start host policy => exact .start host policy
  | next _ hStep ih => exact ih.next hStep

/-
  No two reference nodes of a session have the same number,
  whatever became of their sources.  So no entry of the table
  is ever replaced, and in every later step a function reads
  for its nodes what was found when its source was resolved.
-/
theorem numbers_never_shared
    {steps : List Step}
    {session : Session}
    (h : Reached steps session) :
    (∃ nodes resolved,
      Archive steps nodes resolved session) ∧
    ∀ nodes resolved, Archive steps nodes resolved session →
      (∀ node ∈ nodes, node.id < session.nextId) ∧
      ∀ step,
        let links := session.links step
        let table := session.distances.extend links
        ((nodes ++ session.nodes step).map
          Reference.id).Nodup ∧
        (links.map Prod.fst).Nodup ∧
        (∀ entry ∈ links,
          session.distances[entry.1]? = none) ∧
        (∀ answer next,
          session.step step = .ok (answer, next) →
            next.distances = table) ∧
        session.world.heap.Holds fun f =>
          ∃ resolution ∈ resolved, ∀ node ∈ f.references,
            node ∈ resolution.nodes ∧
              table[node.id]? =
                resolution.distance? node.id := by
  refine ⟨h.archive, ?_⟩
  intro nodes resolved hArchive
  have hCatalogued := hArchive.catalogued
  refine ⟨fun node hNode =>
    (hCatalogued.numbered.bounds node hNode).2, ?_⟩
  intro step links table
  have hNumbered :=
    hCatalogued.numbered.append (session.nodes_numbered step)
  refine ⟨hNumbered.distinct, session.links_distinct step,
    ?_, ?_, ?_⟩
  · intro entry hEntry
    exact hCatalogued.unused entry.1
      (Catalogued.above hEntry).1
  · intro answer next hStep
    exact (step_leaves hStep).distances
  · apply hCatalogued.heap.mono
    rintro f ⟨resolution, hMem, hNodes⟩
    refine ⟨resolution, hMem, ?_⟩
    intro node hNode
    exact ⟨hNodes hNode,
      hCatalogued.old step hMem (hNodes hNode)⟩

/- The numbers of a source that is rejected stay used. -/
theorem rejected_numbers_stay_used :
    ∃ session nodes resolved,
      let step :=
        Step.run 9 "fn f(b) \x7b return b; \x7d" "second"
      Archive
          [.run 9 "print a; let = 1;" "first", .resetErrors]
          nodes resolved session ∧
        nodes.map Reference.id = [0] ∧
          (session.nodes step).map Reference.id = [1] ∧
            ((nodes ++ session.nodes step).map
              Reference.id).Nodup := by
  let first := Session.start {} .halt
  let verdict := judge false 0 "print a; let = 1;" "first"
  have hRejected : verdict.accepted = none := by
    decide +kernel
  have hRun :
      first.step (.run 9 "print a; let = 1;" "first") =
        .ok (.status .staticError, first.judged verdict) := by
    simp only [Session.step, run_eq, first, Session.start]
    rw [show (judge _ _ _ _).accepted = none from hRejected]
  have hReset :
      (first.judged verdict).step .resetErrors =
        .ok (.nothing, (first.judged verdict).resetErrors) :=
    rfl
  have hReached := Reached.start {} .halt
  have hArchive := Archive.start {} .halt
  have hResult :=
    (numbers_never_shared
      ((hReached.next hRun).next hReset)).2 _ _
      ((hArchive.next hRun).next hReset)
  exact ⟨_, _, _, (hArchive.next hRun).next hReset,
    by decide +kernel, by decide +kernel,
    (hResult.2 _).1⟩

end Session

end Scriptlet
