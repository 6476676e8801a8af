import Scriptlet.Proofs.Eval.Following

/-
  What a recorded thing was run inside of.

  Key declarations include:
    * `Eval.Path`
    * `Eval.bodies`
    * `Eval.Accounted`
    * `Eval.BreaksLoop`
    * `Eval.ReturnsFrom`

  The path of a record are the records around it, from the
  innermost one to the outermost one.
-/

namespace Scriptlet

namespace Eval

variable {record : Record} {path : List Record} {stmt : Stmt} {start : Registers}
variable {inFunction inLoop : Bool}

/- What was run inside, in order. -/
def Record.inside : Record → List Record
  | .evaluated _ _ inside _ => inside
  | .executed _ _ inside _ => inside
  | .entered _ _ inside _ => inside
  | .refused _ _ _ => []

/- The records around a record, up to the top. -/
inductive Path (top : Record) : List Record → Record → Prop where
  | top : Path top [] top
  | inside {path around record} : Path top path around →
      record ∈ around.inside → Path top (around :: path) record

/- How many bodies are in progress inside of these records. -/
def bodies (path : List Record) : Nat := path.countP (·.isEntered)

theorem bodies_cons (path : List Record) (h : record.isEntered = false) :
    bodies (record :: path) = bodies path := by
  simp [bodies, h]

theorem bodies_entered (path : List Record) (h : record.isEntered = true) :
    bodies (record :: path) = bodies path + 1 := by
  simp [bodies, h]

section Formed

variable {P : Function → Prop} {n : Nat} {top : Record}

/- What is inside is formed by the same rules. -/
theorem Formed.at_path (h : Formed P n top) (hPath : Path top path record) :
    Formed P (n + bodies path) record := by
  induction hPath with
  | top => exact h
  | @inside path around record _ hMem ih =>
    generalize hDepth : n + bodies path = depth at ih
    cases ih with
    | evaluated _ _ hInside
    | executed _ _ hInside =>
      rw [bodies_cons path rfl, hDepth]
      exact hInside record hMem
    | entered _ _ _ _ hInside =>
      rw [bodies_entered path rfl, ← Nat.add_assoc, hDepth]
      exact hInside record hMem
    | refused => cases hMem

/- No more bodies than the limit are in progress. -/
theorem Formed.limit (h : Formed P n top) (hLe : n ≤ depthLimit)
    (hPath : Path top path record) : n + bodies path ≤ depthLimit := by
  induction hPath with
  | top => exact hLe
  | @inside path around record hAround hMem ih =>
    have hFormed := h.at_path hAround
    generalize hDepth : n + bodies path = depth at hFormed ih
    cases hFormed with
    | evaluated => rwa [bodies_cons path rfl, hDepth]
    | executed => rwa [bodies_cons path rfl, hDepth]
    | entered _ hLt =>
      rw [bodies_entered path rfl, ← Nat.add_assoc, hDepth]
      exact hLt
    | refused => cases hMem

theorem Formed.depth (h : Formed P n record) : record.start.depth = n := by
  cases h with
  | evaluated hDepth => exact hDepth
  | executed hDepth => exact hDepth
  | entered hDepth => exact hDepth
  | refused hDepth => exact hDepth

end Formed

/-
  The depth is the number of bodies in progress.  A body is
  entered below the limit.  A call is refused at the limit,
  and then it is the last thing in its expression, which
  fails at once.
-/
structure Accounted (path : List Record) (record : Record) : Prop where
  depth : record.start.depth = bodies path
  limit : bodies path ≤ depthLimit
  entered : record.isEntered = true → bodies path < depthLimit
  refused {closure paren start} : record = .refused closure paren start →
      bodies path = depthLimit ∧ ∀ around outer, path = around :: outer →
          ∃ expr begin before, around = .evaluated expr begin (before ++ [record])
                (.failed (.atToken paren .callDepth))

/- An executed statement is inside of no expression. -/
theorem not_executed_of_tried {α : Type} {inside : List Record}
    {ending : Ending α} (h : Tried inside ending) {deeper : List Record}
    {flow : Ending Flow} : Record.executed stmt start deeper flow ∉ inside := by
  intro hMem
  rcases List.append_of_mem hMem with ⟨before, after, hSame⟩
  rcases h.each hSame with hKind | hKind | ⟨_, _, _, hKind, _⟩
  · cases hKind
  · cases hKind
  · cases hKind

/- Calls are inside of expressions. -/
theorem Formed.around_call {P : Function → Prop} {n : Nat}
    {around record : Record} (h : Formed P n around)
    (hMem : record ∈ around.inside) (hCall : record.isCall = true) :
    ∃ expr start inside ending, around = .evaluated expr start inside ending ∧
        Tried inside ending := by
  cases h with
  | evaluated _ hTried => exact ⟨_, _, _, _, rfl, hTried⟩
  | executed _ hEnded =>
    rw [hEnded.handed.call hMem] at hCall
    cases hCall
  | entered _ _ _ hHanded =>
    rw [hHanded.call hMem] at hCall
    cases hCall
  | refused => cases hMem

/- Whatever is run inside of a top-level thing. -/
theorem Formed.accounted {P : Function → Prop} {top : Record}
    (h : Formed P 0 top) (hPath : Path top path record) : Accounted path record := by
  have hFormed := h.at_path hPath
  have hLimit := h.limit (Nat.zero_le _) hPath
  rw [Nat.zero_add] at hFormed hLimit
  refine ⟨hFormed.depth, hLimit, ?_, ?_⟩
  · intro hEntered
    cases hFormed with
    | entered _ hLt => exact hLt
    | _ => cases hEntered
  · rintro closure paren start rfl
    constructor
    · cases hFormed with
      | refused _ hLe => exact Nat.le_antisymm hLimit hLe
    · rintro around outer rfl
      cases hPath with
      | inside hAround hMem =>
        rcases (h.at_path hAround).around_call hMem rfl with
          ⟨expr, begin, inside, ending, rfl, hTried⟩
        rcases List.append_of_mem hMem with ⟨before, after, hSame⟩
        rcases hTried.each hSame with hKind | hKind | ⟨_, _, _, hRefused, rfl, rfl⟩
        · cases hKind
        · cases hKind
        · cases hRefused
          exact ⟨expr, begin, before, by rw [← hSame]; rfl⟩

/- A statement that was executed. -/
def Record.isStatement : Record → Bool
  | .executed .. => true
  | _ => false

/- A loop that was executed. -/
def Record.isLoop : Record → Bool
  | .executed (.whileLoop _ _) _ _ _ => true
  | _ => false

/- How a statement or a body ended. -/
def Record.EndsWith (flow : Flow) : Record → Prop
  | .executed _ _ _ ending => ending = .done flow
  | .entered _ _ _ ending => ending = .done flow
  | _ => False

/- The last thing that was run inside. -/
def Record.LastIn (record around : Record) : Prop :=
  ∃ before, around.inside = before ++ [record]

/-
  The signal that a record ends with makes the statements
  around it end, one by one, up to the first that catches
  it.
-/
inductive Reaches (flow : Flow) (catches : Record → Bool) :
    Record → List Record → Record → List Record → Prop where
  | caught {record around outer} : record.LastIn around → catches around = true →
      Reaches flow catches record (around :: outer) around outer
  | passed {record around path catcher outer} : record.LastIn around →
      catches around = false → around.isStatement = true →
      around.EndsWith flow → Reaches flow catches around path catcher outer →
      Reaches flow catches record (around :: path) catcher outer

/-
  The innermost loop around the record, in the same body,
  ends normally by what the record ended with.
-/
def BreaksLoop (path : List Record) (record : Record) : Prop :=
  ∃ loop outer, Reaches .broke Record.isLoop record path loop outer ∧ loop.EndsWith .normal

/-
  The innermost body around the record ends by what the
  record ended with.  It was called in an expression, which
  hands on no signal.
-/
def ReturnsFrom (value : Value) (path : List Record) (record : Record) : Prop :=
  ∃ body outer expr start inside ending further,
    Reaches (.returned value) Record.isEntered record path body outer ∧
      body.EndsWith (.returned value) ∧ outer = .evaluated expr start inside ending :: further

/- The parts of a statement are contained as it is. -/
theorem part_contained {stmt part : Stmt} (h : stmt.Contained inFunction inLoop)
    (hPart : part ∈ stmt.parts) :
    part.Contained inFunction inLoop ∨ passes stmt .broke = .normal ∧
        part.Contained inFunction true := by
  cases stmt with
  | block body =>
    exact .inl (stmtsContained_mem h part hPart)
  | conditional condition thenBranch elseBranch =>
    cases elseBranch with
    | none =>
      obtain rfl := List.mem_singleton.mp hPart
      exact .inl h.2
    | some elseBranch =>
      rcases List.mem_cons.mp hPart with rfl | hPart
      · exact .inl h.2.1
      · obtain rfl := List.mem_singleton.mp hPart
        exact .inl h.2.2
  | whileLoop condition body =>
    obtain rfl := List.mem_singleton.mp hPart
    exact .inr ⟨rfl, h.2⟩
  | _ => cases hPart

/- A loop catches a `break`; other statements pass it on. -/
theorem passes_cases (stmt : Stmt) :
    (∃ condition body, stmt = .whileLoop condition body) ∨
      passes stmt .broke = .broke ∧ ∀ start inside ending, Record.isLoop
            (.executed stmt start inside ending) = false := by
  cases stmt with
  | whileLoop condition body => exact .inl ⟨_, _, rfl⟩
  | _ => exact .inr ⟨rfl, fun _ _ _ => rfl⟩

section Contained

variable {ending : Ending Flow}

variable {n : Nat}

variable {inside : List Record}

/- Where a signal may be given. -/
def Flow.Permitted (inFunction inLoop : Bool) : Flow → Prop
  | .normal => True
  | .broke => inLoop = true
  | .returned _ => inFunction = true

/- Statements give signals only where they may. -/
theorem Formed.permits {P : Function → Prop}
    (h : Formed P n (.executed stmt start inside ending))
    (hContained : stmt.Contained inFunction inLoop) {flow : Flow} (hEnd : ending = .done flow) :
    flow.Permitted inFunction inLoop := by
  generalize hRecord : Record.executed stmt start inside ending = record at h
  induction h generalizing stmt start inside ending inLoop with
  | @executed n stmt start inside ending _ hEnded _ ih =>
    cases hRecord
    by_cases hNormal : flow = .normal
    · rw [hNormal]
      trivial
    rcases hEnded.handed.origin hEnd hNormal with hOwn | ⟨child, hMem, hSignal, hPass⟩
    · cases stmt with
      | breakLoop keyword =>
        cases hOwn
        exact hContained
      | returnValue keyword value =>
        obtain ⟨_, rfl⟩ := hOwn
        cases value with
        | none => exact hContained
        | some value => exact hContained.1
      | _ => cases hOwn
    · cases child with
      | executed part begin deeper last =>
        have hLast := (Ending.eq_of_signal? hSignal).1
        rcases part_contained hContained (hEnded.handed.part hMem) with hSame | ⟨hLoop, hSame⟩
        · exact ih _ hMem hSame hLast rfl
        · -- a loop permits a `break` inside, and passes none on
          have hInside := ih _ hMem hSame hLast rfl
          cases flow with
          | normal => trivial
          | broke =>
            rw [hLoop] at hPass
            cases hPass
          | returned value => exact hInside
      | _ => cases hSignal
  | _ => cases hRecord

/- Top-level code is contained. -/
def Record.Grounded : Record → Prop
  | .evaluated .. => True
  | .executed stmt _ _ _ => stmt.Contained false false
  | _ => False

variable {top : Record} (h : Formed Function.Contained n top) (hTop : top.Grounded)
include h hTop

/- A statement that breaks ends the innermost loop. -/
theorem Formed.breaks_loop (hPath : Path top path record)
    (hSignal : record.signal? = some .broke) : BreaksLoop path record := by
  induction hPath with
  | top =>
    cases top with
    | executed stmt start inside ending =>
      exact absurd (h.permits hTop (Ending.eq_of_signal? hSignal).1) Bool.false_ne_true
    | _ => cases hSignal
  | @inside path around record hAround hMem ih =>
    have hFormed := h.at_path hAround
    rcases List.append_of_mem hMem with ⟨before, after, hSame⟩
    cases hFormed with
    | evaluated _ hTried =>
      cases record with
      | executed => exact absurd hMem (not_executed_of_tried hTried)
      | _ => cases hSignal
    | @executed _ stmt _ _ ending _ hEnded _ =>
      rcases hEnded.handed.last hSame hSignal with ⟨rfl, hEnding⟩
      rcases passes_cases stmt with ⟨condition, body, rfl⟩ | ⟨hPass, hLoop⟩
      · exact ⟨_, path, .caught ⟨before, hSame⟩ rfl, hEnding⟩
      · -- the signal goes on from the statement around
        rw [hPass] at hEnding
        subst hEnding
        rcases ih rfl with ⟨loop, outer, hReaches, hEnds⟩
        exact ⟨loop, outer, .passed ⟨before, hSame⟩ (hLoop ..) rfl rfl hReaches, hEnds⟩
    | entered _ _ hBody hHanded hInside =>
      cases record with
      | executed stmt =>
        have hStmt := stmtsContained_mem hBody.body stmt (hHanded.part hMem)
        have hEnd := (Ending.eq_of_signal? hSignal).1
        exact absurd ((hInside _ hMem).permits hStmt hEnd) Bool.false_ne_true
      | _ => cases hSignal
    | refused => cases hMem

/- A statement that returns ends the innermost body. -/
theorem Formed.returns_from {value : Value} (hPath : Path top path record)
    (hSignal : record.signal? = some (.returned value)) : ReturnsFrom value path record := by
  induction hPath with
  | top =>
    cases top with
    | executed stmt start inside ending =>
      exact absurd (h.permits hTop (Ending.eq_of_signal? hSignal).1) Bool.false_ne_true
    | _ => cases hSignal
  | @inside path around record hAround hMem ih =>
    have hFormed := h.at_path hAround
    rcases List.append_of_mem hMem with ⟨before, after, hSame⟩
    cases hFormed with
    | evaluated _ hTried =>
      cases record with
      | executed => exact absurd hMem (not_executed_of_tried hTried)
      | _ => cases hSignal
    | @executed _ stmt _ _ ending _ hEnded _ =>
      rcases hEnded.handed.last hSame hSignal with ⟨rfl, hEnding⟩
      have hPass : passes stmt (.returned value) = .returned value := by
        cases stmt <;> rfl
      rw [hPass] at hEnding
      subst hEnding
      rcases ih rfl with ⟨body, outer, expr, start, inside, ending, further, hReaches, hRest⟩
      exact ⟨body, outer, expr, start, inside, ending, further,
        .passed ⟨before, hSame⟩ rfl rfl rfl hReaches, hRest⟩
    | entered _ _ hBody hHanded hInside =>
      rcases hHanded.last hSame hSignal with ⟨rfl, hEnding⟩
      cases hAround with
      | top => cases hTop
      | @inside outer caller _ hCaller hCalled =>
        rcases (h.at_path hCaller).around_call hCalled
            rfl with
          ⟨expr, start, inside, ending, rfl, _⟩
        exact ⟨_, _, expr, start, inside, ending, outer, .caught ⟨before, hSame⟩ rfl, hEnding, rfl⟩
    | refused => cases hMem

omit hTop in
/- No body ends with a `break`. -/
theorem Formed.body_not_broke {closure : Closure}
    (hPath : Path top path (.entered closure start inside ending)) : ending ≠ .done .broke := by
  rintro rfl
  cases h.at_path hPath with
  | entered _ _ hBody hHanded hInside =>
    rcases hHanded.origin rfl Flow.noConfusion with hOwn | ⟨child, hMem, hSignal, _⟩
    · exact hOwn
    · cases child with
      | executed stmt =>
        have hStmt := stmtsContained_mem hBody.body stmt (hHanded.part hMem)
        have hEnd := (Ending.eq_of_signal? hSignal).1
        exact Bool.false_ne_true ((hInside _ hMem).permits hStmt hEnd)
      | _ => cases hSignal

end Contained

end Eval

end Scriptlet
