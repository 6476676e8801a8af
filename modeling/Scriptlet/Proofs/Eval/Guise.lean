import Scriptlet.Eval.Run
import Scriptlet.Proofs.Heap.Guise

/-
  Actions that do the same in worlds that stand for each
  other.

  Key declarations include:
    * `Eval.World.Guised`
    * `Eval.Fault.Guised`
    * `Eval.Mirrors`
    * `Eval.Context.Guised`

  An action mirrors another one if from such worlds both end
  in the same way and leave such worlds: with results that
  are related, with faults at tokens that stand for each
  other, or broken off for the same reason.  Causes of faults
  differ at most in the name of a variable that is not
  defined.
-/

namespace Scriptlet

namespace Eval

variable {Mark : Type}

section

variable (g : Guise Mark)

/- The second world stands for the first one, marked. -/
structure World.Guised (s : Marking Mark) (w w' : World) : Prop where
  marked : w.heap = s.heap
  heap : s.Guised g w'.heap
  host : w'.host = w.host

/- One cause, or the same undefined variable. -/
inductive Fault.Guised : Fault → Fault → Prop where
  | atToken {token token' : Token} (cause : Cause) : g.token token token' →
      Fault.Guised (.atToken token cause) (.atToken token' cause)
  | atName {mark} {name name' : Token} (cause : Cause) :
      g.name mark name name' → Fault.Guised (.atToken name cause) (.atToken name' cause)
  | undefined {mark} {name name' : Token} : g.name mark name name' →
      Fault.Guised (.atToken name (.undefinedVariable name.lexeme))
        (.atToken name' (.undefinedVariable name'.lexeme))

/-
  Outcomes from a stage on, with results related by `R` at
  the stage that is reached.
-/
inductive Outcome.Guised {α α' : Type} (s : Marking Mark)
    (R : Marking Mark → α → α' → Prop) : Outcome α → Outcome α' → Prop where
  | done {next value value' w w'} : s.Leads next → World.Guised g next w w' →
      R next value value' → Outcome.Guised s R (.done value w) (.done value' w')
  | failed {next fault fault' w w'} : s.Leads next → World.Guised g next w w' →
      Fault.Guised g fault fault' → Outcome.Guised s R (.failed fault w) (.failed fault' w')
  | stopped (reason) : Outcome.Guised s R (.stopped reason) (.stopped reason)

/- The second action does what the first one does. -/
structure Mirrors {α α' : Type} (s : Marking Mark)
    (R : Marking Mark → α → α' → Prop) (action : Action α) (action' : Action α') : Prop where
  outcome {w w' : World} : World.Guised g s w w' → Outcome.Guised g s R (action w) (action' w')

end

/- The same result. -/
def Same {α : Type} : Marking Mark → α → α → Prop := fun _ value value' => value' = value

variable {g : Guise Mark} {s : Marking Mark}

theorem Outcome.Guised.since {α α' : Type} {R : Marking Mark → α → α' → Prop}
    {next : Marking Mark} {outcome : Outcome α} {outcome' : Outcome α'}
    (hLeads : s.Leads next) (h : Outcome.Guised g next R outcome outcome') :
    Outcome.Guised g s R outcome outcome' := by
  cases h with
  | done hLater hWorld hValue => exact .done (hLeads.trans hLater) hWorld hValue
  | failed hLater hWorld hFault => exact .failed (hLeads.trans hLater) hWorld hFault
  | stopped reason => exact .stopped reason

/- The same option on both sides. -/
theorem rel_same {α : Type} {found found' : Option α} (h : found' = found) :
    Option.Rel (Same s) found found' := by
  subst h
  cases found' with
  | none => exact .none
  | some value => exact .some rfl

namespace Mirrors

variable {α α' β β' : Type} {R : Marking Mark → α → α' → Prop} {S : Marking Mark → β → β' → Prop}

theorem pure {value : α} {value' : α'} (h : R s value value') :
    Mirrors g s R (Pure.pure value) (Pure.pure value') := ⟨fun hWorld => .done (.refl _) hWorld h⟩

theorem bind {action : Action α} {action' : Action α'} {after : α → Action β}
    {after' : α' → Action β'} (hAction : Mirrors g s R action action')
    (hAfter : ∀ {next value value'}, s.Leads next → R next value value' →
        Mirrors g next S (after value) (after' value')) :
    Mirrors g s S (action >>= after) (action' >>= after') := by
  constructor
  intro w w' hWorld
  have hOutcome := hAction.outcome hWorld
  change Outcome.Guised g s S (Action.bind action after w) (Action.bind action' after' w')
  unfold Action.bind
  generalize action w = outcome, action' w' = outcome' at hOutcome
  cases hOutcome with
  | done hLeads hWorld' hValue => exact ((hAfter hLeads hValue).outcome hWorld').since hLeads
  | failed hLeads hWorld' hFault => exact .failed hLeads hWorld' hFault
  | stopped reason => exact .stopped reason

/- The next action gets the same result on both sides. -/
theorem bindSame {action action' : Action α} {after : α → Action β}
    {after' : α → Action β'} (hAction : Mirrors g s Same action action')
    (hAfter : ∀ {next} (value), s.Leads next → Mirrors g next S (after value) (after' value)) :
    Mirrors g s S (action >>= after) (action' >>= after') := by
  apply hAction.bind
  intro next value value' hLeads hSame
  obtain rfl : value' = value := hSame
  exact hAfter value' hLeads

theorem weaken {Q : Marking Mark → α → α' → Prop} {action : Action α}
    {action' : Action α'} (h : Mirrors g s R action action')
    (hImp : ∀ {next value value'}, R next value value' → Q next value value') :
    Mirrors g s Q action action' := by
  constructor
  intro w w' hWorld
  have hOutcome := h.outcome hWorld
  generalize action w = outcome, action' w' = outcome' at hOutcome
  cases hOutcome with
  | done hLeads hWorld' hValue => exact .done hLeads hWorld' (hImp hValue)
  | failed hLeads hWorld' hFault => exact .failed hLeads hWorld' hFault
  | stopped reason => exact .stopped reason

theorem exhausted : Mirrors g s R Eval.exhausted Eval.exhausted := ⟨fun _ => .stopped _⟩

variable {token token' : Token}

theorem fail {cause cause' : Cause}
    (hFault : Fault.Guised g (.atToken token cause) (.atToken token' cause')) :
    Mirrors g s R (Eval.failAt token cause) (Eval.failAt token' cause') :=
  ⟨fun hWorld => .failed (.refl _) hWorld hFault⟩

theorem failAt (hToken : g.token token token') (cause : Cause) :
    Mirrors g s R (Eval.failAt token cause) (Eval.failAt token' cause) :=
  fail (.atToken cause hToken)

theorem inspect {view : Heap → α} {view' : Heap → α'}
    (h : ∀ {heap'}, s.Guised g heap' → R s (view s.heap) (view' heap')) :
    Mirrors g s R (Eval.inspect view) (Eval.inspect view') := by
  constructor
  intro w w' hWorld
  have hView := h hWorld.heap
  rw [← hWorld.marked] at hView
  exact .done (.refl _) hWorld hView

theorem updateHeap {change change' : Heap → Heap}
    (h : ∀ {heap'}, s.Guised g heap' → s.Becomes g (change s.heap) (change' heap')) : Mirrors g s
      (fun next _ _ => next = ⟨s.mark, change s.heap⟩)
      (Eval.updateHeap change) (Eval.updateHeap change') := by
  constructor
  intro w w' hWorld
  rcases h hWorld.heap with ⟨hLeads, hNext⟩
  have hMarked := congrArg change hWorld.marked
  exact .done hLeads ⟨hMarked, hNext, hWorld.host⟩ rfl

/- The same change on both sides. -/
theorem update {change change' : Heap → Heap}
    (h : ∀ {heap'}, s.Guised g heap' → s.Becomes g (change s.heap) (change' heap')) :
    Mirrors g s Same (Eval.updateHeap change) (Eval.updateHeap change') :=
  (updateHeap h).weaken fun _ => rfl

theorem allocate {create : Heap → α × Heap} {create' : Heap → α' × Heap}
    (h : ∀ {heap'}, s.Guised g heap' → ∃ mark,
        let next : Marking Mark := ⟨mark, (create s.heap).2⟩
        s.Leads next ∧ next.Guised g (create' heap').2 ∧
            R next (create s.heap).1 (create' heap').1) :
    Mirrors g s R (Eval.allocate create) (Eval.allocate create') := by
  constructor
  intro w w' hWorld
  rcases h hWorld.heap with ⟨mark, hLeads, hNext, hMade⟩
  unfold Eval.allocate
  rw [hWorld.marked]
  exact .done hLeads ⟨rfl, hNext, hWorld.host⟩ hMade

/- What is created is no frame. -/
theorem create {create create' : Heap → α × Heap}
    (h : ∀ {heap'}, s.Guised g heap' → (create s.heap).1 = (create' heap').1 ∧
        s.Becomes g (create s.heap).2 (create' heap').2) :
    Mirrors g s Same (Eval.allocate create) (Eval.allocate create') := by
  apply allocate
  intro heap' hHeap
  rcases h hHeap with ⟨hMade, hLeads, hNext⟩
  exact ⟨s.mark, hLeads, hNext, hMade.symm⟩

theorem require {cause cause' : Cause}
    (hFault : Fault.Guised g (.atToken token cause) (.atToken token' cause'))
    {found : Heap → Option α} {found' : Heap → Option α'}
    (h : ∀ {heap'}, s.Guised g heap' → Option.Rel (R s) (found s.heap) (found' heap')) :
    Mirrors g s R (Eval.require token cause found) (Eval.require token' cause' found') := by
  constructor
  intro w w' hWorld
  have hFound := h hWorld.heap
  rw [← hWorld.marked] at hFound
  unfold Eval.require
  generalize found w.heap = value?, found' w'.heap = value?' at hFound
  cases hFound with
  | some hValue => exact .done (.refl _) hWorld hValue
  | none => exact .failed (.refl _) hWorld hFault

end Mirrors

------------------------------------------------------------
-- Actions in a Guise
------------------------------------------------------------

/-
  The second context stands for the first one, with the
  frames around it marked like this.  Nodes that stand for
  each other have the same distances.
-/
structure Context.Guised (g : Guise Mark) (s : Marking Mark)
    (marks : Nat → Mark) (ctx ctx' : Context) : Prop where
  frame : ctx'.frame = ctx.frame
  depth : ctx'.depth = ctx.depth
  distance {id id' : Nat} : g.node id id' → ctx'.distances[id']? = ctx.distances[id]?
  mark (marks : Nat → Mark) (id : Nat) : g.table.mark g.plain marks id =
      ctx.distances.mark g.plain marks id
  marks : s.Marks marks ctx.frame
  globals : s.Marks (fun _ => g.plain) Heap.globals

variable {marks : Nat → Mark} {ctx ctx' : Context}

namespace Context.Guised

theorem later {next : Marking Mark} (h : ctx.Guised g s marks ctx')
    (hLeads : s.Leads next) : ctx.Guised g next marks ctx' :=
  { h with
    marks := h.marks.later hLeads
    globals := h.globals.later hLeads }

/- A frame inside, one call deeper or not. -/
theorem inside (h : ctx.Guised g s marks ctx') {frame : FrameId}
    {inner : Nat → Mark} (hFrame : s.Marks inner frame) (depth : Nat) :
    Context.Guised g s inner { ctx with frame := frame, depth := depth }
      { ctx' with frame := frame, depth := depth } :=
  { h with
    frame := rfl
    depth := rfl
    marks := hFrame }

/- A name is spelled as at its distance. -/
theorem spelled (h : ctx.Guised g s marks ctx') {id id' : Nat}
    {name name' : Token} (hName : g.Refers marks id id' name name') :
    name'.lexeme = g.spell (ctx.distances.mark g.plain marks id) name.lexeme := by
  rw [g.spelled_eq hName.name, h.mark]

end Context.Guised

/- The context stays what it is while an action is run in it. -/
theorem Mirrors.andThen {α β β' : Type} {S : Marking Mark → β → β' → Prop}
    {action action' : Action α} {after : α → Action β} {after' : α → Action β'}
    (hCtx : ctx.Guised g s marks ctx') (hAction : Mirrors g s Same action action')
    (hAfter : ∀ {next} (value), ctx.Guised g next marks ctx' →
      Mirrors g next S (after value) (after' value)) :
    Mirrors g s S (action >>= after) (action' >>= after') := by
  apply hAction.bindSame
  intro next value hLeads
  exact hAfter value (hCtx.later hLeads)

/- Places that stand for each other. -/
inductive Place.Guised (g : Guise Mark) (marks : Nat → Mark) : Place → Place → Prop where
  | named {id id' name name'} : g.Refers marks id id' name name' →
      Place.Guised g marks (.named id name) (.named id' name')
  | property {name name'} (object) : g.token name name' →
      Place.Guised g marks (.property object name) (.property object name')
  | element {bracket bracket'} (object index) : g.token bracket bracket' →
      Place.Guised g marks (.element object index bracket) (.element object index bracket')

variable {id id' : Nat} {name name' : Token}

theorem readVariable_mirrors (hCtx : ctx.Guised g s marks ctx')
    (hName : g.Refers marks id id' name name') :
    Mirrors g s Same (readVariable ctx id name) (readVariable ctx' id' name') := by
  apply Mirrors.require (.undefined hName.name)
  intro heap' hHeap
  apply rel_same
  rw [hCtx.distance hName.node, hCtx.frame, hCtx.spelled hName]
  unfold Scope.Distances.mark
  cases ctx.distances[id]? with
  | some distance => exact hHeap.getAt? hCtx.marks distance name.lexeme
  | none =>
    dsimp only
    rw [g.spell_plain]
    exact hHeap.get? hCtx.globals name.lexeme

theorem assign_mirrors {mark : Mark} (hName : name'.lexeme = g.spell mark name.lexeme)
    (hFault : Fault.Guised g (.atToken name (.undefinedVariable name.lexeme))
        (.atToken name' (.undefinedVariable name'.lexeme))) {holder holder' : Heap → Option FrameId}
    (hSame : ∀ {heap'}, s.Guised g heap' → holder' heap' = holder s.heap)
    (hHolder : ∀ frame, holder s.heap = some frame → s.mark frame = mark) (value : Value) :
    Mirrors g s Same (assign name holder value) (assign name' holder' value) := by
  let R := fun (next : Marking Mark) (frame frame' : FrameId) =>
    frame' = frame ∧ next.mark frame = mark
  apply Mirrors.bind (R := R)
  · apply Mirrors.require hFault
    intro heap' hHeap
    rw [hSame hHeap]
    cases hFound : holder s.heap with
    | none => exact .none
    | some frame => exact .some ⟨rfl, hHolder frame hFound⟩
  · rintro next frame _ _ ⟨rfl, hMark⟩
    apply Mirrors.update
    intro heap' hHeap
    rw [hName, ← hMark]
    exact hHeap.define _ name.lexeme value

theorem writeVariable_mirrors (hCtx : ctx.Guised g s marks ctx')
    (hName : g.Refers marks id id' name name') (value : Value) :
    Mirrors g s Same (writeVariable ctx id name value) (writeVariable ctx' id' name' value) := by
  apply assign_mirrors (hCtx.spelled hName) (.undefined hName.name)
  · intro heap' hHeap
    rw [hCtx.distance hName.node, hCtx.frame, hCtx.spelled hName]
    unfold Scope.Distances.mark
    cases ctx.distances[id]? with
    | some distance => exact hHeap.holderAt? hCtx.marks distance name.lexeme
    | none =>
      dsimp only
      rw [g.spell_plain]
      exact hHeap.holder? hCtx.globals name.lexeme
  · intro frame hFound
    unfold Scope.Distances.mark
    cases hDistance : ctx.distances[id]? with
    | some distance =>
      rw [hDistance] at hFound
      exact hCtx.marks.ancestor (.refl s) (Option.eq_some_of_filter_eq_some hFound)
    | none =>
      rw [hDistance] at hFound
      rw [Marking.Guised.holder?_globals] at hFound
      rcases Option.map_eq_some_iff.mp hFound with ⟨_, _, rfl⟩
      exact hCtx.globals.head

/- A variable is declared, and bound from then on. -/
theorem declare_mirrors (hCtx : ctx.Guised g s marks ctx') {name name' : String}
    (hName : name' = g.spell (marks 0) name) (value : Value) :
    Mirrors g s (fun next _ _ => (next.heap.local? ctx.frame name).isSome = true)
      (declare ctx name value) (declare ctx' name' value) := by
  unfold declare
  rw [hCtx.frame]
  refine (Mirrors.updateHeap ?_).weaken ?_
  · intro heap' hHeap
    rw [hName, ← hCtx.marks.head]
    exact hHeap.define _ _ _
  rintro next _ _ rfl
  rw [Heap.local?_define, if_pos ⟨rfl, rfl, hCtx.marks.lt⟩]
  rfl

theorem bindMethod_mirrors {method method' : Closure}
    (hMethod : MethodGuised g s method method') (object : ObjectId) :
    Mirrors g s (Closure.Guised g) (allocate fun heap => heap.bindMethod method object)
      (allocate fun heap =>
        heap.bindMethod method' object) :=
  .allocate fun hHeap => hHeap.bindMethod hMethod object

theorem bound_mirrors {method method' : Closure}
    (hMethod : MethodGuised g s method method') (object : ObjectId) :
    Mirrors g s Same (bound method object) (bound method' object) := by
  apply Mirrors.bind (bindMethod_mirrors hMethod object)
  intro next closure closure' _ hClosure
  apply Mirrors.bindSame
  · exact .create fun hHeap => hHeap.addFunction hClosure
  · intro next id _
    exact .pure rfl

theorem getMember_mirrors (hName : g.token name name') (object : ObjectId) :
    Mirrors g s Same (getMember object name) (getMember object name') := by
  unfold getMember
  rw [g.lexeme_eq hName]
  apply Mirrors.bindSame
  · exact .inspect fun hHeap => hHeap.field? _ _
  intro next field _
  cases field with
  | some value => exact .pure rfl
  | none =>
    apply Mirrors.bind (R := fun next => Option.Rel (MethodGuised g next))
    · exact .inspect fun hHeap => hHeap.methodOf? _ _
    · intro next method method' _ hMethod
      cases hMethod with
      | some hClosure => exact bound_mirrors hClosure _
      | none => exact .failAt hName _

theorem getProperty_mirrors (hName : g.token name name') (object : Value) :
    Mirrors g s Same (getProperty object name) (getProperty object name') := by
  unfold getProperty
  rw [g.lexeme_eq hName]
  cases object with
  | object id => exact getMember_mirrors hName id
  | array id =>
    dsimp only
    split
    · apply Mirrors.bindSame
      · exact .inspect fun hHeap => hHeap.length id
      · exact fun length _ => .pure rfl
    · exact .failAt hName _
  | string text =>
    dsimp only
    split
    · exact .pure rfl
    · exact .failAt hName _
  | _ => exact .failAt hName _

theorem setProperty_mirrors (hName : g.token name name') (object value : Value) :
    Mirrors g s Same (setProperty object name value) (setProperty object name' value) := by
  unfold setProperty
  rw [g.lexeme_eq hName]
  cases object with
  | object id => exact .update fun hHeap => hHeap.setField _ _ _
  | _ => exact .failAt hName _

variable {bracket bracket' : Token}

theorem locate_mirrors (hBracket : g.token bracket bracket') (index : Value) (length : Nat) :
    Mirrors g s Same (locate bracket index length) (locate bracket' index length) := by
  unfold locate
  cases position index length with
  | ok i => exact .pure rfl
  | error cause => exact .failAt hBracket cause

theorem getElement_mirrors (hBracket : g.token bracket bracket') (object index : Value) :
    Mirrors g s Same (getElement object index bracket) (getElement object index bracket') := by
  cases object with
  | array id =>
    apply Mirrors.bindSame
    · exact .inspect fun hHeap => hHeap.length id
    intro next length _
    apply Mirrors.bindSame
    · exact locate_mirrors hBracket index length
    intro next i _
    exact .inspect fun hHeap => by rw [hHeap.element?]; rfl
  | string text =>
    apply Mirrors.bindSame
    · exact locate_mirrors hBracket index _
    · exact fun i _ => .pure rfl
  | _ => exact .failAt hBracket _

theorem setElement_mirrors (hBracket : g.token bracket bracket') (object index value : Value) :
    Mirrors g s Same (setElement object index bracket value)
      (setElement object index bracket' value) := by
  cases object with
  | array id =>
    apply Mirrors.bindSame
    · exact .inspect fun hHeap => hHeap.length id
    intro next length _
    apply Mirrors.bindSame
    · exact locate_mirrors hBracket index length
    intro next i _
    exact .update fun hHeap => hHeap.setElement _ _ _
  | _ => exact .failAt hBracket _

theorem Place.read_mirrors (hCtx : ctx.Guised g s marks ctx')
    {place place' : Place} (hPlace : Place.Guised g marks place place') :
    Mirrors g s Same (place.read ctx) (place'.read ctx') := by
  cases hPlace with
  | named hName => exact readVariable_mirrors hCtx hName
  | property object hName => exact getProperty_mirrors hName object
  | element object index hBracket => exact getElement_mirrors hBracket object index

theorem Place.write_mirrors (hCtx : ctx.Guised g s marks ctx')
    {place place' : Place} (hPlace : Place.Guised g marks place place') (value : Value) :
    Mirrors g s Same (place.write ctx value) (place'.write ctx' value) := by
  cases hPlace with
  | named hName => exact writeVariable_mirrors hCtx hName value
  | property object hName => exact setProperty_mirrors hName object value
  | element object index hBracket => exact setElement_mirrors hBracket object index value

variable {operator operator' : Token}

theorem sum_shows {heap heap' : Heap} (h : heap.Shows heap')
    (left right : Value) : sum heap' left right = sum heap left right := by
  unfold sum
  simp only [h.display]

theorem arithmetic_shows {heap heap' : Heap} (h : heap.Shows heap')
    (kind : Token.Kind) (left right : Value) :
    arithmetic heap' kind left right =
      arithmetic heap kind left right := by
  unfold arithmetic
  simp only [sum_shows h, h.equal]

theorem operate_mirrors (hOperator : g.token operator operator')
    (kind : Token.Kind) (left right : Value) :
    Mirrors g s Same (operate kind operator left right) (operate kind operator' left right) := by
  constructor
  intro w w' hWorld
  simp only [operate, arithmetic_shows hWorld.heap.shows, hWorld.marked]
  cases arithmetic s.heap kind left right with
  | ok value => exact .done (.refl _) hWorld rfl
  | error cause => exact .failed (.refl _) hWorld (.atToken _ hOperator)

theorem negate_mirrors (hOperator : g.token operator operator') (operand : Value) :
    Mirrors g s Same (negate operator operand) (negate operator' operand) := by
  unfold negate
  rw [g.kind_eq hOperator]
  split
  · cases operand with
    | number x => exact .pure rfl
    | _ => exact .failAt hOperator _
  · exact .pure rfl
  · exact .failAt hOperator _

variable {paren paren' : Token}

theorem readInput_mirrors (hParen : g.token paren paren') :
    Mirrors g s Same (readInput paren) (readInput paren') := by
  constructor
  intro w w' hWorld
  unfold readInput
  rw [hWorld.host]
  cases hRead : w.host.readLine with
  | mk reading host =>
    have hWorld' : World.Guised g s { w with host := host }
          { w' with host := host } := ⟨hWorld.marked, hWorld.heap, rfl⟩
    cases reading with
    | line content => exact .done (.refl _) hWorld' rfl
    | atEnd => exact .done (.refl _) hWorld' rfl
    | failure text => exact .failed (.refl _) hWorld' (.atToken _ hParen)
    | unknown =>
      simp only [ask, hWorld.host]
      exact .stopped _

theorem findResource_mirrors (name : String) :
    Mirrors g s Same (findResource name) (findResource name) := by
  constructor
  intro w w' hWorld
  unfold findResource
  rw [hWorld.host]
  cases w.host.resource? name with
  | some found => exact .done (.refl _) hWorld rfl
  | none =>
    simp only [ask, hWorld.host]
    exact .stopped _

theorem lengthOf_mirrors (hParen : g.token paren paren') (value : Value) :
    Mirrors g s Same (lengthOf paren value) (lengthOf paren' value) := by
  cases value with
  | string text => exact .pure rfl
  | array id =>
    apply Mirrors.bindSame
    · exact .inspect fun hHeap => hHeap.length id
    · exact fun length _ => .pure rfl
  | _ => exact .failAt hParen _

theorem callNative_mirrors (hParen : g.token paren paren') (native : Native)
    (arguments : List Value) :
    Mirrors g s Same (callNative native paren arguments) (callNative native paren' arguments) := by
  unfold callNative
  cases native with
  | clock =>
    cases arguments with
    | nil =>
      constructor
      intro w w' hWorld
      have hSeconds : w'.host.seconds = w.host.seconds := by rw [hWorld.host]
      exact .done (.refl _) hWorld (congrArg Value.number hSeconds)
    | cons _ _ => exact .failAt hParen _
  | input =>
    cases arguments with
    | nil => exact readInput_mirrors hParen
    | cons _ _ => exact .failAt hParen _
  | len =>
    rcases arguments with _ | ⟨value, _ | ⟨_, _⟩⟩
    · exact .failAt hParen _
    · exact lengthOf_mirrors hParen value
    · exact .failAt hParen _
  | str =>
    rcases arguments with _ | ⟨value, _ | ⟨_, _⟩⟩
    · exact .failAt hParen _
    · exact .inspect fun hHeap => by rw [hHeap.shows.display]; rfl
    · exact .failAt hParen _
  | fileExists =>
    rcases arguments with _ | ⟨value, _ | ⟨_, _⟩⟩
    · exact .failAt hParen _
    · cases value with
      | string name => exact findResource_mirrors name
      | _ => exact .failAt hParen _
    · exact .failAt hParen _

theorem printValue_mirrors {keyword keyword' : Token}
    (hKeyword : g.token keyword keyword') (value : Value) :
    Mirrors g s Same (printValue keyword value) (printValue keyword' value) := by
  constructor
  intro w w' hWorld
  have hText : w'.heap.display value = w.heap.display value := by
    rw [hWorld.heap.shows.display, hWorld.marked]
  unfold printValue
  rw [hWorld.host, hText]
  cases w.host.printFailure with
  | some text => exact .failed (.refl _) hWorld (.atToken _ hKeyword)
  | none => exact .done (.refl _) ⟨hWorld.marked, hWorld.heap, rfl⟩ rfl

end Eval

end Scriptlet
