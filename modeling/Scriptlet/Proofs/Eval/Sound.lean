import Scriptlet.Proofs.Eval.Bounds
import Scriptlet.Proofs.Eval.Trace

/-
  Frames that fit scopes, and code that is where it belongs.

  Key declarations include:
    * `Eval.Moment`
    * `Eval.Fits`
    * `Eval.Matches`
    * `Eval.Sound`
    * `Eval.Keeps`

  The frames around a frame fit a list of scopes if there is
  one frame for every scope, opened for what the scope
  belongs to, and it binds the names of the scope.  A name
  may be missing while its initializer is not completed.  A
  moment is sound if the frames of functions and methods fit
  the scopes they were declared in, and every visit so far
  matches a site that is known.  Traced actions keep this.
-/

namespace Scriptlet

namespace Eval

open Scope (Kind Names Site)

/- What a frame was opened for, if the event opens it. -/
def Event.opens? (frame : FrameId) : Event → Option Kind
  | .opened kind id => if id = frame then some kind else none
  | _ => none

/- What a frame was opened for. -/
def kindOf? (history : History) (frame : FrameId) : Option Kind :=
  history.findSome? (Event.opens? frame)

theorem kindOf?_later {history history' : History} {frame : FrameId}
    {kind : Kind} (hPrefix : history <+: history') (h : kindOf? history frame = some kind) :
    kindOf? history' frame = some kind := by
  rcases hPrefix with ⟨rest, rfl⟩
  unfold kindOf? at h ⊢
  rw [List.findSome?_append, h, Option.some_or]

/- What has happened, and what the heap is then. -/
structure Moment where
  history : History
  heap : Heap

/- The second moment is later in one run. -/
structure Moment.Leads (m m' : Moment) : Prop where
  history : m.history <+: m'.history
  heap : m.heap.Grows m'.heap

namespace Moment.Leads

theorem refl (m : Moment) : m.Leads m := ⟨List.prefix_refl _, .refl _⟩

theorem trans {m₁ m₂ m₃ : Moment} (h₁ : m₁.Leads m₂) (h₂ : m₂.Leads m₃) :
    m₁.Leads m₃ := ⟨h₁.history.trans h₂.history, h₁.heap.trans h₂.heap⟩

end Moment.Leads

/-
  The frames from this one out to the globals were opened
  for these kinds of scopes.
-/
inductive Nested (m : Moment) : List Kind → FrameId → Prop where
  | globals : m.heap.parent? Heap.globals = none → Nested m [] Heap.globals
  | inside {kind kinds frame outer} : kindOf? m.history frame = some kind →
      m.heap.parent? frame = some outer → Nested m kinds outer → Nested m (kind :: kinds) frame

/-
  A name of a scope is bound in its frame, or the frame has
  come to its initializer.
-/
def Binds (m : Moment) (frame : FrameId) (names : Names) (name : String) : Prop :=
  (m.heap.local? frame name).isSome = true ∨
    names.awaits name = true ∧ .began frame name ∈ m.history

/- All names of a scope are. -/
def Holds (m : Moment) (frame : FrameId) (names : Names) : Prop :=
  ∀ name, names.declares name = true → Binds m frame names name

/- The frames around this one are those of the scopes. -/
inductive Fits (m : Moment) : List Kind → List Names → FrameId → Prop where
  | globals : Heap.globals < m.heap.frames.size →
      m.heap.parent? Heap.globals = none → Fits m [] [] Heap.globals
  | inside {kind kinds names scopes frame outer} :
      kindOf? m.history frame = some kind → m.heap.parent? frame = some outer →
      Holds m frame names → Fits m kinds scopes outer →
      Fits m (kind :: kinds) (names :: scopes) frame

section

variable {m m' : Moment} {frame : FrameId} {names : Names} {kinds : List Kind} {scopes : List Names}

variable {name : String}

theorem Binds.later (h : Binds m frame names name)
    (hLeads : m.Leads m') : Binds m' frame names name := by
  rcases h with h | ⟨hAwaits, hBegan⟩
  · exact .inl (hLeads.heap.bound h)
  · exact .inr ⟨hAwaits, hLeads.history.subset hBegan⟩

namespace Holds

theorem later (h : Holds m frame names) (hLeads : m.Leads m') :
    Holds m' frame names := fun name hName => (h name hName).later hLeads

/- An initializer begins. -/
theorem await (h : Holds m frame names) {name : String}
    (hBegan : .began frame name ∈ m.history) :
    Holds m frame (names.await name) := by
  intro other hOther
  by_cases hDeclared : names.declares name = true
  · have hSame : names.await name = names := if_pos hDeclared
    rw [hSame] at hOther ⊢
    exact h other hOther
  · have hAwait : names.await name = (name, false) :: names := if_neg hDeclared
    by_cases hName : other = name
    · subst hName
      refine .inr ⟨?_, hBegan⟩
      simp [hAwait, Names.awaits]
    · have hOld := ((names.declares_await _ _).mp hOther).resolve_left hName
      unfold Binds
      rw [names.awaits_await hName]
      exact h other hOld

/- A name is bound. -/
theorem settle (h : Holds m frame names) {name : String}
    (hBound : (m.heap.local? frame name).isSome = true) : Holds m frame (names.settle name) := by
  intro other hOther
  by_cases hName : other = name
  · subst hName
    exact .inl hBound
  · have hOld := ((names.declares_settle _ _).mp hOther).resolve_left hName
    unfold Binds
    rw [names.awaits_settle hName]
    exact h other hOld

end Holds

namespace Fits

variable (h : Fits m kinds scopes frame)

include h

theorem later (hLeads : m.Leads m') : Fits m' kinds scopes frame := by
  induction h with
  | globals hSize hParent =>
    refine .globals (Nat.lt_of_lt_of_le hSize hLeads.heap.size) ?_
    rw [hLeads.heap.parent hSize, hParent]
  | inside hKind hParent hHolds _ ih =>
    refine .inside (kindOf?_later hLeads.history hKind) ?_ (hHolds.later hLeads) ih
    rw [hLeads.heap.parent (Heap.lt_of_parent? hParent), hParent]

theorem lt : frame < m.heap.frames.size := by
  cases h with
  | globals hSize _ => exact hSize
  | inside _ hParent _ _ => exact Heap.lt_of_parent? hParent

theorem nested : Nested m kinds frame := by
  induction h with
  | globals _ hParent => exact .globals hParent
  | inside hKind hParent _ _ ih => exact .inside hKind hParent ih

theorem length : scopes.length = kinds.length := by
  induction h with
  | globals => rfl
  | inside _ _ _ _ ih => simp only [List.length_cons, ih]

/- The names of the innermost scope change. -/
theorem modify {change : Names → Names}
    (hChange : ∀ {names}, Holds m frame names → Holds m frame (change names)) :
    Fits m kinds (scopes.modifyHead change) frame := by
  cases h with
  | globals hSize hParent => exact .globals hSize hParent
  | inside hKind hParent hHolds hOuter => exact .inside hKind hParent (hChange hHolds) hOuter

theorem await {name : String} (hBegan : .began frame name ∈ m.history) :
    Fits m kinds (scopes.modifyHead (·.await name)) frame :=
  h.modify fun hHolds => hHolds.await hBegan

theorem settle {name : String} (hBound : (m.heap.local? frame name).isSome = true) :
    Fits m kinds (scopes.modifyHead (·.settle name)) frame :=
  h.modify fun hHolds => hHolds.settle hBound

end Fits

/-
  If a name is declared in these scopes, the frame at the
  distance of its scope binds it.
-/
def Located (m : Moment) (kinds : List Kind) (scopes : List Names)
    (frame : FrameId) (name : String) : Prop :=
  ∀ d, scopes.findIdx? (·.declares name) = some d → ∃ holder names,
      m.heap.ancestor? frame d = some holder ∧
      kindOf? m.history holder = kinds[d]? ∧ scopes[d]? = some names ∧
      names.declares name = true ∧ Binds m holder names name

theorem Fits.located (h : Fits m kinds scopes frame) (name : String) :
    Located m kinds scopes frame name := by
  induction h with
  | globals => exact fun d hFound => by cases hFound
  | @inside _ _ names _ _ _ hKind hParent hHolds _ ih =>
    intro d hFound
    rw [List.findIdx?_cons] at hFound
    by_cases hDeclared : names.declares name = true
    · rw [if_pos hDeclared] at hFound
      cases hFound
      exact ⟨_, names, rfl, hKind, rfl, hDeclared, hHolds name hDeclared⟩
    · rw [if_neg hDeclared] at hFound
      rcases Option.map_eq_some_iff.mp hFound with ⟨outward, hOuter, rfl⟩
      rcases ih outward hOuter with ⟨holder, names', hHolder, hRest⟩
      refine ⟨holder, names', ?_, hRest⟩
      rw [Heap.ancestor?_succ, hParent]
      exact hHolder

/- Another name of the innermost scope does not matter. -/
theorem Located.settle {other : String}
    (h : Located m kinds scopes frame name) (hName : name ≠ other) :
    Located m kinds (scopes.modifyHead (·.settle other)) frame name := by
  cases scopes with
  | nil => exact h
  | cons names outer =>
    have hDeclares : (names.settle other).declares name = names.declares name := by
      rw [Bool.eq_iff_iff, names.declares_settle]
      exact or_iff_right hName
    intro d hFound
    rw [List.modifyHead_cons, List.findIdx?_cons, hDeclares] at hFound
    rcases h d (List.findIdx?_cons.trans hFound) with
      ⟨holder, names', hHolder, hKind, hGet, hOwn, hBinds⟩
    cases d with
    | zero =>
      cases hGet
      refine ⟨holder, _, hHolder, hKind, rfl, ?_, ?_⟩
      · rw [hDeclares]
        exact hOwn
      · unfold Binds
        rw [Names.awaits_settle _ hName]
        exact hBinds
    | succ d => exact ⟨holder, names', hHolder, hKind, hGet, hOwn, hBinds⟩

end

/-
  The initializer of a local variable around the node has
  begun in this frame and is not completed there.
-/
structure Unfinished (history : History) (frame : FrameId) (names : Names)
    (name : String) : Prop where
  awaits : names.awaits name = true
  began : .began frame name ∈ history
  incomplete : .completed frame name ∉ history

/-
  What is true when a reference node is visited.  There is
  one frame for every scope open at its site.  The distance
  of the node is that of its site, and the frame there is the
  one of the scope that declares the name.  It binds the
  name unless its initializer is not completed.
-/
structure Matches (m : Moment) (ctx : Context) (site : Site) : Prop where
  frames : Nested m site.kinds ctx.frame
  scopes : site.scopes.length = site.kinds.length
  distance : ctx.distances[site.reference.id]? = site.distance?
  holder : ∀ d, ctx.distances[site.reference.id]? = some d → ∃ frame names,
        m.heap.ancestor? ctx.frame d = some frame ∧ kindOf? m.history frame = site.kinds[d]? ∧
        site.scopes[d]? = some names ∧ names.declares site.reference.token.lexeme = true ∧
        ((m.heap.local? frame site.reference.token.lexeme).isSome = true ∨
          Unfinished m.history frame names site.reference.token.lexeme)

end Eval

------------------------------------------------------------
-- Sound Moments
------------------------------------------------------------

namespace Eval

open Scope (Kind Names Site)

variable {method : Closure} {event : Event} {kinds : List Kind} {scopes : List Names}

section

variable (known : Site → Prop)

/- What an event says is still so. -/
def Event.Backed (heap : Heap) : Event → Prop
  | .opened _ frame => frame < heap.frames.size
  | .completed frame name => (heap.local? frame name).isSome = true
  | _ => True

/- The frame of a function fits the scopes around it. -/
def Placed (m : Moment) (closure : Closure) : Prop :=
  ∃ kinds scopes, Fits m kinds scopes closure.frame ∧ closure.function.Known known kinds scopes

/- A method fits once it is bound to an object. -/
def Bindable (m : Moment) (method : Closure) : Prop :=
  ∃ kinds scopes, Fits m kinds scopes method.frame ∧
      method.function.Known known (.self :: kinds) ([("this", true)] :: scopes)

/- What was true when a node was visited. -/
def Witnesses (m : Moment) (reference : Reference) (ctx : Context) : Prop :=
  ∃ site, known site ∧ site.reference = reference ∧ Matches m ctx site

/- Every visit of a node was at a known site. -/
def Witnessed (history : History) : Prop :=
  ∀ before reference ctx heap, before ++ [.visited reference ctx heap] <+: history →
      Witnesses known ⟨before, heap⟩ reference ctx

structure Sound (m : Moment) : Prop where
  functions : ∀ closure ∈ m.heap.functions, Placed known m closure
  methods : ∀ blueprint ∈ m.heap.classes, ∀ name method,
      blueprint.methods.get? name = some method → Bindable known m method
  events : ∀ event ∈ m.history, event.Backed m.heap
  visits : Witnessed known m.history

end

variable {known : Site → Prop} {m m' : Moment}

theorem Placed.later {closure : Closure} (h : Placed known m closure)
    (hLeads : m.Leads m') : Placed known m' closure := by
  rcases h with ⟨kinds, scopes, hFits, hKnown⟩
  exact ⟨kinds, scopes, hFits.later hLeads, hKnown⟩

theorem Bindable.later (h : Bindable known m method) (hLeads : m.Leads m') :
    Bindable known m' method := by
  rcases h with ⟨kinds, scopes, hFits, hKnown⟩
  exact ⟨kinds, scopes, hFits.later hLeads, hKnown⟩

variable {heap : Heap}

theorem Event.Backed.later {heap' : Heap} (h : event.Backed heap)
    (hGrows : heap.Grows heap') : event.Backed heap' := by
  cases event with
  | opened => exact Nat.lt_of_lt_of_le h hGrows.size
  | completed => exact hGrows.bound h
  | _ => trivial

/- The event may be told: a visit at a known site only. -/
def Admits (known : Site → Prop) (m : Moment) : Event → Prop
  | .visited reference ctx heap => Witnesses known ⟨m.history, heap⟩ reference ctx
  | event => event.Backed m.heap

theorem Witnessed.tell {history : History} (h : Witnessed known history)
    (hEvent : ∀ {reference ctx heap}, event = .visited reference ctx heap →
        Witnesses known ⟨history, heap⟩ reference ctx) : Witnessed known (history ++ [event]) := by
  intro before reference ctx heap hPrefix
  rcases List.prefix_concat_iff.mp hPrefix with hSame | hPrefix
  · rcases List.append_inj' hSame rfl with ⟨rfl, hLast⟩
    exact hEvent (List.singleton_inj.mp hLast).symm
  · exact h before reference ctx heap hPrefix

namespace Sound

variable (h : Sound known m)

include h

/- The heap has grown, and events have been told. -/
theorem grow (hLeads : m.Leads m')
    (hFunctions : ∀ closure ∈ m'.heap.functions,
        closure ∈ m.heap.functions ∨ Placed known m' closure)
    (hMethods : ∀ blueprint ∈ m'.heap.classes, blueprint ∈ m.heap.classes ∨
          ∀ name method, blueprint.methods.get? name = some method → Bindable known m' method)
    (hEvents : ∀ event ∈ m'.history, event ∈ m.history ∨ event.Backed m'.heap)
    (hVisits : Witnessed known m'.history) : Sound known m' where
  functions := by
    intro closure hMem
    rcases hFunctions closure hMem with hOld | hNew
    · exact (h.functions closure hOld).later hLeads
    · exact hNew
  methods := by
    intro blueprint hMem name method hGet
    rcases hMethods blueprint hMem with hOld | hNew
    · exact (h.methods blueprint hOld name method hGet).later hLeads
    · exact hNew name method hGet
  events := by
    intro event hMem
    rcases hEvents event hMem with hOld | hNew
    · exact (h.events event hOld).later hLeads.heap
    · exact hNew
  visits := hVisits

/- Nothing but variables has changed. -/
theorem sameCode {heap : Heap} (hGrows : m.heap.Grows heap)
    (hFunctions : heap.functions = m.heap.functions) (hClasses : heap.classes = m.heap.classes) :
    m.Leads ⟨m.history, heap⟩ ∧ Sound known ⟨m.history, heap⟩ := by
  have hLeads : m.Leads ⟨m.history, heap⟩ := ⟨List.prefix_refl _, hGrows⟩
  refine ⟨hLeads, h.grow hLeads ?_ ?_ ?_ h.visits⟩
  · rw [hFunctions]
    exact fun _ => .inl
  · rw [hClasses]
    exact fun _ => .inl
  · exact fun _ => .inl

theorem settle {heap : Heap} (hHeap : m.heap.Settles heap) :
    m.Leads ⟨m.history, heap⟩ ∧ Sound known ⟨m.history, heap⟩ :=
  h.sameCode hHeap.grows hHeap.functions hHeap.classes

theorem tell (hEvent : Admits known m event) :
    m.Leads ⟨m.history ++ [event], m.heap⟩ ∧ Sound known ⟨m.history ++ [event], m.heap⟩ := by
  have hLeads : m.Leads ⟨m.history ++ [event], m.heap⟩ := ⟨List.prefix_append _ _, .refl _⟩
  refine ⟨hLeads, h.grow hLeads (fun _ => .inl) (fun _ => .inl) ?_ (h.visits.tell ?_)⟩
  · intro other hMem
    rcases List.mem_append.mp hMem with hOld | hNew
    · exact .inl hOld
    · rw [List.mem_singleton.mp hNew]
      refine .inr ?_
      cases event with
      | visited => trivial
      | _ => exact hEvent
  · rintro reference ctx heap rfl
    exact hEvent

/- A frame is opened. -/
theorem addFrame (kind : Kind) (bindings : Bindings Value) (outer : Option FrameId) :
    let frame := m.heap.frames.size
    let later : Moment := ⟨m.history ++ [.opened kind frame], (m.heap.addFrame bindings outer).2⟩
    m.Leads later ∧ Sound known later ∧ kindOf? later.history frame = some kind := by
  intro frame later
  have hGrows := m.heap.grows_addFrame bindings outer
  have hLeads : m.Leads later := ⟨List.prefix_append _ _, hGrows⟩
  refine ⟨hLeads, ?_, ?_⟩
  · apply h.grow hLeads (fun _ => .inl) (fun _ => .inl)
    · intro event hMem
      rcases List.mem_append.mp hMem with hOld | hNew
      · exact .inl hOld
      · rw [List.mem_singleton.mp hNew]
        exact .inr (by simp [Event.Backed, later, frame, Heap.addFrame])
    · exact h.visits.tell fun hEvent => by cases hEvent
  · have hNone : kindOf? m.history frame = none := by
      apply List.findSome?_eq_none_iff.mpr
      intro event hMem
      cases event with
      | opened other id =>
        have hLt : id < frame := h.events _ hMem
        exact if_neg (Nat.ne_of_lt hLt)
      | _ => rfl
    unfold kindOf? at hNone ⊢
    rw [List.findSome?_append, hNone, Option.none_or]
    simp [Event.opens?]

/- A function is created. -/
theorem addFunction (closure : Closure) (hClosure : Placed known m closure) :
    let later : Moment := ⟨m.history, (m.heap.addFunction closure).2⟩
    m.Leads later ∧ Sound known later := by
  intro later
  have hLeads : m.Leads later := ⟨List.prefix_refl _, .of_frames rfl⟩
  refine ⟨hLeads, h.grow hLeads ?_ (fun _ => .inl) (fun _ => .inl) h.visits⟩
  intro other hMem
  rcases Array.mem_push.mp hMem with hOld | rfl
  · exact .inl hOld
  · exact .inr (hClosure.later hLeads)

/- A class is created. -/
theorem addClass (blueprint : Blueprint)
    (hMethods : ∀ name method, blueprint.methods.get? name = some method →
        Bindable known m method) :
    let later : Moment := ⟨m.history, (m.heap.addClass blueprint).2⟩
    m.Leads later ∧ Sound known later := by
  intro later
  have hLeads : m.Leads later := ⟨List.prefix_refl _, .of_frames rfl⟩
  refine ⟨hLeads, h.grow hLeads (fun _ => .inl) ?_ (fun _ => .inl) h.visits⟩
  intro other hMem
  rcases Array.mem_push.mp hMem with hOld | rfl
  · exact .inl hOld
  · exact .inr fun name method hGet => (hMethods name method hGet).later hLeads

end Sound

section

variable {known' : Site → Prop} (hSites : ∀ site, known site → known' site)
include hSites

theorem Witnessed.mono {history : History} (h : Witnessed known history) :
    Witnessed known' history := by
  intro before reference ctx heap hPrefix
  rcases h before reference ctx heap hPrefix with ⟨site, hSite, hMatches⟩
  exact ⟨site, hSites site hSite, hMatches⟩

theorem Sound.mono (h : Sound known m) : Sound known' m where
  functions := by
    intro closure hMem
    rcases h.functions closure hMem with ⟨kinds, scopes, hFits, hKnown⟩
    exact ⟨kinds, scopes, hFits, Function.Known.mono hSites closure.function hKnown⟩
  methods := by
    intro blueprint hMem name method hGet
    rcases h.methods blueprint hMem name method hGet with ⟨kinds, scopes, hFits, hKnown⟩
    exact ⟨kinds, scopes, hFits, Function.Known.mono hSites method.function hKnown⟩
  events := h.events
  visits := h.visits.mono hSites

end

/- How a traced action ends that keeps a moment sound. -/
inductive Kept {α : Type} (known : Site → Prop) (m : Moment)
    (Q : α → Moment → Prop) : History × Outcome α → Prop where
  | done {history value w} : m.Leads ⟨history, w.heap⟩ →
      Sound known ⟨history, w.heap⟩ → Q value ⟨history, w.heap⟩ →
      Kept known m Q (history, .done value w)
  | failed {history fault w} : m.Leads ⟨history, w.heap⟩ →
      Sound known ⟨history, w.heap⟩ → Kept known m Q (history, .failed fault w)
  | stopped {history reason} : Witnessed known history → Kept known m Q (history, .stopped reason)

/-
  The traced action keeps this moment sound, whatever the
  host, and its result satisfies `Q`.
-/
structure Keeps {α : Type} (known : Site → Prop) (m : Moment)
    (traced : Traced α) (Q : α → Moment → Prop) : Prop where
  kept (host : Host) : Kept known m Q (traced m.history ⟨m.heap, host⟩)

/- Any result will do. -/
def anything {α : Type} (_ : α) (_ : Moment) : Prop := True

namespace Keeps

variable {α β : Type} {Q : α → Moment → Prop} {R : β → Moment → Prop}

variable {traced : Traced α}

theorem mono {P : α → Moment → Prop} (h : Keeps known m traced P)
    (hImp : ∀ {value m'}, m.Leads m' → P value m' → Q value m') : Keeps known m traced Q := by
  constructor
  intro host
  have hKept := h.kept host
  generalize traced m.history ⟨m.heap, host⟩ = ending at hKept ⊢
  cases hKept with
  | done hLeads hSound hValue => exact .done hLeads hSound (hImp hLeads hValue)
  | failed hLeads hSound => exact .failed hLeads hSound
  | stopped hVisits => exact .stopped hVisits

theorem bind {next : α → Traced β} (hTraced : Keeps known m traced Q)
    (hNext : ∀ {value m'}, m.Leads m' → Sound known m' →
      Q value m' → Keeps known m' (next value) R) : Keeps known m (traced >>= next) R := by
  constructor
  intro host
  have hKept := hTraced.kept host
  change Kept known m R (Traced.bind traced next m.history ⟨m.heap, host⟩)
  unfold Traced.bind
  generalize traced m.history ⟨m.heap, host⟩ = ending at hKept
  cases hKept with
  | @done history value w hLeads hSound hValue =>
    have hRest := (hNext hLeads hSound hValue).kept w.host
    generalize hEnding :
      next value history ⟨w.heap, w.host⟩ = ending' at hRest
    change Kept known m R (next value history ⟨w.heap, w.host⟩)
    rw [hEnding]
    cases hRest with
    | done hLeads' hSound' hValue' => exact .done (hLeads.trans hLeads') hSound' hValue'
    | failed hLeads' hSound' => exact .failed (hLeads.trans hLeads') hSound'
    | stopped hVisits => exact .stopped hVisits
  | failed hLeads hSound => exact .failed hLeads hSound
  | stopped hVisits => exact .stopped hVisits

section

variable (h : Sound known m)
include h

theorem pure {value : α} (hValue : Q value m) :
    Keeps known m (Pure.pure value) Q := ⟨fun _ => .done (.refl m) h hValue⟩

/- What leaves code and frames as they are keeps moments sound. -/
theorem storing {outcome : Outcome α} {host : Host}
    (hEnds : storing.Ends ⟨m.heap, host⟩ outcome) : Kept known m anything (m.history, outcome) := by
  cases hEnds with
  | done hSame =>
    rcases h.settle hSame.heap with ⟨hLeads, hSound⟩
    exact .done hLeads hSound trivial
  | failed hSame =>
    rcases h.settle hSame.heap with ⟨hLeads, hSound⟩
    exact .failed hLeads hSound
  | stopped => exact .stopped h.visits

theorem plain {action : Action α} (hAction : StoresOnly action) :
    Keeps known m (plain action) anything := ⟨fun _ => storing h (hAction.ends _)⟩

theorem failAt (token : Token) (cause : Cause) :
    Keeps known m (Eval.plain (failAt token cause)) Q := ⟨fun _ => .failed (.refl m) h⟩

theorem exhausted : Keeps known m (Eval.plain exhausted) Q :=
  ⟨fun _ => .stopped h.visits⟩

theorem tell (hEvent : Admits known m event) :
    Keeps known m (tell event) (fun _ m' => event ∈ m'.history) := by
  rcases h.tell hEvent with ⟨hLeads, hSound⟩
  exact ⟨fun host => .done hLeads hSound (List.mem_append_right _ (List.mem_singleton.mpr rfl))⟩

theorem visit {ctx : Context} {role : Role} {id : Nat} {token : Token}
    (hVisit : Witnesses known m ⟨role, id, token⟩ ctx) :
    Keeps known m (visit ctx role id token) anything := by
  have hTell : Keeps known m (Eval.tell (.visited ⟨role, id, token⟩ ctx m.heap)) _ := .tell h hVisit
  exact ⟨(hTell.mono fun _ _ => trivial).kept⟩

end

/- What is made of a value in the end asks for nothing. -/
theorem yield {f : α → β} (h : Keeps known m traced Q) :
    Keeps known m (do let value ← traced; return f value) anything :=
  h.bind fun _ h' _ => .pure h' trivial

end Keeps

theorem opening_addFrame (kind : Kind) (bindings : Bindings Value)
    (outer : Option FrameId) (history : History) (heap : Heap) (host : Host) :
    opening kind (allocate fun heap => heap.addFrame bindings outer) history ⟨heap, host⟩ =
      (history ++ [.opened kind heap.frames.size], .done heap.frames.size
          ⟨(heap.addFrame bindings outer).2, host⟩) := by
  simp [opening, allocate, Outcome.added, Heap.addFrame]

/- A scope for `this` declares nothing else. -/
theorem self_bound (object : ObjectId) (name : String)
    (h : Names.declares [("this", true)] name = true) :
    (Bindings.get? [("this", Value.object object)] name).isSome = true := by
  simp only [Names.declares, List.any_cons, List.any_nil, Bool.or_false, decide_eq_true_eq] at h
  subst h
  rfl

section

variable (h : Sound known m)
include h

section

variable {outer : FrameId} (hFits : Fits m kinds scopes outer) (kind : Kind) {names : Names}
variable {bindings : Bindings Value}
variable (hNames : ∀ name, names.declares name = true → (bindings.get? name).isSome = true)
include hFits hNames

/- A new frame inside frames that fit. -/
theorem Sound.openFrame :
    let frame := m.heap.frames.size
    let later : Moment :=
      ⟨m.history ++ [.opened kind frame], (m.heap.addFrame bindings (some outer)).2⟩
    m.Leads later ∧ Sound known later ∧ Fits later (kind :: kinds) (names :: scopes) frame := by
  intro frame later
  rcases h.addFrame kind bindings (some outer) with ⟨hLeads, hSound, hKind⟩
  refine ⟨hLeads, hSound, .inside hKind ?_ ?_ (hFits.later hLeads)⟩
  · simp only [later, frame, Heap.parent?, Heap.frames_addFrame_new]
    rfl
  · intro name hName
    refine .inl ?_
    simp only [later, frame, Heap.local?, Heap.frames_addFrame_new]
    exact hNames name hName

theorem Keeps.openFrame :
    Keeps known m (opening kind (allocate fun heap => heap.addFrame bindings (some outer)))
      (fun frame m' =>
        Fits m' (kind :: kinds) (names :: scopes) frame) := by
  constructor
  intro host
  rcases h.openFrame hFits kind hNames with ⟨hLeads, hSound, hInside⟩
  rw [opening_addFrame]
  exact .done hLeads hSound hInside

end

variable (hMethod : Bindable known m method) (object : ObjectId)
include hMethod

/- A method is bound to an object. -/
theorem Sound.bindMethod :
    let later : Moment :=
      ⟨m.history ++ [.opened .self m.heap.frames.size], (m.heap.bindMethod method object).2⟩
    m.Leads later ∧ Sound known later ∧ Placed known later (m.heap.bindMethod method object).1 := by
  intro later
  rcases hMethod with ⟨kinds, scopes, hFits, hKnown⟩
  rcases h.openFrame hFits .self (self_bound object) with ⟨hLeads, hSound, hInside⟩
  exact ⟨hLeads, hSound, _, _, hInside, hKnown⟩

theorem Keeps.bindMethod :
    Keeps known m (opening .self (allocate fun heap => heap.bindMethod method object))
      (fun closure m' =>
        Placed known m' closure ∧ closure.function = method.function) := by
  constructor
  intro host
  rcases h.bindMethod hMethod object with ⟨hLeads, hSound, hPlaced⟩
  have hAdded : opening .self (allocate fun heap => heap.bindMethod method object)
          m.history ⟨m.heap, host⟩ =
        (m.history ++ [.opened .self m.heap.frames.size], .done (m.heap.bindMethod method object).1
            ⟨(m.heap.bindMethod method object).2, host⟩) := by
    simp [opening, allocate, Outcome.added, Heap.bindMethod, Heap.addFrame]
  rw [hAdded]
  exact .done hLeads hSound ⟨hPlaced, rfl⟩

end

variable {classId : ClassId} {name : String}

/- A method that is found belongs to a class. -/
theorem mem_of_findMethod?
    (h : heap.findMethod? classId name = some method) :
    ∃ blueprint ∈ heap.classes, blueprint.methods.get? name = some method := by
  fun_induction Heap.findMethod? heap classId name with
  | case1 => cases h
  | case2 classId blueprint hClass own hOwn =>
    cases h
    exact ⟨blueprint, Array.mem_of_getElem? hClass, hOwn⟩
  | case3 _ _ _ _ _ _ _ ih => exact ih h
  | case4 => cases h
  | case5 => cases h

theorem Sound.bindable (h : Sound known m)
    (hFound : m.heap.findMethod? classId name = some method) : Bindable known m method := by
  rcases mem_of_findMethod? hFound with ⟨blueprint, hMem, hGet⟩
  exact h.methods blueprint hMem name method hGet

/-
  The action leaves code and frames as they are, or it binds
  a method to an object at last.
-/
structure Binding (action : Action Value) : Prop where
  ends (w : World) : storing.Ends w (action w) ∨ ∃ classId name method object,
        w.heap.findMethod? classId name = some method ∧ action w = bound method object w

variable {action : Action Value}

theorem Binding.of_stores (h : StoresOnly action) :
    Binding action := ⟨fun w => .inl (h.ends w)⟩

theorem opening_eq {α : Type} (kind : Kind) (action : Action α) (history : History)
    (w : World) :
    opening kind action history w =
      (history ++ ((action w).added w).map (.opened kind), action w) :=
  rfl

theorem bound_eq (method : Closure) (object : ObjectId) (w : World) :
    bound method object w =
      let (closure, heap) := w.heap.bindMethod method object
      .done (.function heap.functions.size) ⟨(heap.addFunction closure).2, w.host⟩ :=
  rfl

theorem bind_inspect {α β : Type} (view : Heap → α) (next : α → Action β)
    (w : World) : (inspect view >>= next) w = next (view w.heap) w :=
  rfl

theorem bind_require {α β : Type} (token : Token) (cause : Cause)
    (found : Heap → Option α) (next : α → Action β) (w : World) :
    (require token cause found >>= next) w =
      match found w.heap with
      | some value => next value w
      | none => .failed (.atToken token cause) w := by
  change Action.bind (require token cause found) next w = _
  unfold Action.bind require
  cases found w.heap <;> rfl

theorem getMember_binding (object : ObjectId) (name : Token) :
    Binding (getMember object name) := by
  constructor
  intro w
  unfold getMember
  rw [bind_inspect]
  cases w.heap.field? object name.lexeme with
  | some value => exact .inl (.done (storing.refl w))
  | none =>
    dsimp only
    rw [bind_inspect]
    cases hMethod : w.heap.methodOf? object name.lexeme with
    | some method =>
      rcases Option.bind_eq_some_iff.mp hMethod with ⟨o, _, hFound⟩
      exact .inr ⟨o.classId, _, method, object, hFound, rfl⟩
    | none => exact .inl (.failed (storing.refl w) trivial)

theorem getProperty_binding (object : Value) (name : Token) :
    Binding (getProperty object name) := by
  unfold getProperty
  cases object with
  | object id => exact getMember_binding id name
  | array id =>
    apply Binding.of_stores
    dsimp only
    split
    · exact .bind (.inspect _) fun _ => .pure _
    · exact .failAt _ trivial
  | string text =>
    apply Binding.of_stores
    dsimp only
    split
    · exact .pure _
    · exact .failAt _ trivial
  | _ => exact .of_stores (.failAt _ trivial)

theorem superMethod_binding (ctx : Context) (id : Nat)
    (keyword method : Token) : Binding (superMethod ctx id keyword method) := by
  constructor
  intro w
  have hFailed {fault : Fault} : storing.Ends w (.failed fault w : Outcome Value) :=
    .failed (storing.refl w) trivial
  unfold superMethod
  cases ctx.distances[id]? with
  | none => exact .inl hFailed
  | some distance =>
    dsimp only
    rw [bind_require]
    split
    · rename_i parent _
      cases parent with
      | blueprint classId =>
        dsimp only
        rw [bind_require]
        split
        · rename_i self _
          cases self with
          | object object =>
            dsimp only
            rw [bind_require]
            split
            · rename_i found hFound
              exact .inr ⟨classId, _, found, object, hFound, rfl⟩
            · exact .inl hFailed
          | _ => exact .inl hFailed
        · exact .inl hFailed
      | _ => exact .inl hFailed
    · exact .inl hFailed

theorem Place.read_binding (ctx : Context) (place : Place) : Binding (place.read ctx) := by
  cases place with
  | named id name => exact .of_stores (readVariable_stores ctx id name)
  | property object name => exact getProperty_binding object name
  | element object index bracket => exact .of_stores (getElement_within object index bracket)

/- An action that only stores adds no frame. -/
theorem added_storing {α : Type} {w : World} {outcome : Outcome α}
    (h : storing.Ends w outcome) : outcome.added w = [] := by
  cases h with
  | done hSame => simp [Outcome.added, hSame.heap.size]
  | failed hSame => simp [Outcome.added, hSame.heap.size]
  | stopped => rfl

/- What may bind a method keeps moments sound. -/
theorem Keeps.binding (h : Sound known m) (hAction : Binding action) :
    Keeps known m (opening .self action) anything := by
  constructor
  intro host
  rcases hAction.ends ⟨m.heap, host⟩ with hEnds | ⟨classId, name, method, object, hFound, hSame⟩
  · rw [opening_eq, added_storing hEnds, List.map_nil, List.append_nil]
    exact storing h hEnds
  · rcases h.bindMethod (h.bindable hFound) object with ⟨hLeads, hSound, hPlaced⟩
    rcases hSound.addFunction _ hPlaced with ⟨hLeads', hSound'⟩
    have hAdded : (bound method object ⟨m.heap, host⟩).added
            ⟨m.heap, host⟩ = [m.heap.frames.size] := by
      simp [bound_eq, Outcome.added, Heap.bindMethod, Heap.addFrame, Heap.addFunction]
    rw [opening_eq, hSame, hAdded, bound_eq]
    exact .done (hLeads.trans hLeads') hSound' trivial

/- A function is created in frames that fit. -/
theorem Keeps.makeFunction {ctx : Context} {f : Function} (h : Sound known m)
    (hFits : Fits m kinds scopes ctx.frame) (hKnown : f.Known known kinds scopes) :
    Keeps known m (Eval.plain (makeFunction ctx f)) anything := by
  have hPlaced : Placed known m ⟨f, ctx.frame, false⟩ := ⟨kinds, scopes, hFits, hKnown⟩
  rcases h.addFunction _ hPlaced with ⟨hLeads, hSound⟩
  exact ⟨fun host => .done hLeads hSound trivial⟩

end Eval

end Scriptlet
