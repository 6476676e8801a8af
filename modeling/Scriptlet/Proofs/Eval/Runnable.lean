import Scriptlet.Proofs.Eval.Scoped

/-
  Heaps whose code finds what `this` and `super` stand for.

  Key declarations include:
    * `Eval.RunnableIn`
    * `Eval.AllRunnable`
    * `Eval.Acts`

  Functions stand in frames that are in line with the scopes
  around them, and so do methods once they are bound to an
  object.  The nearest object around a use of `super` is one
  for the method that the use is written in.  Actions keep
  heaps so and fail for external causes only.
-/

namespace Scriptlet

namespace Eval

open Scope (Distances Kind Names Site Serves classDepth)

variable {closure method : Closure} {name : String}

/- The table has the distance of what a node refers to. -/
def Served (table : Distances) (site : Site) : Prop :=
  Serves site.kinds site.reference.role table[site.reference.id]?

/- It is so in every table with more entries. -/
theorem Served.mono {table table' : Distances}
    (hTable : ∀ {id d : Nat}, table[id]? = some d → table'[id]? = some d)
    {site : Site} (h : Served table site) : Served table' site := by
  rcases site with ⟨⟨role, id, token⟩, kinds, scopes⟩
  cases role with
  | self
  | superMethod =>
    rcases h with ⟨d, hDistance, hKind⟩
    exact ⟨d, hTable hDistance, hKind⟩
  | name => trivial
  | assign => trivial

section

variable (table : Distances) (heap : Heap)

/- The method around a frame has this `super` node. -/
def Home (frame : FrameId) (id : Nat) : Prop :=
  ∃ f c name method, heap.SelfFrame frame f ∧ heap.Hosts f c name method ∧
      id ∈ method.function.supers

/-
  Code with sites in `P` can be run in a frame.  Those of its
  `super` nodes that are no deeper in classes are nodes of
  the method around the frame.
-/
structure RunnableIn (P : Site → Prop) (kinds : List Kind) (frame : FrameId) : Prop where
  lined : heap.Lined kinds frame
  inner : heap.local? frame "super" = none
  served : ∀ site, P site → Served table site
  homed : ∀ site, P site → site.reference.role = .superMethod →
      classDepth site.kinds = classDepth kinds → Home heap frame site.reference.id

/- A function that can be run in its frame. -/
structure Runs (P : Site → Prop) (f : Function) (frame : FrameId) (kinds : List Kind) : Prop where
  sensible : f.Sensible
  known : ∃ scopes, f.Known P kinds scopes
  runsIn : RunnableIn table heap P kinds frame

/- Where functions come from. -/
inductive Origin : Closure → Prop where
  | made {f frame} : Origin ⟨f, frame, false⟩
  | bound {frame c name method} : heap.Hosts frame c name method →
      Origin { method with frame := frame }

/- A function that can be called. -/
structure Runnable (closure : Closure) : Prop where
  runs : ∃ P kinds, Runs table heap P closure.function closure.frame kinds
  origin : Origin heap closure

/- The sites of a method, with its own `super` nodes. -/
def SitesOf (f : Function) (kinds : List Kind) (site : Site) : Prop :=
  Served table site ∧ site.Among (classDepth kinds) f.supers

/-
  A method of a class can be run in a frame for an object.
  It stands in a frame that binds `super` if the class has a
  superclass.
-/
structure Attachable (c : Blueprint) (name : String) (method : Closure) : Prop where
  sensible : method.function.Sensible
  initializer : method.isInitializer = decide (name = Heap.initializerName)
  superclass : heap.local? method.frame "super" = c.superclass.map .blueprint
  known : ∃ kinds scopes, heap.Lined kinds method.frame ∧ method.function.Known
        (SitesOf table method.function (.self :: kinds)) (.self :: kinds) scopes

/- A method that some class has under a name. -/
def Offered (name : String) (method : Closure) : Prop :=
  ∃ c ∈ heap.classes, c.methods.get? name = some method ∧ Attachable table heap c name method

/- All code in the heap can be run where it is. -/
structure AllRunnable : Prop where
  functions : ∀ closure ∈ heap.functions, Runnable table heap closure
  methods : ∀ c ∈ heap.classes, ∀ name method,
      c.methods.get? name = some method → Attachable table heap c name method

end

variable {table : Distances} {heap heap' : Heap}

theorem Home.keep {frame : FrameId} {id : Nat} (h : Home heap frame id)
    (hKeeps : heap.Keeps heap') : Home heap' frame id := by
  rcases h with ⟨f, c, name, method, hSelf, hHosts, hMem⟩
  exact ⟨f, c, name, method, hSelf.keep hKeeps, hHosts.keep hKeeps, hMem⟩

namespace RunnableIn

variable {P : Site → Prop} {kinds : List Kind} {frame : FrameId}

theorem keep (h : RunnableIn table heap P kinds frame) (hKeeps : heap.Keeps heap') :
    RunnableIn table heap' P kinds frame where
  lined := h.lined.keep hKeeps
  inner := by rw [hKeeps.reserved h.lined.frame_lt Heap.not_ordinary_super, h.inner]
  served := h.served
  homed site hSite hRole hDepth := (h.homed site hSite hRole hDepth).keep hKeeps

/- The table may have more entries. -/
theorem mono {table' : Distances} (h : RunnableIn table heap P kinds frame)
    (hTable : ∀ site, Served table site → Served table' site) :
    RunnableIn table' heap P kinds frame :=
  { h with served := fun site hSite => hTable site (h.served site hSite) }

/- At top level no `super` node is served. -/
theorem top (hLined : heap.Lined [] frame) (hInner : heap.local? frame "super" = none) :
    RunnableIn table heap (Served table) [] frame where
  lined := hLined
  inner := hInner
  served _ := id
  homed := by
    rintro ⟨⟨role, id, token⟩, kinds, scopes⟩ hSite hRole hDepth
    cases hRole
    rcases hSite with ⟨d, _, hNearest, _⟩
    have hMem := List.mem_of_getElem? hNearest.at_distance
    have hPos := List.count_pos_iff.mpr hMem
    change 0 < classDepth kinds at hPos
    rw [hDepth] at hPos
    cases hPos

/- Code in a block or a body is run in a frame of its own. -/
theorem addFrame (h : RunnableIn table heap P kinds frame) {kind : Kind}
    (hKind : kind = .block ∨ kind = .function) (bindings : Bindings Value)
    (hBindings : ∀ {name}, ¬ Ordinary name → bindings.get? name = none) :
    RunnableIn table (heap.addFrame bindings (some frame)).2
      P (kind :: kinds) heap.frames.size := by
  have hKeeps := Heap.Keeps.addFrame heap bindings (some frame)
  have hLocal {name : String} (hName : ¬ Ordinary name) :
      (heap.addFrame bindings (some frame)).2.local? heap.frames.size name = none := by
    rw [Heap.local?_addFrame_new, hBindings hName]
  have hSelf := hLocal Heap.not_ordinary_this
  have hLined : (heap.addFrame bindings (some frame)).2.Lined (kind :: kinds) heap.frames.size := by
    apply h.lined.addFrame
    rcases hKind with rfl | rfl <;> exact hSelf
  have hParent : (heap.addFrame bindings (some frame)).2.parent?
        heap.frames.size = some frame := Heap.parent?_addFrame_new ..
  have hSame : classDepth (kind :: kinds) = classDepth kinds :=
    List.count_cons_of_ne (by rcases hKind with rfl | rfl <;> decide)
  refine ⟨hLined, hLocal Heap.not_ordinary_super, h.served, ?_⟩
  intro site hSite hRole hDepth
  rcases (h.homed site hSite hRole (hDepth.trans hSame)).keep hKeeps with
    ⟨f, c, name, method, hFrame, hHosts, hMem⟩
  exact ⟨f, c, name, method, .further hSelf hParent hFrame, hHosts, hMem⟩

end RunnableIn

theorem Origin.keep (h : Origin heap closure) (hKeeps : heap.Keeps heap') :
    Origin heap' closure := by
  cases h with
  | made => exact .made
  | bound hHosts => exact .bound (hHosts.keep hKeeps)

theorem Runnable.keep (h : Runnable table heap closure)
    (hKeeps : heap.Keeps heap') : Runnable table heap' closure := by
  rcases h.runs with ⟨P, kinds, hRuns⟩
  exact ⟨⟨P, kinds, { hRuns with runsIn := hRuns.runsIn.keep hKeeps }⟩, h.origin.keep hKeeps⟩

variable {c : Blueprint}

theorem Attachable.keep
    (h : Attachable table heap c name method) (hKeeps : heap.Keeps heap') :
    Attachable table heap' c name method := by
  rcases h.known with ⟨kinds, scopes, hLined, hKnown⟩
  refine { h with
    superclass := ?_
    known := ⟨kinds, scopes, hLined.keep hKeeps, hKnown⟩ }
  rw [hKeeps.reserved hLined.frame_lt Heap.not_ordinary_super, h.superclass]

namespace AllRunnable

section

variable (h : AllRunnable table heap)

include h

/- More code may have been created. -/
theorem grow (hKeeps : heap.Keeps heap')
    (hFunctions : ∀ closure ∈ heap'.functions, closure ∈ heap.functions ∨
          Runnable table heap' closure)
    (hMethods : ∀ c ∈ heap'.classes, c ∈ heap.classes ∨ ∀ name method,
            c.methods.get? name = some method →
              Attachable table heap' c name method) : AllRunnable table heap' where
  functions := by
    intro closure hMem
    rcases hFunctions closure hMem with hOld | hNew
    · exact (h.functions closure hOld).keep hKeeps
    · exact hNew
  methods := by
    intro c hMem name method hGet
    rcases hMethods c hMem with hOld | hNew
    · exact (h.methods c hOld name method hGet).keep hKeeps
    · exact hNew name method hGet

theorem of_sameCode (hCode : SameCode heap heap') : AllRunnable table heap' := by
  apply h.grow hCode.keeps
  · rw [hCode.functions]
    exact fun _ => .inl
  · rw [hCode.classes]
    exact fun _ => .inl

theorem addFunction (hClosure : Runnable table heap closure) :
    AllRunnable table (heap.addFunction closure).2 := by
  have hKeeps : heap.Keeps (heap.addFunction closure).2 := .of_frames rfl fun _ => id
  refine h.grow hKeeps ?_ (fun _ => .inl)
  intro other hMem
  rcases Array.mem_push.mp hMem with hOld | rfl
  · exact .inl hOld
  · exact .inr (hClosure.keep hKeeps)

theorem addClass {c : Blueprint}
    (hMethods : ∀ name method, c.methods.get? name = some method →
        Attachable table heap c name method) : AllRunnable table (heap.addClass c).2 := by
  have hKeeps : heap.Keeps (heap.addClass c).2 := .of_frames rfl fun _ => Array.mem_push_of_mem c
  refine h.grow hKeeps (fun _ => .inl) ?_
  intro other hMem
  rcases Array.mem_push.mp hMem with hOld | rfl
  · exact .inl hOld
  · exact .inr fun name method hGet => (hMethods name method hGet).keep hKeeps

theorem addFrame (bindings : Bindings Value)
    (outer : Option FrameId) : AllRunnable table (heap.addFrame bindings outer).2 :=
  h.grow (.addFrame heap bindings outer) (fun _ => .inl) (fun _ => .inl)

/- A method that is found can be bound. -/
theorem offered {classId : ClassId}
    (hFound : heap.findMethod? classId name = some method) : Offered table heap name method := by
  rcases mem_of_findMethod? hFound with ⟨c, hMem, hGet⟩
  exact ⟨c, hMem, hGet, h.methods c hMem name method hGet⟩

/- The table may have more entries. -/
theorem mono {table' : Distances}
    (hTable : ∀ site, Served table site → Served table' site) : AllRunnable table' heap where
  functions := by
    intro closure hMem
    rcases h.functions closure hMem with ⟨⟨P, kinds, hRuns⟩, hOrigin⟩
    exact ⟨⟨P, kinds, { hRuns with runsIn := hRuns.runsIn.mono hTable }⟩, hOrigin⟩
  methods := by
    intro c hMem name method hGet
    have hOld := h.methods c hMem name method hGet
    rcases hOld.known with ⟨kinds, scopes, hLined, hKnown⟩
    refine { hOld with known := ⟨kinds, scopes, hLined, ?_⟩ }
    apply Function.Known.mono _ _ hKnown
    exact fun site hSite => ⟨hTable site hSite.1, hSite.2⟩

end

theorem initial : AllRunnable table Heap.initial where
  functions := fun closure hMem => absurd hMem (Array.not_mem_empty closure)
  methods := fun c hMem => absurd hMem (Array.not_mem_empty c)

end AllRunnable

/- The frame of the object hosts the method. -/
theorem hosts_bindMethod (hMem : c ∈ heap.classes)
    (hGet : c.methods.get? name = some method) (object : ObjectId) :
    (heap.bindMethod method object).2.Hosts heap.frames.size c name method where
  declared := hMem
  found := hGet
  parent := Heap.parent?_addFrame_new ..
  self := ⟨object, Heap.local?_addFrame_new ..⟩

/- A bound method stands in the frame of its object. -/
theorem Offered.bindMethod (h : Offered table heap name method) (object : ObjectId) :
    Runnable table (heap.bindMethod method object).2 (heap.bindMethod method object).1 := by
  rcases h with ⟨c, hMem, hGet, hMethod⟩
  rcases hMethod.known with ⟨kinds, scopes, hLined, hKnown⟩
  have hHosts := hosts_bindMethod hMem hGet object
  have hSelf : (heap.bindMethod method object).2.local?
        heap.frames.size "this" = some (.object object) := Heap.local?_addFrame_new ..
  have hRunsIn : RunnableIn table (heap.bindMethod method object).2
        (SitesOf table method.function (.self :: kinds)) (.self :: kinds) heap.frames.size := by
    refine ⟨hLined.addFrame ⟨object, hSelf⟩, Heap.local?_addFrame_new .., fun _ => And.left, ?_⟩
    intro site hSite hRole hDepth
    exact ⟨_, c, name, method, .here hSelf, hHosts, hSite.2 hRole hDepth⟩
  exact ⟨⟨_, _, hMethod.sensible, ⟨scopes, hKnown⟩, hRunsIn⟩, .bound hHosts⟩

------------------------------------------------------------
-- Actions
------------------------------------------------------------

/- How an action ends that keeps all code runnable. -/
inductive Acted {α : Type} (table : Distances) (heap : Heap) (F : Cause → Prop)
    (Q : α → Heap → Prop) : Outcome α → Prop where
  | done {value w} : heap.Keeps w.heap → AllRunnable table w.heap → Q value w.heap →
      Acted table heap F Q (.done value w)
  | failed {fault w} : heap.Keeps w.heap → AllRunnable table w.heap → F fault.cause →
      Acted table heap F Q (.failed fault w)
  | stopped {reason} : Acted table heap F Q (.stopped reason)

theorem Acted.mono {α : Type} {F G : Cause → Prop} {P Q : α → Heap → Prop}
    {outcome : Outcome α}
    (h : Acted table heap' F P outcome) (hKeeps : heap.Keeps heap')
    (hCauses : ∀ {cause}, F cause → G cause)
    (hImp : ∀ {value last}, P value last → Q value last) : Acted table heap G Q outcome := by
  cases h with
  | done hKept hAllRun hValue => exact .done (hKeeps.trans hKept) hAllRun (hImp hValue)
  | failed hKept hAllRun hCause => exact .failed (hKeeps.trans hKept) hAllRun (hCauses hCause)
  | stopped => exact .stopped

/-
  The action keeps all code runnable, whatever the host.  It
  fails for causes in `F` only, and its result satisfies `Q`.
-/
structure Acts {α : Type} (table : Distances) (heap : Heap) (action : Action α)
    (F : Cause → Prop) (Q : α → Heap → Prop) : Prop where
  acted (host : Host) : Acted table heap F Q (action ⟨heap, host⟩)

/- Any result will do. -/
def whatever {α : Type} (_ : α) (_ : Heap) : Prop := True

namespace Acts

variable {α β : Type} {F : Cause → Prop} {Q : α → Heap → Prop} {R : β → Heap → Prop}

variable {action : Action α}

theorem mono {P : α → Heap → Prop} (h : Acts table heap action F P)
    (hImp : ∀ {value heap'}, P value heap' → Q value heap') : Acts table heap action F Q :=
  ⟨fun host => (h.acted host).mono (.refl heap) id hImp⟩

theorem bind {next : α → Action β} (hAction : Acts table heap action F Q)
    (hNext : ∀ {value heap'}, heap.Keeps heap' →
      AllRunnable table heap' → Q value heap' → Acts table heap' (next value) F R) :
    Acts table heap (action >>= next) F R := by
  constructor
  intro host
  have hActed := hAction.acted host
  change Acted table heap F R (Action.bind action next ⟨heap, host⟩)
  unfold Action.bind
  generalize action ⟨heap, host⟩ = outcome at hActed
  cases hActed with
  | @done value w hKeeps hAllRun hValue =>
    exact ((hNext hKeeps hAllRun hValue).acted w.host).mono hKeeps id id
  | failed hKeeps hAllRun hCause => exact .failed hKeeps hAllRun hCause
  | stopped => exact .stopped

theorem exhausted : Acts table heap exhausted F Q := ⟨fun _ => .stopped⟩

variable (h : AllRunnable table heap)

include h

variable {value : α}

theorem pure (hValue : Q value heap) :
    Acts table heap (Pure.pure value) F Q := ⟨fun _ => .done (.refl heap) h hValue⟩

theorem external (hAction : FailsExternally action) :
    Acts table heap action Cause.External whatever := by
  constructor
  intro host
  have hEnds := hAction.ends ⟨heap, host⟩
  generalize action ⟨heap, host⟩ = outcome at hEnds
  cases hEnds with
  | done hCode => exact .done hCode.keeps (h.of_sameCode hCode) trivial
  | failed hCode hCause => exact .failed hCode.keeps (h.of_sameCode hCode) hCause
  | stopped => exact .stopped

variable {cause : Cause}

theorem failAt (token : Token) (hCause : F cause) :
    Acts table heap (failAt token cause) F Q :=
  ⟨fun _ => .failed (.refl heap) h hCause⟩

theorem inspect (view : Heap → α) :
    Acts table heap (inspect view) F (fun value heap' => value = view heap ∧ heap = heap') :=
  ⟨fun _ => .done (.refl heap) h ⟨rfl, rfl⟩⟩

/- A value that is there. -/
theorem found (token : Token) (cause : Cause)
    {find : Heap → Option α} (hFind : find heap = some value) :
    Acts table heap (require token cause find) F
      (fun other heap' => other = value ∧ heap = heap') := by
  constructor
  intro host
  unfold require
  simp only [hFind]
  exact .done (.refl heap) h ⟨rfl, rfl⟩

/- A value that may be missing. -/
theorem require (token : Token) (hCause : F cause) (find : Heap → Option α) :
    Acts table heap (require token cause find) F
      (fun value heap' =>
        find heap = some value ∧ heap = heap') := by
  constructor
  intro host
  unfold Eval.require
  dsimp only
  split
  · rename_i value hFind
    exact .done (.refl heap) h ⟨hFind, rfl⟩
  · exact .failed (.refl heap) h hCause

/- A frame is opened for a block or a body. -/
theorem addFrame {P : Site → Prop} {kinds : List Kind}
    {outer : FrameId} (hRunsIn : RunnableIn table heap P kinds outer) {kind : Kind}
    (hKind : kind = .block ∨ kind = .function) (bindings : Bindings Value)
    (hBindings : ∀ {name}, ¬ Ordinary name → bindings.get? name = none) :
    Acts table heap (allocate fun heap => heap.addFrame bindings (some outer)) F
      (fun frame heap' =>
        RunnableIn table heap' P (kind :: kinds) frame) :=
  ⟨fun _ =>
    .done (.addFrame heap bindings (some outer)) (h.addFrame bindings (some outer))
      (hRunsIn.addFrame hKind bindings hBindings)⟩

theorem bindMethod (hMethod : Offered table heap name method) (object : ObjectId) :
    Acts table heap (allocate fun heap => heap.bindMethod method object) F
      (fun closure heap' => Runnable table heap' closure) :=
  ⟨fun _ =>
    .done (.addFrame heap _ (some method.frame))
      (h.addFrame _ (some method.frame)) (hMethod.bindMethod object)⟩

theorem addFunction (hClosure : Runnable table heap closure) :
    Acts table heap (allocate fun heap => heap.addFunction closure) F
      whatever :=
  ⟨fun _ =>
    .done (.of_frames rfl fun _ => id) (h.addFunction hClosure)
      trivial⟩

end Acts

/- Parameters have ordinary names. -/
theorem parameters_absent {f : Function} (h : f.Sensible)
    (arguments : List Value) (hName : ¬ Ordinary name) :
    (parameters f arguments).get? name = none := by
  cases hGet : (parameters f arguments).get? name with
  | none => rfl
  | some value =>
    have hMem := Bindings.mem_of_get?_ofPairs hGet
    rcases List.mem_map.mp (List.of_mem_zip hMem).1 with ⟨param, hParam, rfl⟩
    exact absurd (h.param hParam) hName

/- Only the method of a superclass may be missing. -/
def Cause.IsMissing (cause : Cause) : Prop := ∃ name, cause = .undefinedProperty name

section

variable (h : AllRunnable table heap)

include h

theorem bound_acts {F : Cause → Prop} (hMethod : Offered table heap name method)
    (object : ObjectId) :
    Acts table heap (bound method object) F whatever := by
  apply Acts.bind (.bindMethod h hMethod object)
  intro closure heap₁ _ h₁ hClosure
  apply Acts.bind (.addFunction h₁ hClosure)
  intro id heap₂ _ h₂ _
  exact .pure h₂ trivial

theorem getMember_acts (object : ObjectId) (name : Token) :
    Acts table heap (getMember object name) Cause.External whatever := by
  apply Acts.bind (.inspect h _)
  rintro field _ - - ⟨rfl, rfl⟩
  split
  · exact .pure h trivial
  · apply Acts.bind (.inspect h _)
    rintro method _ - - ⟨rfl, rfl⟩
    split
    · rename_i method hMethod
      rcases Option.bind_eq_some_iff.mp hMethod with ⟨o, _, hFound⟩
      exact bound_acts h (h.offered hFound) object
    · exact .failAt h name rfl

theorem getProperty_acts (object : Value) (name : Token) :
    Acts table heap (getProperty object name) Cause.External whatever := by
  unfold getProperty
  cases object with
  | object id => exact getMember_acts h id name
  | array id =>
    dsimp only
    split
    · exact .external h (.bind (.inspect _) fun _ => .pure _)
    · exact .failAt h name rfl
  | string text =>
    dsimp only
    split
    · exact .pure h trivial
    · exact .failAt h name rfl
  | _ => exact .failAt h name rfl

theorem Place.read_acts (ctx : Context) {place : Place}
    (hPlace : place.IsOrdinary) : Acts table heap (place.read ctx) Cause.External whatever := by
  cases place with
  | named id name => exact .external h (readVariable_external ctx id hPlace)
  | property object name => exact getProperty_acts h object name
  | element object index bracket => exact .external h (getElement_within object index bracket)

/- An initializer hands back its object. -/
theorem result_acts (hClosure : Runnable table heap closure) (flow : Flow) :
    Acts table heap (result closure flow) Cause.External whatever := by
  unfold result
  split
  · rename_i hInit
    cases hClosure.origin with
    | made => cases hInit
    | bound hHosts =>
      rcases hHosts.self with ⟨object, hObject⟩
      exact (Acts.found h _ _ hObject).mono fun _ => trivial
  · split
    · exact .pure h trivial
    · exact .pure h trivial

variable {ctx : Context} {P : Site → Prop} {kinds : List Kind} {scopes : List Names}

variable {methods : List Function}

theorem addClass_acts {frame : FrameId}
    (hLined : heap.Lined kinds frame) (name : String) {superclass : Option ClassId}
    (hSuper : heap.local? frame "super" = superclass.map .blueprint)
    (hSensible : functionsSensible methods)
    (hKnown : methodsKnown (Served table) (.self :: kinds) methods scopes) :
    Acts table heap
      (allocate fun heap => heap.addClass ⟨name, superclass, methodTable frame methods⟩)
      Cause.External whatever := by
  have hMethods : ∀ key method,
      (methodTable frame methods).get? key = some method → Attachable table heap
          ⟨name, superclass, methodTable frame methods⟩ key
          method := by
    intro key method hGet
    rcases List.mem_map.mp (Bindings.mem_of_get?_ofPairs hGet) with ⟨f, hMem, hSame⟩
    cases hSame
    have hAll : Scriptlet.Allowed (classDepth (.self :: kinds)) f.supers
          (.self :: kinds) f.supers := ⟨Nat.le_refl _, fun _ => List.Subset.refl _⟩
    exact ⟨sensible_of_mem hSensible hMem, rfl, hSuper, kinds, scopes, hLined,
      Function.Known.among f hAll (known_of_mem_methods hKnown hMem)⟩
  have hKeeps : heap.Keeps (heap.addClass ⟨name, superclass, methodTable frame methods⟩).2 :=
    .of_frames rfl fun _ => Array.mem_push_of_mem _
  exact ⟨fun _ => .done hKeeps (h.addClass hMethods) trivial⟩

variable (hRunsIn : RunnableIn table heap P kinds ctx.frame)

include hRunsIn

variable {id : Nat} {keyword : Token}

/- The object of a method is found. -/
theorem readSelf_acts (hTable : ctx.distances = table)
    (hWord : keyword.lexeme = "this") (hSite : P ⟨⟨.self, id, keyword⟩, kinds, scopes⟩) :
    Acts table heap (readVariable ctx id keyword) Cause.External whatever := by
  rcases hRunsIn.served _ hSite with ⟨d, hDistance, hNearest⟩
  rcases hRunsIn.lined.object_at hNearest.at_distance with ⟨object, hObject⟩
  rw [← hWord] at hObject
  unfold readVariable
  rw [hTable, hDistance]
  exact (Acts.found h keyword _ hObject).mono fun _ => trivial

theorem superMethod_acts (hTable : ctx.distances = table)
    (hWord : keyword.lexeme = "super") (method : Token)
    (hSite : P ⟨⟨.superMethod, id, keyword⟩, kinds, scopes⟩) :
    Acts table heap (superMethod ctx id keyword method) Cause.IsMissing whatever := by
  rcases hRunsIn.served _ hSite with ⟨d, hDistance, hSelf, hSuper⟩
  rcases hRunsIn.lined.class_at hSuper.at_distance with ⟨classId, hClass⟩
  rcases hRunsIn.lined.object_at hSelf.at_distance with ⟨object, hObject⟩
  have hKeyword : heap.getAt? ctx.frame (d + 1) keyword.lexeme = some (.blueprint classId) := by
    rw [hWord]
    exact hClass
  unfold superMethod
  rw [hTable, hDistance]
  apply Acts.bind (.found h keyword _ hKeyword)
  rintro _ _ - - ⟨rfl, rfl⟩
  apply Acts.bind (.found h keyword _ hObject)
  rintro _ _ - - ⟨rfl, rfl⟩
  apply Acts.bind (.require h method ⟨_, rfl⟩ _)
  rintro found _ - - ⟨hFound, rfl⟩
  exact bound_acts h (h.offered hFound) object

theorem makeFunction_acts {f : Function} (hSensible : f.Sensible)
    (hKnown : f.Known P kinds scopes) :
    Acts table heap (makeFunction ctx f) Cause.External whatever := by
  have hRunnable : Runnable table heap ⟨f, ctx.frame, false⟩ :=
    ⟨⟨P, kinds, hSensible, ⟨scopes, hKnown⟩, hRunsIn⟩, .made⟩
  apply Acts.bind (.addFunction h hRunnable)
  intro id heap₁ _ h₁ _
  exact .pure h₁ trivial

theorem classFrame_acts (superclass : Option ClassId) :
    Acts table heap (classFrame ctx superclass) Cause.External
      (fun frame heap' =>
        heap'.Lined (classKinds superclass kinds) frame ∧
          heap'.local? frame "super" = superclass.map .blueprint) := by
  cases superclass with
  | some classId =>
    have hSuper :
        (heap.addFrame [(superName, .blueprint classId)] (some ctx.frame)).2.local? heap.frames.size
            "super" = some (.blueprint classId) := Heap.local?_addFrame_new ..
    refine ⟨fun _ => .done (.addFrame heap _ _)
      (h.addFrame _ _) ⟨hRunsIn.lined.addFrame ?_, hSuper⟩⟩
    exact ⟨Heap.local?_addFrame_new .., classId, hSuper⟩
  | none => exact .pure h ⟨hRunsIn.lined, hRunsIn.inner⟩

theorem makeClass_acts {name : Token}
    (hName : Ordinary name.lexeme) (superclass : Option ClassId)
    (hSensible : functionsSensible methods)
    (hKnown : methodsKnown P (.self :: classKinds superclass kinds) methods scopes) :
    Acts table heap (makeClass ctx name superclass methods) Cause.External whatever := by
  apply Acts.bind (.external h (declare_external ctx hName _))
  intro _ heap₁ hKeeps₁ h₁ _
  apply Acts.bind (classFrame_acts h₁ (hRunsIn.keep hKeeps₁) superclass)
  rintro frame heap₂ - h₂ ⟨hFrame, hSuper⟩
  apply Acts.bind
    (addClass_acts h₂ hFrame name.lexeme hSuper hSensible
      (methodsKnown_mono hRunsIn.served methods hKnown))
  intro id heap₃ _ h₃ _
  exact .external h₃ (assign_external hName _ _)

end

end Eval

end Scriptlet
