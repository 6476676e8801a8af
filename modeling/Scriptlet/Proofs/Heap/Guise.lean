import Scriptlet.Proofs.Heap.Sane
import Scriptlet.Proofs.Heap.Drawing
import Scriptlet.Proofs.Tree.Guise

/-
  Heaps that stand for other heaps.

  Key declarations include:
    * `Marking`
    * `Marking.Marks`
    * `Marking.Guised`
    * `Marking.Guised.getAt?`
    * `Marking.Guised.define`
    * `Marking.Guised.addFrame`

  Every frame has a mark, and its names are spelled as the
  mark says.  The frames around a piece of code are marked as
  its scopes are, so that a name is found at its distance
  under its own spelling.  Values name what they refer to by
  position, so they mean the same in both heaps.
-/

namespace Scriptlet

namespace Bindings

variable {α : Type} (σ : Equiv.Perm String)

/- Names respelled, with what they are bound to. -/
def respell (bindings : Bindings α) : Bindings α :=
  bindings.map fun entry => (σ entry.1, entry.2)

theorem get?_respell (bindings : Bindings α) (name : String) :
    (bindings.respell σ).get? (σ name) = bindings.get? name := by
  induction bindings with
  | nil => rfl
  | cons entry others ih =>
    have hKey : (σ name == σ entry.1) = (name == entry.1) := by
      rw [Bool.eq_iff_iff, beq_iff_eq, beq_iff_eq]
      exact σ.injective.eq_iff
    rw [respell, get?, List.map_cons, List.lookup_cons, hKey, get?, List.lookup_cons]
    cases name == entry.1 with
    | true => rfl
    | false => exact ih

theorem insert_respell (bindings : Bindings α) (name : String) (value : α) :
    (bindings.respell σ).insert (σ name) value = (bindings.insert name value).respell σ := by
  induction bindings with
  | nil => rfl
  | cons entry others ih =>
    simp only [respell, insert, List.map_cons, σ.injective.eq_iff] at ih ⊢
    split
    · rfl
    · rw [ih, List.map_cons]

theorem ofPairs_respell (pairs : List (String × α)) :
    ofPairs (respell σ pairs) = (ofPairs pairs).respell σ := by
  have hFrom : ∀ (pairs : List (String × α)) (bindings : Bindings α), (respell σ pairs).foldl
            (fun bindings pair => bindings.insert pair.1 pair.2) (bindings.respell σ) =
          (pairs.foldl (fun bindings pair => bindings.insert pair.1 pair.2)
            bindings).respell σ := by
    intro pairs
    induction pairs with
    | nil => exact fun _ => rfl
    | cons pair others ih =>
      intro bindings
      rw [List.foldl_cons, ← ih, ← insert_respell]
      rfl
  exact hFrom pairs []

end Bindings

variable {Mark : Type}

/- The marks of frames, and the heap they are in. -/
structure Marking (Mark : Type) where
  mark : FrameId → Mark
  heap : Heap

namespace Marking

/- The second stage is later in one run. -/
structure Leads (s s' : Marking Mark) : Prop where
  mark {frame : FrameId} : frame < s.heap.frames.size → s'.mark frame = s.mark frame
  heap : s.heap.Grows s'.heap

namespace Leads

theorem refl (s : Marking Mark) : s.Leads s := ⟨fun _ => rfl, .refl _⟩

theorem trans {s₁ s₂ s₃ : Marking Mark} (h₁ : s₁.Leads s₂) (h₂ : s₂.Leads s₃) :
    s₁.Leads s₃ where
  mark := by
    intro frame hFrame
    have hLater := Nat.lt_of_lt_of_le hFrame h₁.heap.size
    rw [h₂.mark hLater, h₁.mark hFrame]
  heap := h₁.heap.trans h₂.heap

/- Frames are marked as before. -/
theorem of_grows {s : Marking Mark} {heap : Heap} (h : s.heap.Grows heap) :
    s.Leads ⟨s.mark, heap⟩ := ⟨fun _ => rfl, h⟩

end Leads

/-
  The frames from this one outward are marked like this, by
  distance, and will be later in the run.
-/
structure Marks (s : Marking Mark) (marks : Nat → Mark) (frame : FrameId) : Prop where
  lt : frame < s.heap.frames.size
  ancestor {s' : Marking Mark} : s.Leads s' → ∀ {distance outer},
      s'.heap.ancestor? frame distance = some outer → s'.mark outer = marks distance

namespace Marks

variable {s s' : Marking Mark} {marks : Nat → Mark} {frame : FrameId}

theorem later (h : s.Marks marks frame) (hLeads : s.Leads s') : s'.Marks marks frame :=
  ⟨Nat.lt_of_lt_of_le h.lt hLeads.heap.size, fun hLater => h.ancestor (hLeads.trans hLater)⟩

theorem head (h : s.Marks marks frame) : s.mark frame = marks 0 := h.ancestor (.refl s) rfl

/- No frame is around the globals. -/
theorem globals {mark : Mark} (hSize : Heap.globals < s.heap.frames.size)
    (hParent : s.heap.parent? Heap.globals = none) (hMark : s.mark Heap.globals = mark) :
    s.Marks (fun _ => mark) Heap.globals := by
  refine ⟨hSize, fun hLeads distance outer hOuter => ?_⟩
  cases distance with
  | zero =>
    cases hOuter
    rw [hLeads.mark hSize, hMark]
  | succ distance =>
    rw [Heap.ancestor?_succ, hLeads.heap.parent hSize, hParent] at hOuter
    cases hOuter

/- A frame inside of another one. -/
theorem inside {outer : FrameId} (hParent : s.heap.parent? frame = some outer)
    (h : s.Marks marks outer) : s.Marks (pushMark (s.mark frame) marks) frame := by
  have hSize := Heap.lt_of_parent? hParent
  refine ⟨hSize, fun hLeads distance found hFound => ?_⟩
  cases distance with
  | zero =>
    cases hFound
    exact hLeads.mark hSize
  | succ distance =>
    rw [Heap.ancestor?_succ, hLeads.heap.parent hSize, hParent] at hFound
    exact h.ancestor hLeads hFound

end Marks

end Marking

section

variable (g : Guise Mark)

/- The second frame stands for the first one. -/
structure Frame.Guised (mark : Mark) (frame frame' : Frame) : Prop where
  bindings : frame'.bindings = frame.bindings.respell (g.spell mark)
  parent : frame'.parent = frame.parent

/-
  The second closure stands for the first one.  Its code is
  in these scopes around the frame it was created in.
-/
structure Closure.GuisedIn (s : Marking Mark) (around : (Nat → Mark) → Nat → Mark)
    (closure closure' : Closure) : Prop where
  frame : closure'.frame = closure.frame
  isInitializer : closure'.isInitializer = closure.isInitializer
  function : ∃ marks, s.Marks marks closure.frame ∧
      closure.function.Guised g (around marks) closure'.function

abbrev Closure.Guised (s : Marking Mark) : Closure → Closure → Prop :=
  Closure.GuisedIn g s fun marks => marks

/- A method is bound in a frame of its own. -/
abbrev MethodGuised (s : Marking Mark) : Closure → Closure → Prop :=
  Closure.GuisedIn g s (pushMark g.plain)

/- Methods are found under the same names. -/
def MethodsGuised (s : Marking Mark) (methods methods' : Bindings Closure) : Prop :=
  ∀ name, Option.Rel (MethodGuised g s) (methods.get? name) (methods'.get? name)

structure Blueprint.Guised (s : Marking Mark) (blueprint blueprint' : Blueprint) : Prop where
  name : blueprint'.name = blueprint.name
  superclass : blueprint'.superclass = blueprint.superclass
  methods : MethodsGuised g s blueprint.methods blueprint'.methods

/- The second heap stands for that of the stage. -/
structure Marking.Guised (s : Marking Mark) (heap' : Heap) : Prop where
  size : heap'.frames.size = s.heap.frames.size
  frames (frame : FrameId) : Option.Rel (Frame.Guised g (s.mark frame))
      s.heap.frames[frame]? heap'.frames[frame]?
  arrays : heap'.arrays = s.heap.arrays
  objects : heap'.objects = s.heap.objects
  functions : List.Forall₂ (Closure.Guised g s) s.heap.functions.toList heap'.functions.toList
  classes : List.Forall₂ (Blueprint.Guised g s) s.heap.classes.toList heap'.classes.toList

/- The heaps change, and frames are marked as before. -/
structure Marking.Becomes (s : Marking Mark) (heap heap' : Heap) : Prop where
  leads : s.Leads ⟨s.mark, heap⟩
  guised : Marking.Guised g ⟨s.mark, heap⟩ heap'

end

section

variable {g : Guise Mark} {s s' : Marking Mark}

variable {closure closure' : Closure}

theorem Closure.GuisedIn.later {around : (Nat → Mark) → Nat → Mark}
    (h : Closure.GuisedIn g s around closure closure') (hLeads : s.Leads s') :
    Closure.GuisedIn g s' around closure closure' := by
  rcases h.function with ⟨marks, hMarks, hFunction⟩
  exact ⟨h.frame, h.isInitializer, marks, hMarks.later hLeads, hFunction⟩

theorem Blueprint.Guised.later {blueprint blueprint' : Blueprint}
    (h : Blueprint.Guised g s blueprint blueprint') (hLeads : s.Leads s') :
    Blueprint.Guised g s' blueprint blueprint' :=
  ⟨h.name, h.superclass, fun name =>
    rel_imp (fun hClosure => hClosure.later hLeads) (h.methods name)⟩

theorem MethodsGuised.insert {methods methods' : Bindings Closure}
    (h : MethodsGuised g s methods methods') (name : String)
    (hClosure : MethodGuised g s closure closure') :
    MethodsGuised g s (methods.insert name closure) (methods'.insert name closure') := by
  intro other
  rw [Bindings.get?_insert, Bindings.get?_insert]
  split
  · exact .some hClosure
  · exact h other

namespace Marking.Guised

variable {heap' : Heap}

------------------------------------------------------------
-- Lookups
------------------------------------------------------------

section

variable (h : s.Guised g heap')
include h

theorem parent? (frame : FrameId) : heap'.parent? frame = s.heap.parent? frame := by
  have hFrame := h.frames frame
  unfold Heap.parent?
  generalize s.heap.frames[frame]? = found, heap'.frames[frame]? = found' at hFrame
  cases hFrame with
  | none => rfl
  | some hSame => exact hSame.parent

theorem local? (frame : FrameId) (name : String) :
    heap'.local? frame (g.spell (s.mark frame) name) = s.heap.local? frame name := by
  have hFrame := h.frames frame
  unfold Heap.local?
  generalize s.heap.frames[frame]? = found, heap'.frames[frame]? = found' at hFrame
  cases hFrame with
  | none => rfl
  | some hSame =>
    simp only [Option.bind_some, hSame.bindings]
    exact Bindings.get?_respell _ _ _

theorem ancestor? (frame : FrameId) (distance : Nat) :
    heap'.ancestor? frame distance = s.heap.ancestor? frame distance := by
  induction distance with
  | zero => rfl
  | succ distance ih =>
    simp only [Heap.ancestor?, ih]
    congr 1
    funext outer
    exact h.parent? outer

variable {marks : Nat → Mark} {frame : FrameId}

/- A name is found at its distance as spelled there. -/
theorem getAt?
    (hMarks : s.Marks marks frame) (distance : Nat) (name : String) :
    heap'.getAt? frame distance (g.spell (marks distance) name) =
      s.heap.getAt? frame distance name := by
  unfold Heap.getAt?
  rw [h.ancestor?]
  cases hOuter : s.heap.ancestor? frame distance with
  | none => rfl
  | some outer =>
    rw [← hMarks.ancestor (.refl s) hOuter]
    exact h.local? outer name

theorem holderAt?
    (hMarks : s.Marks marks frame) (distance : Nat) (name : String) :
    heap'.holderAt? frame distance (g.spell (marks distance) name) =
      s.heap.holderAt? frame distance name := by
  unfold Heap.holderAt?
  rw [h.ancestor?]
  cases hOuter : s.heap.ancestor? frame distance with
  | none => rfl
  | some outer =>
    rw [← hMarks.ancestor (.refl s) hOuter]
    simp only [Option.filter_some, h.local? outer name]

theorem global? (hGlobals : s.Marks (fun _ => g.plain) Heap.globals) (name : String) :
    heap'.local? Heap.globals name = s.heap.local? Heap.globals name := by
  have hLocal := h.local? Heap.globals name
  rw [hGlobals.head, g.spell_plain] at hLocal
  exact hLocal

end

/- No frame is around the globals. -/
theorem outer?_globals (heap : Heap) : heap.outer? Heap.globals = none := by
  unfold Heap.outer?
  cases heap.parent? Heap.globals with
  | none => rfl
  | some outer => exact dif_neg (Nat.not_lt_zero outer)

theorem get?_globals (heap : Heap) (name : String) :
    heap.get? Heap.globals name = heap.local? Heap.globals name := by
  rw [Heap.get?, outer?_globals]
  cases heap.local? Heap.globals name <;> rfl

theorem holder?_globals (heap : Heap) (name : String) :
    heap.holder? Heap.globals name = (heap.local? Heap.globals name).map fun _ => Heap.globals := by
  rw [Heap.holder?, outer?_globals]
  cases heap.local? Heap.globals name <;> rfl

section

variable (h : s.Guised g heap')
include h

theorem get? (hGlobals : s.Marks (fun _ => g.plain) Heap.globals) (name : String) :
    heap'.get? Heap.globals name = s.heap.get? Heap.globals name := by
  rw [get?_globals, get?_globals, h.global? hGlobals]

theorem holder? (hGlobals : s.Marks (fun _ => g.plain) Heap.globals) (name : String) :
    heap'.holder? Heap.globals name = s.heap.holder? Heap.globals name := by
  rw [holder?_globals, holder?_globals, h.global? hGlobals]

theorem functions_get? (id : FunctionId) :
    Option.Rel (Closure.Guised g s) s.heap.functions[id]? heap'.functions[id]? := by
  rw [← Array.getElem?_toList, ← Array.getElem?_toList]
  exact rel_getElem? h.functions id

theorem classes_get? (id : ClassId) :
    Option.Rel (Blueprint.Guised g s) s.heap.classes[id]? heap'.classes[id]? := by
  rw [← Array.getElem?_toList, ← Array.getElem?_toList]
  exact rel_getElem? h.classes id

theorem findMethod? (classId : ClassId) (name : String) :
    Option.Rel (MethodGuised g s) (s.heap.findMethod? classId name)
      (heap'.findMethod? classId name) := by
  induction classId using Nat.strongRecOn with
  | ind classId ih =>
    rw [Heap.findMethod?, Heap.findMethod?]
    have hClass := h.classes_get? classId
    generalize s.heap.classes[classId]? = found, heap'.classes[classId]? = found' at hClass
    cases hClass with
    | none => exact .none
    | @some blueprint blueprint' hBlueprint =>
      have hMethod := hBlueprint.methods name
      simp only [hBlueprint.superclass]
      generalize blueprint.methods.get? name = method,
        blueprint'.methods.get? name = method' at hMethod
      cases hMethod with
      | some hClosure => exact .some hClosure
      | none =>
        dsimp only
        split
        · split
          · rename_i hParent
            exact ih _ hParent
          · exact .none
        · exact .none

theorem methodOf? (object : ObjectId) (name : String) :
    Option.Rel (MethodGuised g s) (s.heap.methodOf? object name) (heap'.methodOf? object name) := by
  simp only [Heap.methodOf?, h.objects]
  cases s.heap.objects[object]? with
  | none => exact .none
  | some o => exact h.findMethod? o.classId name

theorem classArity (id : ClassId) : heap'.classArity id = s.heap.classArity id := by
  have hMethod := h.findMethod? id Heap.initializerName
  simp only [Heap.classArity, Heap.initializer?]
  generalize s.heap.findMethod? id Heap.initializerName = found,
    heap'.findMethod? id Heap.initializerName = found' at hMethod
  cases hMethod with
  | none => rfl
  | some hClosure =>
    rcases hClosure.function with ⟨_, _, hFunction⟩
    exact hFunction.arity

theorem field? (id : ObjectId) (name : String) :
    heap'.field? id name = s.heap.field? id name := by
  simp only [Heap.field?, h.objects]

theorem length (id : ArrayId) : heap'.length id = s.heap.length id := by
  simp only [Heap.length, h.arrays]

theorem element? (id : ArrayId) (position : Nat) :
    heap'.element? id position = s.heap.element? id position := by
  simp only [Heap.element?, h.arrays]

/- Variables do not show. -/
theorem shows : s.heap.Shows heap' where
  arrays := h.arrays
  objects := h.objects
  functions := by
    intro id
    have hFunction := h.functions_get? id
    simp only [Heap.functionText]
    generalize s.heap.functions[id]? = found, heap'.functions[id]? = found' at hFunction
    cases hFunction with
    | none => rfl
    | some hClosure =>
      rcases hClosure.function with ⟨_, _, hFunction⟩
      simp only [hFunction.label]
  classes := by
    intro id
    have hClass := h.classes_get? id
    simp only [Heap.classText]
    generalize s.heap.classes[id]? = found, heap'.classes[id]? = found' at hClass
    cases hClass with
    | none => rfl
    | some hBlueprint => exact hBlueprint.name

/- The code in the heap is code for it later on. -/
theorem codeLater (hLeads : s.Leads s') :
    List.Forall₂ (Closure.Guised g s') s.heap.functions.toList heap'.functions.toList ∧
      List.Forall₂ (Blueprint.Guised g s') s.heap.classes.toList heap'.classes.toList :=
  ⟨h.functions.imp fun _ _ hClosure =>
      hClosure.later hLeads,
    h.classes.imp fun _ _ hBlueprint => hBlueprint.later hLeads⟩

/- All frames are as before. -/
theorem becomes {next next' : Heap} (hFrames : next.frames = s.heap.frames)
    (hFrames' : next'.frames = heap'.frames) (hArrays : next'.arrays = next.arrays)
    (hObjects : next'.objects = next.objects)
    (hFunctions : List.Forall₂ (Closure.Guised g s) next.functions.toList next'.functions.toList)
    (hClasses : List.Forall₂ (Blueprint.Guised g s) next.classes.toList
        next'.classes.toList) : s.Becomes g next next' := by
  have hLeads : s.Leads ⟨s.mark, next⟩ := .of_grows (.of_frames hFrames)
  refine ⟨hLeads, ?_, ?_, hArrays, hObjects,
    hFunctions.imp fun _ _ hClosure => hClosure.later hLeads,
    hClasses.imp fun _ _ hClass => hClass.later hLeads⟩
  · rw [hFrames', h.size, hFrames]
  · intro frame
    rw [hFrames, hFrames']
    exact h.frames frame

theorem define (frame : FrameId) (name : String) (value : Value) :
    s.Becomes g (s.heap.define frame name value)
      (heap'.define frame (g.spell (s.mark frame) name) value) := by
  have hLeads : s.Leads ⟨s.mark, s.heap.define frame name value⟩ :=
    .of_grows (Heap.grows_define ..)
  have hCode := h.codeLater hLeads
  refine ⟨hLeads, ?_, ?_, h.arrays, h.objects, hCode.1, hCode.2⟩
  · simp only [Heap.define, Array.size_modify]
    exact h.size
  · intro other
    have hFrame := h.frames other
    simp only [Heap.define, Array.getElem?_modify]
    split
    · rename_i hSame
      subst hSame
      generalize s.heap.frames[frame]? = found, heap'.frames[frame]? = found' at hFrame
      cases hFrame with
      | none => exact .none
      | some hSame =>
        refine .some ⟨?_, hSame.parent⟩
        dsimp only
        rw [hSame.bindings]
        exact Bindings.insert_respell _ _ _ _
    · exact hFrame

theorem setElement (id : ArrayId) (position : Nat) (value : Value) :
    s.Becomes g (s.heap.setElement id position value) (heap'.setElement id position value) :=
  h.becomes rfl rfl (by simp only [Heap.setElement, h.arrays]) h.objects h.functions h.classes

theorem setField (id : ObjectId) (name : String) (value : Value) :
    s.Becomes g (s.heap.setField id name value) (heap'.setField id name value) :=
  h.becomes rfl rfl h.arrays (by simp only [Heap.setField, h.objects]) h.functions h.classes

theorem addArray (items : Array Value) :
    (s.heap.addArray items).1 = (heap'.addArray items).1 ∧
      s.Becomes g (s.heap.addArray items).2 (heap'.addArray items).2 :=
  ⟨by simp only [Heap.addArray, h.arrays],
    h.becomes rfl rfl (by simp only [Heap.addArray, h.arrays]) h.objects h.functions h.classes⟩

theorem addObject (classId : ClassId) :
    (s.heap.addObject classId).1 = (heap'.addObject classId).1 ∧
      s.Becomes g (s.heap.addObject classId).2 (heap'.addObject classId).2 :=
  ⟨by simp only [Heap.addObject, h.objects], h.becomes rfl rfl h.arrays
      (by simp only [Heap.addObject, h.objects]) h.functions h.classes⟩

theorem addFunction {closure closure' : Closure}
    (hClosure : Closure.Guised g s closure closure') :
    (s.heap.addFunction closure).1 = (heap'.addFunction closure').1 ∧
      s.Becomes g (s.heap.addFunction closure).2 (heap'.addFunction closure').2 := by
  have hLength := h.functions.length_eq
  refine ⟨hLength, h.becomes rfl rfl h.arrays h.objects ?_ h.classes⟩
  simp only [Heap.addFunction, Array.toList_push]
  exact List.rel_append h.functions (.cons hClosure .nil)

theorem addClass {blueprint blueprint' : Blueprint}
    (hBlueprint : Blueprint.Guised g s blueprint blueprint') :
    (s.heap.addClass blueprint).1 = (heap'.addClass blueprint').1 ∧
      s.Becomes g (s.heap.addClass blueprint).2 (heap'.addClass blueprint').2 := by
  have hLength := h.classes.length_eq
  refine ⟨hLength, h.becomes rfl rfl h.arrays h.objects h.functions ?_⟩
  simp only [Heap.addClass, Array.toList_push]
  exact List.rel_append h.classes (.cons hBlueprint .nil)

/- A frame is added in a frame, with any mark. -/
theorem addFrame {marks : Nat → Mark} {outer : FrameId}
    (hMarks : s.Marks marks outer) (mark : Mark) (bindings : Bindings Value) :
    let frame := s.heap.frames.size
    let bindings' := bindings.respell (g.spell mark)
    let next : Marking Mark :=
      ⟨fun other =>
          if other = frame then mark else s.mark other,
        (s.heap.addFrame bindings (some outer)).2⟩
    (heap'.addFrame bindings' (some outer)).1 = frame ∧ s.Leads next ∧
        next.Guised g (heap'.addFrame bindings' (some outer)).2 ∧
          next.Marks (pushMark mark marks) frame := by
  intro frame bindings' next
  have hLeads : s.Leads next := by
    refine ⟨?_, s.heap.grows_addFrame bindings (some outer)⟩
    intro other hOther
    exact if_neg (Nat.ne_of_lt hOther)
  have hCode := h.codeLater hLeads
  have hNew : next.mark frame = mark := if_pos rfl
  refine ⟨h.size, hLeads, ⟨?_, ?_, h.arrays, h.objects, hCode.1, hCode.2⟩, ?_⟩
  · simp only [next, Heap.addFrame, Array.size_push, h.size]
  · intro other
    simp only [next, Heap.addFrame, Array.getElem?_push, h.size]
    by_cases hOther : other = frame
    · rw [if_pos hOther, if_pos hOther, if_pos hOther]
      exact .some ⟨rfl, rfl⟩
    · rw [if_neg hOther, if_neg hOther, if_neg hOther]
      exact h.frames other
  · rw [← hNew]
    refine .inside ?_ (hMarks.later hLeads)
    simp only [next, Heap.parent?, frame, Heap.frames_addFrame_new, Option.bind_some]

/- A method is bound to an object. -/
theorem bindMethod {method method' : Closure}
    (hMethod : MethodGuised g s method method') (object : ObjectId) :
    ∃ mark,
      let next : Marking Mark := ⟨mark, (s.heap.bindMethod method object).2⟩
      s.Leads next ∧ next.Guised g (heap'.bindMethod method' object).2 ∧
          Closure.Guised g next (s.heap.bindMethod method object).1
            (heap'.bindMethod method' object).1 := by
  rcases hMethod.function with ⟨marks, hMarks, hFunction⟩
  have hFrame := h.addFrame hMarks g.plain [("this", .object object)]
  simp only [Bindings.respell, List.map_cons, List.map_nil, g.spell_plain] at hFrame
  rcases hFrame with ⟨hNew, hLeads, hNext, hInside⟩
  refine ⟨_, hLeads, ?_, ?_⟩
  · simp only [Heap.bindMethod, hMethod.frame]
    exact hNext
  · refine ⟨?_, hMethod.isInitializer, _, hInside, hFunction⟩
    exact hNew

end

end Marking.Guised

end

end Scriptlet
