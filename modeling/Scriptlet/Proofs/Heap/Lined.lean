import Scriptlet.Proofs.Heap.Sane
import Scriptlet.Proofs.Scope.Known

/-
  Frames for objects and superclasses.

  Key declarations include:
    * `Heap.Keeps`
    * `Heap.Lined`
    * `Heap.Lined.at_distance`
    * `Heap.SelfFrame`
    * `Heap.Lineage.findMethod?_eq`

  The frames around a frame stand in line with scopes if
  those for `this`, and no others, bind it to an object and
  those for `super` bind it to a class.  Frames in line stay
  so, as only ordinary names are ever bound again.  A method
  is looked for from a class up to the last superclass, and
  the first one that is found is used.
-/

namespace Scriptlet

namespace Heap

open Scope (Kind IsNearest)

/-
  Frames keep the frames around them and their values of
  `this` and `super`, and classes stay.
-/
structure Keeps (heap heap' : Heap) : Prop where
  size : heap.frames.size ≤ heap'.frames.size
  parent {frame : FrameId} : frame < heap.frames.size → heap'.parent? frame = heap.parent? frame
  reserved {frame : FrameId} {name : String} : frame < heap.frames.size →
      ¬ Ordinary name → heap'.local? frame name = heap.local? frame name
  classes : ∀ c ∈ heap.classes, c ∈ heap'.classes

theorem not_ordinary_this : ¬ Ordinary "this" := fun h => h.ne_this rfl

theorem not_ordinary_super : ¬ Ordinary "super" := fun h => h.ne_super rfl

namespace Keeps

theorem of_frames {heap heap' : Heap} (h : heap'.frames = heap.frames)
    (hClasses : ∀ c ∈ heap.classes, c ∈ heap'.classes) : heap.Keeps heap' where
  size := Nat.le_of_eq (by rw [h])
  parent _ := by simp only [parent?, h]
  reserved _ _ := by simp only [local?, h]
  classes := hClasses

theorem refl (heap : Heap) : heap.Keeps heap := .of_frames rfl fun _ => id

theorem trans {first second third : Heap} (h₁ : first.Keeps second)
    (h₂ : second.Keeps third) : first.Keeps third where
  size := Nat.le_trans h₁.size h₂.size
  parent hFrame := by rw [h₂.parent (Nat.lt_of_lt_of_le hFrame h₁.size), h₁.parent hFrame]
  reserved hFrame hName := by
    rw [h₂.reserved (Nat.lt_of_lt_of_le hFrame h₁.size) hName, h₁.reserved hFrame hName]
  classes c hMem := h₂.classes c (h₁.classes c hMem)

theorem define (heap : Heap) (frame : FrameId) {name : String}
    (hName : Ordinary name) (value : Value) : heap.Keeps (heap.define frame name value) where
  size := by simp [Heap.define]
  parent _ := parent?_define heap frame _ name value
  reserved := by
    intro other key _ hKey
    rw [local?_define, if_neg]
    rintro ⟨_, rfl, _⟩
    exact hKey hName
  classes _ := id

theorem addFrame (heap : Heap) (bindings : Bindings Value)
    (outer : Option FrameId) : heap.Keeps (heap.addFrame bindings outer).2 where
  size := (heap.grows_addFrame bindings outer).size
  parent := (heap.grows_addFrame bindings outer).parent
  reserved hFrame _ := by simp only [local?, frames_addFrame _ _ _ hFrame]
  classes _ := id

end Keeps

/- A frame binds what a scope of its kind is for. -/
def FrameFor (heap : Heap) (frame : FrameId) : Kind → Prop
  | .self => ∃ object, heap.local? frame "this" = some (.object object)
  | .superclass =>
    heap.local? frame "this" = none ∧ ∃ classId,
        heap.local? frame "super" = some (.blueprint classId)
  | _ => heap.local? frame "this" = none

/- Other frames do not bind `this`. -/
theorem FrameFor.no_self {heap : Heap} {frame : FrameId} {kind : Kind}
    (h : heap.FrameFor frame kind) (hKind : kind ≠ .self) : heap.local? frame "this" = none := by
  cases kind with
  | self => exact absurd rfl hKind
  | superclass => exact h.1
  | block => exact h
  | function => exact h

/- The frames from this one out to the globals. -/
inductive Lined (heap : Heap) : List Kind → FrameId → Prop where
  | globals : Heap.globals < heap.frames.size → Lined heap [] Heap.globals
  | inside {kind kinds frame outer} : heap.parent? frame = some outer →
      heap.FrameFor frame kind → Lined heap kinds outer → Lined heap (kind :: kinds) frame

section

variable {heap heap' : Heap} {kinds : List Kind} {frame : FrameId}

variable {kind : Kind}

theorem FrameFor.keep (h : heap.FrameFor frame kind)
    (hLt : frame < heap.frames.size) (hKeeps : heap.Keeps heap') : heap'.FrameFor frame kind := by
  cases kind with
  | self =>
    rcases h with ⟨object, hObject⟩
    refine ⟨object, ?_⟩
    rw [hKeeps.reserved hLt not_ordinary_this, hObject]
  | superclass =>
    rcases h with ⟨hSelf, classId, hClass⟩
    refine ⟨?_, classId, ?_⟩
    · rw [hKeeps.reserved hLt not_ordinary_this, hSelf]
    · rw [hKeeps.reserved hLt not_ordinary_super, hClass]
  | block
  | function => exact (hKeeps.reserved hLt not_ordinary_this).trans h

/- Frames in line stay in line. -/
theorem Lined.keep (h : heap.Lined kinds frame) (hKeeps : heap.Keeps heap') :
    heap'.Lined kinds frame := by
  induction h with
  | globals hLt => exact .globals (Nat.lt_of_lt_of_le hLt hKeeps.size)
  | inside hParent hFrameFor _ ih =>
    have hLt := lt_of_parent? hParent
    exact .inside ((hKeeps.parent hLt).trans hParent) (hFrameFor.keep hLt hKeeps) ih

variable {distance : Nat}

/- The frame at a distance is one for its scope. -/
theorem Lined.at_distance (h : heap.Lined kinds frame) (hKind : kinds[distance]? = some kind) :
    ∃ f, heap.ancestor? frame distance = some f ∧ heap.FrameFor f kind := by
  induction h generalizing distance with
  | globals => cases hKind
  | @inside first kinds frame outer hParent hFrameFor _ ih =>
    cases distance with
    | zero =>
      cases hKind
      exact ⟨frame, rfl, hFrameFor⟩
    | succ distance =>
      rcases ih hKind with ⟨f, hFrame, hKind⟩
      refine ⟨f, ?_, hKind⟩
      rw [ancestor?_succ, hParent, Option.bind_some, hFrame]

/- The object at the distance of a scope for `this`. -/
theorem Lined.object_at (h : heap.Lined kinds frame) (hKind : kinds[distance]? = some .self) :
    ∃ object, heap.getAt? frame distance "this" = some (.object object) := by
  rcases h.at_distance hKind with ⟨f, hFrame, object, hObject⟩
  exact ⟨object, by rw [getAt?, hFrame]; exact hObject⟩

/- The class at the distance of a scope for `super`. -/
theorem Lined.class_at (h : heap.Lined kinds frame)
    (hKind : kinds[distance]? = some .superclass) :
    ∃ classId, heap.getAt? frame distance "super" = some (.blueprint classId) := by
  rcases h.at_distance hKind with ⟨f, hFrame, _, classId, hClass⟩
  exact ⟨classId, by rw [getAt?, hFrame]; exact hClass⟩

theorem parent?_addFrame_new (heap : Heap) (bindings : Bindings Value)
    (outer : Option FrameId) :
    (heap.addFrame bindings outer).2.parent? heap.frames.size =
      outer := by
  simp only [parent?, frames_addFrame_new, Option.bind_some]

theorem local?_addFrame_new (heap : Heap) (bindings : Bindings Value)
    (outer : Option FrameId) (name : String) :
    (heap.addFrame bindings outer).2.local? heap.frames.size name = bindings.get? name := by
  simp only [local?, frames_addFrame_new, Option.bind_some]

/- A new frame inside frames in line. -/
theorem Lined.addFrame (h : heap.Lined kinds frame) {bindings : Bindings Value}
    (hFrameFor : (heap.addFrame bindings (some frame)).2.FrameFor
        heap.frames.size kind) : (heap.addFrame bindings (some frame)).2.Lined
      (kind :: kinds) heap.frames.size :=
  .inside (parent?_addFrame_new ..) hFrameFor (h.keep (.addFrame heap bindings (some frame)))

theorem Lined.frame_lt (h : heap.Lined kinds frame) : frame < heap.frames.size := by
  cases h with
  | globals hLt => exact hLt
  | inside hParent => exact lt_of_parent? hParent

/- The nearest frame that binds `this`. -/
inductive SelfFrame (heap : Heap) : FrameId → FrameId → Prop where
  | here {frame value} : heap.local? frame "this" = some value → SelfFrame heap frame frame
  | further {frame outer f} : heap.local? frame "this" = none →
      heap.parent? frame = some outer → SelfFrame heap outer f → SelfFrame heap frame f

theorem lt_of_local? {name : String} {value : Value}
    (h : heap.local? frame name = some value) : frame < heap.frames.size := by
  rcases Option.bind_eq_some_iff.mp h with ⟨f, hGet, _⟩
  exact (Array.getElem?_eq_some_iff.mp hGet).1

theorem SelfFrame.keep {f : FrameId} (h : heap.SelfFrame frame f)
    (hKeeps : heap.Keeps heap') : heap'.SelfFrame frame f := by
  induction h with
  | here hSelf =>
    apply SelfFrame.here
    rw [hKeeps.reserved (lt_of_local? hSelf) not_ordinary_this, hSelf]
  | further hSelf hParent _ ih =>
    have hLt := lt_of_parent? hParent
    refine .further ?_ ?_ ih
    · rw [hKeeps.reserved hLt not_ordinary_this, hSelf]
    · rw [hKeeps.parent hLt, hParent]

theorem SelfFrame.unique {f f' : FrameId} (h : heap.SelfFrame frame f)
    (h' : heap.SelfFrame frame f') : f = f' := by
  induction h with
  | here hSelf =>
    cases h' with
    | here => rfl
    | further hNone => cases hSelf.symm.trans hNone
  | further hNone hParent _ ih =>
    cases h' with
    | here hSelf => cases hSelf.symm.trans hNone
    | further _ hParent' hRest =>
      cases hParent.symm.trans hParent'
      exact ih hRest

/- It is at the distance of the nearest scope for `this`. -/
theorem Lined.selfFrame_at (h : heap.Lined kinds frame)
    (hNearest : IsNearest .self kinds distance) :
    ∃ f, heap.ancestor? frame distance = some f ∧
      heap.SelfFrame frame f ∧ heap.FrameFor f .self := by
  induction h generalizing distance with
  | globals => cases hNearest
  | @inside kind kinds frame outer hParent hFrameFor _ ih =>
    unfold IsNearest at hNearest
    rw [List.findIdx?_cons] at hNearest
    by_cases hKind : kind = .self
    · subst hKind
      cases hNearest
      rcases hFrameFor with ⟨object, hObject⟩
      exact ⟨frame, rfl, .here hObject, object, hObject⟩
    · rw [decide_eq_false hKind] at hNearest
      rcases Option.map_eq_some_iff.mp hNearest with ⟨d, hFound, rfl⟩
      rcases ih hFound with ⟨f, hFrame, hSelf, hObject⟩
      refine ⟨f, ?_, ?_, hObject⟩
      · rw [ancestor?_succ, hParent, Option.bind_some, hFrame]
      · exact .further (hFrameFor.no_self hKind) hParent hSelf

/- A frame for an object, around which a method stands. -/
structure Hosts (heap : Heap) (frame : FrameId) (c : Blueprint) (name : String)
    (method : Closure) : Prop where
  declared : c ∈ heap.classes
  found : c.methods.get? name = some method
  parent : heap.parent? frame = some method.frame
  self : ∃ object, heap.local? frame "this" = some (.object object)

theorem Hosts.keep {c : Blueprint} {name : String} {method : Closure}
    (h : heap.Hosts frame c name method) (hKeeps : heap.Keeps heap') :
    heap'.Hosts frame c name method where
  declared := hKeeps.classes c h.declared
  found := h.found
  parent := by rw [hKeeps.parent (lt_of_parent? h.parent), h.parent]
  self := by
    rcases h.self with ⟨object, hObject⟩
    refine ⟨object, ?_⟩
    rw [hKeeps.reserved (lt_of_local? hObject) not_ordinary_this, hObject]

end

end Heap

namespace Heap

variable {heap : Heap}

/- A method that a class itself declares. -/
def ownMethod? (heap : Heap) (name : String) (classId : ClassId) : Option Closure :=
  heap.classes[classId]?.bind fun c => c.methods.get? name

/- The superclass that a class was declared with. -/
def superclass? (heap : Heap) (classId : ClassId) : Option ClassId :=
  heap.classes[classId]?.bind Blueprint.superclass

/- A class and all its superclasses, nearest first. -/
inductive Lineage (heap : Heap) : ClassId → List ClassId → Prop where
  | root {classId} : heap.superclass? classId = none → Lineage heap classId [classId]
  | derived {classId parent above} : heap.superclass? classId = some parent →
      Lineage heap parent above → Lineage heap classId (classId :: above)

/- Superclasses are older, so there is a last one. -/
theorem Sane.lineage (h : heap.Sane) (classId : ClassId) :
    ∃ classes, heap.Lineage classId classes := by
  induction classId using Nat.strongRecOn with
  | ind classId ih =>
    cases hSuper : heap.superclass? classId with
    | none => exact ⟨_, .root hSuper⟩
    | some parent =>
      rcases Option.bind_eq_some_iff.mp hSuper with ⟨c, hClass, hParent⟩
      have hOlder := (h.classes classId c hClass).1 parent hParent
      rcases ih parent hOlder with ⟨above, hAbove⟩
      exact ⟨_, .derived hSuper hAbove⟩

theorem Sane.findMethod?_step (h : heap.Sane) (classId : ClassId) (name : String) :
    heap.findMethod? classId name = (heap.ownMethod? name classId).or
        ((heap.superclass? classId).bind (heap.findMethod? · name)) := by
  rw [h.findMethod?_eq]
  unfold ownMethod? superclass?
  cases heap.classes[classId]? <;> rfl

/- The nearest method is found. -/
theorem Lineage.findMethod?_eq {classId : ClassId} {classes : List ClassId}
    (h : heap.Lineage classId classes) (hSane : heap.Sane) (name : String) :
    heap.findMethod? classId name = classes.findSome? (heap.ownMethod? name) := by
  induction h with
  | @root classId hSuper =>
    rw [hSane.findMethod?_step, hSuper, List.findSome?_cons, List.findSome?_nil]
    cases heap.ownMethod? name classId <;> rfl
  | @derived classId parent above hSuper _ ih =>
    rw [hSane.findMethod?_step, hSuper, Option.bind_some, ih, List.findSome?_cons]
    cases heap.ownMethod? name classId <;> rfl

/- A function value that is a method bound to an object. -/
def Bound (heap : Heap) (value : Value) (method : Closure) (object : ObjectId) : Prop :=
  ∃ id frame, value = .function id ∧ heap.functions[id]? = some { method with frame := frame } ∧
      heap.local? frame "this" = some (.object object) ∧ heap.parent? frame = some method.frame

/- The nearest frame that binds `this` is found outward. -/
theorem SelfFrame.holder?_eq {frame f : FrameId} (h : heap.SelfFrame frame f)
    (hSane : heap.Sane) : heap.holder? frame "this" = some f := by
  induction h with
  | here hSelf =>
    rw [hSane.holder?_eq, hSelf]
    rfl
  | further hNone hParent _ ih =>
    rw [hSane.holder?_eq, hNone, hParent, Option.bind_some, ih]
    rfl

end Heap

end Scriptlet
