import Scriptlet.Heap.Basic

/-
  Variables in chains of frames, and methods of classes.

  Key declarations include:
    * `Heap.get?`
    * `Heap.assign?`
    * `Heap.getAt?`
    * `Heap.assignAt?`
    * `Heap.findMethod?`
    * `Heap.bindMethod`

  A variable is found by searching outward, or directly in
  the frame at a known distance.
-/

namespace Scriptlet

namespace Heap

/- The frame around a frame. -/
def parent? (heap : Heap) (frame : FrameId) : Option FrameId :=
  heap.frames[frame]?.bind Frame.parent

/- What a frame itself binds a name to. -/
def local? (heap : Heap) (frame : FrameId) (name : String) : Option Value :=
  heap.frames[frame]?.bind fun f => f.bindings.get? name

/- Bind a name in a frame. -/
def define (heap : Heap) (frame : FrameId) (name : String) (value : Value) : Heap :=
  { heap with
    frames :=
      heap.frames.modify frame fun f =>
        { f with bindings := f.bindings.insert name value } }

/- The frame a search moves on to: created earlier. -/
def outer? (heap : Heap) (frame : FrameId) : Option { outer : FrameId // outer < frame } :=
  match heap.parent? frame with
  | some outer =>
      if h : outer < frame then some ⟨outer, h⟩ else none
  | none => none

/- Look a name up here, then outward. -/
def get? (heap : Heap) (frame : FrameId) (name : String) : Option Value :=
  match heap.local? frame name with
  | some value => some value
  | none =>
      match heap.outer? frame with
      | some ⟨outer, _⟩ => heap.get? outer name
      | none => none
termination_by frame

/- The nearest frame that binds a name. -/
def holder? (heap : Heap) (frame : FrameId) (name : String) : Option FrameId :=
  match heap.local? frame name with
  | some _ => some frame
  | none =>
      match heap.outer? frame with
      | some ⟨outer, _⟩ => heap.holder? outer name
      | none => none
termination_by frame

/- Change the nearest binding of a name. -/
def assign? (heap : Heap) (frame : FrameId) (name : String) (value : Value) : Option Heap :=
  (heap.holder? frame name).map fun f =>
    heap.define f name value

/- The frame exactly `distance` links outward. -/
def ancestor? (heap : Heap) (frame : FrameId) :
    Nat → Option FrameId
  | 0 => some frame
  | distance + 1 =>
      (heap.ancestor? frame distance).bind heap.parent?

/- Read a name in the frame at a distance. -/
def getAt? (heap : Heap) (frame : FrameId) (distance : Nat) (name : String) : Option Value :=
  (heap.ancestor? frame distance).bind fun f =>
    heap.local? f name

/- The frame at a distance, if it binds a name. -/
def holderAt? (heap : Heap) (frame : FrameId) (distance : Nat) (name : String) : Option FrameId :=
  (heap.ancestor? frame distance).filter fun f =>
    (heap.local? f name).isSome

/- Change a binding in the frame at a distance. -/
def assignAt? (heap : Heap) (frame : FrameId) (distance : Nat) (name : String)
    (value : Value) : Option Heap :=
  (heap.holderAt? frame distance name).map fun f =>
    heap.define f name value

/- A method of a class, or of the nearest superclass. -/
def findMethod? (heap : Heap) (classId : ClassId) (name : String) : Option Closure :=
  match heap.classes[classId]? with
  | none => none
  | some blueprint =>
      match blueprint.methods.get? name with
      | some method => some method
      | none =>
          match blueprint.superclass with
          | some parent =>
              if parent < classId then
                heap.findMethod? parent name
              else none
          | none => none
termination_by classId

/- A method of the class of an object. -/
def methodOf? (heap : Heap) (object : ObjectId) (name : String) : Option Closure :=
  heap.objects[object]?.bind fun o =>
    heap.findMethod? o.classId name

/- The name of the method that sets up new objects. -/
def initializerName : String := "init"

/- The method that sets up objects of a class. -/
def initializer? (heap : Heap) (classId : ClassId) : Option Closure :=
  heap.findMethod? classId initializerName

/- How many arguments the creation of an object takes. -/
def classArity (heap : Heap) (classId : ClassId) : Nat :=
  match heap.initializer? classId with
  | some method => method.function.arity
  | none => 0

/-
  A method of an object: its frame binds `this`, inside the
  frame of the method.
-/
def bindMethod (heap : Heap) (method : Closure) (object : ObjectId) : Closure × Heap :=
  let (frame, heap) :=
    heap.addFrame [("this", .object object)] (some method.frame)
  ({ method with frame := frame }, heap)

end Heap

end Scriptlet
