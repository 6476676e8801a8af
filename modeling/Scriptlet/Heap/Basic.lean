import Scriptlet.Tree.Basic

/-
  Values and the heap of a running program.

  Key declarations include:
    * `Bindings`
    * `Native`
    * `Value`
    * `Frame`
    * `Closure`
    * `Blueprint`
    * `Object`
    * `Heap`

  Arrays, functions, classes and objects have identity: a
  value only names their place in the heap, by the order of
  creation.  The heap only grows.
-/

namespace Scriptlet

/- Names with what they are bound to, each name once. -/
abbrev Bindings (α : Type) := List (String × α)

namespace Bindings

variable {α : Type}

/- What a name is bound to. -/
def get? (bindings : Bindings α) (name : String) : Option α := List.lookup name bindings

/- Bind a name, in place of an earlier binding of it. -/
def insert (bindings : Bindings α) (name : String) (value : α) : Bindings α :=
  match bindings with
  | [] => [(name, value)]
  | entry :: others =>
      if entry.1 = name then (name, value) :: others
      else entry :: insert others name value

/- Bind names in order; of equal names the last one counts. -/
def ofPairs (pairs : List (String × α)) : Bindings α :=
  pairs.foldl (fun bindings pair => bindings.insert pair.1 pair.2) []

@[simp] theorem get?_nil (name : String) :
    get? ([] : Bindings α) name = none := rfl

theorem get?_insert (bindings : Bindings α) (name other : String) (value : α) :
    (bindings.insert name value).get? other =
      if other = name then some value
      else bindings.get? other := by
  induction bindings with
  | nil =>
      by_cases hName : other = name
      · simp [insert, get?, hName]
      · simp [insert, get?, List.lookup_cons, hName, beq_eq_false_iff_ne.2 hName]
  | cons entry others ih =>
      obtain ⟨key, old⟩ := entry
      by_cases hKey : key = name
      · subst hKey
        by_cases hName : other = key
        · simp [insert, get?, hName]
        · simp [insert, get?, List.lookup_cons, hName, beq_eq_false_iff_ne.2 hName]
      · by_cases hName : other = key
        · subst hName
          simp [insert, get?, hKey]
        · have hLookup : ∀ rest : Bindings α, get? ((key, old) :: rest) other =
                  get? rest other := by
            intro rest
            simp [get?, List.lookup_cons, beq_eq_false_iff_ne.2 hName]
          simp only [insert, hKey, if_false, hLookup]
          exact ih

end Bindings

/- Functions that exist before any program runs. -/
inductive Native where
  | clock
  | input
  | len
  | str
  | fileExists
  deriving DecidableEq, Repr

namespace Native

def all : List Native := [.clock, .input, .len, .str, .fileExists]

def name : Native → String
  | .clock => "clock"
  | .input => "input"
  | .len => "len"
  | .str => "str"
  | .fileExists => "file_exists"

def arity : Native → Nat
  | .clock => 0
  | .input => 0
  | .len => 1
  | .str => 1
  | .fileExists => 1

end Native

abbrev FrameId := Nat

abbrev ArrayId := Nat

abbrev FunctionId := Nat

abbrev ClassId := Nat

abbrev ObjectId := Nat

inductive Value where
  | nil
  | bool (value : Bool)
  | number (value : Float)
  | string (text : String)
  | array (id : ArrayId)
  | function (id : FunctionId)
  | native (function : Native)
  | blueprint (id : ClassId)
  | object (id : ObjectId)
  deriving DecidableEq, Repr

namespace Value

/- Only `nil` and `false` count as false. -/
def isTruthy : Value → Bool
  | .nil => false
  | .bool value => value
  | _ => true

def typeName : Value → String
  | .nil => "nil"
  | .bool _ => "boolean"
  | .number _ => "number"
  | .string _ => "string"
  | .array _ => "array"
  | .function _ => "function"
  | .native _ => "function"
  | .blueprint _ => "class"
  | .object _ => "instance"

def ofLiteral : Literal → Value
  | .number value => .number value
  | .string text => .string text
  | .bool value => .bool value
  | .nil => .nil

end Value

/- The variables of one scope at run time. -/
structure Frame where
  bindings : Bindings Value
  parent : Option FrameId
  deriving DecidableEq, Repr

/-
  A function with the frame it was declared in.  An
  initializer hands back its object.
-/
structure Closure where
  function : Function
  frame : FrameId
  isInitializer : Bool

/- A class with its superclass and its own methods. -/
structure Blueprint where
  name : String
  superclass : Option ClassId
  methods : Bindings Closure

/- An object with its class and its fields. -/
structure Object where
  classId : ClassId
  fields : Bindings Value
  deriving DecidableEq, Repr

structure Heap where
  frames : Array Frame
  arrays : Array (Array Value)
  functions : Array Closure
  classes : Array Blueprint
  objects : Array Object

namespace Heap

/- The frame of the global variables. -/
def globals : FrameId := 0

/- A heap with nothing in it. -/
def empty : Heap where
  frames := #[]
  arrays := #[]
  functions := #[]
  classes := #[]
  objects := #[]

def addFrame (heap : Heap) (bindings : Bindings Value) (parent : Option FrameId) : FrameId × Heap :=
  (heap.frames.size,
    { heap with
      frames := heap.frames.push ⟨bindings, parent⟩ })

def addArray (heap : Heap) (items : Array Value) : ArrayId × Heap :=
  (heap.arrays.size, { heap with arrays := heap.arrays.push items })

def addFunction (heap : Heap) (closure : Closure) : FunctionId × Heap :=
  (heap.functions.size, { heap with functions := heap.functions.push closure })

def addClass (heap : Heap) (blueprint : Blueprint) : ClassId × Heap :=
  (heap.classes.size, { heap with classes := heap.classes.push blueprint })

def addObject (heap : Heap) (classId : ClassId) : ObjectId × Heap :=
  (heap.objects.size, { heap with objects := heap.objects.push ⟨classId, []⟩ })

/- Global variables name the built-in functions. -/
def initial : Heap :=
  let natives : Bindings Value :=
    Native.all.map fun native =>
      (native.name, .native native)
  (empty.addFrame natives none).2

/- The number of elements of an array. -/
def length (heap : Heap) (id : ArrayId) : Nat :=
  match heap.arrays[id]? with
  | some items => items.size
  | none => 0

def element? (heap : Heap) (id : ArrayId) (position : Nat) : Option Value :=
  heap.arrays[id]?.bind fun items => items[position]?

/- Replace an element; the length stays. -/
def setElement (heap : Heap) (id : ArrayId) (position : Nat) (value : Value) : Heap :=
  { heap with
    arrays :=
      heap.arrays.modify id fun items =>
        items.setIfInBounds position value }

def field? (heap : Heap) (id : ObjectId) (name : String) : Option Value :=
  heap.objects[id]?.bind fun object => object.fields.get? name

/- Set a field, creating it if need be. -/
def setField (heap : Heap) (id : ObjectId) (name : String) (value : Value) : Heap :=
  { heap with
    objects :=
      heap.objects.modify id fun object =>
        { object with
          fields := object.fields.insert name value } }

end Heap

end Scriptlet
