import Scriptlet.Eval.Action

/-
  Variables, properties and elements.

  Key declarations include:
    * `Eval.readVariable`
    * `Eval.writeVariable`
    * `Eval.getProperty`
    * `Eval.setProperty`
    * `Eval.getElement`
    * `Eval.setElement`
    * `Eval.Place`
-/

namespace Scriptlet

namespace Eval

/-
  Read a variable: at its distance, or among the globals if
  it has none.
-/
def readVariable (ctx : Context) (id : Nat) (name : Token) : Action Value :=
  require name (.undefinedVariable name.lexeme) fun heap =>
    match ctx.distances[id]? with
    | some distance =>
        heap.getAt? ctx.frame distance name.lexeme
    | none => heap.get? Heap.globals name.lexeme

/- Change a variable in the frame that holds it. -/
def assign (name : Token) (holder : Heap → Option FrameId) (value : Value) : Action Unit := do
  let frame ← require name (.undefinedVariable name.lexeme) holder
  updateHeap fun heap => heap.define frame name.lexeme value

/- Change a variable, found as for reading. -/
def writeVariable (ctx : Context) (id : Nat) (name : Token) (value : Value) : Action Unit :=
  let holder := fun (heap : Heap) =>
    match ctx.distances[id]? with
    | some distance =>
        heap.holderAt? ctx.frame distance name.lexeme
    | none => heap.holder? Heap.globals name.lexeme
  assign name holder value

/- Bind a variable in the current frame. -/
def declare (ctx : Context) (name : String) (value : Value) : Action Unit :=
  updateHeap fun heap => heap.define ctx.frame name value

/- A function value bound to an object. -/
def bound (method : Closure) (object : ObjectId) :
    Action Value := do
  let closure ← allocate fun heap => heap.bindMethod method object
  let id ← allocate fun heap => heap.addFunction closure
  return .function id

/- A field of an object, or else a method bound to it. -/
def getMember (object : ObjectId) (name : Token) :
    Action Value := do
  match ← inspect (·.field? object name.lexeme) with
  | some value => return value
  | none =>
      match ← inspect (·.methodOf? object name.lexeme) with
      | some method => bound method object
      | none => failAt name (.undefinedProperty name.lexeme)

/- The length property of arrays and strings. -/
def lengthName : String := "length"

def getProperty (object : Value) (name : Token) :
    Action Value := do
  match object with
  | .object id => getMember id name
  | .nil => failAt name (.propertyOfNil name.lexeme)
  | .array id =>
      if name.lexeme = lengthName then
        let length ← inspect (·.length id)
        return .number (.ofNat length)
      else
        failAt name (.propertyOn name.lexeme object.typeName)
  | .string text =>
      if name.lexeme = lengthName then
        return .number (.ofNat text.length)
      else
        failAt name (.propertyOn name.lexeme object.typeName)
  | _ => failAt name (.propertyOn name.lexeme object.typeName)

def setProperty (object : Value) (name : Token) (value : Value) : Action Unit :=
  match object with
  | .object id =>
      updateHeap fun heap => heap.setField id name.lexeme value
  | .nil => failAt name (.setPropertyOfNil name.lexeme)
  | _ => failAt name (.setPropertyOn object.typeName)

/- The position a value names among `length` elements. -/
def position (index : Value) (length : Nat) : Except Cause Nat :=
  match index with
  | .number x =>
      match Numeral.index? x with
      | some i =>
          if i < length then .ok i
          else .error (.positionBound i length)
      | none => .error .positionValue
  | _ => .error (.positionType index.typeName)

/- The position of an element; faults are at the bracket. -/
def locate (bracket : Token) (index : Value) (length : Nat) : Action Nat :=
  match position index length with
  | .ok i => return i
  | .error cause => failAt bracket cause

def getElement (object index : Value) (bracket : Token) :
    Action Value := do
  match object with
  | .array id =>
      let length ← inspect (·.length id)
      let i ← locate bracket index length
      inspect fun heap => (heap.element? id i).getD .nil
  | .string text =>
      let i ← locate bracket index text.length
      return .string (String.ofList (text.toList[i]?.toList))
  | .nil => failAt bracket .elementOfNil
  | _ => failAt bracket (.elementOn object.typeName)

def setElement (object index : Value) (bracket : Token) (value : Value) : Action Unit := do
  match object with
  | .array id =>
      let length ← inspect (·.length id)
      let i ← locate bracket index length
      updateHeap fun heap => heap.setElement id i value
  | .string _ => failAt bracket .stringElement
  | .nil => failAt bracket .elementOfNil
  | _ => failAt bracket (.setElementOn object.typeName)

/- A target of assignment whose parts are evaluated. -/
inductive Place where
  | named (id : Nat) (name : Token)
  | property (object : Value) (name : Token)
  | element (object index : Value) (bracket : Token)

namespace Place

def read (ctx : Context) : Place → Action Value
  | .named id name => readVariable ctx id name
  | .property object name => getProperty object name
  | .element object index bracket =>
      getElement object index bracket

def write (ctx : Context) (value : Value) :
    Place → Action Unit
  | .named id name => writeVariable ctx id name value
  | .property object name => setProperty object name value
  | .element object index bracket =>
      setElement object index bracket value

end Place

end Eval

end Scriptlet
