import Scriptlet.Eval.Action

/-
  Operators and built-in functions on evaluated operands.

  Key declarations include:
    * `Eval.arithmetic`
    * `Eval.negate`
    * `Eval.baseOperator`
    * `Eval.callNative`
-/

namespace Scriptlet

namespace Eval

/- Numbers add up; with a string, texts are joined. -/
def sum (heap : Heap) (left right : Value) : Except Cause Value :=
  match left, right with
  | .number a, .number b => .ok (.number (a + b))
  | .string _, _ =>
      .ok (.string (heap.display left ++ heap.display right))
  | _, .string _ =>
      .ok (.string (heap.display left ++ heap.display right))
  | _, _ => .error .additionOperands

/- An operator that only numbers have. -/
def onNumbers (operator : Float → Float → Except Cause Value)
    (left right : Value) : Except Cause Value :=
  match left, right with
  | .number a, .number b => operator a b
  | _, _ => .error .numberOperands

def quotient (a b : Float) : Except Cause Value :=
  if b == 0 then .error .divisionByZero
  else .ok (.number (a / b))

/- Apply the binary operator of a kind. -/
def arithmetic (heap : Heap) (kind : Token.Kind) (left right : Value) : Except Cause Value :=
  match kind with
  | .symbol .plus => sum heap left right
  | .symbol .minus =>
      onNumbers (fun a b => .ok (.number (a - b))) left right
  | .symbol .star =>
      onNumbers (fun a b => .ok (.number (a * b))) left right
  | .symbol .slash => onNumbers quotient left right
  | .symbol .greater =>
      onNumbers (fun a b => .ok (.bool (b < a))) left right
  | .symbol .greaterEqual =>
      onNumbers (fun a b => .ok (.bool (b ≤ a))) left right
  | .symbol .less =>
      onNumbers (fun a b => .ok (.bool (a < b))) left right
  | .symbol .lessEqual =>
      onNumbers (fun a b => .ok (.bool (a ≤ b))) left right
  | .symbol .equalEqual =>
      .ok (.bool (heap.equal left right))
  | .symbol .bangEqual =>
      .ok (.bool (!heap.equal left right))
  | _ => .error .binaryOperator

/- The operator that a compound assignment applies. -/
def baseOperator : Token.Kind → Token.Kind
  | .symbol .plusEqual => .symbol .plus
  | .symbol .minusEqual => .symbol .minus
  | .symbol .starEqual => .symbol .star
  | .symbol .slashEqual => .symbol .slash
  | kind => kind

/- Apply a binary operator; faults are at its token. -/
def operate (kind : Token.Kind) (operator : Token) (left right : Value) : Action Value :=
  fun w =>
    match arithmetic w.heap kind left right with
    | .ok value => .done value w
    | .error cause =>
        .failed (.atToken operator cause) w

def negate (operator : Token) (operand : Value) : Action Value :=
  match operator.kind with
  | .symbol .minus =>
      match operand with
      | .number x => return .number (-x)
      | _ => failAt operator .unaryOperand
  | .symbol .bang => return .bool (!operand.isTruthy)
  | _ => failAt operator .unaryOperator

/- Does the left operand decide a logical operator? -/
def decides (operator : Token) (left : Value) : Bool :=
  if operator.kind = .keyword .orWord then left.isTruthy
  else !left.isTruthy

/- What a step operator adds. -/
def stepSize (operator : Token) : Float :=
  if operator.kind = .symbol .plusPlus then 1 else -1

/- The next line of input, `nil` at its end. -/
def readInput (paren : Token) : Action Value :=
  fun w =>
    let (reading, host) := w.host.readLine
    let w' := { w with host := host }
    match reading with
    | .line content => .done (.string content) w'
    | .atEnd => .done .nil w'
    | .failure text =>
        .failed (.atToken paren (.readFailed text)) w'
    | .unknown => ask .line w

/- Does a named resource exist? -/
def findResource (name : String) : Action Value :=
  fun w =>
    match w.host.resource? name with
    | some found => .done (.bool found) w
    | none => ask (.resource name) w

/- The length of a string or an array. -/
def lengthOf (paren : Token) (value : Value) :
    Action Value := do
  match value with
  | .string text => return .number (.ofNat text.length)
  | .array id =>
      let length ← inspect (·.length id)
      return .number (.ofNat length)
  | _ => failAt paren (.lengthOf value.typeName)

/- Call a built-in function; faults are at the parenthesis. -/
def callNative (native : Native) (paren : Token) (arguments : List Value) : Action Value := do
  match native, arguments with
  | .clock, [] => fun w => .done (.number w.host.seconds) w
  | .input, [] => readInput paren
  | .len, [value] => lengthOf paren value
  | .str, [value] =>
      inspect fun heap => .string (heap.display value)
  | .fileExists, [value] =>
      match value with
      | .string name => findResource name
      | _ => failAt paren (.resourceName value.typeName)
  | native, arguments =>
      failAt paren (.arity native.arity arguments.length)

end Eval

end Scriptlet
