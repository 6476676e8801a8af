import Scriptlet.Diagnostic

/-
  Faults of running programs.

  Key declarations include:
    * `Eval.Cause`
    * `Eval.Cause.message`
    * `Eval.Fault`
-/

namespace Scriptlet

namespace Eval

/- Why a statement cannot go on. -/
inductive Cause where
  | undefinedVariable (name : String)
  | unaryOperand
  | unaryOperator
  | additionOperands
  | numberOperands
  | divisionByZero
  | binaryOperator
  | stepOperand (operator : String) (typeName : String)
  | assignmentTarget
  | notCallable (typeName : String)
  | arity (expected : Nat) (given : Nat)
  | callDepth
  | superclass
  | superOutsideMethod
  | selfNotObject
  | undefinedProperty (name : String)
  | propertyOfNil (name : String)
  | propertyOn (name : String) (typeName : String)
  | setPropertyOfNil (name : String)
  | setPropertyOn (typeName : String)
  | positionType (typeName : String)
  | positionValue
  | positionBound (position : Nat) (length : Nat)
  | elementOfNil
  | elementOn (typeName : String)
  | stringElement
  | setElementOn (typeName : String)
  | printFailed (text : String)
  | readFailed (text : String)
  | lengthOf (typeName : String)
  | resourceName (typeName : String)
  deriving DecidableEq, Repr

namespace Cause

def quoted (name : String) : String := "'" ++ name ++ "'"

def message : Cause → String
  | .undefinedVariable name =>
      "Undefined variable " ++ quoted name ++ "."
  | .unaryOperand => "Operand must be a number."
  | .unaryOperator => "Invalid unary operator."
  | .additionOperands =>
      "Operands must be two numbers or at least one string."
  | .numberOperands => "Operands must be numbers."
  | .divisionByZero => "Division by zero."
  | .binaryOperator => "Invalid binary operator."
  | .stepOperand operator typeName =>
      "Operand of " ++ quoted operator ++ " must be a number, got " ++ typeName ++ "."
  | .assignmentTarget => "Invalid assignment target."
  | .notCallable typeName =>
      "Can only call functions and classes, not " ++ typeName ++ "."
  | .arity expected given =>
      "Expected " ++ toString expected ++ " arguments but got " ++ toString given ++ "."
  | .callDepth => "Stack overflow."
  | .superclass => "Superclass must be a class."
  | .superOutsideMethod =>
      "Can't use 'super' outside of a method."
  | .selfNotObject => "'this' is not an instance."
  | .undefinedProperty name =>
      "Undefined property " ++ quoted name ++ "."
  | .propertyOfNil name =>
      "Cannot read property " ++ quoted name ++ " of nil."
  | .propertyOn name typeName =>
      "Undefined property " ++ quoted name ++ " on " ++ typeName ++ "."
  | .setPropertyOfNil name =>
      "Cannot set property " ++ quoted name ++ " of nil."
  | .setPropertyOn typeName =>
      "Only instances have fields, not " ++ typeName ++ "."
  | .positionType typeName =>
      "Index must be a number, got " ++ typeName ++ "."
  | .positionValue => "Index must be a non-negative integer."
  | .positionBound position length =>
      "Index " ++ toString position ++ " out of bounds for length " ++ toString length ++ "."
  | .elementOfNil => "Cannot index nil."
  | .elementOn typeName =>
      "Only arrays and strings can be indexed, not " ++ typeName ++ "."
  | .stringElement => "Strings are immutable."
  | .setElementOn typeName =>
      "Only arrays support index assignment, not " ++ typeName ++ "."
  | .printFailed text => "Failed to print: " ++ text
  | .readFailed text => "Failed to read input: " ++ text
  | .lengthOf typeName =>
      "len() expects a string or an array, got " ++ typeName ++ "."
  | .resourceName typeName =>
      "file_exists() expects a string, got " ++ typeName ++ "."

end Cause

/- A cause with its place. -/
structure Fault where
  cause : Cause
  line : Nat
  file : String
  deriving DecidableEq, Repr

namespace Fault

def atToken (token : Token) (cause : Cause) : Fault where
  cause := cause
  line := token.line
  file := token.file

def diagnostic (fault : Fault) : Diagnostic := .runtime fault.line fault.file fault.cause.message

end Fault

end Eval

end Scriptlet
