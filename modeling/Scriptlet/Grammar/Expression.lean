import Scriptlet.Grammar.Rule

/-
  The rules for expressions.

  Key declarations include:
    * `Grammar.Rules`
    * `Grammar.primary`
    * `Grammar.levels`
    * `Grammar.assignment`

  A rule takes the rules of the phrases nested inside it as
  an argument, so that nesting is tied together in one place.
-/

namespace Scriptlet

namespace Grammar

/-
  The rules whose phrases nest in each other.  A declaration
  that fails is recorded and leaves no statement.
-/
structure Rules where
  expression : Rule Expr
  statement : Rule Stmt
  declaration : Rule (Option Stmt)

/-
  Declarations up to the end or to a token that `stops`.
-/
def declarations (stops : Token → Bool) (declaration : Rule (Option Stmt)) :
    Nat → Rule (List Stmt)
  | 0 => exhausted
  | budget + 1 => do
      if (← atEnd) || stops (← peek) then return []
      else
        let first ← declaration
        let others ← declarations stops declaration budget
        return first.toList ++ others

def closesBlock (token : Token) : Bool := token.kind = .symbol .rightBrace

/- A block behind its opening brace. -/
def block (inner : Rules) (budget : Nat) :
    Rule (List Stmt) := do
  let body ← declarations closesBlock inner.declaration budget
  let _ ← expectSymbol .rightBrace .blockEnd
  return body

/- A function behind the parenthesis of its parameters. -/
def functionRest (inner : Rules) (budget : Nat) (name : Option Token)
    (keyword : Token) : Rule Function := do
  let params ← commaList .tooManyParameters budget .rightParen (expectName .parameterName)
  let _ ← expectSymbol .rightParen .parametersEnd
  let _ ← expectSymbol .leftBrace .functionBodyStart
  let body ← block inner budget
  return .mk name keyword params body

/- A superclass method behind the word `super`. -/
def superRest (keyword : Token) : Rule Expr := do
  let _ ← expectSymbol .dot .superDot
  let method ← expectName .superMethodName
  let id ← freshId
  return .superMethod id keyword method

/- A grouped expression behind its parenthesis. -/
def groupRest (inner : Rules) : Rule Expr := do
  let expr ← inner.expression
  let _ ← expectSymbol .rightParen .groupEnd
  return .group expr

/- An array behind its opening bracket. -/
def arrayRest (inner : Rules) (budget : Nat) :
    Rule Expr := do
  let elements ← commaList .tooManyArguments budget .rightSquare inner.expression
  let bracket ← expectSymbol .rightSquare .arrayEnd
  return .array bracket elements

/- A function literal behind the word `fn`. -/
def literalRest (inner : Rules) (budget : Nat) (keyword : Token) : Rule Expr := do
  let _ ← expectSymbol .leftParen .literalParen
  let f ← functionRest inner budget none keyword
  return .function f

def primary (inner : Rules) (budget : Nat) : Rule Expr := do
  let token ← peek
  match token.kind with
  | .keyword .falseWord =>
      skip
      return .literal (.bool false)
  | .keyword .trueWord =>
      skip
      return .literal (.bool true)
  | .keyword .nilWord =>
      skip
      return .literal .nil
  | .number value =>
      skip
      return .literal (.number value)
  | .string text =>
      skip
      return .literal (.string text)
  | .keyword .thisWord =>
      skip
      let id ← freshId
      return .self id token
  | .keyword .superWord =>
      skip
      superRest token
  | .identifier =>
      skip
      let id ← freshId
      return .name id token
  | .symbol .leftParen =>
      skip
      groupRest inner
  | .symbol .leftSquare =>
      skip
      arrayRest inner budget
  | .keyword .fnWord =>
      skip
      literalRest inner budget token
  | _ => failAt token .expression

/- The rest of a call behind its parenthesis. -/
def callRest (inner : Rules) (budget : Nat) (callee : Expr) : Rule Expr := do
  let arguments ← commaList .tooManyArguments budget .rightParen inner.expression
  let paren ← expectSymbol .rightParen .argumentsEnd
  return .call callee paren arguments

/- The rest of a property behind its dot. -/
def propertyRest (object : Expr) : Rule Expr := do
  let name ← expectName .propertyName
  return .get object name

/- The rest of an element behind its bracket. -/
def elementRest (inner : Rules) (object : Expr) :
    Rule Expr := do
  let position ← inner.expression
  let bracket ← expectSymbol .rightSquare .indexEnd
  return .index object bracket position

/- Calls, properties and elements of what precedes them. -/
def trailers (inner : Rules) : Nat → Expr → Rule Expr
  | 0, _ => exhausted
  | budget + 1, expr => do
      match (← peek).kind with
      | .symbol .leftParen =>
          skip
          trailers inner budget (← callRest inner budget expr)
      | .symbol .dot =>
          skip
          trailers inner budget (← propertyRest expr)
      | .symbol .leftSquare =>
          skip
          trailers inner budget (← elementRest inner expr)
      | _ => return expr

def isSign : Token.Kind → Bool
  | .symbol .bang => true
  | .symbol .minus => true
  | _ => false

def isStep : Token.Kind → Bool
  | .symbol .plusPlus => true
  | .symbol .minusMinus => true
  | _ => false

/- A step operator on a target that can be assigned to. -/
def stepOn (target : Expr) (operator : Token) (before : Bool) : Rule Expr :=
  if target.isAssignable then
    return .increment target operator before
  else failAt operator .incrementTarget

/- A primary expression with what follows it. -/
def operand (inner : Rules) (budget : Nat) : Rule Expr := do
  let expr ← trailers inner budget (← primary inner budget)
  match ← acceptIf isStep with
  | some operator => stepOn expr operator false
  | none => return expr

/- Signs and steps before an operand. -/
def unary (operand : Rule Expr) : Nat → Rule Expr
  | 0 => exhausted
  | budget + 1 => do
      match ← acceptIf isSign with
      | some operator =>
          let expr ← unary operand budget
          return .unary operator expr
      | none =>
          match ← acceptIf isStep with
          | some operator =>
              let target ← unary operand budget
              stepOn target operator true
          | none => operand

/- Operators that bind equally, and the node they build. -/
structure Level where
  operators : List Token.Kind
  node : Expr → Token → Expr → Expr

/- Binary operators from the loosest level to the tightest. -/
def levels : List Level :=
  [⟨[.keyword .orWord], .logical⟩, ⟨[.keyword .andWord], .logical⟩,
   ⟨[.symbol .bangEqual, .symbol .equalEqual], .binary⟩, ⟨[.symbol .greater, .symbol .greaterEqual,
      .symbol .less, .symbol .lessEqual], .binary⟩, ⟨[.symbol .minus, .symbol .plus], .binary⟩,
   ⟨[.symbol .star, .symbol .slash], .binary⟩]

/- More operands of one level, grouped to the left. -/
def chain (level : Level) (operand : Rule Expr) :
    Nat → Expr → Rule Expr
  | 0, _ => exhausted
  | budget + 1, left => do
      match ← acceptIf (level.operators.contains ·) with
      | some operator =>
          let right ← operand
          chain level operand budget (level.node left operator right)
      | none => return left

/- Operands of one level. -/
def chained (budget : Nat) (level : Level) (operand : Rule Expr) : Rule Expr := do
  let first ← operand
  chain level operand budget first

/- All binary levels over the unary operators. -/
def binary (inner : Rules) (budget : Nat) : Rule Expr :=
  levels.foldr (chained budget) (unary (operand inner budget) budget)

def isCompound : Token.Kind → Bool
  | .symbol .plusEqual => true
  | .symbol .minusEqual => true
  | .symbol .starEqual => true
  | .symbol .slashEqual => true
  | _ => false

/- The node that assigns a value to a target. -/
def assignTo (target : Expr) (equals : Token) (value : Expr) : Rule Expr :=
  match target with
  | .name _ name => do
      let id ← freshId
      return .assign id name value
  | .get object name => return .set object name value
  | .index object bracket position =>
      return .indexSet object bracket position value
  | _ => failAt equals .assignmentTarget

/- The node that updates a target. -/
def updateOf (target : Expr) (operator : Token) (value : Expr) : Rule Expr :=
  if target.isAssignable then
    return .compound target operator value
  else failAt operator .assignmentTarget

/- Assignments group to the right. -/
def assignment (inner : Rules) (budget : Nat) :
    Rule Expr := do
  let target ← binary inner budget
  match ← acceptSymbol .equal with
  | some equals =>
      let value ← inner.expression
      assignTo target equals value
  | none =>
      match ← acceptIf isCompound with
      | some operator =>
          let value ← inner.expression
          updateOf target operator value
      | none => return target

end Grammar

end Scriptlet
