import Scriptlet.Diagnostic
import Scriptlet.Tree.Basic

/-
  Grammar rules as steps over a cursor, and their faults.

  Key declarations include:
    * `Grammar.Cause`
    * `Grammar.Fault`
    * `Grammar.Cursor`
    * `Grammar.Outcome`
    * `Grammar.Rule`
    * `Grammar.recovering`

  A rule consumes tokens from the front.  It ends with a
  tree, or with a fault at the place where it stopped.  A
  rule that loops or nests has a budget, and an outcome of
  its own tells that the budget ran out.
-/

namespace Scriptlet

namespace Grammar

/- What the parser missed or met out of place. -/
inductive Cause where
  | className
  | superclassName
  | classBodyStart
  | classBodyEnd
  | functionName
  | functionParen
  | tooManyParameters
  | parameterName
  | parametersEnd
  | functionBodyStart
  | variableName
  | declarationEnd
  | reservedWord
  | forParen
  | conditionEnd
  | clausesEnd
  | printEnd
  | expressionEnd
  | ifParen
  | ifConditionEnd
  | whileParen
  | whileConditionEnd
  | breakEnd
  | returnEnd
  | blockEnd
  | assignmentTarget
  | incrementTarget
  | propertyName
  | indexEnd
  | argumentsEnd
  | tooManyArguments
  | superDot
  | superMethodName
  | groupEnd
  | arrayEnd
  | literalParen
  | expression
  | endOfExpression
  deriving DecidableEq, Repr

namespace Cause

def message : Cause → String
  | .className => "Expect class name."
  | .superclassName => "Expect superclass name."
  | .classBodyStart => "Expect '\x7b' before class body."
  | .classBodyEnd => "Expect '\x7d' after class body."
  | .functionName => "Expect function name."
  | .functionParen => "Expect '(' after function name."
  | .tooManyParameters =>
      "Can't have more than 255 parameters."
  | .parameterName => "Expect parameter name."
  | .parametersEnd => "Expect ')' after parameters."
  | .functionBodyStart =>
      "Expect '\x7b' before function body."
  | .variableName => "Expect variable name."
  | .declarationEnd =>
      "Expect ';' after variable declaration."
  | .reservedWord => "Reserved word cannot be used yet."
  | .forParen => "Expect '(' after 'for'."
  | .conditionEnd => "Expect ';' after loop condition."
  | .clausesEnd => "Expect ')' after for clauses."
  | .printEnd => "Expect ';' after value."
  | .expressionEnd => "Expect ';' after expression."
  | .ifParen => "Expect '(' after 'if'."
  | .ifConditionEnd => "Expect ')' after if condition."
  | .whileParen => "Expect '(' after 'while'."
  | .whileConditionEnd => "Expect ')' after condition."
  | .breakEnd => "Expect ';' after 'break'."
  | .returnEnd => "Expect ';' after return value."
  | .blockEnd => "Expect '\x7d' after block."
  | .assignmentTarget => "Invalid assignment target."
  | .incrementTarget => "Invalid increment target."
  | .propertyName => "Expect property name after '.'."
  | .indexEnd => "Expect ']' after index."
  | .argumentsEnd => "Expect ')' after arguments."
  | .tooManyArguments =>
      "Can't have more than 255 arguments."
  | .superDot => "Expect '.' after 'super'."
  | .superMethodName => "Expect superclass method name."
  | .groupEnd => "Expect ')' after expression."
  | .arrayEnd => "Expect ']' after array elements."
  | .literalParen => "Expect '(' after 'fn'."
  | .expression => "Expect expression."
  | .endOfExpression => "Expect end of expression."

end Cause

/- A cause at the token where it was noticed. -/
structure Fault where
  cause : Cause
  token : Token
  deriving DecidableEq, Repr

def Fault.diagnostic (fault : Fault) : Diagnostic :=
  .atToken .grammar fault.token fault.cause.message

/-
  The tokens still to come, the end-of-file token after
  them, the next node number and the faults recorded so far.
-/
structure Cursor where
  tokens : List Token
  last : Token
  nextId : Nat
  faults : List Fault
  deriving DecidableEq, Repr

/- The token at the cursor. -/
def Cursor.current (c : Cursor) : Token := c.tokens.headD c.last

/- How a rule ends. -/
inductive Outcome (α : Type) where
  | done (value : α) (cursor : Cursor)
  | failed (fault : Fault) (cursor : Cursor)
  | exhausted

/- A rule of the grammar. -/
def Rule (α : Type) : Type := Cursor → Outcome α

namespace Rule

@[always_inline, inline]
protected def pure {α : Type} (value : α) : Rule α := fun c => .done value c

@[always_inline, inline]
protected def bind {α β : Type} (rule : Rule α) (next : α → Rule β) : Rule β :=
  fun c =>
    match rule c with
    | .done value c' => next value c'
    | .failed fault c' => .failed fault c'
    | .exhausted => .exhausted

@[always_inline]
instance : Monad Rule where
  pure := Rule.pure
  bind := Rule.bind

end Rule

/- Stop because the budget ran out. -/
def exhausted {α : Type} : Rule α := fun _ => .exhausted

/- Stop with a fault at a token. -/
def failAt {α : Type} (token : Token) (cause : Cause) : Rule α := fun c => .failed ⟨cause, token⟩ c

/- The token at the cursor, left there. -/
def peek : Rule Token := fun c => .done c.current c

/- Step over one token, if there is one. -/
def skip : Rule Unit := fun c => .done () { c with tokens := c.tokens.tail }

/- Are all tokens consumed? -/
def atEnd : Rule Bool := fun c => .done c.tokens.isEmpty c

/- Is the next token of this kind? -/
def sees (kind : Token.Kind) : Rule Bool :=
  fun c =>
    match c.tokens with
    | [] => .done false c
    | token :: _ => .done (token.kind = kind) c

/- Consume the next token if its kind passes the test. -/
def acceptIf (test : Token.Kind → Bool) : Rule (Option Token) :=
  fun c =>
    match c.tokens with
    | [] => .done none c
    | token :: others =>
        if test token.kind then
          .done (some token) { c with tokens := others }
        else .done none c

/- Consume the next token if it is of this kind. -/
def accept (kind : Token.Kind) : Rule (Option Token) := acceptIf fun k => k = kind

def acceptSymbol (s : Symbol) : Rule (Option Token) := accept (.symbol s)

def acceptWord (k : Keyword) : Rule (Option Token) := accept (.keyword k)

/- Consume a token of this kind or fail at what is there. -/
def expect (kind : Token.Kind) (cause : Cause) : Rule Token :=
  fun c =>
    match c.tokens with
    | [] => .failed ⟨cause, c.last⟩ c
    | token :: others =>
        if token.kind = kind then
          .done token { c with tokens := others }
        else .failed ⟨cause, token⟩ c

def expectSymbol (s : Symbol) (cause : Cause) : Rule Token := expect (.symbol s) cause

def expectName (cause : Cause) : Rule Token := expect .identifier cause

/- A node number that no node has yet. -/
def freshId : Rule Nat := fun c => .done c.nextId { c with nextId := c.nextId + 1 }

/- Keywords that start a statement or declaration. -/
def startsStatement : Token.Kind → Bool
  | .keyword .classWord => true
  | .keyword .fnWord => true
  | .keyword .letWord => true
  | .keyword .forWord => true
  | .keyword .ifWord => true
  | .keyword .whileWord => true
  | .keyword .loopWord => true
  | .keyword .breakWord => true
  | .keyword .printWord => true
  | .keyword .returnWord => true
  | _ => false

/-
  Skip to a statement boundary: after a semicolon, or before
  a keyword that starts a statement.
-/
def skipAfter (previous : Token) : List Token → List Token
  | [] => []
  | token :: others =>
      if previous.kind = .symbol .semicolon || startsStatement token.kind then
        token :: others
      else skipAfter token others

/- Drop the token at the fault, then skip to a boundary. -/
def resync : List Token → List Token
  | [] => []
  | token :: others => skipAfter token others

/- Record a fault and go on at the next boundary. -/
def recovering {α : Type} (rule : Rule α) : Rule (Option α) :=
  fun c =>
    match rule c with
    | .done value c' => .done (some value) c'
    | .failed fault c' =>
        .done none
          { c' with
            tokens := resync c'.tokens
            faults := c'.faults ++ [fault] }
    | .exhausted => .exhausted

/- The most parameters, arguments or elements in a list. -/
def listLimit : Nat := 255

/-
  One or more items with commas between them, when `count`
  items precede them.
-/
def commaListFrom {α : Type} (tooMany : Cause) (item : Rule α) :
    Nat → Nat → Rule (List α)
  | 0, _ => exhausted
  | budget + 1, count => do
      if listLimit ≤ count then
        failAt (← peek) tooMany
      else
        let first ← item
        match ← acceptSymbol .comma with
        | none => return [first]
        | some _ =>
            let others ← commaListFrom tooMany item budget (count + 1)
            return first :: others

/- Items with commas between them, none before `close`. -/
def commaList {α : Type} (tooMany : Cause) (budget : Nat) (close : Symbol)
    (item : Rule α) : Rule (List α) := do
  if ← sees (.symbol close) then return []
  else commaListFrom tooMany item budget 0

end Grammar

end Scriptlet
