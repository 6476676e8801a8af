import Scriptlet.Grammar.Expression

/-
  The rules for statements, and parsing token lists.

  Key declarations include:
    * `Grammar.statement`
    * `Grammar.declaration`
    * `Grammar.rules`
    * `Grammar.parseProgram`
    * `Grammar.parseExpression`

  Loops of the forms `for` and `loop` become `while` loops.
  Every nested phrase starts behind a token of the phrase
  around it, so a budget above the number of tokens is never
  used up.
-/

namespace Scriptlet

namespace Grammar

/- A named function, from its name on. -/
def namedFunction (inner : Rules) (budget : Nat) :
    Rule Function := do
  let name ← expectName .functionName
  let _ ← expectSymbol .leftParen .functionParen
  functionRest inner budget (some name) name

/- Methods up to a closing brace or the end. -/
def methods (inner : Rules) : Nat → Rule (List Function)
  | 0 => exhausted
  | budget + 1 => do
      if (← atEnd) || (← sees (.symbol .rightBrace)) then
        return []
      else
        let first ← namedFunction inner budget
        let others ← methods inner budget
        return first :: others

/- The superclass of a class, if it names one. -/
def superclass : Rule (Option Expr) := do
  match ← acceptSymbol .less with
  | none => return none
  | some _ =>
      let name ← expectName .superclassName
      let id ← freshId
      return some (.name id name)

/- A class behind its keyword. -/
def classRest (inner : Rules) (budget : Nat) :
    Rule Stmt := do
  let name ← expectName .className
  let parent ← superclass
  let _ ← expectSymbol .leftBrace .classBodyStart
  let members ← methods inner budget
  let _ ← expectSymbol .rightBrace .classBodyEnd
  return .classDecl name parent members

def isBinding : Token.Kind → Bool
  | .symbol .equal => true
  | .symbol .arrow => true
  | _ => false

/- A variable declaration behind its keyword. -/
def letRest (expression : Rule Expr) : Rule Stmt := do
  let name ← expectName .variableName
  match ← acceptIf isBinding with
  | some _ =>
      let value ← expression
      let _ ← expectSymbol .semicolon .declarationEnd
      return .letDecl name (some value)
  | none =>
      let _ ← expectSymbol .semicolon .declarationEnd
      return .letDecl name none

def expressionStatement (expression : Rule Expr) :
    Rule Stmt := do
  let expr ← expression
  let _ ← expectSymbol .semicolon .expressionEnd
  return .expression expr

def printRest (expression : Rule Expr) (keyword : Token) : Rule Stmt := do
  let value ← expression
  let _ ← expectSymbol .semicolon .printEnd
  return .print keyword value

def breakRest (keyword : Token) : Rule Stmt := do
  let _ ← expectSymbol .semicolon .breakEnd
  return .breakLoop keyword

/- An expression unless `kind` comes next. -/
def unlessSees (kind : Token.Kind) (expression : Rule Expr) : Rule (Option Expr) := do
  if ← sees kind then return none
  else
    let expr ← expression
    return some expr

def returnRest (expression : Rule Expr) (keyword : Token) : Rule Stmt := do
  let value ← unlessSees (.symbol .semicolon) expression
  let _ ← expectSymbol .semicolon .returnEnd
  return .returnValue keyword value

def ifRest (inner : Rules) (expression : Rule Expr) :
    Rule Stmt := do
  let _ ← expectSymbol .leftParen .ifParen
  let condition ← expression
  let _ ← expectSymbol .rightParen .ifConditionEnd
  let thenBranch ← inner.statement
  match ← acceptWord .elseWord with
  | some _ =>
      let elseBranch ← inner.statement
      return .conditional condition thenBranch (some elseBranch)
  | none => return .conditional condition thenBranch none

def whileRest (inner : Rules) (expression : Rule Expr) :
    Rule Stmt := do
  let _ ← expectSymbol .leftParen .whileParen
  let condition ← expression
  let _ ← expectSymbol .rightParen .whileConditionEnd
  let body ← inner.statement
  return .whileLoop condition body

def loopRest (inner : Rules) : Rule Stmt := do
  let body ← inner.statement
  return .whileLoop .always body

/-
  The loop that a `for` statement stands for: the first
  clause once, then as long as the condition holds the body
  and the last clause.
-/
def forLoop (first : Option Stmt) (condition : Option Expr) (last : Option Expr)
    (body : Stmt) : Stmt :=
  let round :=
    match last with
    | some expr => .block [body, .expression expr]
    | none => body
  let loop := .whileLoop (condition.getD .always) round
  match first with
  | some stmt => .block [stmt, loop]
  | none => loop

/- The first clause of a `for` statement, semicolon included. -/
def firstClause (expression : Rule Expr) :
    Rule (Option Stmt) := do
  match ← acceptSymbol .semicolon with
  | some _ => return none
  | none =>
      match ← acceptWord .letWord with
      | some _ =>
          let stmt ← letRest expression
          return some stmt
      | none =>
          let stmt ← expressionStatement expression
          return some stmt

def forRest (inner : Rules) (expression : Rule Expr) :
    Rule Stmt := do
  let _ ← expectSymbol .leftParen .forParen
  let first ← firstClause expression
  let condition ← unlessSees (.symbol .semicolon) expression
  let _ ← expectSymbol .semicolon .conditionEnd
  let last ← unlessSees (.symbol .rightParen) expression
  let _ ← expectSymbol .rightParen .clausesEnd
  let body ← inner.statement
  return forLoop first condition last body

def statement (inner : Rules) (budget : Nat) (expression : Rule Expr) : Rule Stmt := do
  let token ← peek
  match token.kind with
  | .keyword .forWord =>
      skip
      forRest inner expression
  | .keyword .ifWord =>
      skip
      ifRest inner expression
  | .keyword .whileWord =>
      skip
      whileRest inner expression
  | .keyword .loopWord =>
      skip
      loopRest inner
  | .keyword .breakWord =>
      skip
      breakRest token
  | .keyword .returnWord =>
      skip
      returnRest expression token
  | .symbol .leftBrace =>
      skip
      let body ← block inner budget
      return .block body
  | .keyword .printWord =>
      skip
      printRest expression token
  | .keyword .funWord =>
      skip
      failAt token .reservedWord
  | _ => expressionStatement expression

/- Does a function declaration start here? -/
def seesFunction : Rule Bool :=
  fun c =>
    match c.tokens with
    | first :: second :: _ =>
        .done
          (first.kind = .keyword .fnWord && second.kind = .identifier) c
    | _ => .done false c

/- A declaration or statement that may fail. -/
def declared (inner : Rules) (budget : Nat) (expression : Rule Expr)
    (statement : Rule Stmt) : Rule Stmt := do
  match ← acceptWord .classWord with
  | some _ => classRest inner budget
  | none =>
      if ← seesFunction then
        skip
        let f ← namedFunction inner budget
        return .functionDecl f
      else
        match ← acceptWord .letWord with
        | some _ => letRest expression
        | none => statement

/- A declaration or statement, with recovery. -/
def declaration (inner : Rules) (budget : Nat) (expression : Rule Expr)
    (statement : Rule Stmt) : Rule (Option Stmt) :=
  recovering (declared inner budget expression statement)

/- The rules for phrases that fit a budget. -/
def rules : Nat → Rules
  | 0 => ⟨exhausted, exhausted, exhausted⟩
  | budget + 1 =>
      let inner := rules budget
      let expression := assignment inner budget
      let statement := statement inner budget expression
      ⟨expression, statement, declaration inner budget expression statement⟩

/-
  What parsing gives: a tree, the next node number and the
  faults in order.
-/
structure Parsed (α : Type) where
  value : α
  nextId : Nat
  faults : List Fault

/-
  A cursor at the first of the tokens.  The list has to end
  with an end-of-file token; the first such token ends it.
-/
def Cursor.start? (tokens : List Token) (firstId : Nat) : Option Cursor :=
  let isLast (token : Token) : Bool := token.kind = .endOfFile
  match tokens.getLast?, tokens.find? isLast with
  | some final, some last =>
      if isLast final then
        some
          { tokens := tokens.takeWhile (!isLast ·)
            last := last
            nextId := firstId
            faults := [] }
      else none
  | _, _ => none

/- A budget that suffices for the tokens of a cursor. -/
def Cursor.budget (c : Cursor) : Nat := c.tokens.length + 2

/- A whole program; what fails is left out. -/
def program (budget : Nat) : Rule (List Stmt) :=
  declarations (fun _ => false) (rules budget).declaration budget

/-
  Parse a program.  A list without end-of-file token is an
  empty program.
-/
def parseProgram (tokens : List Token) (firstId : Nat) : Parsed (List Stmt) :=
  match Cursor.start? tokens firstId with
  | none => ⟨[], firstId, []⟩
  | some c =>
      match program c.budget c with
      | .done body c' => ⟨body, c'.nextId, c'.faults⟩
      | .failed fault c' =>
          ⟨[], c'.nextId, c'.faults ++ [fault]⟩
      | .exhausted => ⟨[], firstId, []⟩

/- An expression that leaves no token over. -/
def wholeExpression (budget : Nat) : Rule Expr := do
  let expr ← (rules budget).expression
  if ← atEnd then return expr
  else failAt (← peek) .endOfExpression

/- Parse a single expression. -/
def parseExpression (tokens : List Token) (firstId : Nat) : Parsed (Option Expr) :=
  match Cursor.start? tokens firstId with
  | none => ⟨none, firstId, []⟩
  | some c =>
      match wholeExpression c.budget c with
      | .done expr c' => ⟨some expr, c'.nextId, c'.faults⟩
      | .failed fault c' =>
          ⟨none, c'.nextId, c'.faults ++ [fault]⟩
      | .exhausted => ⟨none, firstId, []⟩

end Grammar

end Scriptlet
