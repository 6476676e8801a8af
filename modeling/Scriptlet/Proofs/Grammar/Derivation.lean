import Scriptlet.Grammar.Parse

/-
  The grammar of the language as a relation.

  Key declarations include:
    * `Grammar.Phrase`
    * `Grammar.Trailer`
    * `Grammar.Derives`

  A derivation gives a list of tokens a tree:

    program     → declaration*
    declaration → classDecl | fnDecl | letDecl | statement
    classDecl   → "class" IDENT ( "<" IDENT )?
                  "{" function* "}"
    fnDecl      → "fn" function
    function    → IDENT "(" parameters? ")" block
    letDecl     → "let" IDENT
                  ( ( "=" | "->" ) expression )? ";"
    statement   → exprStmt | printStmt | ifStmt | whileStmt
                | loopStmt | forStmt | breakStmt
                | returnStmt | block
    forStmt     → "for" "(" ( letDecl | exprStmt | ";" )
                  expression? ";" expression? ")" statement
    block       → "{" declaration* "}"
    expression  → target ( "=" | "+=" | … ) expression
                | binary
    binary      → operand levels, grouped to the left
    unary       → ( "!" | "-" | "++" | "--" ) unary
                | operand
    operand     → call ( "++" | "--" )?
    call        → primary trailer*

  The targets of assignments and steps are variables,
  properties and elements.  Lists have at most `listLimit`
  members.  A statement is open if it ends with an `if` that
  an `else` could still join; what stands before an `else` is
  not open.

  An expression whose tree can be assigned to is a name, or a
  call followed by a property or an element:
    * `Grammar.Derives.target_of_binary`
-/

namespace Scriptlet

namespace Grammar

/- What may follow a primary expression. -/
inductive Trailer where
  | call (arguments : List Expr) (paren : Token)
  | property (name : Token)
  | element (position : Expr) (bracket : Token)

/- The expression that a trailer makes of what precedes. -/
def Trailer.on (object : Expr) : Trailer → Expr
  | .call arguments paren => .call object paren arguments
  | .property name => .get object name
  | .element position bracket => .index object bracket position

/- An operator with the operand after it. -/
def Level.join (level : Level) (left : Expr) (next : Token × Expr) : Expr :=
  level.node left next.1 next.2

/- The literal that a token stands for. -/
def literalOf? : Token.Kind → Option Literal
  | .keyword .falseWord => some (.bool false)
  | .keyword .trueWord => some (.bool true)
  | .keyword .nilWord => some .nil
  | .number value => some (.number value)
  | .string text => some (.string text)
  | _ => none

/- The nonterminals of the grammar. -/
inductive Phrase where
  | declarations
  | declaration
  | functions
  | function
  | signature (name : Option Token) (keyword : Token)
  | parameters
  | names
  | block
  | letDecl
  | exprStmt
  | clause
  | optional
  | statement (isOpen : Bool)
  | expression
  | target
  | binary (levels : List Level)
  | operands (level : Level) (tighter : List Level)
  | unary
  | operand
  | call
  | trailers
  | primary
  | arguments
  | list

/- What the tokens of a phrase stand for. -/
@[reducible]
def Phrase.Tree : Phrase → Type
  | .declarations => List Stmt
  | .declaration => Stmt
  | .functions => List Function
  | .function => Function
  | .signature _ _ => Function
  | .parameters => List Token
  | .names => List Token
  | .block => List Stmt
  | .letDecl => Stmt
  | .exprStmt => Stmt
  | .clause => Option Stmt
  | .optional => Option Expr
  | .statement _ => Stmt
  | .expression => Expr
  | .target => Expr
  | .binary _ => Expr
  | .operands _ _ => List (Token × Expr)
  | .unary => Expr
  | .operand => Expr
  | .call => Expr
  | .trailers => List Trailer
  | .primary => Expr
  | .arguments => List Expr
  | .list => List Expr

/-
  `Derives gaps phrase n ts tree n'`: the tokens `ts` are a
  phrase with this tree, whose reference nodes take the
  numbers from `n` on and leave `n'` as the next one.  Where
  `gaps` hold, tokens between declarations may be left out.
-/
inductive Derives (gaps : Prop) :
    (phrase : Phrase) → Nat → List Token → phrase.Tree → Nat → Prop where
  -- declarations
  | noDeclaration {n} : Derives gaps .declarations n [] [] n
  | moreDeclarations {n n₁ n₂ ts us first others} : Derives gaps .declaration n ts first n₁ →
      Derives gaps .declarations n₁ us others n₂ →
      Derives gaps .declarations n (ts ++ us) (first :: others) n₂
  | leftOut {n n₁ n₂ us body} (ts : List Token) : gaps → n ≤ n₁ →
      Derives gaps .declarations n₁ us body n₂ → Derives gaps .declarations n (ts ++ us) body n₂
  | rootClass {n n' word name opening ts members closing} :
      word.kind = .keyword .classWord → name.kind = .identifier →
      opening.kind = .symbol .leftBrace → Derives gaps .functions n ts members n' →
      closing.kind = .symbol .rightBrace → Derives gaps .declaration n
        (word :: name :: opening :: (ts ++ [closing])) (.classDecl name none members) n'
  | derivedClass {n n' word name less parent opening ts members closing} :
      word.kind = .keyword .classWord → name.kind = .identifier →
      less.kind = .symbol .less → parent.kind = .identifier → opening.kind = .symbol .leftBrace →
      Derives gaps .functions (n + 1) ts members n' →
      closing.kind = .symbol .rightBrace → Derives gaps .declaration n
        (word :: name :: less :: parent :: opening :: (ts ++ [closing]))
        (.classDecl name (some (.name n parent)) members) n'
  | functionDecl {n n' word ts f} : word.kind = .keyword .fnWord →
      Derives gaps .function n ts f n' →
      Derives gaps .declaration n (word :: ts) (.functionDecl f) n'
  | letVariable {n n' ts stmt} : Derives gaps .letDecl n ts stmt n' →
      Derives gaps .declaration n ts stmt n'
  | plain {n n' ts stmt isOpen} : Derives gaps (.statement isOpen) n ts stmt n' →
      Derives gaps .declaration n ts stmt n'
  -- functions
  | noFunction {n} : Derives gaps .functions n [] [] n
  | moreFunctions {n n₁ n₂ ts us first others} : Derives gaps .function n ts first n₁ →
      Derives gaps .functions n₁ us others n₂ →
      Derives gaps .functions n (ts ++ us) (first :: others) n₂
  | function {n n' name ts f} : name.kind = .identifier →
      Derives gaps (.signature (some name) name) n ts f n' →
      Derives gaps .function n (name :: ts) f n'
  | signature {n n' name keyword opening ts params closing us body} :
      opening.kind = .symbol .leftParen → Derives gaps .parameters n ts params n →
      closing.kind = .symbol .rightParen → Derives gaps .block n us body n' →
      Derives gaps (.signature name keyword) n
        (opening :: (ts ++ closing :: us)) (.mk name keyword params body) n'
  | noParameter {n} : Derives gaps .parameters n [] [] n
  | someParameters {n ts names} : Derives gaps .names n ts names n →
      names.length ≤ listLimit → Derives gaps .parameters n ts names n
  | lastName {n name} : name.kind = .identifier → Derives gaps .names n [name] [name] n
  | moreNames {n name comma ts names} : name.kind = .identifier →
      comma.kind = .symbol .comma → Derives gaps .names n ts names n →
      Derives gaps .names n (name :: comma :: ts) (name :: names) n
  | block {n n' opening ts body closing} : opening.kind = .symbol .leftBrace →
      Derives gaps .declarations n ts body n' → closing.kind = .symbol .rightBrace →
      Derives gaps .block n (opening :: (ts ++ [closing])) body n'
  -- variables and clauses
  | letBare {n word name stop} : word.kind = .keyword .letWord →
      name.kind = .identifier → stop.kind = .symbol .semicolon →
      Derives gaps .letDecl n [word, name, stop] (.letDecl name none) n
  | letValue {n n' word name binding ts value stop} :
      word.kind = .keyword .letWord → name.kind = .identifier →
      isBinding binding.kind = true → Derives gaps .expression n ts value n' →
      stop.kind = .symbol .semicolon → Derives gaps .letDecl n
        (word :: name :: binding :: (ts ++ [stop])) (.letDecl name (some value)) n'
  | exprStmt {n n' ts expr stop} : Derives gaps .expression n ts expr n' →
      stop.kind = .symbol .semicolon → Derives gaps .exprStmt n (ts ++ [stop]) (.expression expr) n'
  | noClause {n stop} : stop.kind = .symbol .semicolon → Derives gaps .clause n [stop] none n
  | letClause {n n' ts stmt} : Derives gaps .letDecl n ts stmt n' →
      Derives gaps .clause n ts (some stmt) n'
  | exprClause {n n' ts stmt} : Derives gaps .exprStmt n ts stmt n' →
      Derives gaps .clause n ts (some stmt) n'
  | absent {n} : Derives gaps .optional n [] none n
  | present {n n' ts expr} : Derives gaps .expression n ts expr n' →
      Derives gaps .optional n ts (some expr) n'
  -- statements
  | expressionStatement {n n' ts stmt} : Derives gaps .exprStmt n ts stmt n' →
      Derives gaps (.statement false) n ts stmt n'
  | printStatement {n n' word ts value stop} : word.kind = .keyword .printWord →
      Derives gaps .expression n ts value n' → stop.kind = .symbol .semicolon →
      Derives gaps (.statement false) n (word :: (ts ++ [stop])) (.print word value) n'
  | ifStatement {n n₁ n₂ word opening ts condition closing us thenBranch isOpen} :
      word.kind = .keyword .ifWord → opening.kind = .symbol .leftParen →
      Derives gaps .expression n ts condition n₁ → closing.kind = .symbol .rightParen →
      Derives gaps (.statement isOpen) n₁ us thenBranch n₂ → Derives gaps (.statement true) n
        (word :: opening :: (ts ++ closing :: us)) (.conditional condition thenBranch none) n₂
  | ifElse
      {n n₁ n₂ n₃ word opening ts condition closing us
        thenBranch other vs elseBranch isOpen} : word.kind = .keyword .ifWord →
      opening.kind = .symbol .leftParen → Derives gaps .expression n ts condition n₁ →
      closing.kind = .symbol .rightParen → Derives gaps (.statement false) n₁ us thenBranch n₂ →
      other.kind = .keyword .elseWord → Derives gaps (.statement isOpen) n₂ vs elseBranch n₃ →
      Derives gaps (.statement isOpen) n (word :: opening :: (ts ++ closing :: (us ++ other :: vs)))
        (.conditional condition thenBranch (some elseBranch)) n₃
  | whileStatement {n n₁ n₂ word opening ts condition closing us body isOpen} :
      word.kind = .keyword .whileWord → opening.kind = .symbol .leftParen →
      Derives gaps .expression n ts condition n₁ → closing.kind = .symbol .rightParen →
      Derives gaps (.statement isOpen) n₁ us body n₂ → Derives gaps (.statement isOpen) n
        (word :: opening :: (ts ++ closing :: us)) (.whileLoop condition body) n₂
  | loopStatement {n n' word ts body isOpen} : word.kind = .keyword .loopWord →
      Derives gaps (.statement isOpen) n ts body n' →
      Derives gaps (.statement isOpen) n (word :: ts) (.whileLoop .always body) n'
  | forStatement
      {n n₁ n₂ n₃ n₄ word opening ts first us condition stop
        vs last closing ws body isOpen} : word.kind = .keyword .forWord →
      opening.kind = .symbol .leftParen → Derives gaps .clause n ts first n₁ →
      Derives gaps .optional n₁ us condition n₂ →
      stop.kind = .symbol .semicolon → Derives gaps .optional n₂ vs last n₃ →
      closing.kind = .symbol .rightParen → Derives gaps (.statement isOpen) n₃ ws body n₄ →
      Derives gaps (.statement isOpen) n
        (word :: opening :: (ts ++ (us ++ stop :: (vs ++ closing :: ws))))
        (forLoop first condition last body) n₄
  | breakStatement {n word stop} : word.kind = .keyword .breakWord →
      stop.kind = .symbol .semicolon →
      Derives gaps (.statement false) n [word, stop] (.breakLoop word) n
  | returnStatement {n n' word ts value stop} :
      word.kind = .keyword .returnWord → Derives gaps .optional n ts value n' →
      stop.kind = .symbol .semicolon → Derives gaps (.statement false) n
        (word :: (ts ++ [stop])) (.returnValue word value) n'
  | blockStatement {n n' ts body} : Derives gaps .block n ts body n' →
      Derives gaps (.statement false) n ts (.block body) n'
  -- assignment
  | assign {n n' name equals ts value} : name.kind = .identifier → equals.kind = .symbol .equal →
      Derives gaps .expression (n + 1) ts value n' →
      Derives gaps .expression n (name :: equals :: ts) (.assign n' name value) (n' + 1)
  | setProperty {n n₁ n₂ ts object dot name equals us value} :
      Derives gaps .call n ts object n₁ → dot.kind = .symbol .dot →
      name.kind = .identifier → equals.kind = .symbol .equal →
      Derives gaps .expression n₁ us value n₂ → Derives gaps .expression n
        (ts ++ dot :: name :: equals :: us) (.set object name value) n₂
  | setElement {n n₁ n₂ n₃ ts object opening us position bracket equals vs value} :
      Derives gaps .call n ts object n₁ → opening.kind = .symbol .leftSquare →
      Derives gaps .expression n₁ us position n₂ →
      bracket.kind = .symbol .rightSquare → equals.kind = .symbol .equal →
      Derives gaps .expression n₂ vs value n₃ → Derives gaps .expression n
        (ts ++ opening :: (us ++ bracket :: equals :: vs))
        (.indexSet object bracket position value) n₃
  | compound {n n₁ n₂ ts target operator us value} :
      Derives gaps .target n ts target n₁ → isCompound operator.kind = true →
      Derives gaps .expression n₁ us value n₂ → Derives gaps .expression n (ts ++ operator :: us)
        (.compound target operator value) n₂
  | unassigned {n n' ts expr} : Derives gaps (.binary levels) n ts expr n' →
      Derives gaps .expression n ts expr n'
  | nameTarget {n name} : name.kind = .identifier →
      Derives gaps .target n [name] (.name n name) (n + 1)
  | propertyTarget {n n' ts object dot name} :
      Derives gaps .call n ts object n' → dot.kind = .symbol .dot →
      name.kind = .identifier → Derives gaps .target n (ts ++ [dot, name]) (.get object name) n'
  | elementTarget {n n₁ n₂ ts object opening us position bracket} :
      Derives gaps .call n ts object n₁ → opening.kind = .symbol .leftSquare →
      Derives gaps .expression n₁ us position n₂ →
      bracket.kind = .symbol .rightSquare → Derives gaps .target n
        (ts ++ opening :: (us ++ [bracket])) (.index object bracket position) n₂
  -- operators
  | tightest {n n' ts expr} : Derives gaps .unary n ts expr n' →
      Derives gaps (.binary []) n ts expr n'
  | chained {n n₁ n₂ level tighter ts first us others} :
      Derives gaps (.binary tighter) n ts first n₁ →
      Derives gaps (.operands level tighter) n₁ us others n₂ →
      Derives gaps (.binary (level :: tighter)) n (ts ++ us) (others.foldl level.join first) n₂
  | noOperand {n level tighter} : Derives gaps (.operands level tighter) n [] [] n
  | moreOperands {n n₁ n₂ level tighter operator ts right us others} :
      level.operators.contains operator.kind = true → Derives gaps (.binary tighter) n ts right n₁ →
      Derives gaps (.operands level tighter) n₁ us others n₂ →
      Derives gaps (.operands level tighter) n
        (operator :: (ts ++ us)) ((operator, right) :: others) n₂
  | sign {n n' operator ts expr} : isSign operator.kind = true →
      Derives gaps .unary n ts expr n' → Derives gaps .unary n (operator :: ts)
        (.unary operator expr) n'
  | stepBefore {n n' operator ts target} : isStep operator.kind = true →
      Derives gaps .unary n ts target n' → target.isAssignable = true →
      Derives gaps .unary n (operator :: ts) (.increment target operator true) n'
  | unsigned {n n' ts expr} : Derives gaps .operand n ts expr n' → Derives gaps .unary n ts expr n'
  | stepAfter {n n' ts target operator} : Derives gaps .call n ts target n' →
      isStep operator.kind = true → target.isAssignable = true →
      Derives gaps .operand n (ts ++ [operator]) (.increment target operator false) n'
  | unstepped {n n' ts expr} : Derives gaps .call n ts expr n' → Derives gaps .operand n ts expr n'
  -- calls, properties and elements
  | call {n n₁ n₂ ts expr us others} : Derives gaps .primary n ts expr n₁ →
      Derives gaps .trailers n₁ us others n₂ → Derives gaps .call n (ts ++ us)
        (others.foldl Trailer.on expr) n₂
  | noTrailer {n} : Derives gaps .trailers n [] [] n
  | callTrailer {n n₁ n₂ opening ts arguments paren us others} : opening.kind = .symbol .leftParen →
      Derives gaps .arguments n ts arguments n₁ → paren.kind = .symbol .rightParen →
      Derives gaps .trailers n₁ us others n₂ → Derives gaps .trailers n
        (opening :: (ts ++ paren :: us)) (.call arguments paren :: others) n₂
  | propertyTrailer {n n' dot name us others} : dot.kind = .symbol .dot →
      name.kind = .identifier → Derives gaps .trailers n us others n' →
      Derives gaps .trailers n (dot :: name :: us) (.property name :: others) n'
  | elementTrailer {n n₁ n₂ opening ts position bracket us others} :
      opening.kind = .symbol .leftSquare → Derives gaps .expression n ts position n₁ →
      bracket.kind = .symbol .rightSquare →
      Derives gaps .trailers n₁ us others n₂ → Derives gaps .trailers n
        (opening :: (ts ++ bracket :: us)) (.element position bracket :: others) n₂
  -- primary expressions
  | literal {n token value} : literalOf? token.kind = some value →
      Derives gaps .primary n [token] (.literal value) n
  | self {n word} : word.kind = .keyword .thisWord →
      Derives gaps .primary n [word] (.self n word) (n + 1)
  | superMethod {n word dot method} : word.kind = .keyword .superWord →
      dot.kind = .symbol .dot → method.kind = .identifier →
      Derives gaps .primary n [word, dot, method] (.superMethod n word method) (n + 1)
  | name {n name} : name.kind = .identifier → Derives gaps .primary n [name] (.name n name) (n + 1)
  | group {n n' opening ts expr closing} : opening.kind = .symbol .leftParen →
      Derives gaps .expression n ts expr n' → closing.kind = .symbol .rightParen →
      Derives gaps .primary n (opening :: (ts ++ [closing])) (.group expr) n'
  | array {n n' opening ts elements bracket} : opening.kind = .symbol .leftSquare →
      Derives gaps .arguments n ts elements n' → bracket.kind = .symbol .rightSquare →
      Derives gaps .primary n (opening :: (ts ++ [bracket])) (.array bracket elements) n'
  | functionLiteral {n n' word ts f} : word.kind = .keyword .fnWord →
      Derives gaps (.signature none word) n ts f n' →
      Derives gaps .primary n (word :: ts) (.function f) n'
  -- lists
  | noArgument {n} : Derives gaps .arguments n [] [] n
  | someArguments {n n' ts items} : Derives gaps .list n ts items n' →
      items.length ≤ listLimit → Derives gaps .arguments n ts items n'
  | lastItem {n n' ts item} : Derives gaps .expression n ts item n' →
      Derives gaps .list n ts [item] n'
  | moreItems {n n₁ n₂ ts item comma us items} :
      Derives gaps .expression n ts item n₁ → comma.kind = .symbol .comma →
      Derives gaps .list n₁ us items n₂ →
      Derives gaps .list n (ts ++ comma :: us) (item :: items) n₂

variable {gaps : Prop} {n : Nat} {ts : List Token}

variable {phrase : Phrase} {tree : phrase.Tree}

/- More may be left out where less may be. -/
theorem Derives.mono {gaps' : Prop} {n' : Nat}
    (h : Derives gaps phrase n ts tree n') (hGaps : gaps → gaps') :
    Derives gaps' phrase n ts tree n' := by
  induction h with
  | leftOut ts hLeft hIds _ ih => exact .leftOut ts (hGaps hLeft) hIds ih
  | printStatement hWord _ hStop ih => exact .printStatement hWord ih hStop
  | breakStatement hWord hStop => exact .breakStatement hWord hStop
  | returnStatement hWord _ hStop ih => exact .returnStatement hWord ih hStop
  | blockStatement _ ih => exact .blockStatement ih
  | letVariable _ ih => exact .letVariable ih
  | plain _ ih => exact .plain ih
  | letClause _ ih => exact .letClause ih
  | exprClause _ ih => exact .exprClause ih
  | _ => constructor <;> assumption

/- What a list of declarations means in front of others. -/
def Phrase.Precedes (gaps : Prop) :
    (phrase : Phrase) → Nat → List Token → phrase.Tree → Nat → Prop
  | .declarations, n, ts, body, n₁ =>
    ∀ {us : List Token} {others : List Stmt} {n₂ : Nat},
      Derives gaps .declarations n₁ us others n₂ →
        Derives gaps .declarations n (ts ++ us) (body ++ others) n₂
  | _, _, _, _, _ => True

variable {n₁ : Nat}

theorem Derives.precedes
    (h : Derives gaps phrase n ts tree n₁) : phrase.Precedes gaps n ts tree n₁ := by
  induction h with
  | noDeclaration => exact fun h' => h'
  | moreDeclarations hFirst _ _ ih =>
    intro us others n₂ h'
    rw [List.append_assoc]
    exact .moreDeclarations hFirst (ih h')
  | leftOut ts hGaps hLe _ ih =>
    intro us others n₂ h'
    rw [List.append_assoc]
    exact .leftOut ts hGaps hLe (ih h')
  | _ => trivial

/- Programs may be read in parts. -/
theorem Derives.append {n₂ : Nat} {us : List Token}
    {body others : List Stmt} (h : Derives gaps .declarations n ts body n₁)
    (h' : Derives gaps .declarations n₁ us others n₂) :
    Derives gaps .declarations n (ts ++ us) (body ++ others)
      n₂ := h.precedes h'

end Grammar

------------------------------------------------------------
-- Targets of Assignments
------------------------------------------------------------

namespace Grammar

variable {gaps : Prop} {n n' : Nat} {ts : List Token} {expr : Expr}

variable {level : Level}

private theorem isAssignable_node (hLevel : level ∈ levels)
    (left : Expr) (operator : Token) (right : Expr) :
    (level.node left operator right).isAssignable = false := by
  simp only [levels, List.mem_cons, List.not_mem_nil, or_false] at hLevel
  rcases hLevel with rfl | rfl | rfl | rfl | rfl | rfl <;> rfl

/- Only a chain of one operand can be assigned to. -/
private theorem nil_of_isAssignable (hLevel : level ∈ levels)
    {first : Expr} {others : List (Token × Expr)}
    (h : (others.foldl level.join first).isAssignable = true) : others = [] := by
  rcases List.eq_nil_or_concat others with hNil | ⟨init, last, hOthers⟩
  · exact hNil
  · rw [hOthers, List.concat_eq_append, List.foldl_append] at h
    have hNode := isAssignable_node hLevel (init.foldl level.join first) last.1 last.2
    rw [List.foldl_cons, List.foldl_nil, Level.join, hNode] at h
    cases h

theorem Derives.unary_of_binary {tighter : List Level}
    (hLevels : ∀ level ∈ tighter, level ∈ levels)
    (h : Derives gaps (.binary tighter) n ts expr n') (hAssignable : expr.isAssignable = true) :
    Derives gaps .unary n ts expr n' := by
  induction tighter generalizing n n' ts expr with
  | nil =>
    cases h with
    | tightest h => exact h
  | cons level tighter ih =>
    cases h with
    | chained hFirst hOthers =>
      have hNil := nil_of_isAssignable (hLevels level (by simp)) hAssignable
      subst hNil
      cases hOthers
      rw [List.append_nil]
      refine ih (fun other hOther => ?_) hFirst hAssignable
      exact hLevels other (List.mem_cons_of_mem _ hOther)

theorem Derives.call_of_unary (h : Derives gaps .unary n ts expr n')
    (hAssignable : expr.isAssignable = true) : Derives gaps .call n ts expr n' := by
  cases h with
  | sign => cases hAssignable
  | stepBefore => cases hAssignable
  | unsigned h =>
    cases h with
    | stepAfter => cases hAssignable
    | unstepped h => exact h

/- The last trailer stands behind the others. -/
private theorem Derives.trailers_concat {init : List Trailer} {last : Trailer}
    (h : Derives gaps .trailers n ts (init ++ [last]) n') :
    ∃ us vs n₁, ts = us ++ vs ∧ Derives gaps .trailers n us init n₁ ∧
      Derives gaps .trailers n₁ vs [last] n' := by
  induction init generalizing n ts with
  | nil => exact ⟨[], ts, n, rfl, .noTrailer, h⟩
  | cons first init ih =>
    cases h with
    | callTrailer hOpening hArguments hParen hOthers =>
      rcases ih hOthers with ⟨us, vs, n₁, rfl, hUs, hVs⟩
      exact ⟨_ :: (_ ++ _ :: us), vs, n₁, by simp, .callTrailer hOpening hArguments hParen hUs, hVs⟩
    | propertyTrailer hDot hName hOthers =>
      rcases ih hOthers with ⟨us, vs, n₁, rfl, hUs, hVs⟩
      exact ⟨_ :: _ :: us, vs, n₁, by simp, .propertyTrailer hDot hName hUs, hVs⟩
    | elementTrailer hOpening hPosition hBracket hOthers =>
      rcases ih hOthers with ⟨us, vs, n₁, rfl, hUs, hVs⟩
      exact ⟨_ :: (_ ++ _ :: us), vs, n₁, by simp,
        .elementTrailer hOpening hPosition hBracket hUs, hVs⟩

theorem Derives.target_of_call (h : Derives gaps .call n ts expr n')
    (hAssignable : expr.isAssignable = true) : Derives gaps .target n ts expr n' := by
  cases h with
  | @call _ n₁ _ ts first us others hFirst hOthers =>
    rcases List.eq_nil_or_concat others with
      rfl | ⟨init, last, rfl⟩
    · cases hOthers
      rw [List.append_nil]
      cases hFirst with
      | name hName => exact .nameTarget hName
      | _ => cases hAssignable
    · rw [List.concat_eq_append] at hOthers hAssignable ⊢
      rw [List.foldl_append] at hAssignable ⊢
      rcases hOthers.trailers_concat with ⟨us, vs, n₁, rfl, hUs, hVs⟩
      have hObject := Derives.call hFirst hUs
      rw [← List.append_assoc]
      cases hVs with
      | callTrailer => cases hAssignable
      | propertyTrailer hDot hName hNone =>
        cases hNone
        exact .propertyTarget hObject hDot hName
      | elementTrailer hOpening hPosition hBracket hNone =>
        cases hNone
        exact .elementTarget hObject hOpening hPosition hBracket

/- What can be assigned to is derived as a target. -/
theorem Derives.target_of_binary (h : Derives gaps (.binary levels) n ts expr n')
    (hAssignable : expr.isAssignable = true) : Derives gaps .target n ts expr n' := by
  have hUnary := Derives.unary_of_binary (fun _ h => h) h hAssignable
  exact (hUnary.call_of_unary hAssignable).target_of_call hAssignable

end Grammar

end Scriptlet
