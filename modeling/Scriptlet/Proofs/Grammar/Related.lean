import Scriptlet.Proofs.Grammar.Bond
import Scriptlet.Proofs.Grammar.Exact
import Scriptlet.Proofs.Grammar.Map

/-
  Every rule keeps every bond.

  Key declarations include:
    * `Grammar.Rules.Relate`
    * `Grammar.Rules.Relate.next`
    * `Grammar.exchange`
    * `Grammar.parseProgram_map`
    * `Grammar.Derives.map`

  One lemma for each rule of the grammar.  One bond says that
  a rule looks at the kinds of tokens only and at no node
  number.  So if every token is exchanged for one of its
  kind and the numbers start later, the rule stops at the
  same place, also where it fails, and its tree and its
  faults have the new tokens and the later numbers.
-/

namespace Scriptlet

namespace Grammar

variable {α β : Type} {g : Token → Token} {k : Nat} {m : Bond g k} {near : List Token} {d : Nat}
variable {budget budget' : Nat}

variable {T : α → α} {item item' : Rule α}

theorem relates_commaListFrom
    (hItem : ∀ {near}, Stays m near d T item item')
    (cause : Cause) (hBudget : Allows m.loose budget budget') (count : Nat) :
    Stays m near d (List.map T) (commaListFrom cause item budget count)
      (commaListFrom cause item' budget' count) := by
  induction hBudget generalizing count near with
  | none => exact .exhausted
  | less h budget => exact .loose h
  | more _ ih =>
    unfold commaListFrom
    split
    · exact .peek fun _ => .failAt _
    · refine hItem.bind fun first => ?_
      refine .accept (.other (by decide)) (fun _ _ => ?_) (.pure [first])
      exact (ih (count + 1)).bind fun others => .pure (first :: others)

theorem relates_commaList
    (hItem : ∀ {near}, Stays m near d T item item')
    (cause : Cause) (hBudget : Allows m.loose budget budget') (close : Symbol) :
    Stays m near d (List.map T) (commaList cause budget close item)
      (commaList cause budget' close item') := by
  refine .sees fun seen => ?_
  cases seen with
  | true => exact .pure []
  | false => exact relates_commaListFrom hItem cause hBudget 0

theorem relates_expectName (cause : Cause) :
    Stays m near d g (expectName cause) (expectName cause) := by
  rw [← bind_pure (expectName cause)]
  exact .expect (.other (by decide)) fun name => .pure name

/- The rules inside two rules. -/
structure Rules.Relate (m : Bond g k) (inner inner' : Rules) : Prop where
  expression {near : List Token} {d : Nat} :
    Stays m near d (Expr.map g k) inner.expression inner'.expression
  statement (hFull : m.full) {near : List Token} {d : Nat} :
    Stays m near d (Stmt.map g k) inner.statement inner'.statement
  declaration (hFull : m.full) {near : List Token} {d : Nat} :
    Stays m near d (Option.map (Stmt.map g k)) inner.declaration inner'.declaration

variable {declaration declaration' : Rule (Option Stmt)}

theorem relates_declarations
    (hDeclaration : Stays m near d (Option.map (Stmt.map g k)) declaration declaration')
    {stops : Token → Bool}
    (hStops : ∀ token, stops (g token) = stops token) (hBudget : Allows m.loose budget budget') :
    Stays m near d (stmtsMap g k) (declarations stops declaration budget)
      (declarations stops declaration' budget') := by
  induction hBudget with
  | none => exact .exhausted
  | less h budget => exact .loose h
  | more _ ih =>
    refine .atEnd fun ends => .peek fun token => Relates.upon ?_ token
    rw [hStops]
    split
    · exact .pure []
    · refine hDeclaration.bind fun first => ih.bind fun others => ?_
      cases first with
      | some stmt => exact .pure (stmt :: others)
      | none => exact .pure others

section

variable {inner inner' : Rules} (hInner : inner.Relate m inner') (hFull : m.full)
variable (hBudget : Allows m.loose budget budget')
include hInner hFull hBudget

/- The brace that ends a block was opened before it. -/
theorem relates_block :
    Relates m near (d + 2) (d + 1) (stmtsMap g k) (block inner budget) (block inner' budget') := by
  have hStops (token : Token) : closesBlock (g token) = closesBlock token := by
    rw [closesBlock, closesBlock, m.kind]
  refine (relates_declarations (hInner.declaration hFull) hStops hBudget).bind fun body => ?_
  exact .expect .right fun _ => .pure body

theorem relates_functionRest (name : Option Token) (keyword : Token) :
    Stays m near d (Function.map g k) (functionRest inner budget name keyword)
      (functionRest inner' budget' (name.map g) (g keyword)) := by
  refine (relates_commaList (relates_expectName _) _ hBudget _).bind fun params => ?_
  refine .expect (.other (by decide)) fun _ => .expect .left fun _ => ?_
  exact (relates_block hInner hFull hBudget).bind fun _ => .pure _

theorem relates_literalRest (keyword : Token) :
    Stays m near d (Expr.map g k) (literalRest inner budget keyword)
      (literalRest inner' budget' (g keyword)) :=
  .expect (.other (by decide)) fun _ =>
    (relates_functionRest hInner hFull hBudget none keyword).bind fun _ => .pure _

omit hFull

theorem relates_expressions (cause : Cause) (close : Symbol) :
    Stays m near d (exprsMap g k) (commaList cause budget close inner.expression)
      (commaList cause budget' close inner'.expression) := by
  rw [exprsMap_eq_map]
  exact relates_commaList hInner.expression cause hBudget close

omit hInner hBudget in
theorem relates_superRest (keyword : Token) :
    Stays m near d (Expr.map g k) (superRest keyword) (superRest (g keyword)) :=
  .expect (.other (by decide)) fun _ =>
    .expect (.other (by decide)) fun _ => .freshId fun _ => .pure _

omit hBudget in
theorem relates_groupRest :
    Stays m near d (Expr.map g k) (groupRest inner) (groupRest inner') :=
  hInner.expression.bind fun _ => .expect (.other (by decide)) fun _ => .pure _

theorem relates_arrayRest :
    Stays m near d (Expr.map g k) (arrayRest inner budget) (arrayRest inner' budget') :=
  (relates_expressions hInner hBudget _ _).bind fun _ =>
    .expect (.other (by decide)) fun _ => .pure _

theorem relates_primary :
    Stays m near d (Expr.map g k) (primary inner budget) (primary inner' budget') := by
  refine .peek fun token => ?_
  rw [m.kind]
  generalize hKind : token.kind = kind
  cases kind with
  | symbol s =>
    cases s with
    | leftParen => exact .skip hKind (.other (by decide)) (relates_groupRest hInner)
    | leftSquare => exact .skip hKind (.other (by decide)) (relates_arrayRest hInner hBudget)
    | _ => exact .failAt _
  | keyword w =>
    cases w with
    | falseWord | trueWord | nilWord => exact .skip hKind (.other (by decide)) (.pure _)
    | thisWord => exact .skip hKind (.other (by decide)) (.freshId fun _ => .pure _)
    | superWord => exact .skip hKind (.other (by decide)) (relates_superRest token)
    | fnWord =>
      exact .inside hKind rfl fun hFull =>
        .skip hKind (.other (by decide)) (relates_literalRest hInner hFull hBudget token)
    | _ => exact .failAt _
  | identifier => exact .skip hKind (.other (by decide)) (.freshId fun _ => .pure _)
  | string _
  | number _ => exact .skip hKind (.other ⟨rfl, rfl, rfl, rfl⟩) (.pure _)
  | endOfFile => exact .failAt _

theorem relates_callRest (callee : Expr) :
    Stays m near d (Expr.map g k) (callRest inner budget callee)
      (callRest inner' budget' (callee.map g k)) :=
  (relates_expressions hInner hBudget _ _).bind fun _ =>
    .expect (.other (by decide)) fun _ => .pure _

omit hInner hBudget in
theorem relates_propertyRest (object : Expr) :
    Stays m near d (Expr.map g k) (propertyRest object)
      (propertyRest (object.map g k)) := .expect (.other (by decide)) fun _ => .pure _

omit hBudget in
theorem relates_elementRest (object : Expr) :
    Stays m near d (Expr.map g k) (elementRest inner object)
      (elementRest inner' (object.map g k)) :=
  hInner.expression.bind fun _ => .expect (.other (by decide)) fun _ => .pure _

theorem relates_trailers (expr : Expr) :
    Stays m near d (Expr.map g k) (trailers inner budget expr)
      (trailers inner' budget' (expr.map g k)) := by
  induction hBudget generalizing expr near with
  | none => exact .exhausted
  | less h budget => exact .loose h
  | more hBudget ih =>
    refine .peek fun token => ?_
    rw [m.kind]
    generalize hKind : token.kind = kind
    cases kind with
    | symbol s =>
      cases s with
      | leftParen =>
        exact .skip hKind (.other (by decide)) ((relates_callRest hInner hBudget expr).bind ih)
      | dot => exact .skip hKind (.other (by decide)) ((relates_propertyRest expr).bind ih)
      | leftSquare =>
        exact .skip hKind (.other (by decide)) ((relates_elementRest hInner expr).bind ih)
      | _ => exact (Relates.pure expr).upon token
    | _ => exact (Relates.pure expr).upon token

variable {operator : Token}

/- A step that fails does so at its operator. -/
omit hInner hBudget in
theorem relates_stepOn (hOperator : operator ∈ near)
    (target : Expr) (before : Bool) :
    Stays m near d (Expr.map g k) (stepOn target operator before)
      (stepOn (target.map g k) (g operator) before) := by
  unfold stepOn
  rw [Expr.isAssignable_map]
  split
  · exact .pure _
  · exact .failAt hOperator _

theorem relates_operand :
    Stays m near d (Expr.map g k) (operand inner budget) (operand inner' budget') := by
  refine (relates_primary hInner hBudget).bind fun first => ?_
  refine (relates_trailers hInner hBudget first).bind fun expr => ?_
  exact .acceptIf (by decide) (fun _ => relates_stepOn List.mem_cons_self expr false) (.pure expr)

variable {operand operand' : Rule Expr}

omit hInner in
theorem relates_unary
    (hOperand : ∀ {near}, Stays m near d (Expr.map g k) operand operand') :
    Stays m near d (Expr.map g k) (unary operand budget) (unary operand' budget') := by
  induction hBudget generalizing near with
  | none => exact .exhausted
  | less h budget => exact .loose h
  | more _ ih =>
    refine .acceptIf (by decide) (fun _ => ih.bind fun _ => .pure _) ?_
    refine .acceptIf (by decide) (fun _ => ?_) hOperand
    exact ih.bind fun target => relates_stepOn List.mem_cons_self target true

omit hInner in
theorem relates_chain {level : Level} (hLevel : level.IsPlain)
    (hTest : Plain (level.operators.contains ·))
    (hOperand : ∀ {near}, Stays m near d (Expr.map g k) operand operand') (left : Expr) :
    Stays m near d (Expr.map g k) (chain level operand budget left)
      (chain level operand' budget' (left.map g k)) := by
  induction hBudget generalizing left near with
  | none => exact .exhausted
  | less h budget => exact .loose h
  | more _ ih =>
    refine .acceptIf hTest (fun operator => ?_) (.pure left)
    refine hOperand.bind fun right => ?_
    have hNode : (level.node left operator right).map g k =
          level.node (left.map g k) (g operator) (right.map g k) := by
      rcases hLevel with hNode | hNode <;> simp only [hNode, Expr.map]
    rw [← hNode]
    exact ih _

omit hInner hBudget in
theorem levels_tests : ∀ level ∈ levels, Plain (level.operators.contains ·) := by
  decide

theorem relates_binary :
    Stays m near d (Expr.map g k) (binary inner budget) (binary inner' budget') := by
  have hLevels := levels_plain
  have hTests := levels_tests
  unfold binary
  generalize levels = all at hLevels hTests
  induction all generalizing near with
  | nil => exact relates_unary hBudget (relates_operand hInner hBudget)
  | cons level others ih =>
    rw [List.forall_mem_cons] at hLevels hTests
    exact (ih hLevels.2 hTests.2).bind fun first =>
      relates_chain hBudget hLevels.1 hTests.1 (ih hLevels.2 hTests.2) first

/- An assignment that fails does so at its operator. -/
omit hInner hBudget in
theorem relates_assignTo {equals : Token} (hEquals : equals ∈ near) (target value : Expr) :
    Stays m near d (Expr.map g k) (assignTo target equals value)
      (assignTo (target.map g k) (g equals) (value.map g k)) := by
  cases target with
  | name _ name => exact .freshId fun _ => .pure _
  | get object name => exact .pure _
  | index object bracket position => exact .pure _
  | _ => exact .failAt hEquals _

omit hInner hBudget in
theorem relates_updateOf (hOperator : operator ∈ near) (target value : Expr) :
    Stays m near d (Expr.map g k) (updateOf target operator value)
      (updateOf (target.map g k) (g operator) (value.map g k)) := by
  unfold updateOf
  rw [Expr.isAssignable_map]
  split
  · exact .pure _
  · exact .failAt hOperator _

theorem relates_assignment :
    Stays m near d (Expr.map g k) (assignment inner budget) (assignment inner' budget') := by
  refine (relates_binary hInner hBudget).bind fun target => ?_
  refine .accept (.other (by decide)) (fun _ _ => ?_) ?_
  · exact hInner.expression.bind (relates_assignTo List.mem_cons_self target)
  · refine .acceptIf (by decide) (fun _ => ?_) (.pure target)
    exact hInner.expression.bind (relates_updateOf List.mem_cons_self target)

include hFull

theorem relates_namedFunction :
    Stays m near d (Function.map g k) (namedFunction inner budget) (namedFunction inner' budget') :=
  .expect (.other (by decide)) fun name =>
    .expect (.other (by decide)) fun _ => relates_functionRest hInner hFull hBudget (some name) name

theorem relates_methods :
    Stays m near d (functionsMap g k) (methods inner budget) (methods inner' budget') := by
  induction hBudget with
  | none => exact .exhausted
  | less h budget => exact .loose h
  | more hBudget ih =>
    refine .atEnd fun ends => .sees fun closes => ?_
    split
    · exact .pure []
    · exact (relates_namedFunction hInner hFull hBudget).bind fun first =>
        ih.bind fun others => .pure (first :: others)

omit hInner hFull hBudget in
theorem relates_superclass :
    Stays m near d (Option.map (Expr.map g k)) superclass superclass :=
  .accept (.other (by decide))
    (fun _ _ => .expect (.other (by decide)) fun name =>
      .freshId fun id => .pure (some (Expr.name id name)))
    (.pure none)

theorem relates_classRest :
    Stays m near d (Stmt.map g k) (classRest inner budget) (classRest inner' budget') := by
  refine .expect (.other (by decide)) fun name => ?_
  refine relates_superclass.bind fun parent => .expect .left fun _ => ?_
  refine (relates_methods hInner hFull hBudget).bind fun members => ?_
  refine .expect .right fun _ => ?_
  cases parent <;> exact .pure _

omit hInner hFull hBudget

variable {expression expression' : Rule Expr}
variable (hExpression : ∀ {near d}, Stays m near d (Expr.map g k) expression expression')
include hExpression

theorem relates_letRest :
    Relates m near (d + 1) (m.ending (d + 1)) (Stmt.map g k)
      (letRest expression) (letRest expression') := by
  refine .expect (.other (by decide)) fun name => ?_
  refine .acceptIf (by decide) (fun _ => ?_) ?_
  · exact hExpression.bind fun _ => .expect .semicolon fun _ => .pure _
  · exact .expect .semicolon fun _ => .pure (Stmt.letDecl name none)

theorem relates_expressionStatement :
    Relates m near (d + 1) (m.ending (d + 1)) (Stmt.map g k)
      (expressionStatement expression) (expressionStatement expression') :=
  hExpression.bind fun _ => .expect .semicolon fun _ => .pure _

theorem relates_unlessSees (kind : Token.Kind) :
    Stays m near d (Option.map (Expr.map g k)) (unlessSees kind expression)
      (unlessSees kind expression') := by
  refine .sees fun seen => ?_
  cases seen with
  | true => exact .pure none
  | false => exact hExpression.bind fun expr => .pure (some expr)

theorem relates_returnRest (keyword : Token) :
    Relates m near (d + 1) (m.ending (d + 1)) (Stmt.map g k)
      (returnRest expression keyword) (returnRest expression' (g keyword)) := by
  refine (relates_unlessSees hExpression _).bind fun value => ?_
  refine .expect .semicolon fun _ => ?_
  cases value <;> exact .pure _

include hInner hFull

theorem relates_ifRest :
    Stays m near d (Stmt.map g k) (ifRest inner expression) (ifRest inner' expression') := by
  refine .expect (.other (by decide)) fun _ => ?_
  refine hExpression.bind fun condition => ?_
  refine .expect (.other (by decide)) fun _ => ?_
  refine (hInner.statement hFull).bind fun thenBranch => ?_
  refine .accept (.other (by decide)) (fun _ _ => ?_) ?_
  · exact (hInner.statement hFull).bind fun _ => .pure _
  · exact .pure (Stmt.conditional condition thenBranch none)

theorem relates_whileRest :
    Stays m near d (Stmt.map g k) (whileRest inner expression) (whileRest inner' expression') := by
  refine .expect (.other (by decide)) fun _ => hExpression.bind fun _ => ?_
  refine .expect (.other (by decide)) fun _ => ?_
  exact (hInner.statement hFull).bind fun _ => .pure _

omit hInner in
theorem relates_firstClause :
    Stays m near d (Option.map (Stmt.map g k)) (firstClause expression)
      (firstClause expression') := by
  refine .accept (m.semicolon hFull) (fun _ _ => .pure none) ?_
  refine .accept (.other (by decide)) (fun _ _ => ?_) ?_
  · exact ((Relates.ending_iff hFull).mp (relates_letRest hExpression)).bind
      fun stmt => .pure (some stmt)
  · exact ((Relates.ending_iff hFull).mp (relates_expressionStatement hExpression)).bind
        fun stmt => .pure (some stmt)

theorem relates_forRest :
    Stays m near d (Stmt.map g k) (forRest inner expression) (forRest inner' expression') := by
  refine .expect (.other (by decide)) fun _ => ?_
  refine (relates_firstClause hFull hExpression).bind fun first => ?_
  refine (relates_unlessSees hExpression _).bind fun condition => ?_
  refine .expect (m.semicolon hFull) fun _ => ?_
  refine (relates_unlessSees hExpression _).bind fun last => ?_
  refine .expect (.other (by decide)) fun _ => ?_
  refine (hInner.statement hFull).bind fun body => ?_
  rw [← map_forLoop]
  exact .pure _

omit hFull
include hBudget

theorem relates_statement :
    Relates m near (d + 1) (m.ending (d + 1)) (Stmt.map g k) (statement inner budget expression)
      (statement inner' budget' expression') := by
  refine .peek fun token => ?_
  rw [m.kind]
  have hOther : Upon m token near (d + 1) (m.ending (d + 1)) (Stmt.map g k)
        (expressionStatement expression) (expressionStatement expression') :=
    (relates_expressionStatement hExpression).upon token
  have hInside {rule rule' : Rule Stmt} {e : Nat} {kind : Token.Kind}
      (hKind : token.kind = kind) (hNests : nests kind = true)
      (hPass : Passing m.ending kind (d + 1) e)
      (hRule : m.full → Relates m (token :: near) e (d + 1) (Stmt.map g k) rule
          rule') : Upon m token near (d + 1) (m.ending (d + 1)) (Stmt.map g k)
        (do skip; rule) (do skip; rule') :=
    .inside hKind hNests fun hFull =>
      .skip hKind hPass ((Relates.ending_iff hFull).mpr (hRule hFull))
  generalize hKind : token.kind = kind
  cases kind with
  | symbol s =>
    cases s with
    | leftBrace =>
      exact hInside hKind rfl .left fun hFull =>
        (relates_block hInner hFull hBudget).bind fun _ => .pure _
    | _ => exact hOther
  | keyword w =>
    cases w with
    | forWord =>
      exact hInside hKind rfl (.other (by decide)) fun hFull =>
        relates_forRest hInner hFull hExpression
    | ifWord =>
      exact hInside hKind rfl (.other (by decide)) fun hFull =>
        relates_ifRest hInner hFull hExpression
    | whileWord =>
      exact hInside hKind rfl (.other (by decide)) fun hFull =>
        relates_whileRest hInner hFull hExpression
    | loopWord =>
      exact hInside hKind rfl (.other (by decide)) fun hFull =>
        (hInner.statement hFull).bind fun _ => .pure _
    | breakWord => exact .skip hKind (.other (by decide)) (.expect .semicolon fun _ => .pure _)
    | returnWord => exact .skip hKind (.other (by decide)) (relates_returnRest hExpression token)
    | printWord =>
      exact .skip hKind (.other (by decide))
        (hExpression.bind fun _ => .expect .semicolon fun _ => .pure _)
    | funWord => exact .skip hKind (.other (by decide)) (.failAt List.mem_cons_self _)
    | _ => exact hOther
  | _ => exact hOther

omit hInner hBudget hExpression in
/- Only behind the word `fn` the second token is looked at. -/
theorem relates_seesFunction {e : Nat} {T : α → β} {next : Bool → Rule α}
    {next' : Bool → Rule β}
    (hTrue : m.full → ∀ token, token.kind = .keyword .fnWord →
        Upon m token near (d + 1) e T (next true) (next' true))
    (hFalse : Relates m near (d + 1) e T (next false) (next' false)) :
    Relates m near (d + 1) e T (seesFunction >>= next) (seesFunction >>= next') := by
  intro c c' hRel
  by_cases hWord : c.current.kind = .keyword .fnWord
  · have hFull : m.full := m.whole hRel (by rw [hWord]; rfl)
    have hTokens := m.tokens hFull hRel
    obtain ⟨seen, hSeen, hSeen'⟩ : ∃ seen, seesFunction c = .done seen c ∧
        seesFunction c' = .done seen c' := by
      unfold seesFunction
      rw [hTokens]
      rcases c.tokens with _ | ⟨first, _ | ⟨second, others⟩⟩
      · exact ⟨false, rfl, rfl⟩
      · exact ⟨false, rfl, rfl⟩
      · exact ⟨_, rfl, by simp [m.kind]⟩
    rw [bind_done hSeen, bind_done hSeen']
    cases seen with
    | true => exact hTrue hFull _ hWord c c' hRel rfl
    | false => exact hFalse c c' hRel
  · have hNone {c : Cursor} (hWord : c.current.kind ≠ .keyword .fnWord) :
        seesFunction c = .done false c := by
      rcases c with ⟨_ | ⟨first, _ | ⟨second, others⟩⟩, _, _, _⟩
      · rfl
      · rfl
      · have hFirst : first.kind ≠ .keyword .fnWord := hWord
        simp [seesFunction, hFirst]
    have hWord' : c'.current.kind ≠ .keyword .fnWord := by
      rw [(m.standing hRel).current, m.kind]
      exact hWord
    rw [bind_done (hNone hWord), bind_done (hNone hWord')]
    exact hFalse c c' hRel

theorem relates_declared {statement statement' : Rule Stmt}
    (hStatement : Relates m near (d + 1) (m.ending (d + 1)) (Stmt.map g k) statement statement') :
    Relates m near (d + 1) (m.ending (d + 1)) (Stmt.map g k)
      (declared inner budget expression statement)
      (declared inner' budget' expression' statement') := by
  refine .accept (.other (by decide)) (fun hNests _ => ?_) ?_
  · exact (Relates.ending_iff (hNests rfl)).mpr (relates_classRest hInner (hNests rfl) hBudget)
  · refine relates_seesFunction (fun hFull token hKind => ?_) ?_
    · exact .skip hKind (.other (by decide)) ((Relates.ending_iff hFull).mpr
        ((relates_namedFunction hInner hFull hBudget).bind fun _ => .pure _))
    · exact .accept (.other (by decide)) (fun _ _ => relates_letRest hExpression) hStatement

end

/- One more level of rules. -/
theorem Rules.Relate.next {inner inner' : Rules} (h : inner.Relate m inner')
    (hBudget : Allows m.loose budget budget')
    (hDeclaration : m.full → ∀ {near d}, Stays m near d (Option.map (Stmt.map g k)) declaration
        declaration') : Rules.Relate m
      ⟨assignment inner budget,
        Grammar.statement inner budget (assignment inner budget), declaration⟩
      ⟨assignment inner' budget', Grammar.statement inner' budget' (assignment inner' budget'),
        declaration'⟩ where
  expression := relates_assignment h hBudget
  statement hFull := (Relates.ending_iff hFull).mp
    (relates_statement h hBudget (relates_assignment h hBudget))
  declaration := hDeclaration

end Grammar

------------------------------------------------------------
-- Exchanged Tokens
------------------------------------------------------------

namespace Grammar

variable {α β : Type}

/- The same place in other tokens, `k` numbers later. -/
def Cursor.map (g : Token → Token) (k : Nat) (c : Cursor) : Cursor :=
  ⟨c.tokens.map g, g c.last, c.nextId + k, c.faults.map (Fault.map g)⟩

variable {g : Token → Token}

section

variable (k : Nat) (hKind : ∀ token, (g token).kind = token.kind)
include hKind

/- The same places in the old tokens and in the new ones. -/
def exchange : Bond g k where
  rel _ _ c c' := c.last.kind = .endOfFile ∧ c' = c.map g k
  lost _ c c' := c.last.kind = .endOfFile ∧ c' = c.map g k
  ending d := d
  loose := False
  full := True
  kind := hKind
  standing := by
    rintro _ _ c _ ⟨hLast, rfl⟩
    exact ⟨List.head?_map, rfl, hLast, rfl⟩
  fresh := by
    rintro _ _ c _ ⟨hLast, rfl⟩
    exact ⟨hLast, by simp only [Cursor.map, Nat.add_right_comm c.nextId 1 k]⟩
  step := by
    rintro _ ts ts' _ _ c _ token ⟨hLast, rfl⟩ hTs hTs' _
    simp only [Cursor.map, hTs, List.map_cons, List.cons.injEq] at hTs'
    exact ⟨hLast, by simp [Cursor.map, hTs'.2]⟩
  forget h := h
  fail h _ := h
  whole _ _ := trivial
  tokens _ h := by rw [h.2, Cursor.map]
  ending_eq _ _ := rfl

omit k in
theorem skipAfter_map (previous : Token) (tokens : List Token) :
    skipAfter (g previous) (tokens.map g) = (skipAfter previous tokens).map g := by
  induction tokens generalizing previous with
  | nil => rfl
  | cons token others ih =>
    simp only [skipAfter, List.map_cons, hKind]
    split
    · rfl
    · exact ih token

theorem relates_recovering {near : List Token} {d : Nat} {T : α → β}
    {rule : Rule α} {rule' : Rule β} (hRule : Relates (exchange k hKind) near d d T rule rule') :
    Relates (exchange k hKind) near d d (Option.map T) (recovering rule) (recovering rule') := by
  intro c c' hRel
  have hMeets := hRule c c' hRel
  unfold recovering
  generalize rule c = outcome, rule' c' = outcome' at hMeets
  cases hMeets with
  | done h => exact .done h
  | @failed fault c₁ _ h =>
    rcases h with ⟨hLast, rfl⟩
    refine .done ⟨hLast, ?_⟩
    rcases c₁ with ⟨_ | ⟨token, others⟩, last, nextId, faults⟩
    · simp [Cursor.map, resync]
    · simp [Cursor.map, resync, skipAfter_map hKind]
  | exhausted => exact .exhausted
  | loose h => exact h.elim

theorem rules_exchange (budget : Nat) :
    (rules budget).Relate (exchange k hKind) (rules budget) := by
  induction budget with
  | zero => exact ⟨.exhausted, fun _ => .exhausted, fun _ => .exhausted⟩
  | succ budget ih =>
    refine ih.next (.refl budget) fun _ => relates_recovering k hKind ?_
    exact relates_declared ih (.refl budget) (relates_assignment ih (.refl budget))
      (relates_statement ih (.refl budget) (relates_assignment ih (.refl budget)))

end

variable {k : Nat} (hKind : ∀ token, (g token).kind = token.kind)
include hKind

def Parsed.map (g : Token → Token) (k : Nat) (T : α → α) (parsed : Parsed α) : Parsed α :=
  ⟨T parsed.value, parsed.nextId + k, parsed.faults.map (Fault.map g)⟩

theorem Cursor.start?_map (tokens : List Token) (n : Nat) :
    Cursor.start? (tokens.map g) (n + k) = (Cursor.start? tokens n).map (Cursor.map g k) := by
  have hIsLast : ∀ token : Token,
      decide ((g token).kind = .endOfFile) =
        decide (token.kind = .endOfFile) :=
    fun token => by rw [hKind]
  simp only [Cursor.start?, List.getLast?_map, List.find?_map,
    List.takeWhile_map, Function.comp_def, hIsLast]
  cases tokens.getLast? with
  | none => rfl
  | some final =>
    cases tokens.find? (fun token =>
        decide (token.kind = .endOfFile)) with
    | none => rfl
    | some last =>
      simp only [Option.map_some, hIsLast]
      split <;> rfl

omit hKind in
theorem Cursor.start?_last {tokens : List Token} {n : Nat} {c : Cursor}
    (h : Cursor.start? tokens n = some c) : c.last.kind = .endOfFile := by
  simp only [Cursor.start?] at h
  split at h
  case h_1 hFind =>
    split at h
    · cases h
      simpa using List.find?_some hFind
    · cases h
  case h_2 => cases h

theorem parseProgram_map (tokens : List Token) (n : Nat) :
    parseProgram (tokens.map g) (n + k) = (parseProgram tokens n).map g k (stmtsMap g k) := by
  unfold parseProgram
  rw [Cursor.start?_map hKind]
  cases hStart : Cursor.start? tokens n with
  | none => rfl
  | some c =>
    have hBudget : (c.map g k).budget = c.budget := by simp [Cursor.budget, Cursor.map]
    have hRule : Relates (exchange k hKind) [] 1 1 (stmtsMap g k)
          (program c.budget) (program c.budget) :=
      relates_declarations ((rules_exchange k hKind c.budget).declaration trivial)
        (fun _ => rfl) (.refl c.budget)
    have hProgram := hRule c _ ⟨Cursor.start?_last hStart, rfl⟩
    simp only [Option.map_some, hBudget]
    generalize program c.budget c = outcome, program c.budget (c.map g k) = outcome' at hProgram
    cases hProgram with
    | done h => simp only [h.2, Parsed.map, Cursor.map]
    | failed h => simp [h.2, Parsed.map, Cursor.map, stmtsMap]
    | exhausted => rfl
    | loose h => exact h.elim

theorem parseExpression_map (tokens : List Token) (n : Nat) :
    parseExpression (tokens.map g) (n + k) = (parseExpression tokens n).map g k
        (Option.map (Expr.map g k)) := by
  unfold parseExpression
  rw [Cursor.start?_map hKind]
  cases hStart : Cursor.start? tokens n with
  | none => rfl
  | some c =>
    have hBudget : (c.map g k).budget = c.budget := by simp [Cursor.budget, Cursor.map]
    have hRule : Relates (exchange k hKind) [] 1 1 (Expr.map g k)
          (wholeExpression c.budget) (wholeExpression c.budget) := by
      refine (rules_exchange k hKind c.budget).expression.bind fun expr => ?_
      refine .atEnd fun ends => ?_
      cases ends with
      | true => exact .pure expr
      | false => exact .peek fun _ => .failAt _
    have hWhole := hRule c _ ⟨Cursor.start?_last hStart, rfl⟩
    simp only [Option.map_some, hBudget]
    generalize wholeExpression c.budget c = outcome,
      wholeExpression c.budget (c.map g k) = outcome' at hWhole
    cases hWhole with
    | done h => simp only [h.2, Parsed.map, Cursor.map, Option.map_some]
    | failed h => simp [h.2, Parsed.map, Cursor.map]
    | exhausted => rfl
    | loose h => exact h.elim

omit hKind

/- The same tokens, numbered later. -/
theorem parseProgram_later (tokens : List Token) (n k : Nat) :
    parseProgram tokens (n + k) = (parseProgram tokens n).map id k (stmtsMap id k) := by
  have hParsed := parseProgram_map (g := id) (fun _ => rfl) tokens n (k := k)
  rw [List.map_id] at hParsed
  exact hParsed

theorem parseExpression_later (tokens : List Token) (n k : Nat) :
    parseExpression tokens (n + k) = (parseExpression tokens n).map id k
        (Option.map (Expr.map id k)) := by
  have hParsed := parseExpression_map (g := id) (fun _ => rfl) tokens n (k := k)
  rw [List.map_id] at hParsed
  exact hParsed

section

variable {n n' : Nat} {ts : List Token} (hTs : ∀ token ∈ ts, token.kind ≠ .endOfFile)
include hKind hTs

theorem kind_map : ∀ token ∈ ts.map g, token.kind ≠ .endOfFile := by
  simp only [List.forall_mem_map, hKind]
  exact hTs

variable {body : List Stmt}

/- The new tokens derive the tree with the new tokens. -/
theorem Derives.map (h : Derives False .declarations n ts body n') (k : Nat) :
    Derives False .declarations (n + k) (ts.map g) (stmtsMap g k body) (n' + k) := by
  have hParsed := parseProgram_map hKind (ts ++ [.endOfFile 0 ""]) n (k := k)
  rw [h.parseProgram_eq rfl hTs, List.map_append, List.map_singleton] at hParsed
  have hDerives := parseProgram_derives (hKind (.endOfFile 0 "")) (kind_map hKind hTs) (n + k)
  simp only [hParsed] at hDerives
  exact hDerives.mono nofun

/- The new tokens have a tree alike. -/
theorem Derives.exchange {l : Likeness}
    (h : Derives False .declarations n ts body n') (hFits : Fits l g k n ts n') :
    ∃ body', Derives False .declarations (n + k) (ts.map g) body' (n' + k) ∧
        stmtsAlike l body body' := ⟨_, h.map hKind hTs k, h.alike hFits⟩

/- If the new tokens have a tree, so have the old ones. -/
theorem Derives.faults_of_map (h : Derives False .declarations n (ts.map g) body n') :
    (parseProgram (ts ++ [.endOfFile 0 ""]) n).faults = [] := by
  have hParsed := parseProgram_map hKind (ts ++ [.endOfFile 0 ""]) n (k := 0)
  rw [List.map_append, List.map_singleton, Nat.add_zero,
    h.parseProgram_eq (hKind (.endOfFile 0 "")) (kind_map hKind hTs)] at hParsed
  have hFaults := congrArg Parsed.faults hParsed
  exact List.map_eq_nil_iff.mp hFaults.symm

omit hKind

/- Each token in its own place leaves a tree as it is. -/
theorem Derives.stmtsMap_id (h : Derives False .declarations n ts body n') :
    stmtsMap id 0 body = body := by
  have hMap := h.map (g := id) (fun _ => rfl) hTs 0
  rw [List.map_id] at hMap
  exact (h.program_unique hTs hMap).1

end

end Grammar

end Scriptlet
