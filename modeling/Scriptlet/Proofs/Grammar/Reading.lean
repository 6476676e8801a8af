import Scriptlet.Proofs.Grammar.Derivation

/-
  What phrases start with, and what rules read.

  Key declarations include:
    * `Grammar.OpensExpression`
    * `Grammar.OpensDeclaration`
    * `Grammar.Clear`
    * `Grammar.Reads`

  One token of lookahead tells the phrases apart:
    * `Grammar.Derives.opening`

  A rule reads a list of tokens if it turns them into a value
  and leaves exactly the tokens that follow them, whatever
  these are, as long as they cannot extend the phrase.
-/

namespace Scriptlet

namespace Grammar

variable {ts : List Token} {first : Token} {kind : Token.Kind}

/- Kinds of tokens that an expression can start with. -/
def startsExpression : Token.Kind → Bool
  | .keyword .falseWord => true
  | .keyword .trueWord => true
  | .keyword .nilWord => true
  | .keyword .thisWord => true
  | .keyword .superWord => true
  | .keyword .fnWord => true
  | .number _ => true
  | .string _ => true
  | .identifier => true
  | .symbol .leftParen => true
  | .symbol .leftSquare => true
  | .symbol .bang => true
  | .symbol .minus => true
  | .symbol .plusPlus => true
  | .symbol .minusMinus => true
  | _ => false

/- Kinds that start a statement that is no expression. -/
def startsPhrase : Token.Kind → Bool
  | .keyword .forWord => true
  | .keyword .ifWord => true
  | .keyword .whileWord => true
  | .keyword .loopWord => true
  | .keyword .breakWord => true
  | .keyword .returnWord => true
  | .keyword .printWord => true
  | .symbol .leftBrace => true
  | _ => false

/- Kinds of tokens that a declaration can start with. -/
def startsDeclaration (kind : Token.Kind) : Bool :=
  startsExpression kind || startsPhrase kind ||
    kind = .keyword .classWord || kind = .keyword .letWord

/-
  The tokens start like an expression.  Behind `fn` a
  parenthesis tells a literal from a declaration.
-/
def OpensExpression : List Token → Prop
  | [] => False
  | first :: others =>
    startsExpression first.kind = true ∧
      (first.kind = .keyword .fnWord → ∃ second rest,
          others = second :: rest ∧ second.kind = .symbol .leftParen)

/- The tokens start like an expression without sign or step. -/
def OpensOperand (ts : List Token) : Prop :=
  OpensExpression ts ∧ ∀ first ∈ ts.head?, isSign first.kind = false ∧ isStep first.kind = false

/- The tokens start like a statement. -/
def OpensStatement (ts : List Token) : Prop :=
  OpensExpression ts ∨ ∃ first others, ts = first :: others ∧ startsPhrase first.kind = true

/- The first token is of this kind. -/
def OpensWith (kind : Token.Kind) (ts : List Token) : Prop :=
  ∃ first others, ts = first :: others ∧ first.kind = kind

/- The tokens start like a declaration. -/
def OpensDeclaration (ts : List Token) : Prop :=
  ∃ first others, ts = first :: others ∧ startsDeclaration first.kind = true

theorem OpensExpression.append (h : OpensExpression ts) (us : List Token) :
    OpensExpression (ts ++ us) := by
  cases ts with
  | nil => exact h.elim
  | cons first others =>
    refine ⟨h.1, fun hWord => ?_⟩
    rcases h.2 hWord with ⟨second, rest, hOthers, hKind⟩
    exact ⟨second, rest ++ us, by simp [hOthers], hKind⟩

theorem OpensExpression.ne_nil (h : OpensExpression ts) : ts ≠ [] := by
  intro hNil
  rw [hNil] at h
  exact h

theorem OpensOperand.append (h : OpensOperand ts) (us : List Token) :
    OpensOperand (ts ++ us) := by
  cases ts with
  | nil => exact h.1.elim
  | cons first others => exact ⟨h.1.append us, h.2⟩

/- An opening token that is not `fn` decides alone. -/
theorem OpensExpression.of_kind (hKind : first.kind = kind)
    (hStarts : startsExpression kind = true) (hWord : kind ≠ .keyword .fnWord)
    (others : List Token) : OpensExpression (first :: others) := by
  subst hKind
  exact ⟨hStarts, fun h => absurd h hWord⟩

theorem OpensOperand.of_kind (hKind : first.kind = kind)
    (hStarts : startsExpression kind = true) (hWord : kind ≠ .keyword .fnWord)
    (hSign : isSign kind = false) (hStep : isStep kind = false)
    (others : List Token) : OpensOperand (first :: others) := by
  refine ⟨.of_kind hKind hStarts hWord others, ?_⟩
  subst hKind
  simp [hSign, hStep]

theorem OpensWith.append (h : OpensWith kind ts) (us : List Token) :
    OpensWith kind (ts ++ us) := by
  rcases h with ⟨first, others, rfl, hKind⟩
  exact ⟨first, others ++ us, rfl, hKind⟩

theorem OpensStatement.append (h : OpensStatement ts) (us : List Token) :
    OpensStatement (ts ++ us) := by
  rcases h with h | ⟨first, others, rfl, hFirst⟩
  · exact Or.inl (h.append us)
  · exact Or.inr ⟨first, others ++ us, rfl, hFirst⟩

theorem OpensDeclaration.of_expression (h : OpensExpression ts) : OpensDeclaration ts := by
  cases ts with
  | nil => exact h.elim
  | cons first others =>
    refine ⟨first, others, rfl, ?_⟩
    simp [startsDeclaration, h.1]

theorem OpensDeclaration.of_statement (h : OpensStatement ts) : OpensDeclaration ts := by
  rcases h with h | ⟨first, others, rfl, hFirst⟩
  · exact .of_expression h
  · refine ⟨first, others, rfl, ?_⟩
    simp [startsDeclaration, hFirst]

theorem OpensDeclaration.append (h : OpensDeclaration ts) (us : List Token) :
    OpensDeclaration (ts ++ us) := by
  rcases h with ⟨first, others, rfl, hFirst⟩
  exact ⟨first, others ++ us, rfl, hFirst⟩

/- How the tokens of a phrase start. -/
def Phrase.Opens (gaps : Prop) :
    (phrase : Phrase) → List Token → phrase.Tree → Prop
  | .declarations, ts, _ => gaps ∨ ts = [] ∨ OpensDeclaration ts
  | .declaration, ts, _ => OpensDeclaration ts
  | .functions, ts, _ => ts = [] ∨ OpensWith .identifier ts
  | .function, ts, _ => OpensWith .identifier ts
  | .signature _ _, ts, _ => OpensWith (.symbol .leftParen) ts
  | .block, ts, _ => OpensWith (.symbol .leftBrace) ts
  | .letDecl, ts, _ => OpensWith (.keyword .letWord) ts
  | .exprStmt, ts, _ => OpensExpression ts
  | .optional, ts, tree => (ts = [] ∧ tree = none) ∨ OpensExpression ts
  | .statement _, ts, _ => OpensStatement ts
  | .expression, ts, _ => OpensExpression ts
  | .target, ts, _ => OpensExpression ts
  | .binary _, ts, _ => OpensExpression ts
  | .unary, ts, _ => OpensExpression ts
  | .operands level _, ts, _ => ∀ first ∈ ts.head?, level.operators.contains first.kind = true
  | .operand, ts, _ => OpensOperand ts
  | .call, ts, _ => OpensOperand ts
  | .primary, ts, _ => OpensOperand ts
  | .arguments, ts, tree => (ts = [] ∧ tree = []) ∨ OpensExpression ts
  | .list, ts, _ => OpensExpression ts
  | .parameters, ts, tree => (ts = [] ∧ tree = []) ∨ OpensWith .identifier ts
  | .names, ts, _ => OpensWith .identifier ts
  | .clause, _, _ => True
  | .trailers, _, _ => True

private theorem startsPhrase_statement (hKind : first.kind = kind)
    (hStarts : startsPhrase kind = true) (others : List Token) :
    OpensStatement (first :: others) := by
  subst hKind
  exact Or.inr ⟨first, others, rfl, hStarts⟩

private theorem startsExpression_of_literalOf? {value : Literal}
    (h : literalOf? kind = some value) :
    startsExpression kind = true ∧ kind ≠ .keyword .fnWord ∧
        isSign kind = false ∧ isStep kind = false := by
  unfold literalOf? at h
  split at h <;> simp_all [startsExpression, isSign, isStep]

private theorem startsExpression_of_isSign (h : isSign kind = true) :
    startsExpression kind = true ∧ kind ≠ .keyword .fnWord := by
  unfold isSign at h
  split at h <;> simp_all [startsExpression]

private theorem startsExpression_of_isStep (h : isStep kind = true) :
    startsExpression kind = true ∧ kind ≠ .keyword .fnWord := by
  unfold isStep at h
  split at h <;> simp_all [startsExpression]

/- Every phrase starts as its nonterminal says. -/
theorem Derives.opening {gaps : Prop} {phrase : Phrase} {n n' : Nat}
    {tree : phrase.Tree} (h : Derives gaps phrase n ts tree n') : phrase.Opens gaps ts tree := by
  induction h with
  | noDeclaration => exact Or.inr (Or.inl rfl)
  | moreDeclarations _ _ ihFirst _ => exact Or.inr (Or.inr (ihFirst.append _))
  | leftOut _ hGaps _ _ _ => exact Or.inl hGaps
  | rootClass hWord _ _ _ _ _
  | derivedClass hWord _ _ _ _ _ _ _ => exact ⟨_, _, rfl, by simp [startsDeclaration, hWord]⟩
  | functionDecl hWord _ _ =>
    refine ⟨_, _, rfl, ?_⟩
    simp [startsDeclaration, startsExpression, hWord]
  | letVariable _ ih =>
    rcases ih with ⟨first, others, rfl, hKind⟩
    exact ⟨_, _, rfl, by simp [startsDeclaration, hKind]⟩
  | plain _ ih => exact .of_statement ih
  | noFunction => exact Or.inl rfl
  | moreFunctions _ _ ihFirst _ => exact Or.inr (ihFirst.append _)
  | function hName _ _ => exact ⟨_, _, rfl, hName⟩
  | signature hOpen _ _ _ _ _ => exact ⟨_, _, rfl, hOpen⟩
  | noParameter => exact Or.inl ⟨rfl, rfl⟩
  | someParameters _ _ ih => exact Or.inr ih
  | lastName hName => exact ⟨_, _, rfl, hName⟩
  | moreNames hName _ _ _ => exact ⟨_, _, rfl, hName⟩
  | block hOpen _ _ _ => exact ⟨_, _, rfl, hOpen⟩
  | letBare hWord _ _ => exact ⟨_, _, rfl, hWord⟩
  | letValue hWord _ _ _ _ _ => exact ⟨_, _, rfl, hWord⟩
  | exprStmt _ _ ih => exact ih.append _
  | noClause => trivial
  | letClause => trivial
  | exprClause => trivial
  | absent => exact Or.inl ⟨rfl, rfl⟩
  | present _ ih => exact Or.inr ih
  | expressionStatement _ ih => exact Or.inl ih
  | printStatement hWord _ _ _
  | ifStatement hWord _ _ _ _ _ _
  | ifElse hWord _ _ _ _ _ _ _ _ _
  | whileStatement hWord _ _ _ _ _ _
  | loopStatement hWord _ _
  | forStatement hWord _ _ _ _ _ _ _ _ _ _ _
  | breakStatement hWord _
  | returnStatement hWord _ _ _ => exact startsPhrase_statement hWord rfl _
  | blockStatement _ ih =>
    rcases ih with ⟨first, others, rfl, hKind⟩
    exact startsPhrase_statement hKind rfl _
  | assign hName _ _ _
  | nameTarget hName => exact .of_kind hName rfl (by decide) _
  | setProperty _ _ _ _ _ ihObject _ => exact ihObject.1.append _
  | setElement _ _ _ _ _ _ ihObject _ _ => exact ihObject.1.append _
  | compound _ _ _ ihTarget _ => exact ihTarget.append _
  | unassigned _ ih => exact ih
  | propertyTarget _ _ _ ihObject => exact ihObject.1.append _
  | elementTarget _ _ _ _ ihObject _ => exact ihObject.1.append _
  | tightest _ ih => exact ih
  | chained _ _ ihFirst _ => exact ihFirst.append _
  | noOperand => simp [Phrase.Opens]
  | moreOperands hOperator _ _ _ _ => simpa [Phrase.Opens] using hOperator
  | sign hSign _ _ =>
    rcases startsExpression_of_isSign hSign with ⟨hStarts, hWord⟩
    exact .of_kind rfl hStarts hWord _
  | stepBefore hStep _ _ _ =>
    rcases startsExpression_of_isStep hStep with ⟨hStarts, hWord⟩
    exact .of_kind rfl hStarts hWord _
  | unsigned _ ih => exact ih.1
  | stepAfter _ _ _ ih => exact ih.append _
  | unstepped _ ih => exact ih
  | call _ _ ihFirst _ => exact ihFirst.append _
  | noTrailer => trivial
  | callTrailer => trivial
  | propertyTrailer => trivial
  | elementTrailer => trivial
  | literal hLiteral =>
    rcases startsExpression_of_literalOf? hLiteral with ⟨hStarts, hWord, hSign, hStep⟩
    exact .of_kind rfl hStarts hWord hSign hStep _
  | self hWord
  | superMethod hWord _ _
  | name hWord
  | group hWord _ _ _
  | array hWord _ _ _ => exact .of_kind hWord rfl (by decide) rfl rfl _
  | functionLiteral hWord _ ih =>
    rcases ih with ⟨second, rest, rfl, hKind⟩
    refine ⟨⟨by rw [hWord]; rfl, fun _ => ?_⟩, ?_⟩
    · exact ⟨second, rest, rfl, hKind⟩
    · simp [hWord, isSign, isStep]
  | noArgument => exact Or.inl ⟨rfl, rfl⟩
  | someArguments _ _ ih => exact Or.inr ih
  | lastItem _ ih => exact ih
  | moreItems _ _ _ ihItem _ => exact ihItem.append _

end Grammar

------------------------------------------------------------
-- Steps of Rules
------------------------------------------------------------

namespace Grammar

variable {c c' : Cursor} {kind : Token.Kind} {test : Token.Kind → Bool} {rest : List Token}
variable {level : Level} {tighter : List Level}

variable {α β : Type}

/- Sequencing goes on with the value of a finished rule. -/
theorem bind_done {rule : Rule α} {next : α → Rule β} {value : α}
    (h : rule c = .done value c') : (rule >>= next) c = next value c' := by
  show Rule.bind rule next c = next value c'
  simp only [Rule.bind, h]

theorem bind_failed {rule : Rule α} {next : α → Rule β} {fault : Fault}
    (h : rule c = .failed fault c') : (rule >>= next) c = .failed fault c' := by
  show Rule.bind rule next c = .failed fault c'
  simp only [Rule.bind, h]

theorem bind_exhausted {rule : Rule α} {next : α → Rule β}
    (h : rule c = .exhausted) : (rule >>= next) c = .exhausted := by
  show Rule.bind rule next c = .exhausted
  simp only [Rule.bind, h]

theorem bind_assoc {γ : Type} (rule : Rule α) (next : α → Rule β) (last : β → Rule γ) :
    (rule >>= next) >>= last = rule >>= fun value => next value >>= last := by
  funext c
  cases h : rule c with
  | done value c' =>
    rw [bind_done h]
    cases h' : next value c' with
    | done other c'' => rw [bind_done h', bind_done (bind_done h |>.trans h')]
    | failed fault c'' => rw [bind_failed h', bind_failed (bind_done h |>.trans h')]
    | exhausted => rw [bind_exhausted h', bind_exhausted (bind_done h |>.trans h')]
  | failed fault c' => rw [bind_failed h, bind_failed (bind_failed h)]
  | exhausted => rw [bind_exhausted h, bind_exhausted (bind_exhausted h)]

theorem bind_pure (rule : Rule α) : rule >>= pure = rule := by
  funext c
  cases h : rule c with
  | done value c' => exact bind_done h
  | failed fault c' => exact bind_failed h
  | exhausted => exact bind_exhausted h

@[simp] theorem pure_apply (value : α) (c : Cursor) :
    (pure value : Rule α) c = .done value c := rfl

theorem peek_apply (c : Cursor) :
    peek c = .done c.current c := rfl

section

variable (token last : Token) (ts : List Token) (n : Nat) (faults : List Fault)

@[simp] theorem peek_cons :
    peek ⟨token :: ts, last, n, faults⟩ = .done token ⟨token :: ts, last, n, faults⟩ := rfl

@[simp] theorem skip_cons :
    skip ⟨token :: ts, last, n, faults⟩ = .done () ⟨ts, last, n, faults⟩ := rfl

@[simp] theorem atEnd_cons :
    atEnd ⟨token :: ts, last, n, faults⟩ = .done false ⟨token :: ts, last, n, faults⟩ := rfl

@[simp] theorem freshId_apply :
    freshId ⟨ts, last, n, faults⟩ = .done n ⟨ts, last, n + 1, faults⟩ := rfl

theorem expect_cons {token : Token} (h : token.kind = kind) (cause : Cause) :
    expect kind cause ⟨token :: ts, last, n, faults⟩ = .done token ⟨ts, last, n, faults⟩ := by
  simp [expect, h]

theorem expectSymbol_cons {token : Token} {s : Symbol}
    (h : token.kind = .symbol s) (cause : Cause) :
    expectSymbol s cause ⟨token :: ts, last, n, faults⟩ =
      .done token ⟨ts, last, n, faults⟩ := expect_cons last ts n faults h cause

theorem acceptIf_cons {token : Token} (h : test token.kind = true) :
    acceptIf test ⟨token :: ts, last, n, faults⟩ = .done (some token) ⟨ts, last, n, faults⟩ := by
  simp [acceptIf, h]

theorem sees_cons {token : Token} (h : token.kind = kind) :
    sees kind ⟨token :: ts, last, n, faults⟩ = .done true ⟨token :: ts, last, n, faults⟩ := by
  simp [sees, h]

end

/- No token comes next whose kind passes the test. -/
def Clear (test : Token.Kind → Bool) (rest : List Token) : Prop :=
  ∀ token ∈ rest.head?, test token.kind = false

theorem clear_cons {token : Token} (hKind : token.kind = kind)
    (hTest : test kind = false) (rest : List Token) : Clear test (token :: rest) := by
  intro other hOther
  simp only [List.head?_cons, Option.mem_def, Option.some.injEq] at hOther
  rw [← hOther, hKind]
  exact hTest

theorem clear_nil (test : Token.Kind → Bool) : Clear test [] := by
  intro token hToken
  simp at hToken

theorem Clear.mono {test weaker : Token.Kind → Bool} (h : Clear test rest)
    (hWeaker : ∀ kind, test kind = false → weaker kind = false) : Clear weaker rest := by
  intro token hToken
  exact hWeaker _ (h token hToken)

/- A nonempty phrase hides what follows it. -/
theorem clear_append {ts : List Token} (h : Clear test ts) (hTs : ts ≠ [])
    (rest : List Token) : Clear test (ts ++ rest) := by
  cases ts with
  | nil => exact absurd rfl hTs
  | cons token others => exact h

theorem acceptIf_clear (h : Clear test rest) (last : Token) (n : Nat) (faults : List Fault) :
    acceptIf test ⟨rest, last, n, faults⟩ = .done none ⟨rest, last, n, faults⟩ := by
  cases rest with
  | nil => rfl
  | cons token others =>
    have hToken := h token (by simp)
    simp [acceptIf, hToken]

theorem acceptWord_clear {k : Keyword}
    (h : Clear (fun kind => kind = .keyword k) rest) (last : Token) (n : Nat)
    (faults : List Fault) :
    acceptWord k ⟨rest, last, n, faults⟩ = .done none ⟨rest, last, n, faults⟩ :=
  acceptIf_clear h last n faults

theorem sees_clear (h : Clear (fun k => k = kind) rest) (last : Token) (n : Nat)
    (faults : List Fault) :
    sees kind ⟨rest, last, n, faults⟩ = .done false ⟨rest, last, n, faults⟩ := by
  cases rest with
  | nil => rfl
  | cons token others =>
    have hToken := h token (by simp)
    simp [sees, hToken]

/-
  The rule turns the tokens `ts` into a value, with node
  numbers from `n` to `n'`, when the tokens after them are
  as `follows` says.
-/
def Reads (rule : Rule α) (ts : List Token) (value : α) (n n' : Nat)
    (follows : List Token → Prop) : Prop :=
  ∀ rest last faults, last.kind = .endOfFile → follows rest → rule ⟨ts ++ rest, last, n, faults⟩ =
          .done value ⟨rest, last, n', faults⟩

/- Nothing is asked of the tokens that follow. -/
abbrev Anything : List Token → Prop := fun _ => True

/- A symbol follows. -/
abbrev Meets (s : Symbol) : List Token → Prop := OpensWith (.symbol s)

section

variable {rule : Rule α} {next : α → Rule β} {value : α} {result : β} {token : Token}
variable {n n₁ n₂ : Nat} {ts us : List Token} {follows ends : List Token → Prop}

theorem Reads.mono (h : Reads rule ts value n n₁ follows)
    (hFollows : ∀ rest, ends rest → follows rest) : Reads rule ts value n n₁ ends := by
  intro rest last faults hLast hRest
  exact h rest last faults hLast (hFollows rest hRest)

/- A rule reads what its steps read, one after the other. -/
theorem Reads.returns (value : α) : Reads (pure value) [] value n n follows :=
  fun _ _ _ _ _ => rfl

theorem Reads.andThen (h : Reads rule ts value n n₁ follows)
    (hFollows : ∀ rest, ends rest → follows (us ++ rest))
    (h' : Reads (next value) us result n₁ n₂ ends) :
    Reads (rule >>= next) (ts ++ us) result n n₂ ends := by
  intro rest last faults hLast hRest
  rw [List.append_assoc, bind_done (h _ last faults hLast (hFollows rest hRest))]
  exact h' rest last faults hLast hRest

theorem Reads.given (h : Reads (next value) ts result n n₁ follows) :
    Reads (pure value >>= next) ts result n n₁ follows := h

/- A phrase, then a token that does not extend it. -/
theorem Reads.upTo {test : Token.Kind → Bool} (h : Reads rule ts value n n₁ (Clear test))
    (hKind : token.kind = kind) (hTest : test kind = false)
    (h' : Reads (next value) (token :: us) result n₁ n₂ ends) :
    Reads (rule >>= next) (ts ++ token :: us) result n n₂ ends :=
  h.andThen (fun _ _ => clear_cons hKind hTest _) h'

/- A phrase that ends before a symbol. -/
theorem Reads.before {s : Symbol} (h : Reads rule ts value n n₁ (Meets s))
    (hKind : token.kind = .symbol s) (h' : Reads (next value) (token :: us) result n₁ n₂ ends) :
    Reads (rule >>= next) (ts ++ token :: us) result n n₂ ends :=
  h.andThen (fun _ _ => ⟨_, _, rfl, hKind⟩) h'

theorem Reads.last (h : Reads rule ts value n n₁ follows)
    (h' : Reads (next value) [] result n₁ n₂ follows) :
    Reads (rule >>= next) ts result n n₂ follows := by
  have hReads := h.andThen (fun _ hRest => hRest) h'
  rw [List.append_nil] at hReads
  exact hReads

/- A step that only looks at the tokens. -/
theorem Reads.looks
    (hLook : ∀ rest last faults, follows rest →
      rule ⟨ts ++ rest, last, n, faults⟩ = .done value ⟨ts ++ rest, last, n, faults⟩)
    (h : Reads (next value) ts result n n₁ follows) :
    Reads (rule >>= next) ts result n n₁ follows := by
  intro rest last faults hLast hRest
  rw [bind_done (hLook rest last faults hRest)]
  exact h rest last faults hLast hRest

/- A step over one token. -/
theorem Reads.steps
    (hStep : ∀ rest last faults,
      rule ⟨token :: rest, last, n, faults⟩ = .done value ⟨rest, last, n, faults⟩)
    (h : Reads (next value) ts result n n₁ follows) :
    Reads (rule >>= next) (token :: ts) result n n₁ follows := by
  intro rest last faults hLast hRest
  rw [List.cons_append, bind_done (hStep _ last faults)]
  exact h rest last faults hLast hRest

/- Steps of a rule inside. -/
theorem Reads.inner {γ : Type} {later : β → Rule γ} {result : γ}
    (h : Reads (rule >>= fun value => next value >>= later) ts result n n₁ follows) :
    Reads ((rule >>= next) >>= later) ts result n n₁ follows := by
  rw [bind_assoc]
  exact h

theorem Reads.recovering (h : Reads rule ts value n n₁ follows) :
    Reads (recovering rule) ts (some value) n n₁ follows := by
  intro rest last faults hLast hRest
  rw [Grammar.recovering, h rest last faults hLast hRest]

theorem Reads.numbers {next : Nat → Rule β} (h : Reads (next n) ts result (n + 1) n₁ follows) :
    Reads (freshId >>= next) ts result n n₁ follows := h

theorem Reads.peeks {next : Token → Rule β}
    (h : Reads (next token) (token :: ts) result n n₁ follows) :
    Reads (peek >>= next) (token :: ts) result n n₁ follows := h.looks fun _ _ _ _ => rfl

theorem Reads.skips {next : Unit → Rule β} (h : Reads (next ()) ts result n n₁ follows) :
    Reads (skip >>= next) (token :: ts) result n n₁ follows := h.steps fun _ _ _ => rfl

theorem Reads.expects {next : Token → Rule β} {cause : Cause} (hKind : token.kind = kind)
    (h : Reads (next token) ts result n n₁ follows) :
    Reads (expect kind cause >>= next) (token :: ts) result n n₁ follows :=
  h.steps fun _ _ _ => expect_cons _ _ _ _ hKind cause

theorem Reads.accepts {next : Option Token → Rule β} (hTest : test token.kind = true)
    (h : Reads (next (some token)) ts result n n₁ follows) :
    Reads (acceptIf test >>= next) (token :: ts) result n n₁ follows :=
  h.steps fun _ _ _ => acceptIf_cons _ _ _ _ hTest

theorem Reads.acceptsKind {next : Option Token → Rule β} (hKind : token.kind = kind)
    (h : Reads (next (some token)) ts result n n₁ follows) :
    Reads (accept kind >>= next) (token :: ts) result n n₁ follows :=
  h.accepts (decide_eq_true hKind)

theorem Reads.declines {next : Option Token → Rule β}
    (h : Reads (next none) ts result n n₁ follows)
    (hClear : ∀ rest, follows rest → Clear test (ts ++ rest)) :
    Reads (acceptIf test >>= next) ts result n n₁ follows :=
  h.looks fun rest last faults hRest => acceptIf_clear (hClear rest hRest) last n faults

theorem Reads.declinesKind {next : Option Token → Rule β}
    (h : Reads (next none) ts result n n₁ follows)
    (hClear : ∀ rest, follows rest → Clear (fun k => k = kind) (ts ++ rest)) :
    Reads (accept kind >>= next) ts result n n₁ follows := h.declines hClear

/- Nothing, before a symbol. -/
theorem Reads.meets {next : Bool → Rule β} {s : Symbol}
    (h : Reads (next true) [] result n n₁ (Meets s)) :
    Reads (sees (.symbol s) >>= next) [] result n n₁ (Meets s) := by
  refine h.looks fun rest last faults hRest => ?_
  rcases hRest with ⟨first, others, rfl, hKind⟩
  exact sees_cons last others n faults hKind

theorem Reads.overlooks {next : Bool → Rule β} (h : Reads (next false) ts result n n₁ follows)
    (hClear : ∀ rest, follows rest → Clear (fun k => k = kind) (ts ++ rest)) :
    Reads (sees kind >>= next) ts result n n₁ follows :=
  h.looks fun rest last faults hRest => sees_clear (hClear rest hRest) last n faults

end

/- The rule for the operators of some levels. -/
def tower (budget : Nat) (tighter : List Level) : Rule Expr :=
  tighter.foldr (chained budget) (unary (operand (rules budget) budget) budget)

/- An operand is a call and what follows it. -/
theorem operand_eq (inner : Rules) (k : Nat) :
    operand inner k = (primary inner k >>= trailers inner k) >>= fun expr => do
        match ← acceptIf isStep with
        | some operator => stepOn expr operator false
        | none => return expr := by
  rw [bind_assoc]
  rfl

def isTrailer : Token.Kind → Bool
  | .symbol .leftParen => true
  | .symbol .dot => true
  | .symbol .leftSquare => true
  | _ => false

/- Kinds that go on with an operand or with a level. -/
def extendsLevels (tighter : List Level) (kind : Token.Kind) : Bool :=
  isTrailer kind || isStep kind || tighter.any fun level => level.operators.contains kind

/- Kinds that go on with an expression. -/
def extendsExpression (kind : Token.Kind) : Bool :=
  extendsLevels levels kind || kind = .symbol .equal || isCompound kind

def isElse (kind : Token.Kind) : Bool := kind = .keyword .elseWord

/- An operator of one level extends no tighter level. -/
theorem extendsLevels_operator (hSuffix : level :: tighter <:+ levels)
    (hKind : level.operators.contains kind = true) : extendsLevels tighter kind = false := by
  simp only [levels, List.suffix_cons_iff, List.cons.injEq, List.suffix_nil] at hSuffix
  rcases hSuffix with ⟨rfl, rfl⟩ | ⟨rfl, rfl⟩ | ⟨rfl, rfl⟩ | ⟨rfl, rfl⟩ |
      ⟨rfl, rfl⟩ | ⟨rfl, rfl⟩ | h
  all_goals
    try
      simp only [List.contains_cons, List.contains_nil,
        Bool.or_false, Bool.or_eq_true, beq_iff_eq] at hKind
  · subst hKind; decide
  · subst hKind; decide
  · rcases hKind with rfl | rfl <;> decide
  · rcases hKind with rfl | rfl | rfl | rfl <;> decide
  · rcases hKind with rfl | rfl <;> decide
  · rcases hKind with rfl | rfl <;> decide
  · cases h

theorem extendsLevels_of_cons (h : extendsLevels (level :: tighter) kind = false) :
    extendsLevels tighter kind = false := by
  simp only [extendsLevels, List.any_cons, Bool.or_eq_false_iff] at h ⊢
  exact ⟨h.1, h.2.2⟩

/-
  What follows an operand of a level is clear of the tighter
  levels: an operator of the level, or what ends the chain.
-/
theorem clear_operands (hSuffix : level :: tighter <:+ levels) {us rest : List Token}
    (hOperator : ∀ first ∈ us.head?, level.operators.contains first.kind = true)
    (hRest : Clear (extendsLevels (level :: tighter)) rest) :
    Clear (extendsLevels tighter) (us ++ rest) := by
  cases us with
  | nil => exact hRest.mono fun _ => extendsLevels_of_cons
  | cons operator others =>
    have hContains := hOperator operator (by simp)
    have hTighter := extendsLevels_operator hSuffix hContains
    exact clear_cons rfl hTighter _

theorem isTrailer_of_extendsLevels (h : extendsLevels tighter kind = false) :
    isTrailer kind = false := by
  simp only [extendsLevels, Bool.or_eq_false_iff] at h
  exact h.1.1

theorem isStep_of_extendsLevels (h : extendsLevels tighter kind = false) :
    isStep kind = false := by
  simp only [extendsLevels, Bool.or_eq_false_iff] at h
  exact h.1.2

theorem operator_of_extendsLevels (h : extendsLevels (level :: tighter) kind = false) :
    level.operators.contains kind = false := by
  simp only [extendsLevels, List.any_cons, Bool.or_eq_false_iff] at h
  exact h.2.1

end Grammar

end Scriptlet
