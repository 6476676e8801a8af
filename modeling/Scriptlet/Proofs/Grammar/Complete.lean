import Scriptlet.Proofs.Grammar.Reading

/-
  Derivable phrases are read.

  Key declarations include:
    * `Grammar.IsRead`

  What the grammar derives is read with exactly the tree of
  the derivation, given a budget above the number of tokens:
    * `Grammar.Derives.isRead`
-/

namespace Scriptlet

namespace Grammar

variable {b n n' : Nat} {ts us : List Token}

/-
  Declarations end before a token that stops them.  The last
  of them may be open to an `else`.
-/
def Ends (stops : Token → Bool) (rest : List Token) : Prop :=
  Clear isElse rest ∧ ∀ token ∈ rest.head?, stops token = true

/- Tokens that no `else` follows if the phrase is open. -/
abbrev Closed (isOpen : Bool) (rest : List Token) : Prop := isOpen = true → Clear isElse rest

/- Behind an expression its trailers are read. -/
abbrev Continues (b : Nat) (expr : Expr) (ts : List Token) (result : Expr) (n n' : Nat) : Prop :=
  ∀ k, ts.length < k → Reads (trailers (rules b) k expr) ts result n n' (Clear isTrailer)

/-
  How the rule of a phrase reads it.  A budget counts the
  tokens; the rules inside are those for budget `b`.
-/
def IsRead :
    (phrase : Phrase) → Nat → List Token → phrase.Tree → Nat → Prop
  | .declarations, n, ts, body, n' =>
    ∀ b k (stops : Token → Bool), ts.length < b → ts.length < k →
      (∀ token : Token, startsDeclaration token.kind = true → stops token = false) →
      Reads (declarations stops (rules b).declaration k) ts body n n' (Ends stops)
  | .declaration, n, ts, stmt, n' =>
    ∀ b, ts.length < b → Reads (rules b).declaration ts (some stmt) n n' (Clear isElse)
  | .functions, n, ts, fs, n' =>
    ∀ b k, ts.length < b → ts.length < k →
      Reads (methods (rules b) k) ts fs n n' (Meets .rightBrace)
  | .function, n, ts, f, n' =>
    ∀ b k, ts.length ≤ b → ts.length ≤ k → Reads (namedFunction (rules b) k) ts f n n' Anything
  | .signature name keyword, n, ts, f, n' =>
    ∀ b k opening us, ts = opening :: us → ts.length ≤ b → ts.length ≤ k →
      Reads (functionRest (rules b) k name keyword) us f n n' Anything
  | .parameters, n, ts, params, n' =>
    ∀ k, ts.length ≤ k → Reads
        (commaList .tooManyParameters k .rightParen
          (expectName .parameterName)) ts params n n' (Meets .rightParen)
  | .names, n, ts, names, n' =>
    ∀ k count, ts.length ≤ k → count + names.length ≤ listLimit → Reads
        (commaListFrom .tooManyParameters (expectName .parameterName) k count)
        ts names n n' (Clear fun k => k = .symbol .comma)
  | .block, n, ts, body, n' =>
    ∀ b k opening us, ts = opening :: us → ts.length ≤ b → ts.length ≤ k →
      Reads (block (rules b) k) us body n n' Anything
  | .letDecl, n, ts, stmt, n' =>
    ∀ b word us, ts = word :: us → ts.length ≤ b →
      Reads (letRest (assignment (rules b) b)) us stmt n n' Anything
  | .exprStmt, n, ts, stmt, n' =>
    ∀ b, ts.length ≤ b → Reads (expressionStatement (assignment (rules b) b)) ts stmt n n' Anything
  | .clause, n, ts, stmt, n' =>
    ∀ b, ts.length ≤ b → Reads (firstClause (assignment (rules b) b)) ts stmt n n' Anything
  | .optional, n, ts, expr, n' =>
    ∀ b s, extendsExpression (.symbol s) = false →
      startsExpression (.symbol s) = false → ts.length ≤ b → Reads
        (unlessSees (.symbol s) (assignment (rules b) b)) ts expr n n' (Meets s)
  | .statement isOpen, n, ts, stmt, n' =>
    ∀ b, ts.length < b → Reads (rules b).statement ts stmt n n' (Closed isOpen)
  | .expression, n, ts, expr, n' =>
    ∀ b, ts.length ≤ b → Reads (assignment (rules b) b) ts expr n n' (Clear extendsExpression)
  | .target, n, ts, expr, n' =>
    expr.isAssignable = true ∧ ∀ b, ts.length ≤ b →
        Reads (tower b levels) ts expr n n' (Clear (extendsLevels levels))
  | .binary tighter, n, ts, expr, n' =>
    tighter <:+ levels → ∀ b, ts.length ≤ b →
        Reads (tower b tighter) ts expr n n' (Clear (extendsLevels tighter))
  | .operands level tighter, n, ts, others, n' =>
    level :: tighter <:+ levels → ∀ b k left, ts.length ≤ b → ts.length < k →
        Reads (chain level (tower b tighter) k left) ts (others.foldl level.join left) n n'
          (Clear (extendsLevels (level :: tighter)))
  | .unary, n, ts, expr, n' =>
    ∀ b k, ts.length ≤ b → ts.length ≤ k → Reads (unary (operand (rules b) b) k) ts expr n n'
        (Clear (extendsLevels []))
  | .operand, n, ts, expr, n' =>
    ∀ b, ts.length ≤ b → Reads (operand (rules b) b) ts expr n n' (Clear (extendsLevels []))
  | .call, n, ts, expr, n' =>
    ∀ b us result n'', ts.length + us.length ≤ b → Continues b expr us result n' n'' → Reads
        (primary (rules b) b >>= trailers (rules b) b) (ts ++ us) result n n'' (Clear isTrailer)
  | .trailers, n, ts, others, n' =>
    ∀ b expr us result n'', ts.length < b →
      Continues b (others.foldl Trailer.on expr) us result n' n'' →
      Continues b expr (ts ++ us) result n n''
  | .primary, n, ts, expr, n' =>
    ∀ b, ts.length ≤ b → Reads (primary (rules b) b) ts expr n n' Anything
  | .arguments, n, ts, items, n' =>
    ∀ b k s, extendsExpression (.symbol s) = false →
      startsExpression (.symbol s) = false → s ≠ .comma → ts.length < b → ts.length ≤ k → Reads
        (commaList .tooManyArguments k s (rules b).expression) ts items n n' (Meets s)
  | .list, n, ts, items, n' =>
    ∀ b k count, ts.length < b → ts.length ≤ k → count + items.length ≤ listLimit → Reads
        (commaListFrom .tooManyArguments (rules b).expression k count) ts items n n' fun rest =>
          Clear extendsExpression rest ∧ Clear (fun k => k = .symbol .comma) rest

/- A budget above a length leaves one for the rules inside. -/
theorem succ_of_lt {length b : Nat} (h : length < b) : ∃ b', b = b' + 1 ∧ length ≤ b' := by
  cases b with
  | zero => cases h
  | succ b => exact ⟨b, rfl, Nat.le_of_lt_succ h⟩

theorem budgeted {length : Nat} {P : Nat → Prop} (h : ∀ b, length ≤ b → P (b + 1)) (b : Nat)
    (hB : length < b) : P b := by
  obtain ⟨b, rfl, hLe⟩ := succ_of_lt hB
  exact h b hLe

variable {inner : Rules} {k n₁ n₂ : Nat} {follows ends : List Token → Prop} {stmt : Stmt}

section

variable {stops : Token → Bool} {declaration : Rule (Option Stmt)}

theorem reads_noDeclaration :
    Reads (declarations stops declaration (k + 1)) [] [] n n (Ends stops) := by
  intro rest last faults _ hRest
  rw [List.nil_append, declarations]
  cases rest with
  | nil => rfl
  | cons token others =>
    have hStops := hRest.2 token (by simp)
    rw [bind_done (atEnd_cons token last others n faults),
      bind_done (peek_cons token last others n faults), hStops]
    rfl

theorem reads_moreDeclarations {token : Token} {body : List Stmt}
    (hStops : stops token = false)
    (hFirst : Reads declaration (token :: ts) (some stmt) n n₁ (Clear isElse))
    (hElse : ∀ rest, Ends stops rest → Clear isElse (us ++ rest))
    (hOthers : Reads (declarations stops declaration k) us body n₁ n₂ (Ends stops)) :
    Reads (declarations stops declaration (k + 1)) (token :: ts ++ us) (stmt :: body) n n₂
      (Ends stops) := by
  refine .looks (fun _ _ _ _ => rfl) (.peeks ?_)
  rw [hStops]
  exact .andThen hFirst hElse (.last hOthers (.returns _))

end

theorem reads_noFunction : Reads (methods inner (k + 1)) [] [] n n (Meets .rightBrace) := by
  rintro _ last faults _ ⟨_, _, rfl, hKind⟩
  rw [List.nil_append, methods, bind_done (atEnd_cons _ last _ _ faults),
    bind_done (sees_cons last _ _ faults hKind)]
  rfl

/- The first token tells the rule to go on with. -/
theorem reads_worded {α : Type} {token : Token} {next : Token → Rule α} {rest : Rule α}
    {value : α}
    (hNext : next token = (skip >>= fun _ => rest)) (hRest : Reads rest ts value n n₁ follows) :
    Reads (peek >>= next) (token :: ts) value n n₁ follows := by
  refine .peeks ?_
  rw [hNext]
  exact .skips hRest

section

variable {α : Type} {item : Rule α} {value : α} {values : List α} {count : Nat} {close : Symbol}

theorem reads_lastItem (hItem : Reads item ts value n n₁ follows) (hCount : count < listLimit)
    (hEnds : ∀ rest, ends rest → follows rest ∧
          Clear (fun k => k = .symbol .comma) rest) (cause : Cause) :
    Reads (commaListFrom cause item (k + 1) count) ts [value] n n₁ ends := by
  rw [commaListFrom, if_neg (Nat.not_le_of_lt hCount)]
  exact .last (hItem.mono fun rest h => (hEnds rest h).1)
    (.declinesKind (.returns _) fun rest h => (hEnds rest h).2)

theorem reads_moreItems {comma : Token} (hItem : Reads item ts value n n₁ follows)
    (hCount : count < listLimit) (hComma : comma.kind = .symbol .comma)
    (hFollows : ∀ rest, follows (comma :: rest)) (cause : Cause)
    (hItems : Reads (commaListFrom cause item k (count + 1)) us values n₁ n₂ ends) :
    Reads (commaListFrom cause item (k + 1) count)
      (ts ++ comma :: us) (value :: values) n n₂ ends := by
  rw [commaListFrom, if_neg (Nat.not_le_of_lt hCount)]
  exact .andThen hItem (fun _ _ => hFollows _) (.acceptsKind hComma (.last hItems (.returns _)))

theorem reads_expectName {name : Token} (hName : name.kind = .identifier) (cause : Cause) :
    Reads (expectName cause) [name] name n n Anything :=
  fun rest last faults _ _ => expect_cons last rest n faults hName cause

theorem reads_noItem (cause : Cause) :
    Reads (commaList cause k close item) [] [] n n (Meets close) := .meets (.returns _)

theorem reads_someItems {cause : Cause}
    (hItems : Reads (commaListFrom cause item k 0) ts values n n₁ ends)
    (hTs : ts ≠ []) (hClose : Clear (fun k => k = .symbol close) ts) :
    Reads (commaList cause k close item) ts values n n₁ ends :=
  .overlooks hItems fun rest _ => clear_append hClose hTs rest

end

variable {expr result target value : Expr}

/- Without more trailers an expression is complete. -/
theorem continues_nil (b : Nat) (expr : Expr) (n : Nat) : Continues b expr [] expr n n := by
  refine budgeted fun k _ rest last faults hLast hRest => ?_
  have hCurrent : isTrailer (rest.headD last).kind = false := by
    cases rest with
    | nil => simp [hLast, isTrailer]
    | cons token others => exact hRest token (by simp)
  rw [List.nil_append, trailers, bind_done (peek_apply _), Cursor.current]
  generalize (rest.headD last).kind = kind at hCurrent
  unfold isTrailer at hCurrent
  split at hCurrent <;> simp_all

theorem continues_property {dot name : Token} {object : Expr} (hDot : dot.kind = .symbol .dot)
    (hName : name.kind = .identifier) (hOthers : Continues b (.get object name) us result n n') :
    Continues b object (dot :: name :: us) result n n' := by
  refine budgeted fun k hK => reads_worded (by rw [hDot]) ?_
  exact .inner (.expects hName (.given (hOthers k (by grind))))

theorem continues_element {opening bracket : Token} {object position : Expr}
    (hOpening : opening.kind = .symbol .leftSquare)
    (hPosition : Reads (assignment (rules b) b) ts position n n₁ (Clear extendsExpression))
    (hBracket : bracket.kind = .symbol .rightSquare)
    (hOthers : Continues (b + 1) (.index object bracket position) us result n₁ n₂) :
    Continues (b + 1) object (opening :: (ts ++ bracket :: us)) result n n₂ := by
  refine budgeted fun k hK => reads_worded (by rw [hOpening]) ?_
  refine .inner (.upTo hPosition hBracket rfl (.inner (.expects hBracket (.given ?_))))
  exact hOthers k (by grind)

theorem continues_call {opening paren : Token} {callee : Expr} {arguments : List Expr}
    (hOpening : opening.kind = .symbol .leftParen)
    (hArguments : ∀ k, ts.length ≤ k → Reads (commaList .tooManyArguments k .rightParen
      (rules b).expression) ts arguments n n₁ (Meets .rightParen))
    (hParen : paren.kind = .symbol .rightParen)
    (hOthers : Continues b (.call callee paren arguments) us result n₁ n₂) :
    Continues b callee (opening :: (ts ++ paren :: us)) result n n₂ := by
  refine budgeted fun k hK => reads_worded (by rw [hOpening]) ?_
  refine .inner (.before (hArguments k (by grind)) hParen (.inner (.expects hParen (.given ?_))))
  exact hOthers k (by grind)

theorem IsRead.call_nil (h : IsRead .call n ts expr n') (hLength : ts.length ≤ b) :
    Reads (primary (rules b) b >>= trailers (rules b) b) ts expr n n' (Clear isTrailer) := by
  have hReads := h b [] expr n' (by simpa using hLength) (continues_nil b expr n')
  rw [List.append_nil] at hReads
  exact hReads

theorem reads_unstepped
    (hExpr : Reads (primary inner k >>= trailers inner k) ts expr n n₁ (Clear isTrailer)) :
    Reads (operand inner k) ts expr n n₁ (Clear (extendsLevels [])) := by
  rw [operand_eq]
  exact .last (hExpr.mono fun _ h => h.mono fun _ => isTrailer_of_extendsLevels)
    (.declines (.returns _) fun _ h => h.mono fun _ => isStep_of_extendsLevels)

private theorem isTrailer_of_isStep {kind : Token.Kind} (h : isStep kind = true) :
    isTrailer kind = false := by
  unfold isStep at h
  split at h <;> simp_all [isTrailer]

private theorem isSign_of_isStep {kind : Token.Kind} (h : isStep kind = true) :
    isSign kind = false := by
  unfold isStep at h
  split at h <;> simp_all [isSign]

private theorem isCompound_cases {kind : Token.Kind} (h : isCompound kind = true) :
    extendsLevels levels kind = false ∧ kind ≠ .symbol .equal := by
  unfold isCompound at h
  split at h
  case h_5 => cases h
  all_goals simp [extendsLevels, isTrailer, isStep, levels]

theorem reads_stepOn {operator : Token} {before : Bool}
    (hAssignable : target.isAssignable = true) :
    Reads (stepOn target operator before) [] (.increment target operator before) n n follows := by
  rw [stepOn, if_pos hAssignable]
  exact .returns _

------------------------------------------------------------
-- Operators and Statements
------------------------------------------------------------

theorem reads_unsigned {operand : Rule Expr} (hOpens : OpensOperand ts)
    (hExpr : Reads operand ts expr n n₁ follows) :
    Reads (unary operand (k + 1)) ts expr n n₁ follows :=
  .declines (.declines hExpr fun rest _ first h => ((hOpens.append rest).2 first h).2)
    fun rest _ first h => ((hOpens.append rest).2 first h).1

theorem reads_noOperand {operand : Rule Expr} (level : Level) (left : Expr) :
    Reads (chain level operand (k + 1) left) [] left n n (Clear (level.operators.contains ·)) :=
  .declines (.returns _) fun _ h => h

/- An operand alone is a phrase of every level. -/
theorem reads_tower (hOpens : OpensOperand ts)
    (hExpr : Reads (operand (rules (b + 1)) (b + 1)) ts expr n n₁
        (Clear (extendsLevels []))) (tighter : List Level) :
    Reads (tower (b + 1) tighter) ts expr n n₁ (Clear (extendsLevels tighter)) := by
  induction tighter with
  | nil => exact reads_unsigned hOpens hExpr
  | cons level tighter ih =>
    have hChain : Reads (chain level (tower (b + 1) tighter) (b + 1) expr)
          [] expr n₁ n₁ (Clear (extendsLevels (level :: tighter))) :=
      (reads_noOperand level expr).mono fun _ h => h.mono fun _ => operator_of_extendsLevels
    exact .last (ih.mono fun _ h => h.mono fun _ => extendsLevels_of_cons) hChain

/- A call alone is an operand of all levels. -/
theorem IsRead.tower_of_call {n'' : Nat} (h : IsRead .call n ts expr n')
    (hOpens : OpensOperand ts)
    (hLength : ts.length + us.length ≤ b) (hContinues : Continues b expr us result n' n'') :
    Reads (tower b levels) (ts ++ us) result n n'' (Clear (extendsLevels levels)) := by
  have hReads := h b us result n'' hLength hContinues
  cases b with
  | zero => exact absurd (List.length_eq_zero_iff.mp (by omega)) hOpens.1.ne_nil
  | succ b => exact reads_tower (hOpens.append us) (reads_unstepped hReads) levels

theorem IsRead.property {dot name : Token}
    (h : IsRead .call n ts expr n') (hOpens : OpensOperand ts)
    (hDot : dot.kind = .symbol .dot) (hName : name.kind = .identifier) :
    IsRead .target n (ts ++ [dot, name]) (Expr.get expr name) n' := by
  refine ⟨rfl, fun b hB => h.tower_of_call hOpens (by simpa using hB) ?_⟩
  exact continues_property hDot hName (continues_nil b _ _)

theorem IsRead.element {opening bracket : Token} {position : Expr}
    (h : IsRead .call n ts expr n₁)
    (hOpens : OpensOperand ts) (hOpening : opening.kind = .symbol .leftSquare)
    (hPosition : IsRead .expression n₁ us position n₂)
    (hBracket : bracket.kind = .symbol .rightSquare) :
    IsRead .target n (ts ++ opening :: (us ++ [bracket]))
      (Expr.index expr bracket position) n₂ := by
  refine ⟨rfl, fun b hB => ?_⟩
  obtain ⟨b, rfl⟩ : ∃ b', b = b' + 1 := ⟨b - 1, by grind⟩
  exact h.tower_of_call hOpens (by simpa using hB) (continues_element hOpening
    (hPosition b (by grind)) hBracket (continues_nil (b + 1) _ _))

theorem reads_nameTarget {name : Token} (hName : name.kind = .identifier) (n b : Nat) :
    Reads (tower (b + 1) levels) [name] (.name n name) n
      (n + 1) (Clear (extendsLevels levels)) := by
  refine reads_tower (.of_kind hName rfl (by decide) rfl rfl []) (reads_unstepped ?_) levels
  exact .last (reads_worded (by rw [hName]) (.numbers (.returns _)))
    (continues_nil (b + 1) _ (n + 1) (b + 1) (Nat.succ_pos b))

theorem reads_assigned {equals : Token}
    (hTarget : Reads (binary inner k) ts target n n₁ (Clear (extendsLevels levels)))
    (hEquals : equals.kind = .symbol .equal)
    (hValue : Reads inner.expression us value n₁ n₂ (Clear extendsExpression))
    (hResult : Reads (assignTo target equals value) [] result n₂ n' (Clear extendsExpression)) :
    Reads (assignment inner k) (ts ++ equals :: us) result n n' (Clear extendsExpression) :=
  .upTo hTarget hEquals rfl (.acceptsKind hEquals (.last hValue hResult))

theorem reads_updated {operator : Token}
    (hTarget : Reads (binary inner k) ts target n n₁ (Clear (extendsLevels levels)))
    (hAssignable : target.isAssignable = true) (hOperator : isCompound operator.kind = true)
    (hValue : Reads inner.expression us value n₁ n₂ (Clear extendsExpression)) :
    Reads (assignment inner k) (ts ++ operator :: us) (.compound target operator value) n n₂
      (Clear extendsExpression) := by
  rcases isCompound_cases hOperator with ⟨hLevels, hEqual⟩
  refine .upTo hTarget rfl hLevels (.declinesKind (.accepts hOperator (.last hValue ?_))
    fun _ _ => clear_cons rfl (decide_eq_false hEqual) _)
  rw [updateOf, if_pos hAssignable]
  exact .returns _

theorem reads_unassigned
    (hExpr : Reads (binary inner k) ts expr n n₁ (Clear (extendsLevels levels))) :
    Reads (assignment inner k) ts expr n n₁ (Clear extendsExpression) := by
  have hClear {kind : Token.Kind} (h : extendsExpression kind = false) := by
    simpa only [extendsExpression, Bool.or_eq_false_iff] using h
  refine .last (hExpr.mono fun _ h => h.mono fun _ h => (hClear h).1.1) ?_
  exact .declinesKind (.declines (.returns _) fun _ h => h.mono fun _ h => (hClear h).2)
    fun _ h => h.mono fun _ h => (hClear h).1.2

private theorem isElse_of_startsDeclaration {kind : Token.Kind}
    (h : startsDeclaration kind = true) : isElse kind = false := by
  simp only [isElse, decide_eq_false_iff_not]
  rintro rfl
  cases h

private theorem closesBlock_of_startsDeclaration {token : Token}
    (h : startsDeclaration token.kind = true) : closesBlock token = false := by
  simp only [closesBlock, decide_eq_false_iff_not]
  intro hKind
  rw [hKind] at h
  cases h

/- The first token of an expression is of no other kind. -/
theorem OpensExpression.clear {kind : Token.Kind} (h : OpensExpression ts)
    (hKind : startsExpression kind = false) : Clear (fun k => k = kind) ts := by
  cases ts with
  | nil => exact h.elim
  | cons first others =>
    have hStarts := h.1
    refine clear_cons rfl ?_ others
    simp only [decide_eq_false_iff_not]
    intro hFirst
    rw [hFirst, hKind] at hStarts
    cases hStarts

theorem seesFunction_of_ne {first : Token} (h : first.kind ≠ .keyword .fnWord)
    (ts : List Token)
    (last : Token) (n : Nat) (faults : List Fault) :
    seesFunction ⟨first :: ts, last, n, faults⟩ = .done false ⟨first :: ts, last, n, faults⟩ := by
  cases ts <;> simp [seesFunction, h]

theorem seesFunction_named {word name : Token} (hWord : word.kind = .keyword .fnWord)
    (hName : name.kind = .identifier) (ts : List Token) (last : Token) (n : Nat)
    (faults : List Fault) : seesFunction ⟨word :: name :: ts, last, n, faults⟩ =
      .done true ⟨word :: name :: ts, last, n, faults⟩ := by
  simp [seesFunction, hWord, hName]

/- Behind `fn` a statement goes on with a parenthesis. -/
theorem seesFunction_statement (hOpens : OpensStatement ts) (last : Token)
    (n : Nat) (faults : List Fault) :
    seesFunction ⟨ts, last, n, faults⟩ = .done false ⟨ts, last, n, faults⟩ := by
  match ts, hOpens with
  | [], _ => rfl
  | first :: others, .inl hOpens =>
    by_cases hFirst : first.kind = .keyword .fnWord
    · rcases hOpens.2 hFirst with ⟨_, _, rfl, hParen⟩
      simp [seesFunction, hParen]
    · exact seesFunction_of_ne hFirst _ last n faults
  | first :: others, .inr ⟨_, _, hTs, hPhrase⟩ =>
    cases hTs
    refine seesFunction_of_ne (fun hKind => ?_) _ last n faults
    rw [hKind] at hPhrase
    cases hPhrase

/- A statement does not start like another declaration. -/
theorem reads_plain {expression : Rule Expr} {stated : Rule Stmt}
    (hOpens : OpensStatement ts) (hStmt : Reads stated ts stmt n n₁ follows) :
    Reads (declared inner k expression stated) ts stmt n n₁ follows := by
  have hKinds (rest : List Token) (kind : Token.Kind) (hExpression : startsExpression kind = false)
      (hPhrase : startsPhrase kind = false) : Clear (fun k => k = kind) (ts ++ rest) := by
    rcases hOpens with hOpens | ⟨first, others, rfl, hFirst⟩
    · exact (hOpens.append rest).clear hExpression
    · refine clear_cons rfl ?_ _
      simp only [decide_eq_false_iff_not]
      intro hKind
      rw [hKind, hPhrase] at hFirst
      cases hFirst
  have hSees := fun rest last => seesFunction_statement (hOpens.append rest) last n
  exact .declinesKind (.looks (fun rest last faults _ => hSees rest last faults)
    (.declinesKind hStmt fun rest _ => hKinds rest _ rfl rfl)) fun rest _ => hKinds rest _ rfl rfl

/- A statement that no keyword or brace opens is an expression. -/
theorem reads_plainStatement {expression : Rule Expr} (hOpens : OpensExpression ts)
    (hStmt : Reads (expressionStatement expression) ts stmt n n₁ follows) :
    Reads (statement inner k expression) ts stmt n n₁ follows := by
  cases ts with
  | nil => exact hOpens.elim
  | cons first others =>
    have hStarts := hOpens.1
    refine .peeks ?_
    generalize first.kind = kind at hStarts
    unfold startsExpression at hStarts
    split at hStarts <;> first | exact hStmt | cases hStarts

/-
  What the grammar derives is read as the derivation says.
  The steps of a rule read the parts of its phrase one after
  the other, and the rules inside have the budget that is
  left.
-/
theorem Derives.isRead {phrase : Phrase} {tree : phrase.Tree}
    (h : Derives False phrase n ts tree n') : IsRead phrase n ts tree n' := by
  induction h with
  | noDeclaration =>
    intro b k stops _ hK _
    obtain ⟨k, rfl, _⟩ := succ_of_lt hK
    exact reads_noDeclaration
  | moreDeclarations hFirst hOthers ihFirst ihOthers =>
    intro b k stops hB hK hStops
    obtain ⟨token, tail, rfl, hStarts⟩ := hFirst.opening
    obtain ⟨k, rfl, hK⟩ := succ_of_lt hK
    refine reads_moreDeclarations (hStops token hStarts) (ihFirst b (by grind))
      (fun rest hRest => ?_) (ihOthers b k stops (by grind) (by grind) hStops)
    rcases hOthers.opening with hGaps | rfl | ⟨_, _, rfl, hKind⟩
    · exact hGaps.elim
    · exact hRest.1
    · exact clear_cons rfl (isElse_of_startsDeclaration hKind) _
  | leftOut _ hGaps _ _ _ => exact hGaps.elim
  | rootClass hWord hName hOpening _ hClosing ih =>
    refine budgeted fun b hB => .recovering (.acceptsKind hWord (.expects hName (.inner ?_)))
    refine .declinesKind (.given (.expects hOpening ?_)) fun _ _ => clear_cons hOpening rfl _
    exact .before (ih b b (by grind) (by grind)) hClosing (.expects hClosing (.returns _))
  | derivedClass hWord hName hLess hParent hOpening _ hClosing ih =>
    refine budgeted fun b hB => .recovering (.acceptsKind hWord (.expects hName (.inner ?_)))
    simp only [List.length_cons, List.length_append] at hB
    refine .acceptsKind hLess (.inner (.expects hParent (.inner (.numbers (.given ?_)))))
    refine .expects hOpening (.before (ih b b (by omega) (by omega)) hClosing ?_)
    exact .expects hClosing (.returns _)
  | functionDecl hWord hFunction ih =>
    obtain ⟨name, tail, rfl, hName⟩ := hFunction.opening
    refine budgeted fun b hB => .recovering (.declinesKind
      (.looks (fun _ last faults _ => seesFunction_named hWord hName _ last _ faults) (.skips ?_))
      fun _ _ => clear_cons hWord rfl _)
    exact .last ((ih b b (by grind) (by grind)).mono fun _ _ => trivial) (.returns _)
  | letVariable hLet ih =>
    obtain ⟨word, others, rfl, hWord⟩ := hLet.opening
    refine budgeted fun b hB => .recovering (.declinesKind (.looks (fun _ last faults _ =>
      seesFunction_of_ne (by simp [hWord]) _ last _ faults) ?_) fun _ _ => clear_cons hWord rfl _)
    exact .acceptsKind hWord ((ih b word others rfl hB).mono fun _ _ => trivial)
  | plain hStmt ih =>
    refine budgeted fun b hB => .recovering (reads_plain hStmt.opening ?_)
    exact (ih (b + 1) (by grind)).mono fun _ h _ => h
  | noFunction =>
    intro b k _ hK
    obtain ⟨k, rfl, _⟩ := succ_of_lt hK
    exact reads_noFunction
  | moreFunctions hFirst _ ihFirst ihOthers =>
    intro b k hB hK
    obtain ⟨name, tail, rfl, hName⟩ := hFirst.opening
    obtain ⟨k, rfl, hK⟩ := succ_of_lt hK
    refine .looks (fun _ _ _ _ => rfl) (.overlooks ?_ fun _ _ => clear_cons hName rfl _)
    exact .andThen (ihFirst b k (by grind) (by grind)) (fun _ _ => trivial)
      (.last (ihOthers b k (by grind) (by grind)) (.returns _))
  | function hName hSignature ih =>
    intro b k hB hK
    obtain ⟨opening, us, rfl, hOpen⟩ := hSignature.opening
    exact .expects hName (.expects hOpen (ih b k opening us rfl (by grind) (by grind)))
  | signature _ _ hClosing hBlock ihParams ihBody =>
    rintro b k _ _ ⟨⟩ hB hK
    obtain ⟨brace, vs, rfl, hBrace⟩ := hBlock.opening
    refine .before (ihParams k (by grind)) hClosing (.expects hClosing (.expects hBrace ?_))
    exact .last (ihBody b k brace vs rfl (by grind) (by grind)) (.returns _)
  | noParameter => exact fun k _ => reads_noItem _
  | someParameters hNames hLimit ih =>
    intro k hK
    obtain ⟨first, others, rfl, hFirst⟩ := hNames.opening
    have hItems := ih k 0 hK (by simpa using hLimit)
    refine reads_someItems (hItems.mono ?_) (by simp) (clear_cons hFirst rfl _)
    rintro rest ⟨closing, tail, rfl, hClosing⟩
    exact clear_cons hClosing rfl _
  | lastName hName =>
    intro k count hK hCount
    obtain ⟨k, rfl, _⟩ := succ_of_lt hK
    exact reads_lastItem (reads_expectName hName _) hCount (fun _ h => ⟨trivial, h⟩) _
  | moreNames hName hComma _ ih =>
    intro k count hK hCount
    obtain ⟨k, rfl, hK⟩ := succ_of_lt hK
    exact reads_moreItems (reads_expectName hName _) (by grind) hComma (fun _ => trivial) _
      (ih k (count + 1) (by grind) (by grind))
  | block _ _ hClosing ih =>
    rintro b k _ _ ⟨⟩ hB hK
    refine .andThen (ih b k closesBlock (by grind) (by grind) fun _ =>
      closesBlock_of_startsDeclaration) (fun _ _ => ⟨clear_cons hClosing rfl _, ?_⟩)
      (.expects hClosing (.returns _))
    simp [closesBlock, hClosing]
  | letBare _ hName hStop =>
    rintro b _ _ ⟨⟩ _
    exact .expects hName (.declines (.expects hStop (.returns _)) fun _ _ => clear_cons hStop rfl _)
  | letValue _ hName hBinding _ hStop ih =>
    rintro b _ _ ⟨⟩ hB
    refine .expects hName (.accepts hBinding (.upTo (ih b (by grind)) hStop rfl ?_))
    exact .expects hStop (.returns _)
  | exprStmt _ hStop ih =>
    intro b hB
    exact .upTo (ih b (by grind)) hStop rfl (.expects hStop (.returns _))
  | noClause hStop => exact fun b _ => .acceptsKind hStop (.returns _)
  | letClause hLet ih =>
    intro b hB
    obtain ⟨word, us, rfl, hWord⟩ := hLet.opening
    exact .declinesKind (.acceptsKind hWord (.last (ih b word us rfl hB) (.returns _)))
      fun _ _ => clear_cons hWord rfl _
  | exprClause hStmt ih =>
    intro b hB
    have hOpens := hStmt.opening.append
    exact .declinesKind (.declinesKind (.last (ih b hB) (.returns _))
      fun rest _ => (hOpens rest).clear rfl) fun rest _ => (hOpens rest).clear rfl
  | absent => exact fun b s _ _ _ => .meets (.returns _)
  | present hExpr ih =>
    intro b s hExtends hStarts hB
    refine .overlooks (.last ((ih b hB).mono ?_) (.returns _))
      fun rest _ => (hExpr.opening.append rest).clear hStarts
    rintro rest ⟨_, _, rfl, hKind⟩
    exact clear_cons hKind hExtends _
  | expressionStatement hStmt ih =>
    refine budgeted fun b hB => reads_plainStatement hStmt.opening ?_
    exact (ih b hB).mono fun _ _ => trivial
  | printStatement hWord _ hStop ih =>
    refine budgeted fun b hB => reads_worded (by rw [hWord]) ?_
    exact .upTo (ih b (by grind)) hStop rfl (.expects hStop (.returns _))
  | ifStatement hWord hOpening _ hClosing _ ihCondition ihThen =>
    refine budgeted fun b hB => reads_worded (by rw [hWord]) ?_
    refine .expects hOpening (.upTo (ihCondition b (by grind)) hClosing rfl ?_)
    exact .expects hClosing (.last ((ihThen b (by grind)).mono fun _ h _ => h rfl)
      (.declinesKind (.returns _) fun _ h => h rfl))
  | ifElse hWord hOpening _ hClosing _ hOther _ ihCondition ihThen ihElse =>
    refine budgeted fun b hB => reads_worded (by rw [hWord]) ?_
    refine .expects hOpening (.upTo (ihCondition b (by grind)) hClosing rfl ?_)
    refine .expects hClosing (.andThen (ihThen b (by grind)) nofun ?_)
    exact .acceptsKind hOther (.last (ihElse b (by grind)) (.returns _))
  | whileStatement hWord hOpening _ hClosing _ ihCondition ihBody =>
    refine budgeted fun b hB => reads_worded (by rw [hWord]) ?_
    refine .expects hOpening (.upTo (ihCondition b (by grind)) hClosing rfl ?_)
    exact .expects hClosing (.last (ihBody b (by grind)) (.returns _))
  | loopStatement hWord _ ih =>
    refine budgeted fun b hB => reads_worded (by rw [hWord]) ?_
    exact .last (ih b (by grind)) (.returns _)
  | forStatement hWord hOpening _ _ hStop _ hClosing _ ihFirst ihCondition ihFinal ihBody =>
    refine budgeted fun b hB => reads_worded (by rw [hWord]) ?_
    refine .expects hOpening (.andThen (ihFirst b (by grind)) (fun _ _ => trivial) ?_)
    refine .before (ihCondition b .semicolon rfl rfl (by grind)) hStop (.expects hStop ?_)
    refine .before (ihFinal b .rightParen rfl rfl (by grind)) hClosing (.expects hClosing ?_)
    exact .last (ihBody b (by grind)) (.returns _)
  | breakStatement hWord hStop =>
    refine budgeted fun b _ => reads_worded (by rw [hWord]) ?_
    exact .expects hStop (.returns _)
  | returnStatement hWord _ hStop ih =>
    refine budgeted fun b hB => reads_worded (by rw [hWord]) ?_
    exact .before (ih b .semicolon rfl rfl (by grind)) hStop (.expects hStop (.returns _))
  | blockStatement hBlock ih =>
    obtain ⟨opening, us, rfl, hOpen⟩ := hBlock.opening
    refine budgeted fun b hB => reads_worded (by rw [hOpen]) ?_
    exact .last ((ih b b opening us rfl hB hB).mono fun _ _ => trivial) (.returns _)
  | assign hName hEquals _ ih =>
    intro b hB
    obtain ⟨b, rfl, hB⟩ := succ_of_lt hB
    exact reads_assigned (reads_nameTarget hName _ b) hEquals (ih b (by grind))
      (.numbers (.returns _))
  | setProperty hObject hDot hName hEquals _ ihObject ihValue =>
    intro b hB
    obtain ⟨b, rfl⟩ : ∃ b', b = b' + 1 := ⟨b - 1, by grind⟩
    have hTarget := (IsRead.property ihObject hObject.opening hDot hName).2 (b + 1) (by grind)
    have hReads := reads_assigned hTarget hEquals (ihValue b (by grind)) (.returns _)
    simpa only [List.append_assoc, List.cons_append, List.nil_append] using hReads
  | setElement hObject hOpening _ hBracket hEquals _ ihObject ihPosition ihValue =>
    intro b hB
    obtain ⟨b, rfl⟩ : ∃ b', b = b' + 1 := ⟨b - 1, by grind⟩
    have hTarget := IsRead.element ihObject hObject.opening hOpening ihPosition hBracket
    have hReads := reads_assigned (hTarget.2 (b + 1) (by grind)) hEquals (ihValue b (by grind))
      (.returns _)
    simpa only [List.append_assoc, List.cons_append, List.nil_append] using hReads
  | compound _ hOperator _ ihTarget ihValue =>
    intro b hB
    obtain ⟨b, rfl⟩ : ∃ b', b = b' + 1 := ⟨b - 1, by grind⟩
    exact reads_updated (ihTarget.2 (b + 1) (by grind)) ihTarget.1 hOperator (ihValue b (by grind))
  | unassigned _ ih => exact fun b hB => reads_unassigned (ih (List.suffix_refl levels) b hB)
  | nameTarget hName =>
    refine ⟨rfl, fun b hB => ?_⟩
    obtain ⟨b, rfl, _⟩ := succ_of_lt hB
    exact reads_nameTarget hName _ b
  | propertyTarget hObject hDot hName ih => exact IsRead.property ih hObject.opening hDot hName
  | elementTarget hObject hOpening _ hBracket ihObject ihPosition =>
    exact IsRead.element ihObject hObject.opening hOpening ihPosition hBracket
  | tightest _ ih => exact fun _ b hB => ih b b hB hB
  | chained hFirst hOthers ihFirst ihOthers =>
    intro hSuffix b hB
    have hTs := List.length_pos_iff.mpr hFirst.opening.ne_nil
    exact .andThen (ihFirst ((List.suffix_cons _ _).trans hSuffix) b (by grind))
      (fun _ => clear_operands hSuffix hOthers.opening)
      (ihOthers hSuffix b b _ (by grind) (by grind))
  | noOperand =>
    intro _ b k left _ hK
    obtain ⟨k, rfl, _⟩ := succ_of_lt hK
    exact (reads_noOperand _ left).mono fun _ h => h.mono fun _ => operator_of_extendsLevels
  | moreOperands hOperator _ hOthers ihRight ihOthers =>
    intro hSuffix b k left hB hK
    obtain ⟨k, rfl, hK⟩ := succ_of_lt hK
    exact .accepts hOperator (.andThen (ihRight ((List.suffix_cons _ _).trans hSuffix) b (by grind))
      (fun _ => clear_operands hSuffix hOthers.opening)
      (ihOthers hSuffix b k _ (by grind) (by grind)))
  | sign hSign _ ih =>
    intro b k hB hK
    obtain ⟨k, rfl, hK⟩ := succ_of_lt hK
    exact .accepts hSign (.last (ih b k (by grind) (by grind)) (.returns _))
  | stepBefore hStep _ hAssignable ih =>
    intro b k hB hK
    obtain ⟨k, rfl, hK⟩ := succ_of_lt hK
    have hTarget := ih b k (by grind) (by grind)
    exact .declines (.accepts hStep (.last hTarget (reads_stepOn hAssignable)))
      fun _ _ => clear_cons rfl (isSign_of_isStep hStep) _
  | unsigned hExpr ih =>
    intro b k hB hK
    have hTs := List.length_pos_iff.mpr hExpr.opening.1.ne_nil
    obtain ⟨k, rfl⟩ : ∃ k', k = k' + 1 := ⟨k - 1, by omega⟩
    exact reads_unsigned hExpr.opening (ih b hB)
  | stepAfter _ hStep hAssignable ih =>
    intro b hB
    rw [operand_eq]
    exact .upTo (IsRead.call_nil ih (by grind)) rfl (isTrailer_of_isStep hStep)
      (.accepts hStep (reads_stepOn hAssignable))
  | unstepped _ ih => exact fun b hB => reads_unstepped (IsRead.call_nil ih hB)
  | call hFirst _ ihFirst ihOthers =>
    intro b us result n'' hB hContinues
    have hTs := List.length_pos_iff.mpr hFirst.opening.1.ne_nil
    rw [List.append_assoc]
    exact .andThen (ihFirst b (by grind)) (fun _ _ => trivial)
      (ihOthers b _ us result n'' (by grind) hContinues b (by grind))
  | noTrailer => exact fun b expr us result n'' _ hContinues => hContinues
  | callTrailer hOpening _ hParen _ ihArguments ihOthers =>
    intro b expr us result n'' hB hContinues
    simp only [List.append_assoc, List.cons_append]
    have hArguments := (ihArguments b · .rightParen rfl rfl (by decide) (by grind))
    exact continues_call hOpening hArguments hParen
      (ihOthers b _ us result n'' (by grind) hContinues)
  | propertyTrailer hDot hName _ ih =>
    intro b expr us result n'' hB hContinues
    exact continues_property hDot hName (ih b _ us result n'' (by grind) hContinues)
  | elementTrailer hOpening _ hBracket _ ihPosition ihOthers =>
    intro b expr us result n'' hB hContinues
    obtain ⟨b, rfl, hB⟩ := succ_of_lt hB
    simp only [List.append_assoc, List.cons_append]
    exact continues_element hOpening (ihPosition b (by grind)) hBracket
      (ihOthers (b + 1) _ us result n'' (by grind) hContinues)
  | literal hLiteral =>
    refine fun b _ => .peeks ?_
    unfold literalOf? at hLiteral
    split at hLiteral <;> simp_all only [Option.some.injEq, reduceCtorEq] <;>
      subst hLiteral <;> exact .skips (.returns _)
  | self hWord
  | name hWord =>
    exact fun b _ => reads_worded (by rw [hWord]) (.numbers (.returns _))
  | superMethod hWord hDot hMethod =>
    refine fun b _ => reads_worded (by rw [hWord]) ?_
    exact .expects hDot (.expects hMethod (.numbers (.returns _)))
  | group hOpening _ hClosing ih =>
    intro b hB
    obtain ⟨b, rfl, hB⟩ := succ_of_lt hB
    refine reads_worded (by rw [hOpening]) ?_
    exact .upTo (ih b (by grind)) hClosing rfl (.expects hClosing (.returns _))
  | array hOpening _ hBracket ih =>
    refine fun b hB => reads_worded (by rw [hOpening]) ?_
    exact .before (ih b b .rightSquare rfl rfl (by decide) (by grind) (by grind)) hBracket
      (.expects hBracket (.returns _))
  | functionLiteral hWord hSignature ih =>
    intro b hB
    obtain ⟨opening, us, rfl, hOpen⟩ := hSignature.opening
    refine reads_worded (by rw [hWord]) ?_
    exact .expects hOpen (.last (ih b b opening us rfl (by grind) (by grind)) (.returns _))
  | noArgument => exact fun b k s _ _ _ _ _ => reads_noItem _
  | someArguments hItems hLimit ih =>
    intro b k s hExtends hStarts hComma hB hK
    have hOpens := hItems.opening
    have hReads := ih b k 0 hB hK (by simpa using hLimit)
    refine reads_someItems (hReads.mono ?_) hOpens.ne_nil (hOpens.clear hStarts)
    rintro rest ⟨closing, tail, rfl, hClosing⟩
    exact ⟨clear_cons hClosing hExtends _, clear_cons hClosing (by simpa using hComma) _⟩
  | lastItem hItem ih =>
    intro b k count hB hK hCount
    have hTs := List.length_pos_iff.mpr hItem.opening.ne_nil
    obtain ⟨k, rfl⟩ : ∃ k', k = k' + 1 := ⟨k - 1, by omega⟩
    obtain ⟨b, rfl, hB⟩ := succ_of_lt hB
    exact reads_lastItem (ih b (by grind)) hCount (fun _ h => h) _
  | moreItems _ hComma _ ihItem ihItems =>
    intro b k count hB hK hCount
    obtain ⟨k, rfl⟩ : ∃ k', k = k' + 1 := ⟨k - 1, by grind⟩
    obtain ⟨b, rfl, hB⟩ := succ_of_lt hB
    exact reads_moreItems (ihItem b (by grind)) (by grind) hComma
      (fun _ => clear_cons hComma rfl _) _
      (ihItems (b + 1) k (count + 1) (by grind) (by grind) (by grind))

end Grammar

end Scriptlet
