import Scriptlet.Proofs.Grammar.Complete
import Scriptlet.Proofs.Grammar.Follow

/-
  The parser accepts exactly its grammar.

  Key declarations include:
    * `Grammar.follows_statement`
    * `Grammar.rules_follow`
    * `Grammar.Recovers`

  The rules for statements follow their phrases as those for
  expressions do, so no rule runs out of budget.  What is
  derived is parsed, and what is parsed is derived:
    * `Grammar.Derives.parseProgram_eq`
    * `Grammar.parseProgram_derives`
    * `Grammar.parse_accepts_iff_derives`
-/

namespace Scriptlet

namespace Grammar

variable {inner : Rules} {b k : Nat}

section

variable (hInner : inner.Follow b)

include hInner

theorem follows_namedFunction (hK : b ≤ k) :
    Follows (b + 1) (namedFunction inner k) (As .function) :=
  .expectLess fun _ hName => .expect fun _ hOpening =>
    (follows_functionRest hInner hK _ _ hOpening).mono (.function hName)

omit hInner in
theorem follows_methods {bound : Nat} (hInner : inner.Follow bound)
    (hBound : b ≤ bound + 1) (hK : b ≤ k) : Follows b (methods inner k) (As .functions) := by
  induction b generalizing k with
  | zero => exact .zero
  | succ b ih =>
    intro c hLast hLength
    obtain ⟨k, rfl⟩ := Nat.exists_eq_add_of_le' hK
    have hInner' : inner.Follow b := hInner.weaken (Nat.le_of_succ_le_succ hBound)
    have hMethod := follows_namedFunction hInner' (Nat.le_add_left b k)
    have hLoop := ih (by omega) (Nat.le_add_left b k)
    rw [← Nat.add_assoc, methods, bind_done (rfl : atEnd c = _)]
    obtain ⟨seen, hSeen⟩ := sees_done (.symbol .rightBrace) c
    rw [bind_done hSeen]
    split
    · exact ⟨[], .refl c, Nat.lt_succ_self _, fun _ _ => .noFunction⟩
    next hGo =>
    have hTokens : c.tokens ≠ [] := by
      intro hNil
      simp [hNil] at hGo
    refine Follows.andThenLess (hMethod c hLast hLength) ?_
      (fun _ => hLoop.map fun hOthers _ _ hFirst => .moreFunctions hFirst hOthers)
      hLast hLength hTokens
    intro gaps n f n' rest hFirst
    rcases Derives.opening hFirst with ⟨_, _, hCons, _⟩
    cases hCons

theorem follows_classRest (hK : b + 1 ≤ k) {word : Token}
    (hWord : word.kind = .keyword .classWord) :
    Follows b (classRest inner k) ((As .declaration).behind word) := by
  have hMethods : Follows b (methods inner k) (As .functions) :=
    follows_methods hInner (Nat.le_succ b) (Nat.le_of_succ_le hK)
  refine .expect fun name hName => .inner (.accept (Nat.le_succ b)
    (fun less hLess => .inner (.expect fun parent hParent => .inner
      (.freshId fun id => .given (.expect fun opening hOpening =>
        hMethods.andThen fun members => .expect fun closing hClosing => .returns ?_))))
    (.given (.expect fun opening hOpening =>
      hMethods.andThen fun members => .expect fun closing hClosing => .returns ?_)))
  · rintro gaps n rest _ ts hMembers rfl
    exact .derivedClass hWord hName hLess hParent hOpening hMembers hClosing
  · intro gaps n rest _ ts hMembers _
    exact .rootClass hWord hName hOpening hMembers hClosing

end

section

variable {expression : Rule Expr} (hExpression : Follows b expression (As .expression))
variable {word : Token}

include hExpression

theorem follows_letRest (hWord : word.kind = .keyword .letWord) :
    Follows b (letRest expression) ((As .letDecl).behind word) :=
  .expect fun _ hName => .acceptIf (Nat.le_succ b)
    (fun _ hBinding => hExpression.andThen fun _ => .expect fun _ hStop =>
      .returns fun _ _ _ _ _ hValue => .letValue hWord hName hBinding hValue hStop)
    (.expect fun _ hStop => .returns fun _ _ _ _ => .letBare hWord hName hStop)

omit hExpression in
theorem follows_expressionStatement {owed : Nat}
    (hExpression : Follows b expression (As .expression) owed) :
    Follows b (expressionStatement expression) (As .exprStmt) owed :=
  hExpression.andThen fun _ => .expect fun _ hStop =>
    .returns fun _ _ _ _ _ hExpr => .exprStmt hExpr hStop

theorem follows_firstClause : Follows b (firstClause expression) (As .clause) :=
  .accept (Nat.le_succ b) (fun _ hStop => .returns fun _ _ _ => .noClause hStop)
    (.accept (Nat.le_succ b)
      (fun _ hWord => (follows_letRest hExpression hWord).map fun h _ => .letClause h)
      ((follows_expressionStatement hExpression).map fun h _ _ => .exprClause h))

theorem follows_unlessSees (kind : Token.Kind) :
    Follows b (unlessSees kind expression) (As .optional) := by
  refine .sees fun seen => ?_
  cases seen with
  | true => exact .returns fun _ _ _ => .absent
  | false => exact hExpression.map .present

/- A statement that ends with a symbol is not open. -/
omit hExpression in
private theorem statementMeaning_of_closed {gaps : Prop} {n n' : Nat}
    {ts rest : List Token} {stmt : Stmt} (h : Derives gaps (.statement false) n ts stmt n') :
    statementMeaning gaps n ts stmt n' rest := ⟨false, h, nofun⟩

theorem follows_printRest (hWord : word.kind = .keyword .printWord) :
    Follows b (printRest expression word) (statementMeaning.behind word) :=
  hExpression.andThen fun _ => .expect fun _ hStop => .returns fun _ _ _ _ _ hValue =>
    statementMeaning_of_closed (.printStatement hWord hValue hStop)

omit hExpression in
theorem follows_breakRest (hWord : word.kind = .keyword .breakWord) :
    Follows b (breakRest word) (statementMeaning.behind word) :=
  .expect fun _ hStop => .returns fun _ _ _ =>
    statementMeaning_of_closed (.breakStatement hWord hStop)

theorem follows_returnRest (hWord : word.kind = .keyword .returnWord) :
    Follows b (returnRest expression word) (statementMeaning.behind word) :=
  (follows_unlessSees hExpression _).andThen fun _ => .expect fun _ hStop =>
    .returns fun _ _ _ _ _ hValue =>
      statementMeaning_of_closed (.returnStatement hWord hValue hStop)

variable (hInner : inner.Follow b)

include hInner

theorem follows_ifRest (hWord : word.kind = .keyword .ifWord) :
    Follows b (ifRest inner expression) (statementMeaning.behind word) := by
  refine .expect fun opening hOpening => hExpression.andThen fun condition =>
    .expect fun closing hClosing => hInner.statement.andThen fun thenBranch =>
      .accept (Nat.le_succ b) (fun other hOther => hInner.statement.map ?_) (.returns ?_)
  · rintro gaps n₂ vs elseBranch n₃ rest ⟨isOpen, hElse, hClear⟩ n₁ us
      ⟨thenOpen, hThen, hThenElse⟩ n ts hCondition
    refine ⟨isOpen, ?_, hClear⟩
    -- an `else` follows the branch, so it is not open
    cases thenOpen with
    | false => exact .ifElse hWord hOpening hCondition hClosing hThen hOther hElse
    | true =>
      have hClear := hThenElse rfl other (by simp)
      simp [isElse, hOther] at hClear
  · rintro gaps n₂ rest hNone n₁ us ⟨thenOpen, hThen, _⟩ n ts hCondition
    rw [List.append_nil]
    exact ⟨true, .ifStatement hWord hOpening hCondition hClosing hThen, fun _ => hNone⟩

theorem follows_whileRest (hWord : word.kind = .keyword .whileWord) :
    Follows b (whileRest inner expression) (statementMeaning.behind word) := by
  refine .expect fun opening hOpening => hExpression.andThen fun condition =>
    .expect fun closing hClosing => hInner.statement.map ?_
  rintro gaps n us body n' rest ⟨isOpen, hBody, hClear⟩ n₀ ts hCondition
  exact ⟨isOpen, .whileStatement hWord hOpening hCondition hClosing hBody, hClear⟩

omit hExpression in
theorem follows_loopRest (hWord : word.kind = .keyword .loopWord) :
    Follows b (loopRest inner) (statementMeaning.behind word) := by
  refine hInner.statement.map ?_
  rintro gaps n ts body n' rest ⟨isOpen, hBody, hClear⟩
  exact ⟨isOpen, .loopStatement hWord hBody, hClear⟩

theorem follows_forRest (hWord : word.kind = .keyword .forWord) :
    Follows b (forRest inner expression) (statementMeaning.behind word) := by
  refine .expect fun opening hOpening =>
    (follows_firstClause hExpression).andThen fun first =>
    (follows_unlessSees hExpression _).andThen fun condition =>
    .expect fun stop hStop => (follows_unlessSees hExpression _).andThen fun final =>
    .expect fun closing hClosing => hInner.statement.map ?_
  rintro gaps n₃ ws body n₄ rest ⟨isOpen, hBody, hClear⟩ n₂ vs hFinal n₁ us hCondition n ts hFirst
  exact ⟨isOpen, .forStatement hWord hOpening hFirst hCondition hStop hFinal hClosing hBody, hClear⟩

end

section

variable {expression : Rule Expr} {stated : Rule Stmt}
variable (hExpression : Follows (b + 1) expression (As .expression) 0) (hInner : inner.Follow b)

include hExpression hInner

theorem follows_statement (hK : b ≤ k) :
    Follows (b + 1) (statement inner k expression) statementMeaning 0 := by
  have hExpression' := hExpression.eased.weaken (Nat.le_succ b)
  refine .choose fun rule hLast hLength hRule => ?_
  split at hRule
  all_goals subst hRule
  all_goals rename_i hKind
  case h_1 => exact (follows_forRest hExpression' hInner hKind).skip hLast hLength hKind nofun
  case h_2 => exact (follows_ifRest hExpression' hInner hKind).skip hLast hLength hKind nofun
  case h_3 => exact (follows_whileRest hExpression' hInner hKind).skip hLast hLength hKind nofun
  case h_4 => exact (follows_loopRest hInner hKind).skip hLast hLength hKind nofun
  case h_5 => exact (follows_breakRest hKind).skip hLast hLength hKind nofun
  case h_6 => exact (follows_returnRest hExpression' hKind).skip hLast hLength hKind nofun
  case h_7 =>
    refine Follows.skip ((follows_block hInner hK hKind).map ?_) hLast hLength hKind nofun
    exact fun hBody => statementMeaning_of_closed (.blockStatement hBody)
  case h_8 => exact (follows_printRest hExpression' hKind).skip hLast hLength hKind nofun
  case h_9 => exact Follows.fails.skip hLast hLength hKind nofun
  case h_10 =>
    exact (follows_expressionStatement hExpression).mono
      (fun hStmt => statementMeaning_of_closed (.expressionStatement hStmt)) _ hLast hLength

/- A function declaration starts with `fn` and a name. -/
omit hExpression hInner in
theorem Follows.seesFunction {α : Type} {owed : Nat} {meaning : Meaning α}
    {next : Bool → Rule α}
    (hTrue : ∀ {c : Cursor}, c.last.kind = .endOfFile → c.tokens.length < b →
        c.current.kind = .keyword .fnWord →
          (next true c).Satisfies (Built owed c meaning) (Moves owed c))
    (hFalse : Follows b (next false) meaning owed) :
    Follows b (seesFunction >>= next) meaning owed := by
  intro c hLast hLength
  match hTokens : c.tokens with
  | []
  | [first] =>
    have hDone : Grammar.seesFunction c = .done false c := by
      simp [Grammar.seesFunction, hTokens]
    rw [bind_done hDone]
    exact hFalse c hLast hLength
  | first :: second :: rest =>
    by_cases hKinds : first.kind = .keyword .fnWord ∧ second.kind = .identifier
    · have hDone : Grammar.seesFunction c = .done true c := by
        simp [Grammar.seesFunction, hTokens, hKinds]
      rw [bind_done hDone]
      refine hTrue hLast hLength ?_
      rw [Cursor.current, hTokens]
      exact hKinds.1
    · have hDone : Grammar.seesFunction c = .done false c := by
        simpa [Grammar.seesFunction, hTokens] using hKinds
      rw [bind_done hDone]
      exact hFalse c hLast hLength

theorem follows_declared (hStated : Follows (b + 1) stated statementMeaning 0)
    (hK : b + 1 ≤ k) :
    Follows (b + 1) (declared inner k expression stated) (As .declaration) 0 := by
  have hExpression' := hExpression.eased.weaken (Nat.le_succ b)
  have hFunction := follows_namedFunction hInner (Nat.le_of_succ_le hK)
  refine .accept (Nat.le_refl _) (fun word hWord => follows_classRest hInner hK hWord) ?_
  refine .seesFunction (fun hLast hLength hKind => ?_) ?_
  · refine Follows.skip ((hFunction.weaken (Nat.le_succ b)).map ?_) hLast hLength hKind nofun
    exact fun hFunction _ => .functionDecl hKind hFunction
  · refine .accept (Nat.le_refl _) (fun word hWord => ?_) (hStated.mono ?_)
    · exact (follows_letRest hExpression' hWord).mono fun hStmt _ => .letVariable hStmt
    · rintro gaps n ts stmt n' rest ⟨isOpen, hStmt, _⟩ _ _
      exact .plain hStmt

end

------------------------------------------------------------
-- Recovery
------------------------------------------------------------

theorem skipAfter_suffix (previous : Token) (ts : List Token) :
    skipAfter previous ts <:+ ts := by
  induction ts generalizing previous with
  | nil => exact List.suffix_refl []
  | cons token others ih =>
    rw [skipAfter]
    split
    · exact List.suffix_refl _
    · exact (ih token).trans (List.suffix_cons _ _)

/- Going on at a boundary drops the token at the fault. -/
theorem resync_drops (ts : List Token) :
    ∃ dropped, ts = dropped ++ resync ts ∧ (dropped = [] → ts = []) := by
  cases ts with
  | nil => exact ⟨[], rfl, fun _ => rfl⟩
  | cons token others =>
    rcases skipAfter_suffix token others with ⟨dropped, hDropped⟩
    refine ⟨token :: dropped, ?_, nofun⟩
    rw [resync, List.cons_append, hDropped]

/-
  The tokens passed before the fault pay for it, or else the
  token at the fault does, which is dropped.
-/
theorem follows_recovering {rule : Rule Stmt} (hRule : Follows b rule (As .declaration) 0) :
    FollowsOn b (recovering rule) declarationMeaning := by
  intro c hLast hLength hTokens
  have hOutcome := hRule.eased c hLast hLength
  rw [recovering]
  cases hDone : rule c with
  | done stmt c₁
  | exhausted =>
    rw [hDone] at hOutcome
    exact hOutcome
  | failed fault c₁ =>
    have hFailed := hRule c hLast hLength
    rw [hDone] at hFailed
    rcases hFailed with ⟨ts, hPasses, hSpends⟩
    rcases resync_drops c₁.tokens with ⟨dropped, hDropped, hNone⟩
    have hGaps : c.faults.length < (c₁.faults ++ [fault]).length := by
      rw [List.length_append, List.length_singleton]
      exact Nat.lt_succ_of_le hPasses.faults
    refine ⟨ts ++ dropped, ⟨?_, hPasses.last, hPasses.ids, Nat.le_of_lt hGaps⟩, ?_,
      fun gaps hGap => ⟨hGap hGaps, hPasses.ids, ?_⟩⟩
    · rw [List.append_assoc, ← hDropped]
      exact hPasses.tokens
    · simp only [Spends, List.length_append, List.length_singleton] at hSpends ⊢
      rcases hSpends with hSpends | ⟨rfl, hFaults⟩
      · omega
      · have hAny : dropped ≠ [] := by
          intro hNil
          exact hTokens (hPasses.tokens.trans (hNone hNil))
        have hLengths := List.length_pos_iff.mpr hAny
        omega
    · intro hNil
      have hEmpty := hNone (List.append_eq_nil_iff.mp hNil).2
      simp [hEmpty, resync]

/- The rules for a budget follow their phrases below it. -/
theorem rules_follow (b : Nat) : (rules (b + 1)).Follow b := by
  induction b with
  | zero => exact ⟨.zero, .zero, fun _ _ hLength => nomatch hLength⟩
  | succ b ih =>
    have hExpression := follows_assignment ih (Nat.le_refl (b + 1))
    have hStatement := follows_statement hExpression ih (Nat.le_succ b)
    have hDeclared := follows_declared hExpression ih hStatement (Nat.le_refl (b + 1))
    exact ⟨hExpression.eased, hStatement.eased, follows_recovering hDeclared⟩

end Grammar

namespace Grammar

variable {ts : List Token} {last : Token} {n n' : Nat}

/- The tokens before the end of a file, from its start. -/
def Cursor.at (ts : List Token) (last : Token) (n : Nat) : Cursor := ⟨ts, last, n, []⟩

theorem Cursor.start?_append (hLast : last.kind = .endOfFile)
    (hTs : ∀ token ∈ ts, token.kind ≠ .endOfFile) (n : Nat) :
    Cursor.start? (ts ++ [last]) n = some (Cursor.at ts last n) := by
  have hFind : (ts ++ [last]).find? (fun token => token.kind = .endOfFile) =
        some last := by
    rw [List.find?_append, List.find?_eq_none.mpr]
    · simp [hLast]
    · simpa using hTs
  have hTake : (ts ++ [last]).takeWhile (fun token => !(decide (token.kind = .endOfFile))) =
        ts := by
    rw [List.takeWhile_append_of_pos]
    · simp [hLast]
    · simpa using hTs
  simp [Cursor.start?, hFind, hTake, hLast, Cursor.at]

/- Derived programs are parsed. -/
theorem Derives.parseProgram_eq {body : List Stmt} (hLast : last.kind = .endOfFile)
    (hTs : ∀ token ∈ ts, token.kind ≠ .endOfFile) (h : Derives False .declarations n ts body n') :
    parseProgram (ts ++ [last]) n = ⟨body, n', []⟩ := by
  have hReads :=
    h.isRead (ts.length + 2) (ts.length + 2) (fun _ => false) (by omega) (by omega) (fun _ _ => rfl)
  have hEnds : Ends (fun _ => false) [] := ⟨clear_nil _, by simp⟩
  have hDone := hReads [] last [] hLast hEnds
  rw [List.append_nil] at hDone
  have hProgram : program (Cursor.at ts last n).budget (Cursor.at ts last n) =
        .done body ⟨[], last, n', []⟩ := hDone
  rw [parseProgram, Cursor.start?_append hLast hTs n]
  simp only [hProgram]

/- The tokens of a program have one tree only. -/
theorem Derives.program_unique {body body' : List Stmt} {m : Nat}
    (hTs : ∀ token ∈ ts, token.kind ≠ .endOfFile) (h : Derives False .declarations n ts body n')
    (h' : Derives False .declarations n ts body' m) : body' = body ∧ m = n' := by
  have hLast : (Token.endOfFile 0 "").kind = .endOfFile := rfl
  have hSame := h'.parseProgram_eq hLast hTs
  rw [h.parseProgram_eq hLast hTs] at hSame
  cases hSame
  exact ⟨rfl, rfl⟩

/- A rule that ends with a value or not at all. -/
def Recovers {α : Type} (rule : Rule α) : Prop := ∀ c fault c', rule c ≠ .failed fault c'

theorem recovers_declarations {stops : Token → Bool}
    {declaration : Rule (Option Stmt)} (hDeclaration : Recovers declaration)
    (k : Nat) : Recovers (declarations stops declaration k) := by
  induction k with
  | zero => exact fun _ _ _ h => nomatch h
  | succ k ih =>
    intro c fault c' hFailed
    rw [declarations, bind_done (rfl : atEnd c = _), bind_done (peek_apply c)] at hFailed
    split at hFailed
    · cases hFailed
    · cases hFirst : declaration c with
      | failed fault c₁ => exact hDeclaration c fault c₁ hFirst
      | exhausted =>
        rw [bind_exhausted hFirst] at hFailed
        cases hFailed
      | done first c₁ =>
        rw [bind_done hFirst] at hFailed
        cases hOthers : declarations stops declaration k c₁ with
        | failed fault c₂ => exact ih c₁ fault c₂ hOthers
        | exhausted =>
          rw [bind_exhausted hOthers] at hFailed
          cases hFailed
        | done others c₂ =>
          rw [bind_done hOthers] at hFailed
          cases hFailed

theorem recovers_recovering {α : Type} (rule : Rule α) : Recovers (recovering rule) := by
  intro c fault c' hFailed
  unfold recovering at hFailed
  split at hFailed <;> cases hFailed

theorem recovers_declaration (b : Nat) : Recovers (rules b).declaration := by
  cases b with
  | zero => exact fun _ _ _ h => nomatch h
  | succ b => exact recovers_recovering _

section

variable (hLast : last.kind = .endOfFile) (hTs : ∀ token ∈ ts, token.kind ≠ .endOfFile)

include hLast hTs

/-
  A program is read to its end, with tokens left out where it
  has faults.
-/
theorem parseProgram_derives (n : Nat) :
    let parsed := parseProgram (ts ++ [last]) n
    Derives (0 < parsed.faults.length) .declarations n ts parsed.value parsed.nextId := by
  have hFollow := rules_follow (ts.length + 1)
  have hProgram : (program (ts.length + 2) (Cursor.at ts last n)).Satisfies _ _ :=
    follows_declarations hFollow.declaration (fun _ => false) (Nat.le_succ (ts.length + 1))
      (Cursor.at ts last n) hLast (Nat.lt_succ_self _)
  have hRecovers : Recovers (program (ts.length + 2)) :=
    recovers_declarations (recovers_declaration _) _
  have hBudget : (Cursor.at ts last n).budget = ts.length + 2 := rfl
  rw [parseProgram, Cursor.start?_append hLast hTs n]
  simp only [hBudget]
  cases hDone : program (ts.length + 2) (Cursor.at ts last n) with
  | done body c' =>
    rw [hDone] at hProgram
    rcases hProgram with ⟨us, hPasses, -, hBuilt⟩
    rcases hBuilt _ fun h => h with ⟨hDerives, hStops⟩
    have hEnd : c'.tokens = [] := by
      cases hTokens : c'.tokens with
      | nil => rfl
      | cons token others =>
        have hStop := hStops token (by simp [hTokens])
        cases hStop
    have hAll := hPasses.tokens
    rw [hEnd, List.append_nil] at hAll
    rw [← hAll] at hDerives
    exact hDerives
  | failed fault c' => exact absurd hDone (hRecovers _ _ _)
  | exhausted =>
    rw [hDone] at hProgram
    exact hProgram.elim

/- Derived expressions are parsed. -/
theorem Derives.parseExpression_eq {expr : Expr} (h : Derives False .expression n ts expr n') :
    parseExpression (ts ++ [last]) n = ⟨some expr, n', []⟩ := by
  have hReads := h.isRead (ts.length + 1) (by omega)
  have hDone := hReads [] last [] hLast (clear_nil _)
  rw [List.append_nil] at hDone
  have hExpression : (rules (ts.length + 2)).expression (Cursor.at ts last n) =
        .done expr ⟨[], last, n', []⟩ := hDone
  have hWhole : wholeExpression (Cursor.at ts last n).budget
          (Cursor.at ts last n) = .done expr ⟨[], last, n', []⟩ := by
    rw [wholeExpression]
    exact bind_done hExpression
  rw [parseExpression, Cursor.start?_append hLast hTs n]
  simp only [hWhole]

/-
  An expression is read to its end, with tokens left out
  where it has faults, or there is a fault and no tree.
-/
theorem parseExpression_reads (n : Nat) :
    let parsed := parseExpression (ts ++ [last]) n
    n ≤ parsed.nextId ∧
      ((∃ expr, parsed.value = some expr ∧ Derives (0 < parsed.faults.length) .expression n ts
            expr parsed.nextId) ∨ parsed.value = none ∧ parsed.faults ≠ []) := by
  have hFollow := rules_follow (ts.length + 1)
  have hExpression := hFollow.expression (Cursor.at ts last n) hLast (Nat.lt_succ_self _)
  have hBudget : (Cursor.at ts last n).budget = ts.length + 2 := rfl
  rw [parseExpression, Cursor.start?_append hLast hTs n]
  simp only [hBudget]
  cases hDone : (rules (ts.length + 2)).expression (Cursor.at ts last n) with
  | done expr c' =>
    rw [hDone] at hExpression
    rcases hExpression with ⟨us, hPasses, -, hBuilt⟩
    have hDerives := hBuilt _ fun h => h
    have hAll := hPasses.tokens
    rw [wholeExpression, bind_done hDone, bind_done (rfl : atEnd c' = _)]
    cases hTokens : c'.tokens with
    | nil =>
      rw [hTokens, List.append_nil] at hAll
      rw [← hAll] at hDerives
      exact ⟨hPasses.ids, .inl ⟨expr, rfl, hDerives⟩⟩
    | cons token others =>
      exact ⟨hPasses.ids, .inr ⟨rfl, List.append_ne_nil_of_right_ne_nil _ (List.cons_ne_nil _ _)⟩⟩
  | failed fault c' =>
    rw [hDone] at hExpression
    rcases hExpression with ⟨us, hPasses, -⟩
    rw [wholeExpression, bind_failed hDone]
    exact ⟨hPasses.ids, .inr ⟨rfl, by simp⟩⟩
  | exhausted =>
    rw [hDone] at hExpression
    exact hExpression.elim

/- An expression parsed without a fault is derived. -/
theorem parseExpression_derives (n : Nat)
    (hFaults : (parseExpression (ts ++ [last]) n).faults = []) :
    ∃ expr n', Derives False .expression n ts expr n' := by
  rcases (parseExpression_reads hLast hTs n).2 with ⟨expr, _, hDerives⟩ | ⟨_, hFaulty⟩
  · exact ⟨expr, _, hDerives.mono (by simp [hFaults])⟩
  · exact absurd hFaults hFaulty

/- A tree that is read is derived, faults or not. -/
theorem parseExpression_some {n : Nat} {expr : Expr}
    (h : (parseExpression (ts ++ [last]) n).value = some expr) :
    ∃ gaps, Derives gaps .expression n ts expr (parseExpression (ts ++ [last]) n).nextId := by
  rcases (parseExpression_reads hLast hTs n).2 with ⟨other, hValue, hDerives⟩ | ⟨hNone, _⟩
  · cases hValue.symm.trans h
    exact ⟨_, hDerives⟩
  · cases hNone.symm.trans h

/- Numbers are handed out upwards, faults or not. -/
theorem parseExpression_le (n : Nat) :
    n ≤ (parseExpression (ts ++ [last]) n).nextId := (parseExpression_reads hLast hTs n).1

end

/-
  Tokens before their only end-of-file token parse without a
  fault if and only if the grammar derives them, leaving
  nothing out.  The tree is the one of the derivation, so all
  derivations have the same tree.
-/
theorem parse_accepts_iff_derives
    (ts : List Token)
    (last : Token)
    (n : Nat)
    (hLast : last.kind = .endOfFile)
    (hTs : ∀ token ∈ ts, token.kind ≠ .endOfFile) :
    let program := parseProgram (ts ++ [last]) n
    let expression := parseExpression (ts ++ [last]) n
    (program.faults = [] ↔
      ∃ body n',
        Derives False .declarations n ts body n') ∧
    (∀ body n',
      Derives False .declarations n ts body n' →
        body = program.value ∧ n' = program.nextId) ∧
    (expression.faults = [] ↔
      ∃ expr n', Derives False .expression n ts expr n') ∧
    (∀ expr n',
      Derives False .expression n ts expr n' →
        some expr = expression.value ∧
          n' = expression.nextId) := by
  refine ⟨⟨?_, ?_⟩, ?_, ⟨?_, ?_⟩, ?_⟩
  · intro hFaults
    have hDerives := parseProgram_derives hLast hTs n
    exact ⟨_, _, hDerives.mono (by simp [hFaults])⟩
  · rintro ⟨body, n', hDerives⟩
    rw [hDerives.parseProgram_eq hLast hTs]
  · intro body n' hDerives
    rw [hDerives.parseProgram_eq hLast hTs]
    exact ⟨rfl, rfl⟩
  · exact parseExpression_derives hLast hTs n
  · rintro ⟨expr, n', hDerives⟩
    rw [hDerives.parseExpression_eq hLast hTs]
  · intro expr n' hDerives
    rw [hDerives.parseExpression_eq hLast hTs]
    exact ⟨rfl, rfl⟩

/- Tokens of two `if`s with one `else`, at no certain place. -/
def danglingElse : List Token :=
  let kinds : List Token.Kind :=
    [.keyword .ifWord, .symbol .leftParen, .identifier, .symbol .rightParen,
     .keyword .ifWord, .symbol .leftParen, .identifier, .symbol .rightParen,
     .identifier, .symbol .semicolon, .keyword .elseWord, .identifier, .symbol .semicolon]
  kinds.map fun kind => ⟨kind, "", 1, ""⟩

theorem danglingElse_derived :
    (∀ token ∈ danglingElse, token.kind ≠ .endOfFile) ∧
      ∃ body n',
        Derives False .declarations 0 danglingElse body
          n' := by
  have hTs :
      ∀ token ∈ danglingElse, token.kind ≠ .endOfFile := by
    decide
  have hExact :=
    parse_accepts_iff_derives danglingElse
      (Token.endOfFile 1 "") 0 rfl hTs
  exact ⟨hTs, hExact.1.mp (by decide +kernel)⟩

end Grammar

end Scriptlet
