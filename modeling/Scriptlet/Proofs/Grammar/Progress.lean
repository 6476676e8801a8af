import Scriptlet.Proofs.Grammar.Enclosed

/-
  The parser moves on and stays inside its tokens.

  Key declarations include:
    * `Grammar.Cursor.Stands`
    * `Grammar.Cursor.Stands.declaration`
    * `Grammar.Cursor.Stands.declarations`
    * `Grammar.parser_progress`

  A cursor stands at a place of the token list, up to the
  first end-of-file token.  Rules lead from one such place to
  another that is not before it, and a declaration to one
  behind it.  The tokens passed pay for the statements and
  the faults of a program.
-/

namespace Scriptlet

namespace Grammar

variable {tokens : List Token} {c c' : Cursor} {i n : Nat}

def isEnd (token : Token) : Bool := token.kind = .endOfFile

/- The place of the first end-of-file token. -/
def endIndex (tokens : List Token) : Nat := tokens.findIdx isEnd

/- The cursor is at a place that is not behind this token. -/
structure Cursor.Stands (c : Cursor) (tokens : List Token) (i : Nat) : Prop where
  inside : i ≤ endIndex tokens
  rest : c.tokens = (tokens.take (endIndex tokens)).drop i
  last : tokens[endIndex tokens]? = some c.last

theorem Cursor.Stands.last_kind (h : c.Stands tokens i) : c.last.kind = .endOfFile := by
  obtain ⟨hLess, hLast⟩ := List.getElem?_eq_some_iff.mp h.last
  have hEnd : isEnd (tokens.get ⟨endIndex tokens, hLess⟩) = true := List.findIdx_getElem
  rw [List.get_eq_getElem, hLast] at hEnd
  exact of_decide_eq_true hEnd

theorem Cursor.Stands.length (h : c.Stands tokens i) :
    i + c.tokens.length = endIndex tokens := by
  have hLess := (List.getElem?_eq_some_iff.mp h.last).1
  have hInside := h.inside
  rw [h.rest, List.length_drop, List.length_take]
  omega

/- The token at the cursor is the one at its place. -/
theorem Cursor.Stands.current (h : c.Stands tokens i) : tokens[i]? = some c.current := by
  have hLength := h.length
  cases hTokens : c.tokens with
  | nil =>
    rw [hTokens] at hLength
    rw [Cursor.current, hTokens, List.headD_nil, ← h.last, ← hLength]
    rfl
  | cons token others =>
    rw [hTokens, List.length_cons] at hLength
    have hHead : c.tokens[0]? = some token := by rw [hTokens]; rfl
    rw [h.rest, List.getElem?_drop, List.getElem?_take_of_lt (by omega)] at hHead
    rw [Cursor.current, hTokens]
    exact hHead

variable {ts : List Token}

theorem Cursor.Stands.passes (h : c.Stands tokens i)
    (hPasses : Passes c ts c') : c'.Stands tokens (i + ts.length) where
  inside := by
    have hLength := h.length
    rw [hPasses.tokens, List.length_append] at hLength
    omega
  rest := by
    rw [← List.drop_drop, ← h.rest, hPasses.tokens, List.drop_left]
  last := by rw [h.last, hPasses.last]

/- A list that ends with an end-of-file token has a start. -/
theorem Cursor.start?_stands {final : Token} (hFinal : tokens.getLast? = some final)
    (hEnd : final.kind = .endOfFile) (n : Nat) :
    ∃ c, Cursor.start? tokens n = some c ∧ c.Stands tokens 0 ∧ c.faults = [] := by
  have hLess : endIndex tokens < tokens.length :=
    List.findIdx_lt_length_of_exists
      ⟨final, List.mem_of_getLast? hFinal, decide_eq_true hEnd⟩
  have hFound : tokens.find? (fun token => decide (token.kind = .endOfFile)) =
      some (tokens.get ⟨endIndex tokens, hLess⟩) :=
    List.find?_eq_getElem?_findIdx.trans (List.getElem?_eq_getElem hLess)
  refine ⟨⟨tokens.takeWhile (!isEnd ·), tokens.get ⟨endIndex tokens, hLess⟩, n, []⟩, ?_,
    ⟨Nat.zero_le _, ?_, ?_⟩, rfl⟩
  · simp only [Cursor.start?, hFinal, hFound, hEnd, decide_true, if_true]
    rfl
  · rw [List.takeWhile_eq_take_findIdx_not, List.drop_zero]
    simp only [Bool.not_not]
    rfl
  · exact List.getElem?_eq_getElem hLess

theorem Cursor.start?_eq_none (hFinal : ∀ final, tokens.getLast? = some final →
      final.kind ≠ .endOfFile) (n : Nat) : Cursor.start? tokens n = none := by
  simp only [Cursor.start?]
  split
  · next final last hLast _ => simp [hFinal final hLast]
  · rfl

/- The rule ends at a place of the list, not before `i`. -/
def Outcome.EndsFrom {α : Type} (outcome : Outcome α) (tokens : List Token) (i : Nat) : Prop :=
  let later (c : Cursor) : Prop := ∃ j, i ≤ j ∧ c.Stands tokens j
  outcome.Satisfies (fun _ => later) later

variable {owed : Nat}

theorem Cursor.Stands.endsFrom {α : Type} {outcome : Outcome α} {meaning : Meaning α}
    (h : c.Stands tokens i) (hOutcome : outcome.Satisfies (Built owed c meaning) (Moves owed c)) :
    outcome.EndsFrom tokens i := by
  refine hOutcome.mono ?_ ?_
  · rintro value c' ⟨ts, hPasses, -⟩
    exact ⟨i + ts.length, Nat.le_add_right _ _, h.passes hPasses⟩
  · rintro c' ⟨ts, hPasses, -⟩
    exact ⟨i + ts.length, Nat.le_add_right _ _, h.passes hPasses⟩

/- A declaration gets further, with or without a fault. -/
theorem Cursor.Stands.declaration {b : Nat} (h : c.Stands tokens i)
    (hLength : c.tokens.length < b) (hTokens : c.tokens ≠ []) :
    ∃ stmt c' j, (rules (b + 1)).declaration c = .done stmt c' ∧ c'.Stands tokens j ∧ i < j := by
  have hOutcome := (rules_follow b).declaration c h.last_kind hLength hTokens
  cases hDone : (rules (b + 1)).declaration c with
  | failed fault c' => exact absurd hDone (recovers_declaration _ _ _ _)
  | exhausted =>
    rw [hDone] at hOutcome
    exact hOutcome.elim
  | done stmt c' =>
    rw [hDone] at hOutcome
    rcases hOutcome with ⟨ts, hPasses, -, hMeaning⟩
    refine ⟨stmt, c', i + ts.length, rfl, h.passes hPasses,
      Nat.lt_add_of_pos_right (List.length_pos_iff.mpr ?_)⟩
    rintro rfl
    have hMeaning := hMeaning _ fun h => h
    cases stmt with
    | none => exact hTokens (hPasses.tokens.trans (hMeaning.2.2 rfl))
    | some stmt =>
      rcases Derives.opening hMeaning with ⟨_, _, hCons, _⟩
      cases hCons

/- What a cursor has spent on faults or has left to spend. -/
def Cursor.funds (c : Cursor) : Nat := c.faults.length + c.tokens.length

theorem Passes.funds (h : Passes c ts c')
    (hSpends : Spends owed c ts c') : c'.funds < c.funds + owed := by
  rw [Spends] at hSpends
  rw [Cursor.funds, Cursor.funds, h.tokens, List.length_append]
  omega

variable {first : Option Stmt}

/- A token is left over for each statement. -/
theorem recovering_funds {rule : Rule Stmt} {b : Nat}
    (hRule : Follows b rule (As .declaration) 0) (hLast : c.last.kind = .endOfFile)
    (hLength : c.tokens.length < b) (hTokens : c.tokens ≠ [])
    (hDone : recovering rule c = .done first c') :
    first.toList.length + c'.funds ≤ c.funds := by
  cases first with
  | none =>
    have hOutcome := follows_recovering hRule c hLast hLength hTokens
    rw [hDone] at hOutcome
    rcases hOutcome with ⟨ts, hPasses, hSpends, -⟩
    rw [Option.toList_none, List.length_nil, Nat.zero_add]
    exact Nat.le_of_lt_succ (hPasses.funds hSpends)
  | some stmt =>
    have hOutcome := hRule c hLast hLength
    rw [recovering] at hDone
    split at hDone
    next hValue =>
      cases hDone
      rw [hValue] at hOutcome
      rcases hOutcome with ⟨ts, hPasses, hSpends, -⟩
      rw [Option.toList_some, List.length_singleton, Nat.add_comm]
      exact hPasses.funds hSpends
    all_goals cases hDone

theorem declaration_funds {b : Nat} (hLast : c.last.kind = .endOfFile)
    (hLength : c.tokens.length < b) (hTokens : c.tokens ≠ [])
    (hDone : (rules (b + 1)).declaration c = .done first c') :
    first.toList.length + c'.funds ≤ c.funds := by
  cases b with
  | zero => cases hLength
  | succ b =>
    have hInner := rules_follow b
    have hExpression := follows_assignment hInner (Nat.le_refl (b + 1))
    have hStatement := follows_statement hExpression hInner (Nat.le_succ b)
    exact recovering_funds (follows_declared hExpression hInner hStatement (Nat.le_refl (b + 1)))
      hLast hLength hTokens hDone

/- Declarations, one by one, lead to the end of the list. -/
theorem Cursor.Stands.declarations {b k : Nat} (h : c.Stands tokens i)
    (hB : c.tokens.length < b) (hK : c.tokens.length < k) :
    ∃ body c', Grammar.declarations (fun _ => false) (rules (b + 1)).declaration k c =
        .done body c' ∧ c'.Stands tokens (endIndex tokens) ∧ body.length + c'.funds ≤ c.funds := by
  induction k generalizing c i with
  | zero => cases hK
  | succ k ih =>
    rcases c with ⟨ts, last, n, faults⟩
    cases ts with
    | nil =>
      refine ⟨[], _, rfl, ?_, Nat.le_of_eq (Nat.zero_add _)⟩
      rw [← h.length]
      exact h
    | cons token ts =>
      obtain ⟨first, c₁, j, hFirst, hStands, hFurther⟩ := h.declaration hB (List.cons_ne_nil _ _)
      have hFunds := declaration_funds h.last_kind hB (List.cons_ne_nil _ _) hFirst
      have hLength := h.length
      have hLength₁ := hStands.length
      obtain ⟨others, c', hOthers, hEnd, hCount⟩ := ih hStands (by omega) (by omega)
      refine ⟨first.toList ++ others, c', ?_, hEnd, ?_⟩
      · rw [declarations_cons, bind_done hFirst, bind_done hOthers, pure_apply]
      · rw [List.length_append]
        omega

variable {b : Nat}

theorem Cursor.Stands.wholeExpression (h : c.Stands tokens i) (hB : c.tokens.length < b) :
    (Grammar.wholeExpression (b + 1) c).EndsFrom tokens i := by
  refine (h.endsFrom ((rules_follow b).expression c h.last_kind hB)).bind fun expr c₁ hLater => ?_
  rw [bind_done (rfl : atEnd c₁ = _)]
  split
  · exact hLater
  · exact hLater

/-
  A rule ends at a place of the list that is not before its
  own, and a declaration that does not start at the end gets
  further.  A program ends at the first end-of-file token,
  with no more statements and faults than tokens before it.
  A list without a last end-of-file token has neither.
-/
theorem parser_progress (tokens : List Token) (n : Nat) :
    (∀ c i b, c.Stands tokens i → endIndex tokens < i + b →
      tokens[i]? = some c.current ∧
      ((rules (b + 1)).expression c).EndsFrom tokens i ∧
      ((rules (b + 1)).statement c).EndsFrom tokens i ∧
      (c.current.kind ≠ .endOfFile →
        ∃ stmt c' j,
          (rules (b + 1)).declaration c = .done stmt c' ∧
          c'.Stands tokens j ∧ i < j)) ∧
    (∀ final, tokens.getLast? = some final →
      final.kind = .endOfFile →
        ∃ c body c',
          Cursor.start? tokens n = some c ∧
          c.Stands tokens 0 ∧ endIndex tokens < c.budget ∧
          program c.budget c = .done body c' ∧
          c'.Stands tokens (endIndex tokens) ∧
          parseProgram tokens n =
            ⟨body, c'.nextId, c'.faults⟩ ∧
          body.length + c'.faults.length ≤
            endIndex tokens ∧
          (wholeExpression c.budget c).EndsFrom tokens 0) ∧
    ((∀ final, tokens.getLast? = some final →
        final.kind ≠ .endOfFile) →
      parseProgram tokens n = ⟨[], n, []⟩ ∧
      parseExpression tokens n = ⟨none, n, []⟩) := by
  refine ⟨?_, ?_, ?_⟩
  · intro c i b hStands hB
    have hLength : c.tokens.length < b := by
      have := hStands.length
      omega
    have hFollow := rules_follow b
    refine ⟨hStands.current, hStands.endsFrom (hFollow.expression c hStands.last_kind hLength),
      hStands.endsFrom (hFollow.statement c hStands.last_kind hLength), fun hCurrent => ?_⟩
    refine hStands.declaration hLength fun hTokens => hCurrent ?_
    rw [Cursor.current, hTokens]
    exact hStands.last_kind
  · intro final hFinal hEnd
    obtain ⟨c, hStart, hStands, hFaults⟩ := Cursor.start?_stands hFinal hEnd n
    have hLength := hStands.length
    obtain ⟨body, c', hDone, hStands', hCount⟩ := hStands.declarations
      (Nat.lt_succ_self c.tokens.length) (Nat.lt_add_of_pos_right (Nat.succ_pos 1))
    have hProgram : program c.budget c = .done body c' := hDone
    refine ⟨c, body, c', hStart, hStands, ?_, hProgram, hStands', ?_, ?_,
      hStands.wholeExpression (Nat.lt_succ_self _)⟩
    · rw [Cursor.budget]
      omega
    · rw [parseProgram, hStart]
      simp only [hProgram]
    · rw [Cursor.funds, Cursor.funds, hFaults, List.length_nil] at hCount
      omega
  · intro hFinal
    rw [parseProgram, parseExpression, Cursor.start?_eq_none hFinal]
    exact ⟨rfl, rfl⟩

/- Two blocks that are not closed. -/
def openBlocks : List Token :=
  let kinds : List Token.Kind := [.symbol .leftBrace, .symbol .leftBrace, .endOfFile]
  kinds.map fun kind => ⟨kind, "", 1, ""⟩

/- All tokens are spent on faults. -/
theorem openBlocks_spent :
    endIndex openBlocks = (parseProgram openBlocks 0).faults.length ∧
    ∃ c body c',
      Cursor.start? openBlocks 0 = some c ∧
      program c.budget c = .done body c' ∧
      c'.Stands openBlocks (endIndex openBlocks) ∧
      body.length + c'.faults.length ≤ endIndex openBlocks := by
  obtain ⟨c, body, c', hStart, -, -, hDone, hStands, -, hCount, -⟩ :=
    (parser_progress openBlocks 0).2.1 _ rfl rfl
  exact ⟨by decide +kernel, c, body, c', hStart, hDone, hStands, hCount⟩

end Grammar

end Scriptlet
