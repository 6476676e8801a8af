import Scriptlet.Proofs.Grammar.Reading

/-
  What rules do on any tokens.

  Key declarations include:
    * `Grammar.Passes`
    * `Grammar.Outcome.Satisfies`
    * `Grammar.Follows`
    * `Grammar.Rules.Follow`
    * `Grammar.follows_assignment`

  A rule follows a phrase if, on fewer tokens than a bound,
  it does not run out of budget, and the tokens it passes on
  the way to a value derive that value.  Where it recorded
  faults, tokens may have been left out, and there are no
  more of these faults than tokens that were passed.  The
  rules inside a rule have a smaller bound: they start behind
  a token.
-/

namespace Scriptlet

namespace Grammar

variable {α β : Type}

/- The cursor passes the tokens `ts`. -/
structure Passes (c : Cursor) (ts : List Token) (c' : Cursor) : Prop where
  tokens : c.tokens = ts ++ c'.tokens
  last : c'.last = c.last
  ids : c.nextId ≤ c'.nextId
  faults : c.faults.length ≤ c'.faults.length

/-
  The faults recorded on the way are fewer than the tokens
  passed and those counted in advance.
-/
def Spends (owed : Nat) (c : Cursor) (ts : List Token) (c' : Cursor) : Prop :=
  c'.faults.length < c.faults.length + ts.length + owed

/-
  A rule has failed behind some tokens, or on the spot and
  without a fault on record.
-/
def Moves (owed : Nat) (c c' : Cursor) : Prop :=
  ∃ ts, Passes c ts c' ∧ (Spends owed c ts c' ∨ ts = [] ∧ c'.faults.length = c.faults.length)

theorem Passes.refl (c : Cursor) : Passes c [] c := ⟨rfl, rfl, Nat.le_refl _, Nat.le_refl _⟩

variable {c₁ c₂ : Cursor} {ts us : List Token}

theorem Passes.trans {c₃ : Cursor}
    (h : Passes c₁ ts c₂) (h' : Passes c₂ us c₃) : Passes c₁ (ts ++ us) c₃ where
  tokens := by rw [h.tokens, h'.tokens, List.append_assoc]
  last := h'.last.trans h.last
  ids := Nat.le_trans h.ids h'.ids
  faults := Nat.le_trans h.faults h'.faults

variable {c : Cursor}

/- Stepping over a token. -/
theorem Passes.token {rest : List Token} {token : Token}
    (h : Passes c ts c₁) (hTokens : c₁.tokens = token :: rest) :
    Passes c (ts ++ [token]) { c₁ with tokens := rest } :=
  h.trans ⟨hTokens, rfl, Nat.le_refl _, Nat.le_refl _⟩

variable {c' : Cursor} {owed : Nat}

/- Fewer tokens are left. -/
theorem Passes.lt {b : Nat}
    (h : Passes c ts c') (hTs : ts ≠ []) (hLength : c.tokens.length < b + 1) :
    c'.tokens.length < b := by
  have hPositive := List.length_pos_iff.mpr hTs
  rw [h.tokens, List.length_append] at hLength
  omega

theorem Passes.below {b : Nat} (h : Passes c ts c')
    (hLength : c.tokens.length < b) : c'.tokens.length < b := by
  rw [h.tokens, List.length_append] at hLength
  omega

variable {m : Nat}

/- Faults recorded before stay recorded. -/
theorem Passes.grow (h : Passes c ts c') : m < c.faults.length → m < c'.faults.length :=
  fun hLess => Nat.lt_of_lt_of_le hLess h.faults

/- Faults recorded later were not there before. -/
theorem Passes.shrink (h : Passes c ts c') :
    c'.faults.length < m → c.faults.length < m :=
  Nat.lt_of_le_of_lt h.faults

theorem Moves.refl (c : Cursor) : Moves owed c c := ⟨[], .refl c, .inr ⟨rfl, rfl⟩⟩

/- What is behind the tokens may record as many faults as it passes tokens. -/
theorem Spends.trans (h : Spends owed c ts c₁)
    (h' : Spends 1 c₁ us c₂) : Spends owed c (ts ++ us) c₂ := by
  unfold Spends at h h' ⊢
  rw [List.length_append]
  omega

theorem Spends.moves_trans (h : Spends owed c ts c₁)
    (hPasses : Passes c ts c₁) (h' : Moves 1 c₁ c₂) : Moves owed c c₂ := by
  rcases h' with ⟨us, hUs, hSpends | ⟨rfl, hFaults⟩⟩
  · exact ⟨ts ++ us, hPasses.trans hUs, .inl (h.trans hSpends)⟩
  · refine ⟨ts ++ [], hPasses.trans hUs, .inl ?_⟩
    rw [Spends, hFaults, List.append_nil]
    exact h

theorem Moves.eased (h : Moves 0 c c') : Moves 1 c c' := by
  rcases h with ⟨ts, hPasses, hSpends | hStays⟩
  · exact ⟨ts, hPasses, .inl (Nat.lt_succ_of_lt hSpends)⟩
  · exact ⟨ts, hPasses, .inr hStays⟩

/- The rule ends, with a value or failing as told. -/
def Outcome.Satisfies (outcome : Outcome α) (done : α → Cursor → Prop)
    (failed : Cursor → Prop) : Prop :=
  match outcome with
  | .done value c => done value c
  | .failed _ c => failed c
  | .exhausted => False

variable {failed : Cursor → Prop}

variable {done : α → Cursor → Prop}

theorem Outcome.Satisfies.bind {rule : Rule α} {next : α → Rule β}
    {done' : β → Cursor → Prop}
    (h : (rule c).Satisfies done failed)
    (hNext : ∀ value c', done value c' → (next value c').Satisfies done' failed) :
    ((rule >>= next) c).Satisfies done' failed := by
  cases hRule : rule c with
  | done value c' =>
    rw [hRule] at h
    rw [bind_done hRule]
    exact hNext value c' h
  | failed fault c' =>
    rw [hRule] at h
    rw [bind_failed hRule]
    exact h
  | exhausted =>
    rw [hRule] at h
    exact h.elim

theorem Outcome.Satisfies.mono {outcome : Outcome α}
    {done' : α → Cursor → Prop} {failed' : Cursor → Prop}
    (h : outcome.Satisfies done failed) (hDone : ∀ value c, done value c → done' value c)
    (hFailed : ∀ c, failed c → failed' c) : outcome.Satisfies done' failed' := by
  cases outcome with
  | done value c => exact hDone value c h
  | failed fault c => exact hFailed c h
  | exhausted => exact h

/-
  What is known of a value: how far tokens may have been left
  out, the node numbers before and after it, its tokens and
  those that come next.
-/
abbrev Meaning (α : Type) := Prop → Nat → List Token → α → Nat → List Token → Prop

/- The value is derived for the phrase. -/
abbrev As (phrase : Phrase) : Meaning phrase.Tree :=
  fun gaps n ts tree n' _ => Derives gaps phrase n ts tree n'

/-
  A rule at `c` has led to a value with this meaning, where
  tokens may be left out if it has recorded faults.
-/
def Built (owed : Nat) (c : Cursor) (meaning : Meaning α) (value : α) (c' : Cursor) : Prop :=
  ∃ ts, Passes c ts c' ∧ Spends owed c ts c' ∧
    ∀ gaps : Prop, (c.faults.length < c'.faults.length → gaps) →
      meaning gaps c.nextId ts value c'.nextId c'.tokens

/-
  On fewer tokens than `bound` the rule ends, and its values
  have this meaning.  Behind a token that it may count with
  its own, a rule owes one; a rule that owes none has passed
  more tokens than it has recorded faults.
-/
def Follows (bound : Nat) (rule : Rule α) (meaning : Meaning α) (owed : Nat := 1) : Prop :=
  ∀ c : Cursor, c.last.kind = .endOfFile → c.tokens.length < bound →
        (rule c).Satisfies (Built owed c meaning) (Moves owed c)

/- What a value means behind a token. -/
def Meaning.behind (meaning : Meaning α) (token : Token) : Meaning α :=
  fun gaps n ts value n' rest => meaning gaps n (token :: ts) value n' rest

/- What a value means behind another one. -/
def Meaning.after (meaning : Meaning β) (first : Meaning α) (value : α) : Meaning β :=
  fun gaps n₁ us result n' rest => ∀ n ts, first gaps n ts value n₁ (us ++ rest) →
      meaning gaps n (ts ++ us) result n' rest

section

variable {b b' : Nat} {rule : Rule α} {next : α → Rule β} {first : Meaning α} {meaning : Meaning β}

theorem Follows.zero : Follows 0 rule first owed := fun _ _ hLength => nomatch hLength

theorem Follows.weaken (h : Follows b rule first owed) (hB : b' ≤ b) :
    Follows b' rule first owed := fun c hLast hLength => h c hLast (by omega)

theorem Follows.mono {rule : Rule β} {first : Meaning β} (h : Follows b rule first owed)
    (hMeaning : ∀ {gaps n ts value n' rest}, first gaps n ts value n' rest →
        meaning gaps n ts value n' rest) : Follows b rule meaning owed := by
  intro c hLast hLength
  refine (h c hLast hLength).mono ?_ fun _ hMoves => hMoves
  rintro value c' ⟨ts, hPasses, hSpends, hFirst⟩
  exact ⟨ts, hPasses, hSpends, fun gaps hGaps => hMeaning (hFirst gaps hGaps)⟩

theorem Follows.eased (h : Follows b rule first 0) : Follows b rule first := by
  intro c hLast hLength
  refine (h c hLast hLength).mono ?_ fun _ => Moves.eased
  rintro value c' ⟨ts, hPasses, hSpends, hFirst⟩
  exact ⟨ts, hPasses, Nat.lt_succ_of_lt hSpends, hFirst⟩

theorem Follows.returns {value : β} (h : ∀ gaps n rest, meaning gaps n [] value n rest) :
    Follows b (pure value) meaning :=
  fun c _ _ => ⟨[], .refl c, Nat.lt_succ_self _, fun gaps _ => h gaps _ _⟩

variable {token : Token} {cause : Cause}

theorem Follows.fails :
    Follows b (failAt token cause) meaning owed := fun c _ _ => .refl c

variable {value : α}

/- Both parts are built before what comes next. -/
private theorem Built.trans {c c₁ : Cursor} (h : Built owed c first value c₁)
    {outcome : Outcome β}
    (h' : outcome.Satisfies (Built 1 c₁ (meaning.after first value)) (Moves 1 c₁)) :
    outcome.Satisfies (Built owed c meaning) (Moves owed c) := by
  rcases h with ⟨ts, hPasses, hSpends, hFirst⟩
  refine h'.mono ?_ fun _ => hSpends.moves_trans hPasses
  rintro result c₂ ⟨us, hUs, hSpends', hMeaning⟩
  refine ⟨ts ++ us, hPasses.trans hUs, hSpends.trans hSpends', fun gaps hGaps => ?_⟩
  refine hMeaning gaps (fun h => hGaps (hPasses.shrink h)) c.nextId ts ?_
  rw [← hUs.tokens]
  exact hFirst gaps fun h => hGaps (hUs.grow h)

theorem Follows.andThen (h : Follows b rule first owed)
    (hNext : ∀ value, Follows b (next value) (meaning.after first value)) :
    Follows b (rule >>= next) meaning owed := by
  intro c hLast hLength
  refine (h c hLast hLength).bind fun value c₁ hBuilt => hBuilt.trans ?_
  rcases hBuilt with ⟨ts, hPasses, _⟩
  exact hNext value c₁ (by rw [hPasses.last, hLast]) (hPasses.below hLength)

/- A rule that passes some token if there is one. -/
theorem Follows.andThenLess {c : Cursor}
    (h : (rule c).Satisfies (Built owed c first) (Moves owed c))
    (hTs : ∀ {gaps n value n' rest}, first gaps n [] value n' rest → rest = [])
    (hNext : ∀ value, Follows b (next value) (meaning.after first value))
    (hLast : c.last.kind = .endOfFile) (hLength : c.tokens.length < b + 1)
    (hTokens : c.tokens ≠ []) :
    ((rule >>= next) c).Satisfies (Built owed c meaning) (Moves owed c) := by
  refine h.bind fun value c₁ hBuilt => hBuilt.trans ?_
  rcases hBuilt with ⟨ts, hPasses, -, hFirst⟩
  refine hNext value c₁ (by rw [hPasses.last, hLast]) (hPasses.lt ?_ hLength)
  rintro rfl
  have hAll := hPasses.tokens
  rw [hTs (hFirst _ fun h => h)] at hAll
  exact hTokens hAll

theorem Follows.map {f : α → β} (h : Follows b rule first owed)
    (hMeaning : ∀ {gaps n ts value n' rest}, first gaps n ts value n' rest →
        meaning gaps n ts (f value) n' rest) :
    Follows b (rule >>= fun value => pure (f value)) meaning owed := by
  refine h.andThen fun value => .returns fun gaps n rest n₀ ts hFirst => ?_
  rw [List.append_nil]
  exact hMeaning hFirst

/- Steps of a rule inside. -/
theorem Follows.inner {γ : Type} {later : β → Rule γ} {meaning : Meaning γ}
    (h : Follows b (rule >>= fun value => next value >>= later) meaning owed) :
    Follows b ((rule >>= next) >>= later) meaning owed := by
  rw [bind_assoc]
  exact h

theorem Follows.given (h : Follows b (next value) meaning) :
    Follows b (pure value >>= next) meaning := h

/- A rule behind a token. -/
theorem Follows.behindToken {rule : Rule β} {rest : List Token}
    (h : Follows b rule (meaning.behind token)) {c : Cursor} (hLast : c.last.kind = .endOfFile)
    (hTokens : c.tokens = token :: rest) (hLength : c.tokens.length < b + 1) :
    (rule { c with tokens := rest }).Satisfies (Built owed c meaning) (Moves owed c) := by
  have hPasses := (Passes.refl c).token hTokens
  have hSpends : Spends owed c [token] { c with tokens := rest } :=
    Nat.lt_add_right owed (Nat.lt_succ_self _)
  refine (h { c with tokens := rest } hLast (hPasses.lt (by simp) hLength)).mono ?_
    fun _ => hSpends.moves_trans hPasses
  rintro value c' ⟨us, hUs, hSpends', hMeaning⟩
  exact ⟨token :: us, hPasses.trans hUs, hSpends.trans hSpends', hMeaning⟩

variable {kind : Token.Kind}

theorem Follows.expectLess {next : Token → Rule β}
    (h : ∀ token, token.kind = kind → Follows b (next token) (meaning.behind token)) :
    Follows (b + 1) (expect kind cause >>= next) meaning owed := by
  intro c hLast hLength
  cases hTokens : c.tokens with
  | nil =>
    have hFailed : expect kind cause c = .failed ⟨cause, c.last⟩ c := by
      simp [expect, hTokens]
    rw [bind_failed hFailed]
    exact .refl c
  | cons token rest =>
    by_cases hKind : token.kind = kind
    · have hDone : expect kind cause c = .done token { c with tokens := rest } := by
        simp [expect, hTokens, hKind]
      rw [bind_done hDone]
      exact (h token hKind).behindToken hLast hTokens hLength
    · have hFailed : expect kind cause c = .failed ⟨cause, token⟩ c := by
        simp [expect, hTokens, hKind]
      rw [bind_failed hFailed]
      exact .refl c

theorem Follows.expect {next : Token → Rule β}
    (h : ∀ token, token.kind = kind → Follows b (next token) (meaning.behind token)) :
    Follows b (expect kind cause >>= next) meaning owed :=
  (Follows.expectLess h).weaken (Nat.le_succ b)

/- The tokens are clear of the test where none is accepted. -/
theorem Follows.acceptIf {test : Token.Kind → Bool} {next : Option Token → Rule β}
    (hB : b' ≤ b + 1)
    (hSome : ∀ token, test token.kind = true →
        Follows b (next (some token)) (meaning.behind token))
    (hNone : Follows b' (next none) (fun gaps n ts value n' rest =>
        Clear test (ts ++ rest) → meaning gaps n ts value n' rest) owed) :
    Follows b' (acceptIf test >>= next) meaning owed := by
  intro c hLast hLength
  by_cases hClear : Clear test c.tokens
  · rw [bind_done (acceptIf_clear hClear _ _ _)]
    refine (hNone c hLast hLength).mono ?_ fun _ hMoves => hMoves
    rintro value c' ⟨ts, hPasses, hSpends, hMeaning⟩
    rw [hPasses.tokens] at hClear
    exact ⟨ts, hPasses, hSpends, fun gaps hGaps => hMeaning gaps hGaps hClear⟩
  · cases hTokens : c.tokens with
    | nil =>
      rw [hTokens] at hClear
      exact absurd (clear_nil test) hClear
    | cons token rest =>
      have hTest : test token.kind = true := by
        rw [hTokens] at hClear
        cases hToken : test token.kind with
        | true => rfl
        | false => exact absurd (clear_cons rfl hToken rest) hClear
      have hDone : Grammar.acceptIf test c = .done (some token) { c with tokens := rest } := by
        simp [Grammar.acceptIf, hTokens, hTest]
      rw [bind_done hDone]
      exact (hSome token hTest).behindToken hLast hTokens (by omega)

theorem Follows.accept {next : Option Token → Rule β} (hB : b' ≤ b + 1)
    (hSome : ∀ token, token.kind = kind → Follows b (next (some token)) (meaning.behind token))
    (hNone : Follows b' (next none) (fun gaps n ts value n' rest =>
        Clear (fun k => k = kind) (ts ++ rest) → meaning gaps n ts value n' rest) owed) :
    Follows b' (accept kind >>= next) meaning owed :=
  .acceptIf hB (fun token hTest => hSome token (of_decide_eq_true hTest)) hNone

theorem sees_done (kind : Token.Kind) (c : Cursor) :
    ∃ answer, sees kind c = .done answer c := by
  unfold sees
  split <;> exact ⟨_, rfl⟩

theorem Follows.sees {next : Bool → Rule β}
    (h : ∀ answer, Follows b (next answer) meaning) : Follows b (sees kind >>= next) meaning := by
  intro c hLast hLength
  obtain ⟨answer, hDone⟩ := sees_done kind c
  rw [bind_done hDone]
  exact h answer c hLast hLength

theorem Follows.peek {next : Token → Rule β} (h : ∀ token, Follows b (next token) meaning) :
    Follows b (peek >>= next) meaning := fun c hLast hLength => h c.current c hLast hLength

theorem Follows.freshId {next : Nat → Rule β}
    (h : ∀ id, Follows b (next id) fun gaps n ts value n' rest =>
        n = id + 1 → meaning gaps id ts value n' rest) :
    Follows b (freshId >>= next) meaning := by
  intro c hLast hLength
  have hPasses : Passes c [] { c with nextId := c.nextId + 1 } :=
    ⟨rfl, rfl, Nat.le_succ _, Nat.le_refl _⟩
  refine (h c.nextId { c with nextId := c.nextId + 1 } hLast hLength).mono ?_
    fun _ => Spends.moves_trans (Nat.lt_succ_self _) hPasses
  rintro value c' ⟨ts, hTs, hSpends, hMeaning⟩
  exact ⟨ts, hPasses.trans hTs, hSpends, fun gaps hGaps => hMeaning gaps hGaps rfl⟩

/- A rule that goes by the token at the cursor. -/
theorem Follows.choose {next : Token → Rule β}
    (h : ∀ {c : Cursor} (rule : Rule β), c.last.kind = .endOfFile → c.tokens.length < b →
        rule = next c.current → (rule c).Satisfies (Built owed c meaning) (Moves owed c)) :
    Follows b (Grammar.peek >>= next) meaning owed :=
  fun c hLast hLength => h (next c.current) hLast hLength rfl

/- Behind the token at the cursor, if it is not the last one. -/
theorem Follows.skip {rule : Rule β} {c : Cursor}
    (h : Follows b rule (meaning.behind c.current)) (hLast : c.last.kind = .endOfFile)
    (hLength : c.tokens.length < b + 1) (hCurrent : c.current.kind = kind)
    (hKind : kind ≠ .endOfFile) :
    ((do skip; rule) c).Satisfies (Built owed c meaning) (Moves owed c) := by
  cases hTokens : c.tokens with
  | nil =>
    have hEnd : c.current = c.last := by simp [Cursor.current, hTokens]
    rw [hEnd, hLast] at hCurrent
    exact absurd hCurrent.symm hKind
  | cons token rest =>
    have hToken : c.current = token := by simp [Cursor.current, hTokens]
    have hDone : Grammar.skip c = .done () { c with tokens := rest } := by
      simp [Grammar.skip, hTokens]
    rw [bind_done hDone]
    rw [hToken] at h
    exact h.behindToken hLast hTokens hLength

end

end Grammar

------------------------------------------------------------
-- Rules for Expressions
------------------------------------------------------------

namespace Grammar

variable {α : Type} {b k : Nat}

theorem follows_expectName (cause : Cause) :
    Follows b (expectName cause) fun _ n ts name n' _ =>
        ts = [name] ∧ name.kind = .identifier ∧ n' = n := by
  rw [← bind_pure (expectName cause)]
  exact .expect fun name hName => .returns fun _ _ _ => ⟨rfl, hName, rfl⟩

/-
  What the items of a list mean and what the list means.  A
  list phrase is made from its first item or from its first
  item and the list of the others.
-/
structure Listed (one : Meaning α)
    (many : Prop → Nat → List Token → List α → Nat → Prop) : Prop where
  single {gaps n ts item n' rest} : one gaps n ts item n' rest → many gaps n ts [item] n'
  more {gaps n n₁ n₂ ts item rest comma us items} : one gaps n ts item n₁ rest →
    comma.kind = .symbol .comma → many gaps n₁ us items n₂ →
    many gaps n (ts ++ comma :: us) (item :: items) n₂

section

variable {item : Rule α} {one : Meaning α}
variable {many : Prop → Nat → List Token → List α → Nat → Prop}
variable (hListed : Listed one many) (hItem : Follows b item one) (cause : Cause) (hK : b ≤ k)

include hListed hItem hK

theorem follows_commaListFrom (count : Nat) :
    Follows b (commaListFrom cause item k count) fun gaps n ts items n' _ =>
        many gaps n ts items n' ∧ count + items.length ≤ listLimit := by
  induction b generalizing k count with
  | zero => exact .zero
  | succ b ih =>
    obtain ⟨k, rfl⟩ := Nat.exists_eq_add_of_le' hK
    rw [← Nat.add_assoc, commaListFrom]
    split
    · exact .peek fun _ => .fails
    next hCount =>
    have hOthers := ih (hItem.weaken (Nat.le_succ b)) (Nat.le_add_left b k) (count + 1)
    refine hItem.andThen fun first => .accept (Nat.le_refl _) (fun comma hComma => ?_) ?_
    · refine hOthers.map ?_
      rintro gaps n us others n' rest ⟨hMany, hLimit⟩ n₀ ts hFirst
      refine ⟨hListed.more hFirst hComma hMany, ?_⟩
      rw [List.length_cons]
      omega
    · refine .returns fun gaps n rest _ n₀ ts hFirst => ?_
      rw [List.append_nil]
      refine ⟨hListed.single hFirst, ?_⟩
      rw [List.length_singleton]
      omega

/- A list that may be empty. -/
theorem follows_commaList (close : Symbol) :
    Follows b (commaList cause k close item) fun gaps n ts items n' _ =>
        (ts = [] ∧ items = [] ∧ n' = n) ∨ many gaps n ts items n' ∧ items.length ≤ listLimit := by
  refine .sees fun seen => ?_
  cases seen with
  | true => exact .returns fun _ _ _ => .inl ⟨rfl, rfl, rfl⟩
  | false =>
    refine (follows_commaListFrom hListed hItem cause hK 0).mono ?_
    rintro gaps n ts items n' rest ⟨hMany, hLimit⟩
    rw [Nat.zero_add] at hLimit
    exact .inr ⟨hMany, hLimit⟩

end

theorem listed_expressions :
    Listed (As .expression) fun gaps n ts items n' =>
        Derives gaps .list n ts items n' where
  single h := .lastItem h
  more h hComma hItems := .moreItems h hComma hItems

theorem listed_names :
    Listed (fun _ n ts name n' _ => ts = [name] ∧ name.kind = .identifier ∧ n' = n)
      fun gaps n ts items n' =>
        n' = n ∧ Derives gaps .names n ts items n where
  single := by
    rintro _ _ _ _ _ _ ⟨rfl, hName, rfl⟩
    exact ⟨rfl, .lastName hName⟩
  more := by
    rintro _ _ _ _ _ _ _ _ _ _ ⟨rfl, hName, rfl⟩ hComma ⟨rfl, hNames⟩
    exact ⟨rfl, .moreNames hName hComma hNames⟩

/- Arguments of a call or elements of an array. -/
theorem follows_arguments {expression : Rule Expr}
    (hExpression : Follows b expression (As .expression)) (cause : Cause)
    (close : Symbol) (hK : b ≤ k) :
    Follows b (commaList cause k close expression) (As .arguments) := by
  refine (follows_commaList listed_expressions hExpression cause hK close).mono ?_
  rintro gaps n ts items n' rest (⟨rfl, rfl, rfl⟩ | ⟨hList, hLimit⟩)
  · exact .noArgument
  · exact .someArguments hList hLimit

theorem follows_parameters (hK : b ≤ k) :
    Follows b (commaList .tooManyParameters k .rightParen (expectName .parameterName))
      fun gaps n ts params n' _ =>
        n' = n ∧ Derives gaps .parameters n ts params n := by
  refine (follows_commaList listed_names (follows_expectName _) _ hK _).mono ?_
  rintro gaps n ts params n' rest (⟨rfl, rfl, hIds⟩ | ⟨⟨hIds, hNames⟩, hLimit⟩)
  · exact ⟨hIds, .noParameter⟩
  · exact ⟨hIds, .someParameters hNames hLimit⟩

/-
  A declaration, or a gap where one has failed.  A failed
  declaration leaves tokens out unless none are left.
-/
def declarationMeaning : Meaning (Option Stmt) :=
  fun gaps n ts stmt n' rest =>
    match stmt with
    | some stmt => Derives gaps .declaration n ts stmt n'
    | none => gaps ∧ n ≤ n' ∧ (ts = [] → rest = [])

/- A statement that ends at an `else` is not open to it. -/
def statementMeaning : Meaning Stmt :=
  fun gaps n ts stmt n' rest =>
    ∃ isOpen, Derives gaps (.statement isOpen) n ts stmt n' ∧ (isOpen = true → Clear isElse rest)

/- The rule follows a phrase where a token is left. -/
def FollowsOn (bound : Nat) (rule : Rule α) (meaning : Meaning α) : Prop :=
  ∀ c : Cursor, c.last.kind = .endOfFile → c.tokens.length < bound → c.tokens ≠ [] →
        (rule c).Satisfies (Built 1 c meaning) (Moves 1 c)

/- The rules inside follow their phrases. -/
structure Rules.Follow (bound : Nat) (inner : Rules) : Prop where
  expression : Follows bound inner.expression (As .expression)
  statement : Follows bound inner.statement statementMeaning
  declaration : FollowsOn bound inner.declaration declarationMeaning

variable {bound : Nat}

theorem Rules.Follow.weaken {bound' : Nat} {inner : Rules}
    (h : inner.Follow bound) (hBound : bound' ≤ bound) : inner.Follow bound' where
  expression := h.expression.weaken hBound
  statement := h.statement.weaken hBound
  declaration c hLast hLength := h.declaration c hLast (Nat.lt_of_lt_of_le hLength hBound)

variable {inner : Rules}

theorem follows_declarations {declaration : Rule (Option Stmt)}
    (hDeclaration : FollowsOn b declaration declarationMeaning)
    (stops : Token → Bool) (hK : b ≤ k) :
    Follows b (declarations stops declaration k) fun gaps n ts body n' rest =>
        Derives gaps .declarations n ts body n' ∧ ∀ token ∈ rest.head?, stops token = true := by
  induction b generalizing k with
  | zero => exact .zero
  | succ b ih =>
    intro c hLast hLength
    obtain ⟨k, rfl⟩ := Nat.exists_eq_add_of_le' hK
    rw [← Nat.add_assoc, declarations, bind_done (rfl : atEnd c = _), bind_done (peek_apply c)]
    split
    · next hStop =>
      refine ⟨[], .refl c, Nat.lt_succ_self _, fun _ _ => ⟨.noDeclaration, ?_⟩⟩
      intro token hToken
      cases hTokens : c.tokens with
      | nil => simp [hTokens] at hToken
      | cons first others =>
        simp [hTokens] at hToken
        simpa [Cursor.current, hTokens, hToken] using hStop
    next hGo =>
    have hTokens : c.tokens ≠ [] := by
      intro hNil
      simp [hNil] at hGo
    have hLoop := ih (fun c hLast hLength => hDeclaration c hLast (Nat.lt_succ_of_lt hLength))
      (Nat.le_add_left b k)
    refine Follows.andThenLess (hDeclaration c hLast hLength hTokens) ?_
      (fun first => hLoop.map ?_) hLast hLength hTokens
    · rintro gaps n (_ | stmt) n' rest hFirst
      · exact hFirst.2.2 rfl
      · rcases Derives.opening hFirst with ⟨_, _, hCons, _⟩
        cases hCons
    · rintro gaps n us others n' rest ⟨hBody, hStops⟩ n₀ ts hFirst
      refine ⟨?_, hStops⟩
      cases first with
      | some stmt => exact .moreDeclarations hFirst hBody
      | none => exact .leftOut ts hFirst.1 hFirst.2.1 hBody

section

variable (hInner : inner.Follow b)

include hInner

variable {opening : Token}

/- A block behind its opening brace. -/
theorem follows_block (hK : b ≤ k)
    (hOpening : opening.kind = .symbol .leftBrace) :
    Follows b (block inner k) ((As .block).behind opening) :=
  (follows_declarations hInner.declaration closesBlock hK).andThen fun _ =>
    .expect fun _ hClosing => .returns fun _ _ _ _ _ hBody =>
      .block hOpening hBody.1 hClosing

/- A function behind the parenthesis of its parameters. -/
theorem follows_functionRest (hK : b ≤ k) (name : Option Token) (keyword : Token)
    (hOpening : opening.kind = .symbol .leftParen) :
    Follows b (functionRest inner k name keyword)
      ((As (.signature name keyword)).behind opening) := by
  refine (follows_parameters hK).andThen fun params => .expect fun closing hClosing =>
    .expect fun brace hBrace => (follows_block hInner hK hBrace).map ?_
  rintro gaps n us body n' rest hBody _ ts ⟨rfl, hParams⟩
  exact .signature hOpening hParams hClosing hBody

variable {keyword : Token}

omit hInner in
theorem follows_superRest (hKeyword : keyword.kind = .keyword .superWord) :
    Follows b (superRest keyword) ((As .primary).behind keyword) := by
  refine .expect fun dot hDot => .expect fun method hMethod =>
    .freshId fun id => .returns ?_
  rintro gaps n rest rfl
  exact .superMethod hKeyword hDot hMethod

theorem follows_groupRest (hOpening : opening.kind = .symbol .leftParen) :
    Follows b (groupRest inner) ((As .primary).behind opening) :=
  hInner.expression.andThen fun _ => .expect fun _ hClosing =>
    .returns fun _ _ _ _ _ hExpr => .group hOpening hExpr hClosing

theorem follows_arrayRest (hK : b ≤ k)
    (hOpening : opening.kind = .symbol .leftSquare) :
    Follows b (arrayRest inner k) ((As .primary).behind opening) :=
  (follows_arguments hInner.expression _ _ hK).andThen fun _ => .expect fun _ hBracket =>
    .returns fun _ _ _ _ _ hElements => .array hOpening hElements hBracket

theorem follows_literalRest (hK : b ≤ k)
    (hKeyword : keyword.kind = .keyword .fnWord) :
    Follows b (literalRest inner k keyword) ((As .primary).behind keyword) :=
  .expect fun _ hOpening =>
    (follows_functionRest hInner hK none keyword hOpening).map fun hFunction =>
      .functionLiteral hKeyword hFunction

theorem follows_primary (hK : b ≤ k) : Follows (b + 1) (primary inner k) (As .primary) 0 := by
  refine .choose fun rule hLast hLength hRule => ?_
  split at hRule
  all_goals subst hRule
  all_goals rename_i hKind
  case h_1 | h_2 | h_3 | h_4 | h_5 =>
    refine Follows.skip (.returns fun _ _ _ => .literal ?_) hLast hLength hKind nofun
    rw [hKind]
    rfl
  case h_6 =>
    refine Follows.skip (.freshId fun id => .returns ?_) hLast hLength hKind nofun
    rintro gaps n rest rfl
    exact .self hKind
  case h_7 => exact (follows_superRest hKind).skip hLast hLength hKind nofun
  case h_8 =>
    refine Follows.skip (.freshId fun id => .returns ?_) hLast hLength hKind nofun
    rintro gaps n rest rfl
    exact .name hKind
  case h_9 => exact (follows_groupRest hInner hKind).skip hLast hLength hKind nofun
  case h_10 => exact (follows_arrayRest hInner hK hKind).skip hLast hLength hKind nofun
  case h_11 => exact (follows_literalRest hInner hK hKind).skip hLast hLength hKind nofun
  case h_12 => exact Follows.fails _ hLast hLength

end

/- Trailers behind an expression. -/
def trailersMeaning (expr : Expr) : Meaning Expr :=
  fun gaps n ts result n' _ =>
    ∃ others, Derives gaps .trailers n ts others n' ∧ result = others.foldl Trailer.on expr

theorem follows_trailers (hInner : inner.Follow bound)
    (hBound : b ≤ bound + 1) (hK : b ≤ k) (expr : Expr) :
    Follows b (trailers inner k expr) (trailersMeaning expr) := by
  induction b generalizing k expr with
  | zero => exact .zero
  | succ b ih =>
    have hExpression := hInner.expression.weaken (Nat.le_of_succ_le_succ hBound)
    obtain ⟨k, rfl⟩ := Nat.exists_eq_add_of_le' hK
    have hLoop := @ih (k + b) (by omega) (Nat.le_add_left b k)
    rw [← Nat.add_assoc]
    refine .choose fun rule hLast hLength hRule => ?_
    split at hRule
    all_goals subst hRule
    case h_1 hKind =>
      refine Follows.skip (.inner ?_) hLast hLength hKind nofun
      refine (follows_arguments hExpression _ _ (Nat.le_add_left b k)).andThen fun arguments =>
        .inner (.expect fun paren hParen => .given ((hLoop _).mono ?_))
      rintro gaps n us _ n' rest ⟨others, hOthers, rfl⟩ n₀ ts hArguments
      exact ⟨.call arguments paren :: others, .callTrailer hKind hArguments hParen hOthers, rfl⟩
    case h_2 hKind =>
      refine Follows.skip (.inner ?_) hLast hLength hKind nofun
      refine .expect fun name hName => .given ((hLoop _).mono ?_)
      rintro gaps n us _ n' rest ⟨others, hOthers, rfl⟩
      exact ⟨.property name :: others, .propertyTrailer hKind hName hOthers, rfl⟩
    case h_3 hKind =>
      refine Follows.skip (.inner ?_) hLast hLength hKind nofun
      refine hExpression.andThen fun position =>
        .inner (.expect fun bracket hBracket => .given ((hLoop _).mono ?_))
      rintro gaps n us _ n' rest ⟨others, hOthers, rfl⟩ n₀ ts hPosition
      exact ⟨.element position bracket :: others,
        .elementTrailer hKind hPosition hBracket hOthers, rfl⟩
    case h_4 => exact Follows.returns (fun _ _ _ => ⟨[], .noTrailer, rfl⟩) _ hLast hLength

section

variable (hInner : inner.Follow b) (hK : b + 1 ≤ k)

include hInner hK

theorem follows_call :
    Follows (b + 1) (primary inner k >>= trailers inner k) (As .call) 0 := by
  refine (follows_primary hInner (Nat.le_of_succ_le hK)).andThen fun first =>
    (follows_trailers hInner (Nat.le_refl _) hK first).mono ?_
  rintro gaps n us _ n' rest ⟨others, hOthers, rfl⟩ n₀ ts hFirst
  exact .call hFirst hOthers

theorem follows_operand : Follows (b + 1) (operand inner k) (As .operand) 0 := by
  rw [operand_eq]
  refine (follows_call hInner hK).andThen fun expr =>
    .acceptIf (Nat.le_refl _) (fun operator hStep => ?_) (.returns fun _ _ _ _ _ ts hCall => ?_)
  · dsimp only
    rw [stepOn]
    split
    next hAssignable => exact .returns fun _ _ _ _ _ hCall => .stepAfter hCall hStep hAssignable
    · exact .fails
  · rw [List.append_nil]
    exact .unstepped hCall

variable {operand : Rule Expr}

omit hInner hK in
theorem follows_unary
    (hOperand : Follows b operand (As .operand) 0) (hK : b ≤ k) :
    Follows b (unary operand k) (As .unary) 0 := by
  induction b generalizing k with
  | zero => exact .zero
  | succ b ih =>
    obtain ⟨k, rfl⟩ := Nat.exists_eq_add_of_le' hK
    have hLoop := ih (hOperand.weaken (Nat.le_succ b)) (Nat.le_add_left b k)
    rw [← Nat.add_assoc]
    refine .acceptIf (Nat.le_refl _) (fun operator hSign => hLoop.eased.map (.sign hSign))
      (.acceptIf (Nat.le_refl _) (fun operator hStep => hLoop.eased.andThen fun target => ?_)
        (hOperand.mono fun h _ _ => .unsigned h))
    rw [stepOn]
    split
    next hAssignable =>
      refine .returns fun _ _ _ _ ts hTarget _ => ?_
      rw [List.append_nil]
      exact .stepBefore hStep hTarget hAssignable
    · exact .fails

omit hInner hK in
theorem follows_chain {tighter : List Level}
    (hOperand : Follows b operand (As (.binary tighter))) (hK : b ≤ k)
    (level : Level) (left : Expr) :
    Follows b (chain level operand k left) fun gaps n ts result n' _ =>
        ∃ others, Derives gaps (.operands level tighter) n ts others n' ∧
          result = others.foldl level.join left := by
  induction b generalizing k left with
  | zero => exact .zero
  | succ b ih =>
    obtain ⟨k, rfl⟩ := Nat.exists_eq_add_of_le' hK
    have hOperand' := hOperand.weaken (Nat.le_succ b)
    have hLoop := ih hOperand' (Nat.le_add_left b k)
    rw [← Nat.add_assoc]
    refine .acceptIf (Nat.le_refl _) (fun operator hOperator => hOperand'.andThen fun right =>
      (hLoop _).mono ?_) (.returns fun _ _ _ _ => ⟨[], .noOperand, rfl⟩)
    rintro gaps n us _ n' rest ⟨others, hOthers, rfl⟩ n₀ ts hRight
    exact ⟨(operator, right) :: others, .moreOperands hOperator hRight hOthers, rfl⟩

theorem follows_binary : Follows (b + 1) (binary inner k) (As (.binary levels)) 0 := by
  unfold binary
  induction levels with
  | nil => exact (follows_unary (follows_operand hInner hK) hK).mono .tightest
  | cons level tighter ih =>
    refine ih.andThen fun first => (follows_chain ih.eased hK level first).mono ?_
    rintro gaps n us _ n' rest ⟨others, hOthers, rfl⟩ n₀ ts hFirst
    exact .chained hFirst hOthers

/- The node of an assignment is the one of its derivation. -/
omit hInner hK in
theorem follows_assignTo {equals : Token} (hEquals : equals.kind = .symbol .equal)
    (target value : Expr) :
    Follows b (assignTo target equals value) ((((As .expression).after (As (.binary levels))
      target).behind equals).after (As .expression) value) := by
  cases hKind : target.isAssignable with
  | false =>
    cases target
    case name | get | index => cases hKind
    all_goals exact .fails
  | true =>
    cases target with
    | name id name =>
      refine .freshId fun id => .returns ?_
      rintro gaps n rest rfl n₁ us hValue n₀ ts hTarget
      cases hTarget.target_of_binary hKind with
      | nameTarget hName =>
        rw [List.append_nil]
        exact .assign hName hEquals hValue
    | get object name =>
      refine .returns fun gaps n rest n₁ us hValue n₀ ts hTarget => ?_
      cases hTarget.target_of_binary hKind with
      | propertyTarget hObject hDot hName =>
        simpa using Derives.setProperty hObject hDot hName hEquals hValue
    | index object bracket position =>
      refine .returns fun gaps n rest n₁ us hValue n₀ ts hTarget => ?_
      cases hTarget.target_of_binary hKind with
      | elementTarget hObject hOpening hPosition hBracket =>
        simpa using Derives.setElement hObject hOpening hPosition hBracket hEquals hValue
    | _ => cases hKind

theorem follows_assignment : Follows (b + 1) (assignment inner k) (As .expression) 0 := by
  refine (follows_binary hInner hK).andThen fun target => .accept (Nat.le_refl _)
    (fun equals hEquals => hInner.expression.andThen (follows_assignTo hEquals target)) ?_
  refine .acceptIf (Nat.le_refl _) (fun operator hOperator =>
    hInner.expression.andThen fun value => ?_) (.returns fun _ _ _ _ _ _ _ hTarget => ?_)
  · rw [updateOf]
    split
    next hAssignable =>
      refine .returns fun gaps n rest n₁ us hValue _ n₀ ts hTarget => ?_
      rw [List.append_nil]
      exact .compound (hTarget.target_of_binary hAssignable) hOperator hValue
    · exact .fails
  · rw [List.append_nil]
    exact .unassigned hTarget

end

end Grammar

end Scriptlet
