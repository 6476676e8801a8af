import Scriptlet.Proofs.Grammar.Follow

/-
  Two runs of a rule side by side.

  Key declarations include:
    * `Grammar.Bond`
    * `Grammar.Relates`
    * `Grammar.Allows`

  A rule looks at the kind of the token at the cursor and at
  nothing else.  A bond tells which places of two runs belong
  together; if it lets the runs step over the same kinds of
  tokens, the rule goes the same way in both of them, also
  where it fails.
-/

namespace Scriptlet

namespace Grammar

variable {α β γ δ : Type}

/- Braces, and the words of phrases with statements inside. -/
def nests : Token.Kind → Bool
  | .symbol .leftBrace => true
  | .symbol .rightBrace => true
  | .keyword .classWord => true
  | .keyword .fnWord => true
  | .keyword .forWord => true
  | .keyword .ifWord => true
  | .keyword .whileWord => true
  | .keyword .loopWord => true
  | _ => false

/- No brace, no semicolon and no end of file passes the test. -/
def Plain (test : Token.Kind → Bool) : Prop :=
  test (.symbol .leftBrace) = false ∧ test (.symbol .rightBrace) = false ∧
    test (.symbol .semicolon) = false ∧ test .endOfFile = false

instance (test : Token.Kind → Bool) : Decidable (Plain test) :=
  inferInstanceAs (Decidable (_ ∧ _ ∧ _ ∧ _))

/- A kind that passes the test is none of these. -/
theorem Plain.kind {test : Token.Kind → Bool} (h : Plain test)
    {kind : Token.Kind} (hTest : test kind = true) : Plain (· = kind) := by
  have hOther {other : Token.Kind} (hOther : test other = false) :
      decide (other = kind) = false := by
    refine decide_eq_false ?_
    rintro rfl
    exact absurd (hTest.symm.trans hOther) nofun
  exact ⟨hOther h.1, hOther h.2.1, hOther h.2.2.1, hOther h.2.2.2⟩

/-
  The stage of a phrase behind a token of this kind.  At
  stage `0` the phrase is over, at stage `d + 1` it stands
  behind `d` open braces.
-/
inductive Passing (ending : Nat → Nat) : Token.Kind → Nat → Nat → Prop
  | left {d : Nat} : Passing ending (.symbol .leftBrace) (d + 1) (d + 2)
  | right {d : Nat} : Passing ending (.symbol .rightBrace) (d + 2) (d + 1)
  | semicolon {d : Nat} : Passing ending (.symbol .semicolon) (d + 1) (ending (d + 1))
  | other {kind : Token.Kind} {d : Nat} (h : Plain (· = kind)) : Passing ending kind (d + 1) (d + 1)

theorem Passing.inside {ending : Nat → Nat} {kind : Token.Kind} {s e : Nat}
    (h : Passing ending kind s e) : ∃ d, s = d + 1 := by
  cases h <;> exact ⟨_, rfl⟩

theorem Passing.ne_end {ending : Nat → Nat} {kind : Token.Kind} {s e : Nat}
    (h : Passing ending kind s e) : kind ≠ .endOfFile := by
  cases h with
  | other h =>
    rintro rfl
    exact absurd h.2.2.2 nofun
  | _ => nofun

def Fault.map (g : Token → Token) (fault : Fault) : Fault :=
  { fault with token := g fault.token }

/- The same kind of token at the cursor, `k` numbers later. -/
structure Standing (g : Token → Token) (k : Nat) (c c' : Cursor) : Prop where
  head : c'.tokens.head? = c.tokens.head?.map g
  last : c'.last = g c.last
  ends : c.last.kind = .endOfFile
  nextId : c'.nextId = c.nextId + k

/-
  Places of two runs that belong together.  `rel` is told the
  tokens `near` that were passed and the stage, and `lost` the
  fault.  A bond is full if the runs may go through phrases
  with statements inside, and loose if the second run may use
  up its budget alone.
-/
structure Bond (g : Token → Token) (k : Nat) where
  rel : List Token → Nat → Cursor → Cursor → Prop
  lost : Fault → Cursor → Cursor → Prop
  ending : Nat → Nat
  loose : Prop
  full : Prop
  kind (token : Token) : (g token).kind = token.kind
  standing {near d c c'} : rel near (d + 1) c c' → Standing g k c c'
  fresh {near d c c'} : rel near (d + 1) c c' →
      rel near (d + 1) { c with nextId := c.nextId + 1 } { c' with nextId := c'.nextId + 1 }
  step {near ts ts' d e} {c c' : Cursor} {token} :
    rel near d c c' → c.tokens = token :: ts → c'.tokens = g token :: ts' →
      Passing ending token.kind d e →
        rel (token :: near) e { c with tokens := ts } { c' with tokens := ts' }
  forget {near d c c' token} :
    rel (token :: near) d c c' → rel near d c c'
  fail {near d c c'} {fault : Fault} :
    rel near (d + 1) c c' → fault.token ∈ c.current :: near → lost fault c c'
  whole {near d c c'} :
    rel near (d + 1) c c' → nests c.current.kind = true → full
  tokens {near d c c'} :
    full → rel near (d + 1) c c' → c'.tokens = c.tokens.map g
  ending_eq (d : Nat) : full → ending d = d

variable {g : Token → Token} {k : Nat}

theorem kind_id (token : Token) : (id token).kind = token.kind := rfl

/- Outcomes that belong together. -/
inductive Bond.Meets (m : Bond g k) (near : List Token) (d : Nat) (T : α → β) :
    Outcome α → Outcome β → Prop
  | done {value : α} {c c' : Cursor} (h : m.rel near d c c') :
      Meets m near d T (.done value c) (.done (T value) c')
  | failed {fault : Fault} {c c' : Cursor} (h : m.lost fault c c') :
      Meets m near d T (.failed fault c) (.failed (fault.map g) c')
  | exhausted : Meets m near d T .exhausted .exhausted
  | loose (h : m.loose) {outcome : Outcome α} : Meets m near d T outcome .exhausted

/- From stage `d` the rules go to stage `e`, or fail, together. -/
def Relates (m : Bond g k) (near : List Token) (d e : Nat) (T : α → β)
    (rule : Rule α) (rule' : Rule β) : Prop :=
  ∀ c c' : Cursor, m.rel near d c c' → m.Meets near e T (rule c) (rule' c')

/- The same where `token` is at the cursor. -/
def Upon (m : Bond g k) (token : Token) (near : List Token) (d e : Nat)
    (T : α → β) (rule : Rule α) (rule' : Rule β) : Prop :=
  ∀ c c' : Cursor, m.rel near d c c' → c.current = token → m.Meets near e T (rule c) (rule' c')

/- The rules end at the stage they start from. -/
abbrev Stays (m : Bond g k) (near : List Token) (d : Nat) (T : α → β) (rule : Rule α)
    (rule' : Rule β) : Prop :=
  Relates m near (d + 1) (d + 1) T rule rule'

/- Budgets of the two runs. -/
inductive Allows (loose : Prop) : Nat → Nat → Prop
  | none : Allows loose 0 0
  | less (h : loose) (budget : Nat) : Allows loose budget 0
  | more {budget budget' : Nat} (h : Allows loose budget budget') :
      Allows loose (budget + 1) (budget' + 1)

theorem Allows.refl {loose : Prop} (budget : Nat) : Allows loose budget budget := by
  induction budget with
  | zero => exact .none
  | succ budget ih => exact .more ih

theorem Allows.of_le {loose : Prop} (h : loose) {budget budget' : Nat}
    (hLe : budget' ≤ budget) : Allows loose budget budget' := by
  induction budget' generalizing budget with
  | zero => exact .less h budget
  | succ budget' ih =>
    obtain ⟨budget, rfl⟩ := Nat.exists_eq_add_one_of_ne_zero
      (Nat.ne_of_gt (Nat.lt_of_lt_of_le budget'.succ_pos hLe))
    exact .more (ih (Nat.le_of_succ_le_succ hLe))

variable {m : Bond g k} {near : List Token} {d e f : Nat} {T : α → β} {S : γ → δ}
variable {rule : Rule α} {rule' : Rule β}

theorem Bond.Meets.forget {token : Token} {outcome : Outcome α}
    {outcome' : Outcome β} (h : m.Meets (token :: near) d T outcome outcome') :
    m.Meets near d T outcome outcome' := by
  cases h with
  | done h => exact .done (m.forget h)
  | failed h => exact .failed h
  | exhausted => exact .exhausted
  | loose h => exact .loose h

theorem Standing.current {c c' : Cursor} (h : Standing g k c c') :
    c'.current = g c.current := by
  rw [Cursor.current, Cursor.current, List.headD_eq_head?_getD, h.head, h.last,
    List.headD_eq_head?_getD, Option.getD_map]

/- Both runs are at their end, or both have a token. -/
theorem Standing.cases {c c' : Cursor} (h : Standing g k c c') :
    (c.tokens = [] ∧ c'.tokens = []) ∨
      ∃ token ts ts', c.tokens = token :: ts ∧ c'.tokens = g token :: ts' := by
  have hHead := h.head
  cases hTokens : c.tokens with
  | nil =>
    rw [hTokens] at hHead
    exact .inl ⟨rfl, List.head?_eq_none_iff.mp hHead⟩
  | cons token ts =>
    rw [hTokens] at hHead
    rcases List.head?_eq_some_iff.mp hHead with ⟨ts', hTokens'⟩
    exact .inr ⟨token, ts, ts', rfl, hTokens'⟩

theorem Bond.semicolon (hFull : m.full) :
    Passing m.ending (.symbol .semicolon) (d + 1) (d + 1) := by
  have hPass := @Passing.semicolon m.ending d
  rw [m.ending_eq (d + 1) hFull] at hPass
  exact hPass

namespace Relates

theorem pure (value : α) : Relates m near d d T (Pure.pure value) (Pure.pure (T value)) :=
  fun _ _ hRel => .done hRel

theorem exhausted : Relates m near d e T Grammar.exhausted Grammar.exhausted :=
  fun _ _ _ => .exhausted

theorem loose (h : m.loose) : Relates m near d e T rule Grammar.exhausted :=
  fun _ _ _ => .loose h

theorem bind {next : α → Rule γ} {next' : β → Rule δ} (hRule : Relates m near d e T rule rule')
    (hNext : ∀ value, Relates m near e f S (next value) (next' (T value))) :
    Relates m near d f S (rule >>= next) (rule' >>= next') := by
  intro c c' hRel
  have hMeets := hRule c c' hRel
  change m.Meets near f S (Rule.bind rule next c) (Rule.bind rule' next' c')
  unfold Rule.bind
  generalize rule c = outcome, rule' c' = outcome' at hMeets
  cases hMeets with
  | done h => exact hNext _ _ _ h
  | failed h => exact .failed h
  | exhausted => exact .exhausted
  | loose h => exact .loose h

/- A rule that only looks gives the same answer in both runs. -/
theorem looking {look : Rule γ} {answer : Cursor → γ}
    (hLook : ∀ c, look c = .done (answer c) c)
    (hAnswer : ∀ c c', m.rel near (d + 1) c c' → answer c' = answer c)
    {next : γ → Rule α} {next' : γ → Rule β}
    (hNext : ∀ value, Relates m near (d + 1) e T (next value) (next' value)) :
    Relates m near (d + 1) e T (look >>= next) (look >>= next') := by
  intro c c' hRel
  rw [bind_done (hLook c), bind_done (hLook c'), hAnswer c c' hRel]
  exact hNext _ c c' hRel

theorem atEnd {next : Bool → Rule α} {next' : Bool → Rule β}
    (hNext : ∀ ends, Relates m near (d + 1) e T (next ends) (next' ends)) :
    Relates m near (d + 1) e T (Grammar.atEnd >>= next) (Grammar.atEnd >>= next') := by
  refine looking (fun _ => rfl) (fun c c' hRel => ?_) hNext
  rcases (m.standing hRel).cases with ⟨hNil, hNil'⟩ | ⟨_, _, _, hTs, hTs'⟩
  · rw [hNil, hNil']
  · rw [hTs, hTs', List.isEmpty_cons, List.isEmpty_cons]

theorem sees {kind : Token.Kind} {next : Bool → Rule α} {next' : Bool → Rule β}
    (hNext : ∀ seen, Relates m near (d + 1) e T (next seen) (next' seen)) :
    Relates m near (d + 1) e T (Grammar.sees kind >>= next) (Grammar.sees kind >>= next') := by
  have hLook (c : Cursor) : Grammar.sees kind c =
        .done (c.tokens.head?.any (decide <| ·.kind = kind)) c := by
    rcases c with ⟨_ | _, _, _, _⟩ <;> rfl
  refine looking hLook (fun c c' hRel => ?_) hNext
  rw [(m.standing hRel).head, Option.any_map]
  simp only [m.kind]

/- A new number is new in the other run. -/
theorem freshId {next : Nat → Rule α} {next' : Nat → Rule β}
    (hNext : ∀ id, Relates m near (d + 1) e T (next id) (next' (id + k))) :
    Relates m near (d + 1) e T (Grammar.freshId >>= next) (Grammar.freshId >>= next') := by
  intro c c' hRel
  rw [bind_done (freshId_apply _ _ _ _), bind_done (freshId_apply _ _ _ _)]
  have hNextId := (m.standing hRel).nextId
  have hMeets := hNext c.nextId _ _ (m.fresh hRel)
  rw [← hNextId] at hMeets
  exact hMeets

/- A fault at a token that was passed. -/
theorem failAt {token : Token} (hToken : token ∈ near) (cause : Cause) :
    Relates m near (d + 1) e T (Grammar.failAt token cause) (Grammar.failAt (g token) cause) :=
  fun _ _ hRel => .failed (m.fail hRel (List.mem_cons_of_mem _ hToken))

/- A token that has to come next. -/
theorem expect {kind : Token.Kind} {cause : Cause} {next : Token → Rule α}
    {next' : Token → Rule β} (hPass : Passing m.ending kind d e)
    (hNext : ∀ token, Relates m (token :: near) e f T (next token) (next' (g token))) :
    Relates m near d f T (Grammar.expect kind cause >>= next)
      (Grammar.expect kind cause >>= next') := by
  intro c c' hRel
  rcases hPass.inside with ⟨d, rfl⟩
  have hFailed : m.Meets near f T (.failed ⟨cause, c.current⟩ c)
        (.failed ⟨cause, c'.current⟩ c') := by
    rw [(m.standing hRel).current]
    exact .failed (m.fail hRel List.mem_cons_self)
  rcases (m.standing hRel).cases with ⟨hNil, hNil'⟩ | ⟨token, ts, ts', hTs, hTs'⟩
  · have hEnd {c : Cursor} (hNil : c.tokens = []) :
        Grammar.expect kind cause c = .failed ⟨cause, c.current⟩ c := by
      simp [Grammar.expect, hNil, Cursor.current]
    rw [bind_failed (hEnd hNil), bind_failed (hEnd hNil')]
    exact hFailed
  · by_cases hKind : token.kind = kind
    · have hDone {c : Cursor} {token : Token} {ts : List Token}
          (hTs : c.tokens = token :: ts) (hKind : token.kind = kind) :
          Grammar.expect kind cause c = .done token { c with tokens := ts } := by
        simp [Grammar.expect, hTs, hKind]
      rw [bind_done (hDone hTs hKind), bind_done (hDone hTs' ((m.kind token).trans hKind))]
      subst hKind
      exact (hNext token _ _ (m.step hRel hTs hTs' hPass)).forget
    · have hOther {c : Cursor} {token : Token} {ts : List Token}
          (hTs : c.tokens = token :: ts) (hKind : token.kind ≠ kind) :
          Grammar.expect kind cause c = .failed ⟨cause, c.current⟩ c := by
        simp [Grammar.expect, hTs, hKind, Cursor.current]
      rw [bind_failed (hOther hTs hKind),
        bind_failed (hOther hTs' fun h => hKind ((m.kind token).symm.trans h))]
      exact hFailed

/-
  A token that may come next.  If it starts a phrase with
  statements inside, the bond is full.
-/
theorem optional {test : Token.Kind → Bool} {next : Option Token → Rule α}
    {next' : Option Token → Rule β}
    (hPass : ∀ kind, test kind = true → Passing m.ending kind (d + 1) e)
    (hSome : ∀ token, test token.kind = true → (nests token.kind = true → m.full) →
          Relates m (token :: near) e f T (next (some token)) (next' (some (g token))))
    (hNone : Relates m near (d + 1) f T (next none) (next' none)) :
    Relates m near (d + 1) f T (Grammar.acceptIf test >>= next)
      (Grammar.acceptIf test >>= next') := by
  intro c c' hRel
  have hStay {c : Cursor} (hTest : ∀ token ∈ c.tokens.head?,
        test token.kind = false) : Grammar.acceptIf test c = .done none c := by
    rcases c with ⟨_ | ⟨token, ts⟩, _, _, _⟩
    · rfl
    · simp [Grammar.acceptIf, hTest token rfl]
  rcases (m.standing hRel).cases with ⟨hNil, hNil'⟩ | ⟨token, ts, ts', hTs, hTs'⟩
  · rw [bind_done (hStay (by simp [hNil])), bind_done (hStay (by simp [hNil']))]
    exact hNone c c' hRel
  · cases hTest : test token.kind with
    | false =>
      rw [bind_done (hStay (by simp [hTs, hTest])),
        bind_done (hStay (by simp [hTs', m.kind, hTest]))]
      exact hNone c c' hRel
    | true =>
      have hDone {c : Cursor} {token : Token} {ts : List Token}
          (hTs : c.tokens = token :: ts) (hTest : test token.kind = true) :
          Grammar.acceptIf test c = .done (some token) { c with tokens := ts } := by
        simp [Grammar.acceptIf, hTs, hTest]
      have hFull (hNests : nests token.kind = true) : m.full :=
        m.whole hRel (by simpa [Cursor.current, hTs] using hNests)
      rw [bind_done (hDone hTs hTest), bind_done (hDone hTs' (by rw [m.kind, hTest]))]
      exact (hSome token hTest hFull _ _ (m.step hRel hTs hTs' (hPass _ hTest))).forget

theorem acceptIf {test : Token.Kind → Bool} {next : Option Token → Rule α}
    {next' : Option Token → Rule β} (hTest : Plain test)
    (hSome : ∀ token, Relates m (token :: near) (d + 1) e T (next (some token))
        (next' (some (g token)))) (hNone : Relates m near (d + 1) e T (next none) (next' none)) :
    Relates m near (d + 1) e T (Grammar.acceptIf test >>= next) (Grammar.acceptIf test >>= next') :=
  optional (fun _ hKind => .other (hTest.kind hKind)) (fun token _ _ => hSome token) hNone

theorem accept {kind : Token.Kind} {next : Option Token → Rule α}
    {next' : Option Token → Rule β} (hPass : Passing m.ending kind (d + 1) e)
    (hSome : (nests kind = true → m.full) → ∀ token,
        Relates m (token :: near) e f T (next (some token)) (next' (some (g token))))
    (hNone : Relates m near (d + 1) f T (next none) (next' none)) :
    Relates m near (d + 1) f T (Grammar.accept kind >>= next) (Grammar.accept kind >>= next') := by
  refine optional (e := e) (fun other hKind => ?_) (fun token hKind hFull => ?_) hNone
  · rw [of_decide_eq_true hKind]
    exact hPass
  · exact hSome (of_decide_eq_true hKind ▸ hFull) token

/- The token at the cursor decides how to go on. -/
theorem peek {next : Token → Rule α} {next' : Token → Rule β}
    (hNext : ∀ token, Upon m token near (d + 1) e T (next token) (next' (g token))) :
    Relates m near (d + 1) e T (Grammar.peek >>= next) (Grammar.peek >>= next') := by
  intro c c' hRel
  rw [bind_done (peek_apply c), bind_done (peek_apply c'), (m.standing hRel).current]
  exact hNext _ c c' hRel rfl

/- A full bond stays inside a phrase behind a semicolon. -/
theorem ending_iff (hFull : m.full) :
    Relates m near d (m.ending e) T rule rule' ↔ Relates m near d e T rule rule' := by
  rw [m.ending_eq e hFull]

theorem upon (h : Relates m near d e T rule rule') (token : Token) :
    Upon m token near d e T rule rule' := fun c c' hRel _ => h c c' hRel

end Relates

namespace Upon

variable {token : Token} {kind : Token.Kind}

/- A rule behind the token at the cursor. -/
theorem skip (hKind : token.kind = kind) (hPass : Passing m.ending kind d e)
    (h : Relates m (token :: near) e f T rule rule') :
    Upon m token near d f T (do Grammar.skip; rule) (do Grammar.skip; rule') := by
  intro c c' hRel hToken
  rcases hPass.inside with ⟨d, rfl⟩
  rcases (m.standing hRel).cases with ⟨hNil, _⟩ | ⟨first, ts, ts', hTs, hTs'⟩
  · have hLast := (m.standing hRel).ends
    rw [Cursor.current, hNil] at hToken
    exact absurd (hKind.symm.trans (hToken ▸ hLast)) hPass.ne_end
  · obtain rfl : first = token := by
      rw [← hToken, Cursor.current, hTs]
      rfl
    have hDone {c : Cursor} {token : Token} {ts : List Token} (hTs : c.tokens = token :: ts) :
        Grammar.skip c = .done () { c with tokens := ts } := by
      simp [Grammar.skip, hTs]
    rw [bind_done (hDone hTs), bind_done (hDone hTs')]
    exact (h _ _ (m.step hRel hTs hTs' (hKind ▸ hPass))).forget

/- A fault at the token at the cursor. -/
theorem failAt (cause : Cause) :
    Upon m token near (d + 1) e T (Grammar.failAt token cause) (Grammar.failAt (g token) cause) :=
  fun _ _ hRel hToken => .failed (m.fail hRel (hToken ▸ List.mem_cons_self))

/- The token starts a phrase with statements inside. -/
theorem inside (hKind : token.kind = kind) (hNests : nests kind = true)
    (h : m.full → Upon m token near (d + 1) e T rule rule') :
    Upon m token near (d + 1) e T rule rule' :=
  fun c c' hRel hToken => h (m.whole hRel (by rw [hToken, hKind, hNests])) c c' hRel hToken

end Upon

end Grammar

end Scriptlet
