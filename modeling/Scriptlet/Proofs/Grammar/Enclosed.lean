import Scriptlet.Proofs.Grammar.Related

/-
  Syntax faults inside a block.

  Key declarations include:
    * `Grammar.Matched`
    * `Grammar.steadyRules`
    * `Grammar.steadyRules_track`
    * `Grammar.Steady`

  A declaration that fails is left out together with the
  tokens up to the next boundary, whatever braces are among
  them.  The steady rules are the rules of the grammar that
  give up where these braces do not match.  Where they do not
  give up they agree with the rules, each phrase is matched,
  and each fault lies at a token of the phrase around it.  So
  a block ends at the brace that matches its own, and what
  follows it is parsed as if it stood alone:
    * `Grammar.block_encloses_faults`

  Recovery itself does not look at braces, so a fault at the
  closing brace takes the block and what follows it along.
-/

namespace Scriptlet

namespace Grammar

variable {α β : Type}

/- The depth behind a token, if it closes no more than is open. -/
def brace (depth : Nat) (token : Token) : Option Nat :=
  if token.kind = .symbol .leftBrace then some (depth + 1)
  else if token.kind = .symbol .rightBrace then
    if depth = 0 then none else some (depth - 1)
  else some depth

/- The depth behind a list of tokens. -/
def depthAfter (depth : Nat) (ts : List Token) : Option Nat := ts.foldlM brace depth

/- All braces are matched. -/
def Matched (ts : List Token) : Prop := depthAfter 0 ts = some 0

instance (ts : List Token) : Decidable (Matched ts) :=
  inferInstanceAs (Decidable (depthAfter 0 ts = some 0))

variable {token : Token}

theorem brace_left (h : token.kind = .symbol .leftBrace)
    (depth : Nat) : brace depth token = some (depth + 1) := by
  simp [brace, h]

theorem brace_right (h : token.kind = .symbol .rightBrace)
    (depth : Nat) : brace (depth + 1) token = some depth := by
  simp [brace, h]

/- The depth behind a token that a rule steps over. -/
theorem Passing.brace_eq {d s : Nat}
    (h : Passing (fun d => d) token.kind (d + 1) s) : ∃ e, s = e + 1 ∧ brace d token = some e := by
  generalize hKind : token.kind = kind at h
  cases h with
  | left => exact ⟨_, rfl, brace_left hKind d⟩
  | right => exact ⟨_, rfl, brace_right hKind _⟩
  | semicolon => exact ⟨d, rfl, by simp [brace, hKind]⟩
  | other hPlain =>
    refine ⟨d, rfl, ?_⟩
    have hLeft := of_decide_eq_false hPlain.1
    have hRight := of_decide_eq_false hPlain.2.1
    simp [brace, hKind, Ne.symm hLeft, Ne.symm hRight]

/- Tokens may stand deeper. -/
theorem brace_add {depth depth' : Nat} (h : brace depth token = some depth') (k : Nat) :
    brace (k + depth) token = some (k + depth') := by
  unfold brace at h ⊢
  split at h
  case isTrue hLeft =>
    cases h
    rw [if_pos hLeft, Nat.add_assoc]
  case isFalse hLeft =>
    rw [if_neg hLeft]
    split at h
    case isTrue hRight =>
      split at h
      case isTrue => cases h
      case isFalse hDepth =>
        cases h
        rw [if_pos hRight, if_neg (by omega), Nat.add_sub_assoc (Nat.pos_of_ne_zero hDepth)]
    case isFalse hRight =>
      cases h
      rw [if_neg hRight]

theorem depthAfter_append (depth : Nat) (ts us : List Token) :
    depthAfter depth (ts ++ us) = (depthAfter depth ts).bind (depthAfter · us) := List.foldlM_append

theorem depthAfter_cons (depth : Nat) (token : Token) (ts : List Token) :
    depthAfter depth (token :: ts) = (brace depth token).bind (depthAfter · ts) := List.foldlM_cons

variable {ts : List Token}

theorem depthAfter_add {depth depth' : Nat} (h : depthAfter depth ts = some depth') (k : Nat) :
    depthAfter (k + depth) ts = some (k + depth') := by
  induction ts generalizing depth with
  | nil =>
    cases h
    rfl
  | cons token ts ih =>
    rw [depthAfter_cons, Option.bind_eq_some_iff] at h
    rcases h with ⟨middle, hToken, hTs⟩
    rw [depthAfter_cons, brace_add hToken, Option.bind_some]
    exact ih hTs

/-
  A brace that closes too much ends a matched phrase: the
  tokens before it are found by their braces alone.
-/
theorem Matched.unique {body us rest : List Token} {closing : Token}
    (hBody : Matched body) (hClosing : closing.kind = .symbol .rightBrace) (hTs : Matched ts)
    (hRest : ∀ token ∈ rest.head?, token.kind = .symbol .rightBrace)
    (hTokens : body ++ closing :: us = ts ++ rest) : ts = body ∧ rest = closing :: us := by
  have hOver (others : List Token) : depthAfter 0 (body ++ closing :: others) = none := by
    rw [depthAfter_append, hBody]
    simp [depthAfter_cons, brace, hClosing]
  rcases List.append_eq_append_iff.mp hTokens with ⟨extra, rfl, hExtra⟩ | ⟨extra, rfl, rfl⟩
  · cases extra with
    | nil => simpa using hExtra.symm
    | cons first extra =>
      -- the phrase would hold the brace that ends it
      cases hExtra
      rw [Matched, hOver] at hTs
      cases hTs
  · cases extra with
    | nil => simp
    | cons first extra =>
      -- the brace before it would close too much
      have hFirst := hRest first (by simp)
      rw [Matched, depthAfter_append, hTs] at hBody
      simp [depthAfter_cons, brace, hFirst] at hBody

/- The tokens between two places. -/
def passed (c c' : Cursor) : List Token := c.tokens.take (c.tokens.length - c'.tokens.length)

/-
  Recover as usual, but give up if the braces of what is left
  out do not match.
-/
def steadily (rule : Rule α) : Rule (Option α) :=
  fun c =>
    match recovering rule c with
    | .done (some value) c' => .done (some value) c'
    | .done none c' =>
      if Matched (passed c c') then .done none c'
      else .exhausted
    | .failed fault c' => .failed fault c'
    | .exhausted => .exhausted

/- The rules of the grammar with steady recovery. -/
def steadyRules : Nat → Rules
  | 0 => ⟨exhausted, exhausted, exhausted⟩
  | budget + 1 =>
    let inner := steadyRules budget
    let expression := assignment inner budget
    let statement := statement inner budget expression
    ⟨expression, statement, steadily (declared inner budget expression statement)⟩

/- Declarations up to the end, with steady recovery. -/
def steadyProgram (budget : Nat) : Rule (List Stmt) :=
  declarations (fun _ => false) (steadyRules budget).declaration budget

/-
  The cursor passes the tokens `ts`, and the faults recorded
  on the way lie among them, unless no token is left.
-/
structure Ranges (c : Cursor) (ts : List Token) (c' : Cursor) : Prop where
  tokens : c.tokens = ts ++ c'.tokens
  last : c'.last = c.last
  faults : ∃ new, c'.faults = c.faults ++ new ∧ ∀ fault ∈ new, fault.token ∈ ts ∨ c'.tokens = []

theorem Ranges.refl (c : Cursor) : Ranges c [] c := ⟨rfl, rfl, [], by simp, by simp⟩

theorem Ranges.trans {c₁ c₂ c₃ : Cursor} {us : List Token}
    (h : Ranges c₁ ts c₂) (h' : Ranges c₂ us c₃) : Ranges c₁ (ts ++ us) c₃ := by
  rcases h.faults with ⟨new, hNew, hIn⟩
  rcases h'.faults with ⟨new', hNew', hIn'⟩
  refine ⟨?_, h'.last.trans h.last, new ++ new', ?_, ?_⟩
  · rw [h.tokens, h'.tokens, List.append_assoc]
  · rw [hNew', hNew, List.append_assoc]
  · intro fault hFault
    rcases List.mem_append.mp hFault with hOld | hLater
    · refine (hIn fault hOld).imp (List.mem_append_left _) ?_
      intro hNone
      rw [h'.tokens] at hNone
      exact (List.append_eq_nil_iff.mp hNone).2
    · exact (hIn' fault hLater).imp_left (List.mem_append_right _)

/- The tokens between two places, told by the second one. -/
theorem Ranges.passed_eq {c c' : Cursor} (h : Ranges c ts c') : passed c c' = ts := by
  rw [passed, h.tokens, List.length_append, Nat.add_sub_cancel, List.take_left]

/- What is left out reaches from the start past the fault. -/
theorem Ranges.recovered {c c₁ : Cursor} {fault : Fault}
    (h : Ranges c ts c₁) (hFault : fault.token ∈ ts ++ [c₁.current]) :
    ∃ us, Ranges c us
        { c₁ with
          tokens := resync c₁.tokens
          faults := c₁.faults ++ [fault] } := by
  rcases resync_drops c₁.tokens with ⟨dropped, hTokens, hNone⟩
  have hIn : fault.token ∈ ts ++ dropped ∨ resync c₁.tokens = [] := by
    rcases List.mem_append.mp hFault with hTs | hCurrent
    · exact .inl (List.mem_append_left _ hTs)
    · rw [List.mem_singleton] at hCurrent
      cases dropped with
      | nil =>
        rw [hNone rfl]
        exact .inr rfl
      | cons token dropped =>
        have hToken : c₁.current = token := by
          rw [Cursor.current, hTokens]
          rfl
        rw [hCurrent, hToken]
        exact .inl (by simp)
  rcases h.faults with ⟨new, hNew, hOld⟩
  refine ⟨ts ++ dropped, ?_, h.last, new ++ [fault], ?_, ?_⟩
  · rw [List.append_assoc, ← hTokens]
    exact h.tokens
  · rw [hNew, List.append_assoc]
  · intro other hOther
    rcases List.mem_append.mp hOther with hBefore | hLater
    · refine (hOld other hBefore).imp (List.mem_append_left _) ?_
      intro hEmpty
      simp [hEmpty, resync]
    · rw [List.mem_singleton] at hLater
      rw [hLater]
      exact hIn

------------------------------------------------------------
-- Tracking
------------------------------------------------------------

/-
  The rules and their steady twins, since the place `c₀`: the
  depth behind what was passed, and a fault that lies at a
  token passed or at the cursor.
-/
def tracking (c₀ : Cursor) : Bond id 0 where
  rel near s c c' := c' = c ∧ c.last.kind = .endOfFile ∧
    ∃ d ts, s = d + 1 ∧ Ranges c₀ ts c ∧ depthAfter 0 ts = some d ∧ near ⊆ ts
  lost fault c c' := c' = c ∧ c.last.kind = .endOfFile ∧
    ∃ ts, Ranges c₀ ts c ∧ fault.token ∈ ts ++ [c.current]
  ending d := d
  loose := True
  full := True
  kind := kind_id
  standing := by
    rintro _ _ _ c ⟨rfl, hLast, _⟩
    exact ⟨by simp, rfl, hLast, rfl⟩
  fresh := by
    rintro _ _ _ c ⟨rfl, hLast, d, ts, hStage, hTs, hDepth⟩
    have hRange : Ranges c [] { c with nextId := c.nextId + 1 } := ⟨rfl, rfl, [], by simp, by simp⟩
    refine ⟨rfl, hLast, d, ts, hStage, ?_, hDepth⟩
    simpa using hTs.trans hRange
  step := by
    rintro _ rest _ _ _ _ c token ⟨rfl, hLast, d, ts, rfl, hTs, hDepth, hNear⟩
      hTokens hTokens' hPass
    obtain rfl : rest = _ := (List.cons.inj (hTokens.symm.trans hTokens')).2
    rcases hPass.brace_eq with ⟨e, rfl, hBrace⟩
    have hRange : Ranges c [token] { c with tokens := rest } := ⟨hTokens, rfl, [], by simp, by simp⟩
    refine ⟨rfl, hLast, e, ts ++ [token], rfl, hTs.trans hRange, ?_, ?_⟩
    · rw [depthAfter_append, hDepth, Option.bind_some, depthAfter_cons, hBrace]
      rfl
    · exact List.cons_subset.mpr ⟨by simp, fun t ht => List.mem_append_left _ (hNear ht)⟩
  forget := by
    rintro _ _ _ c _ ⟨rfl, hLast, d, ts, hStage, hTs, hDepth, hNear⟩
    exact ⟨rfl, hLast, d, ts, hStage, hTs, hDepth,
      List.Subset.trans (List.subset_cons_self _ _) hNear⟩
  fail := by
    rintro _ _ _ c fault ⟨rfl, hLast, d, ts, _, hTs, _, hNear⟩ hFault
    refine ⟨rfl, hLast, ts, hTs, ?_⟩
    rcases List.mem_cons.mp hFault with hHere | hBefore
    · simp [hHere]
    · exact List.mem_append_left _ (hNear hBefore)
  whole _ _ := trivial
  tokens _ h := by rw [h.1, List.map_id]
  ending_eq _ _ := rfl

variable {near : List Token} {d : Nat}

/-
  Where the steady rule does not give up, the braces of what
  is left out match.
-/
theorem relates_steadily {T : α → β} {rule : Rule α} {rule' : Rule β}
    (hRule : ∀ c, Relates (tracking c) [] 1 1 T rule rule') (c₀ : Cursor) :
    Stays (tracking c₀) near d (Option.map T) (recovering rule) (steadily rule') := by
  rintro _ c ⟨rfl, hLast, _, ts, ⟨⟩, hTs, hDepth, hNear⟩
  have hMeets := hRule c c c ⟨rfl, hLast, 0, [], rfl, .refl c, rfl, by simp⟩
  -- what is passed now closes all that it opens
  have hBehind {us : List Token} {c₁ : Cursor} (hUs : Ranges c us c₁) (hMatched : Matched us) :
      (tracking c₀).rel near (d + 1) c₁ c₁ := by
    refine ⟨rfl, by rw [hUs.last, hLast], d, ts ++ us, rfl, hTs.trans hUs, ?_,
      fun t ht => List.mem_append_left us (hNear ht)⟩
    rw [depthAfter_append, hDepth]
    exact depthAfter_add hMatched d
  unfold steadily recovering
  generalize rule c = outcome, rule' c = outcome' at hMeets
  cases hMeets with
  | done h =>
    rcases h with ⟨rfl, _, _, us, ⟨⟩, hUs, hMatched, _⟩
    exact .done (hBehind hUs hMatched)
  | failed h =>
    rcases h with ⟨rfl, _, us, hUs, hFault⟩
    rcases hUs.recovered hFault with ⟨vs, hVs⟩
    dsimp only
    split
    case isTrue hMatched => exact .done (hBehind hVs (hVs.passed_eq ▸ hMatched))
    case isFalse => exact .loose trivial
  | exhausted => exact .exhausted
  | loose => exact .loose trivial

theorem steadyRules_track (budget : Nat) (c₀ : Cursor) :
    (rules budget).Relate (tracking c₀) (steadyRules budget) := by
  induction budget generalizing c₀ with
  | zero => exact ⟨.exhausted, fun _ => .exhausted, fun _ => .exhausted⟩
  | succ budget ih =>
    refine (ih c₀).next (.refl budget) fun _ => relates_steadily (fun c => ?_) c₀
    exact relates_declared (ih c) (.refl budget) (relates_assignment (ih c) (.refl budget))
      (relates_statement (ih c) (.refl budget) (relates_assignment (ih c) (.refl budget)))

end Grammar

namespace Grammar

/- The rule did not give up. -/
def Outcome.isFinished {α : Type} : Outcome α → Bool
  | .exhausted => false
  | _ => true

/-
  Whatever declaration fails while the tokens are parsed, at
  any depth, the braces of what is left out for it match.
-/
def Steady (ts : List Token) (last : Token) (firstId : Nat) : Prop :=
  (steadyProgram (ts.length + 2) (Cursor.at ts last firstId)).isFinished = true

instance (ts : List Token) (last : Token) (firstId : Nat) :
    Decidable (Steady ts last firstId) := inferInstanceAs (Decidable (_ = true))

variable {opening closing last : Token} {body later : List Token} {n : Nat}

/- A declaration that starts with a brace is a block. -/
theorem declared_brace (hOpening : opening.kind = .symbol .leftBrace)
    (inner : Rules) (budget : Nat) (expression : Rule Expr) (ts : List Token)
    (faults : List Fault) :
    declared inner budget expression (statement inner budget expression)
        ⟨opening :: ts, last, n, faults⟩ =
      (block inner budget >>= fun stmts =>
        pure (.block stmts)) ⟨ts, last, n, faults⟩ := by
  have hClear (k : Keyword) : Clear (fun kind => kind = .keyword k) (opening :: ts) :=
    clear_cons hOpening rfl ts
  have hNone : seesFunction ⟨opening :: ts, last, n, faults⟩ =
        .done false ⟨opening :: ts, last, n, faults⟩ := by
    cases ts with
    | nil => rfl
    | cons second ts => simp [seesFunction, hOpening]
  rw [declared, bind_done (acceptWord_clear (hClear _) _ _ _)]
  dsimp only
  rw [bind_done hNone, if_neg Bool.false_ne_true, bind_done (acceptWord_clear (hClear _) _ _ _)]
  dsimp only
  rw [statement, bind_done (peek_cons _ _ _ _ _), hOpening]
  dsimp only
  rw [bind_done (skip_cons _ _ _ _ _)]

/-
  If the steady rules get through, the block ends at the
  brace that matches its own, with all faults before it.
-/
theorem block_of_steady (hClosing : closing.kind = .symbol .rightBrace)
    (hLast : last.kind = .endOfFile) (hBody : Matched body) {b : Nat}
    (hB : (body ++ closing :: later).length < b)
    (hSteady : block (steadyRules (b + 1)) (b + 1)
          ⟨body ++ closing :: later, last, n, []⟩ ≠ .exhausted) :
    ∃ stmts n' faults, block (rules (b + 1)) (b + 1) ⟨body ++ closing :: later, last, n, []⟩ =
        .done stmts ⟨later, last, n', faults⟩ ∧ ∀ fault ∈ faults, fault.token ∈ body := by
  let start : Cursor := ⟨body ++ closing :: later, last, n, []⟩
  have hRule : Relates (tracking start) [] 1 1 (stmtsMap id 0)
        (declarations closesBlock (rules (b + 1)).declaration (b + 1))
        (declarations closesBlock (steadyRules (b + 1)).declaration (b + 1)) :=
    relates_declarations ((steadyRules_track (b + 1) start).declaration trivial)
      (fun _ => rfl) (.refl (b + 1))
  have hMeets := hRule start start ⟨rfl, hLast, 0, [], rfl, .refl start, rfl, by simp⟩
  have hFollows := follows_declarations (rules_follow b).declaration
    closesBlock (Nat.le_succ b) start hLast hB
  have hRecovers : Recovers (declarations closesBlock (rules (b + 1)).declaration (b + 1)) :=
    recovers_declarations (recovers_declaration (b + 1)) (b + 1)
  cases hReal : declarations closesBlock (rules (b + 1)).declaration (b + 1) start with
  | failed fault c => exact absurd hReal (hRecovers start fault c)
  | exhausted =>
    rw [hReal] at hFollows
    exact hFollows.elim
  | done stmts c =>
    rw [hReal] at hFollows hMeets
    generalize hTwin : declarations closesBlock
      (steadyRules (b + 1)).declaration (b + 1) start = twin at hMeets
    cases hMeets with
    | loose => exact absurd (bind_exhausted hTwin) hSteady
    | done h =>
      rcases h with ⟨_, _, _, ts, ⟨⟩, hRange, hDepth, _⟩
      rcases hFollows with ⟨_, _, _, hBuilt⟩
      have hStops := (hBuilt _ fun h => h).2
      rcases hBody.unique hClosing hDepth
        (fun token hToken => by simpa [closesBlock] using hStops token hToken)
        hRange.tokens with ⟨rfl, hTokens⟩
      rcases hRange.faults with ⟨new, hNew, hIn⟩
      rcases c with ⟨tokens, last', n', faults⟩
      obtain rfl : tokens = closing :: later := hTokens
      obtain rfl : last' = last := hRange.last
      obtain rfl : faults = new := hNew
      refine ⟨stmts, n', faults, ?_, ?_⟩
      · rw [block, bind_done hReal, bind_done (expectSymbol_cons _ _ _ _ hClosing _), pure_apply]
      · intro fault hFault
        exact (hIn fault hFault).resolve_right (List.cons_ne_nil _ _)

/- A program without faults is derived with any numbers. -/
theorem derives_of_no_faults {ts : List Token} (hLast : last.kind = .endOfFile)
    (hTs : ∀ token ∈ ts, token.kind ≠ .endOfFile)
    (hFaults : (parseProgram (ts ++ [last]) 0).faults = []) (m : Nat) :
    ∃ program n', Derives False .declarations m ts program n' := by
  have hDerives : Derives False .declarations 0 ts _ _ :=
    (parseProgram_derives hLast hTs 0).mono (by simp [hFaults])
  have hMoved := hDerives.map (g := id) (fun _ => rfl) hTs m
  rw [List.map_id, Nat.zero_add] at hMoved
  exact ⟨_, _, hMoved⟩

/- A program that does not start at its end. -/
theorem declarations_cons (declaration : Rule (Option Stmt)) (k : Nat)
    (token : Token) (ts : List Token) (faults : List Fault) :
    declarations (fun _ => false) declaration (k + 1) ⟨token :: ts, last, n, faults⟩ =
      (do
        let first ← declaration
        let others ← declarations (fun _ => false) declaration k
        return first.toList ++ others : Rule (List Stmt)) ⟨token :: ts, last, n, faults⟩ := by
  rw [declarations, bind_done (atEnd_cons _ _ _ _ _), bind_done (peek_cons _ _ _ _ _)]
  rfl

section

variable {ts : List Token} {k : Nat}

variable (hOpening : opening.kind = .symbol .leftBrace)

include hOpening

/- A block that is given up is no declaration. -/
theorem steadyRules_brace (hBlock : block (steadyRules k) k ⟨ts, last, n, []⟩ = .exhausted) :
    (steadyRules (k + 1)).declaration ⟨opening :: ts, last, n, []⟩ = .exhausted := by
  show steadily (declared (steadyRules k) k _ _) _ = _
  simp only [steadily, recovering, declared_brace hOpening, bind_exhausted hBlock]

/- A block at the start of a program is its first statement. -/
theorem program_brace {stmts others : List Stmt} {c c' : Cursor}
    (hBlock : block (rules k) k ⟨ts, last, n, []⟩ = .done stmts c)
    (hOthers : declarations (fun _ => false) (rules (k + 1)).declaration k c =
        .done others c') : program (k + 1) ⟨opening :: ts, last, n, []⟩ =
      .done (.block stmts :: others) c' := by
  have hFirst : (rules (k + 1)).declaration ⟨opening :: ts, last, n, []⟩ =
        .done (some (.block stmts)) c := by
    show recovering (declared (rules k) k _ _) _ = _
    simp only [recovering, declared_brace hOpening, bind_done hBlock, pure_apply]
  rw [program, declarations_cons, bind_done hFirst, bind_done hOthers, pure_apply]
  rfl

/- A steady program goes through the block at its start. -/
theorem Steady.block_ne_exhausted (h : Steady (opening :: ts) last n) :
    block (steadyRules (ts.length + 2)) (ts.length + 2) ⟨ts, last, n, []⟩ ≠ .exhausted := by
  intro hBlock
  have hProgram : steadyProgram (ts.length + 3) ⟨opening :: ts, last, n, []⟩ = .exhausted :=
    (declarations_cons _ _ opening ts []).trans (bind_exhausted (steadyRules_brace hOpening hBlock))
  have hFinished :
      (steadyProgram (ts.length + 3) ⟨opening :: ts, last, n, []⟩).isFinished = true := h
  rw [hProgram] at hFinished
  cases hFinished

end

/-
  Faults inside a block stay inside it if the tokens are
  steady: the program is the block and what follows it, and
  all faults lie at tokens of the body.
-/
theorem block_encloses_faults
    (opening closing last : Token)
    (body later : List Token)
    (firstId : Nat)
    (hOpening : opening.kind = .symbol .leftBrace)
    (hClosing : closing.kind = .symbol .rightBrace)
    (hLast : last.kind = .endOfFile)
    (hTokens :
      ∀ token ∈ body ++ later, token.kind ≠ .endOfFile)
    (hBody : Matched body)
    (hLater : (parseProgram (later ++ [last]) 0).faults = [])
    (hSteady :
      Steady (opening :: (body ++ closing :: later)) last
        firstId) :
    let parsed :=
      parseProgram
        (opening :: (body ++ closing :: later) ++ [last])
        firstId
    (∃ stmts n',
      parsed.value =
        .block stmts ::
          (parseProgram (later ++ [last]) n').value) ∧
    ∀ fault ∈ parsed.faults, fault.token ∈ body := by
  intro parsed
  have hEnd :
      ∀ token ∈ later, token.kind ≠ .endOfFile :=
    fun token hToken =>
      hTokens token (List.mem_append_right body hToken)
  have hTs :
      ∀ token ∈ opening :: (body ++ closing :: later),
        token.kind ≠ .endOfFile := by
    simp only [List.forall_mem_cons, List.forall_mem_append]
    exact ⟨by simp [hOpening],
      fun token hToken =>
        hTokens token (List.mem_append_left later hToken),
      by simp [hClosing], hEnd⟩
  rcases block_of_steady hClosing hLast hBody
    (Nat.lt_succ_self _)
    (hSteady.block_ne_exhausted hOpening) with
    ⟨stmts, n', faults, hBlock, hFaults⟩
  rcases derives_of_no_faults hLast hEnd hLater n' with
    ⟨others, m, hOthers⟩
  have hRead :=
    hOthers.isRead
      ((body ++ closing :: later).length + 3)
      ((body ++ closing :: later).length + 2) (fun _ => false)
      (by simp; omega) (by simp; omega) (fun _ _ => rfl) []
      last faults hLast ⟨clear_nil _, by simp⟩
  rw [List.append_nil] at hRead
  have hProgram :
      let start :=
        Cursor.at (opening :: (body ++ closing :: later)) last
          firstId
      program start.budget start =
        .done (.block stmts :: others)
          ⟨[], last, m, faults⟩ :=
    program_brace hOpening hBlock hRead
  have hParsed :
      parsed = ⟨.block stmts :: others, m, faults⟩ := by
    unfold parsed parseProgram
    rw [Cursor.start?_append hLast hTs]
    simp only [hProgram]
  refine ⟨⟨stmts, n', ?_⟩, ?_⟩
  · rw [hParsed, hOthers.parseProgram_eq hLast hEnd]
  · rw [hParsed]
    exact hFaults

/-
  Two faults, one of them in a block of its own, in the block
  `{ let = a; { let; } print a; }`.
-/
def faultyBody : List Token :=
  let kinds : List Token.Kind :=
    [.keyword .letWord, .symbol .equal, .identifier, .symbol .semicolon,
     .symbol .leftBrace, .keyword .letWord, .symbol .semicolon, .symbol .rightBrace,
     .keyword .printWord, .identifier, .symbol .semicolon]
  kinds.map fun kind => ⟨kind, "", 1, ""⟩

/- A statement `print a;` on a line of its own. -/
def printLine : List Token :=
  [⟨.keyword .printWord, "", 2, ""⟩, ⟨.identifier, "", 2, ""⟩, ⟨.symbol .semicolon, "", 2, ""⟩]

def openingBrace : Token := ⟨.symbol .leftBrace, "", 1, ""⟩

def closingBrace : Token := ⟨.symbol .rightBrace, "", 1, ""⟩

theorem faultyBody_enclosed :
    Matched faultyBody ∧
    Steady
      (openingBrace ::
        (faultyBody ++ closingBrace :: printLine))
      (Token.endOfFile 3 "") 0 ∧
    let parsed :=
      parseProgram
        (openingBrace ::
          (faultyBody ++ closingBrace :: printLine) ++
            [Token.endOfFile 3 ""]) 0
    parsed.faults.length = 2 ∧ parsed.value.length = 2 ∧
      ∀ fault ∈ parsed.faults, fault.token ∈ faultyBody := by
  have hSteady :
      Steady
        (openingBrace ::
          (faultyBody ++ closingBrace :: printLine))
        (Token.endOfFile 3 "") 0 := by
    decide +kernel
  have hEnclosed :=
    block_encloses_faults openingBrace closingBrace
      (Token.endOfFile 3 "") faultyBody printLine 0 rfl rfl rfl
      (by decide) (by decide) (by decide +kernel) hSteady
  exact ⟨by decide, hSteady, by decide +kernel,
    by decide +kernel, hEnclosed.2⟩

/-
  A fault at the closing brace: in `{ let } print a;` the
  brace is left out with the fault, so the statement behind
  the block is lost and a second fault is told at the end.
-/
theorem fault_at_closing_brace :
    let body : List Token := [⟨.keyword .letWord, "", 1, ""⟩]
    let last := Token.endOfFile 3 ""
    let parsed :=
      parseProgram
        (openingBrace ::
          (body ++ closingBrace :: printLine) ++ [last]) 0
    Matched body ∧
    (parseProgram (printLine ++ [last]) 0).faults = [] ∧
    (¬ ∃ before n',
      parsed.value =
        before ++
          (parseProgram (printLine ++ [last]) n').value) ∧
    ¬ ∀ fault ∈ parsed.faults,
      fault.token ∈ body ∨ fault.token = closingBrace := by
  intro body last parsed
  have hValue : parsed.value = [] := by decide +kernel
  have hLater (n' : Nat) :
      (parseProgram (printLine ++ [last]) n').value ≠ [] := by
    have hEq :
        (parseProgram (printLine ++ [last]) n').value =
          [.print ⟨.keyword .printWord, "", 2, ""⟩
            (.name n' ⟨.identifier, "", 2, ""⟩)] := rfl
    rw [hEq]
    nofun
  refine ⟨by decide, by decide +kernel, ?_, by decide +kernel⟩
  rintro ⟨before, n', hBefore⟩
  rw [hValue] at hBefore
  exact hLater n' (List.append_eq_nil_iff.mp hBefore.symm).2

end Grammar

end Scriptlet
