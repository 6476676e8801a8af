import Scriptlet.Proofs.Grammar.Enclosed

/-
  Syntax faults between simple statements.

  Key declarations include:
    * `Grammar.IsChunk`
    * `Grammar.chunkwise`
    * `Grammar.apart`

  Recovery resumes behind the semicolon of a faulty chunk:
    * `Grammar.chunks_parsed_apart`

  No rule steps over the semicolon of a simple statement but
  to end it.  So a rule that starts in a chunk of tokens with
  one semicolon at its end does not notice what follows, and
  wherever it fails, the next boundary is behind that
  semicolon.
-/

namespace Scriptlet

namespace Grammar

/- Words of statements without statements inside. -/
def startsSimple : Token.Kind → Bool
  | .keyword .letWord => true
  | .keyword .printWord => true
  | .keyword .returnWord => true
  | .keyword .breakWord => true
  | _ => false

/-
  Tokens with one semicolon, at their end, and with nothing
  to nest statements.  Words of simple statements stand at
  the start only.
-/
structure IsChunk (chunk : List Token) : Prop where
  ends : chunk.getLast?.map Token.kind = some (.symbol .semicolon)
  once : ∀ token ∈ chunk.dropLast, token.kind ≠ .symbol .semicolon
  flat : ∀ token ∈ chunk, nests token.kind = false
  inner : ∀ token ∈ chunk, token.kind ≠ .endOfFile
  starts : ∀ token ∈ chunk.tail, startsSimple token.kind = false

variable {chunk ts us rest : List Token} {token last : Token} {n : Nat} {faults : List Fault}

theorem starts_of_startsStatement {kind : Token.Kind} (h : startsStatement kind = true) :
    nests kind = true ∨ startsSimple kind = true := by
  unfold startsStatement at h
  split at h <;> simp [nests, startsSimple] at h ⊢

/- What ends a chunk is its semicolon. -/
theorem IsChunk.nil_iff (hChunk : IsChunk chunk) (h : token :: us <:+ chunk) :
    us = [] ↔ token.kind = .symbol .semicolon := by
  rcases h with ⟨before, rfl⟩
  constructor
  · rintro rfl
    simpa using hChunk.ends
  · intro hKind
    refine Decidable.byContradiction fun hMore => ?_
    refine hChunk.once token ?_ hKind
    rw [List.dropLast_append_of_ne_nil (List.cons_ne_nil token us),
      List.dropLast_cons_of_ne_nil hMore]
    simp

theorem IsChunk.ne_nil (hChunk : IsChunk chunk) : chunk ≠ [] := by
  rintro rfl
  cases hChunk.ends

/-
  From every place in a chunk the next boundary is behind its
  semicolon.  The token at the fault is dropped unseen.
-/
theorem IsChunk.resync_eq (hChunk : IsChunk chunk) (h : token :: us <:+ chunk)
    (rest : List Token) : resync (token :: us ++ rest) = rest := by
  rw [List.cons_append, resync]
  induction us generalizing token with
  | nil =>
    have hKind := (hChunk.nil_iff h).mp rfl
    cases rest <;> simp [skipAfter, hKind]
  | cons next us ih =>
    have hKind : token.kind ≠ .symbol .semicolon := fun hKind =>
      absurd ((hChunk.nil_iff h).mpr hKind) (List.cons_ne_nil next us)
    have hNext : startsStatement next.kind = false := by
      refine Bool.eq_false_iff.mpr fun hStarts => ?_
      rcases h with ⟨before, rfl⟩
      rcases starts_of_startsStatement hStarts with hNests | hSimple
      · cases hNests.symm.trans (hChunk.flat next (by simp))
      · refine absurd (hSimple.symm.trans (hChunk.starts next ?_)) (by decide)
        cases before <;> simp
    rw [List.cons_append, skipAfter, if_neg (by simp [hKind, hNext])]
    exact ih ((List.suffix_cons token _).trans h)

/-
  The same place of a chunk, once before the tokens `rest`
  and once at the end of all tokens.  The phrase is over when
  the chunk is.
-/
def chunkwise (hChunk : IsChunk chunk) (rest : List Token) (last : Token)
    (hLast : last.kind = .endOfFile) (faults : List Fault) : Bond id 0 where
  rel near s c c' := near ⊆ chunk ∧ ∃ ts n,
    c = ⟨ts ++ rest, last, n, faults⟩ ∧ c' = ⟨ts, last, n, []⟩ ∧ ts <:+ chunk ∧ (ts = [] ↔ s = 0)
  lost fault c c' := fault.token ∈ chunk ∧ ∃ token us n,
    c = ⟨token :: us ++ rest, last, n, faults⟩ ∧
      c' = ⟨token :: us, last, n, []⟩ ∧ token :: us <:+ chunk
  ending _ := 0
  loose := True
  full := False
  kind := kind_id
  standing := by
    rintro _ d _ _ ⟨_, ts, n, rfl, rfl, _, hStage⟩
    cases ts with
    | nil => exact absurd (hStage.mp rfl) d.succ_ne_zero
    | cons token us => exact ⟨rfl, rfl, hLast, rfl⟩
  fresh := by
    rintro _ _ _ _ ⟨hNear, ts, n, rfl, rfl, hTs, hStage⟩
    exact ⟨hNear, ts, n + 1, rfl, rfl, hTs, hStage⟩
  step := by
    rintro _ _ us d e _ _ token ⟨hNear, ts, n, rfl, rfl, hTs, _⟩ hTokens hOwn hPass
    obtain rfl : ts = token :: us := hOwn
    cases hTokens
    have hMem : token ∈ chunk := hTs.subset List.mem_cons_self
    have hFlat := hChunk.flat token hMem
    have hNil := hChunk.nil_iff hTs
    refine ⟨List.cons_subset.mpr ⟨hMem, hNear⟩, us, n, rfl, rfl,
      (List.suffix_cons token us).trans hTs, hNil.trans ?_⟩
    generalize token.kind = kind at hFlat hPass
    cases hPass with
    | left | right => cases hFlat
    | semicolon => exact ⟨fun _ => rfl, fun _ => rfl⟩
    | other hPlain =>
      exact ⟨fun hKind => absurd hKind.symm (of_decide_eq_false hPlain.2.2.1), nofun⟩
  forget := by
    rintro _ _ _ _ token ⟨hNear, hRest⟩
    exact ⟨List.Subset.trans (List.subset_cons_self token _) hNear, hRest⟩
  fail := by
    rintro _ d _ _ fault ⟨hNear, ts, n, rfl, rfl, hTs, hStage⟩ hFault
    cases ts with
    | nil => exact absurd (hStage.mp rfl) d.succ_ne_zero
    | cons token us =>
      refine ⟨?_, token, us, n, rfl, rfl, hTs⟩
      rcases List.mem_cons.mp hFault with hHere | hBefore
      · rw [hHere]
        exact hTs.subset List.mem_cons_self
      · exact hNear hBefore
  whole := by
    rintro _ d _ _ ⟨_, ts, n, rfl, rfl, hTs, hStage⟩ hNests
    cases ts with
    | nil => exact absurd (hStage.mp rfl) d.succ_ne_zero
    | cons token us =>
      have hFlat := hChunk.flat token (hTs.subset List.mem_cons_self)
      exact absurd (hFlat.symm.trans hNests) nofun
  tokens h := h.elim
  ending_eq _ h := h.elim

section

variable (hChunk : IsChunk chunk) (hLast : last.kind = .endOfFile)

theorem rules_chunkwise {b b' : Nat} (hLe : b' ≤ b) :
    (rules b).Relate (chunkwise hChunk rest last hLast faults) (rules b') := by
  have hBudget : Allows True b b' := .of_le trivial hLe
  clear hLe
  induction hBudget with
  | none => exact ⟨.exhausted, fun _ => .exhausted, fun _ => .exhausted⟩
  | less => exact ⟨.loose trivial, fun _ => .loose trivial, fun _ => .loose trivial⟩
  | more hBudget ih => exact ih.next hBudget fun h => h.elim

/- What a chunk gives: a statement, or a fault at a token of it. -/
inductive Gives (chunk : List Token) : Option Stmt → List Fault → Prop
  | stmt (stmt : Stmt) : Gives chunk (some stmt) []
  | fault {fault : Fault} (h : fault.token ∈ chunk) : Gives chunk none [fault]

include hChunk hLast

/- A rule that starts with the chunk recovers behind it. -/
theorem IsChunk.recovering_eq {rule rule' : Rule Stmt}
    (hRule : Relates (chunkwise hChunk rest last hLast faults) [] 1 0 (Stmt.map id 0) rule rule')
    (hOwn : recovering rule' ⟨chunk, last, n, []⟩ ≠ .exhausted) :
    ∃ first new n', Gives chunk first new ∧ recovering rule ⟨chunk ++ rest, last, n, faults⟩ =
        .done first ⟨rest, last, n', faults ++ new⟩ ∧ recovering rule' ⟨chunk, last, n, []⟩ =
        .done (first.map (Stmt.map id 0)) ⟨[], last, n', new⟩ := by
  have hMeets := hRule ⟨chunk ++ rest, last, n, faults⟩ ⟨chunk, last, n, []⟩
    ⟨List.nil_subset chunk, chunk, n, rfl, rfl, List.suffix_refl chunk,
      iff_of_false hChunk.ne_nil Nat.one_ne_zero⟩
  unfold recovering at hOwn ⊢
  generalize rule _ = outcome, rule' _ = own at hMeets hOwn
  cases hMeets with
  | exhausted | loose => exact absurd rfl hOwn
  | done h =>
    rcases h with ⟨_, ts, n', rfl, rfl, _, hNil⟩
    obtain rfl : ts = [] := hNil.mpr rfl
    exact ⟨some _, [], n', .stmt _, by simp, rfl⟩
  | failed h =>
    rcases h with ⟨hFault, token, us, n', rfl, rfl, hTs⟩
    have hEnd := hChunk.resync_eq hTs []
    rw [List.append_nil] at hEnd
    refine ⟨none, [_], n', .fault hFault, ?_, ?_⟩
    · simp only [hChunk.resync_eq hTs rest]
    · simp only [hEnd]
      rfl

/-
  A declaration at the start of a chunk takes the chunk and
  gives what it gives without the tokens behind it.
-/
theorem IsChunk.declaration_eq (rest : List Token) (n : Nat)
    (faults : List Fault) {b : Nat} (hB : chunk.length + 2 ≤ b) :
    ∃ first new n', Gives chunk first new ∧ (rules b).declaration ⟨chunk ++ rest, last, n, faults⟩ =
        .done first ⟨rest, last, n', faults ++ new⟩ ∧
      (rules (chunk.length + 2)).declaration ⟨chunk, last, n, []⟩ =
        .done (first.map (Stmt.map id 0)) ⟨[], last, n', new⟩ := by
  obtain ⟨b, rfl⟩ : ∃ b', b = b' + 1 := ⟨b - 1, by omega⟩
  have hLe : chunk.length + 1 ≤ b := Nat.le_of_succ_le_succ hB
  have hRules : (rules b).Relate (chunkwise hChunk rest last hLast faults)
      (rules (chunk.length + 1)) := rules_chunkwise hChunk hLast hLe
  have hBudget : Allows True b (chunk.length + 1) := .of_le trivial hLe
  refine hChunk.recovering_eq hLast (relates_declared hRules hBudget
    (relates_assignment hRules hBudget)
    (relates_statement hRules hBudget (relates_assignment hRules hBudget))) ?_
  intro hExhausted
  have hFollow := (rules_follow (chunk.length + 1)).declaration
    ⟨chunk, last, n, []⟩ hLast (Nat.lt_succ_self _) hChunk.ne_nil
  rw [show (rules (chunk.length + 2)).declaration _ = _ from hExhausted] at hFollow
  exact hFollow

omit hChunk hLast in
/- A program that starts with a declaration. -/
theorem declarations_done {declaration : Rule (Option Stmt)} {c c₁ c₂ : Cursor}
    (hTokens : c.tokens ≠ []) {first : Option Stmt} {others : List Stmt}
    {k : Nat} (hFirst : declaration c = .done first c₁)
    (hOthers : declarations (fun _ => false) declaration k c₁ = .done others c₂) :
    declarations (fun _ => false) declaration (k + 1) c = .done (first.toList ++ others) c₂ := by
  rcases c with ⟨_ | ⟨token, ts⟩, last, n, faults⟩
  · exact absurd rfl hTokens
  · rw [declarations_cons, bind_done hFirst, bind_done hOthers, pure_apply]

/- A chunk on its own is parsed by one declaration. -/
theorem IsChunk.parseProgram_eq {first : Option Stmt} {new : List Fault} {n n' : Nat}
    (h : (rules (chunk.length + 2)).declaration ⟨chunk, last, n, []⟩ =
        .done first ⟨[], last, n', new⟩) :
    parseProgram (chunk ++ [last]) n = ⟨first.toList, n', new⟩ := by
  have hProgram : program (Cursor.at chunk last n).budget
        (Cursor.at chunk last n) = .done (first.toList ++ []) ⟨[], last, n', new⟩ :=
    declarations_done hChunk.ne_nil h rfl
  rw [List.append_nil] at hProgram
  rw [parseProgram, Cursor.start?_append hLast hChunk.inner]
  simp only [hProgram]

end

/- Chunks parsed on their own, numbered one after the other. -/
def apart (last : Token) : Nat → List (List Token) → List (Parsed (List Stmt))
  | _, [] => []
  | n, chunk :: chunks =>
    let own := parseProgram (chunk ++ [last]) n
    own :: apart last own.nextId chunks

/-
  On its own the chunk is one statement without fault, or no
  statement and one fault, at a token of the chunk.
-/
def Settled (chunk : List Token) (own : Parsed (List Stmt)) : Prop :=
  (own.faults = [] ∧ ∃ stmt, own.value = [stmt]) ∨
    own.value = [] ∧ ∃ fault, own.faults = [fault] ∧ fault.token ∈ chunk

theorem Gives.settled {first : Option Stmt} {new : List Fault}
    (h : Gives chunk first new) (n : Nat) :
    Settled chunk ⟨(first.map (Stmt.map id 0)).toList, n, new⟩ := by
  cases h with
  | stmt stmt => exact .inl ⟨rfl, _, rfl⟩
  | fault h => exact .inr ⟨rfl, _, rfl, h⟩

/-
  By induction on the chunks: each one is taken by one
  declaration, which leaves the cursor before the next one.
-/
theorem declarations_chunks (hLast : last.kind = .endOfFile) {b : Nat}
    {chunks : List (List Token)} (hChunks : ∀ chunk ∈ chunks, IsChunk chunk)
    (hB : chunks.flatten.length + 2 ≤ b) {k : Nat} (hK : chunks.flatten.length < k)
    (n : Nat) (faults : List Fault) :
    ∃ stmts n', declarations (fun _ => false) (rules b).declaration k
          ⟨chunks.flatten, last, n, faults⟩ = .done stmts ⟨[], last, n',
          faults ++ (apart last n chunks).flatMap Parsed.faults⟩ ∧
      stmtsMap id 0 stmts = (apart last n chunks).flatMap Parsed.value ∧
      List.Forall₂ Settled chunks (apart last n chunks) := by
  obtain ⟨k, rfl⟩ : ∃ k', k = k' + 1 := ⟨k - 1, by omega⟩
  induction chunks generalizing n faults k with
  | nil => exact ⟨[], n, by simp [apart]; rfl, rfl, .nil⟩
  | cons chunk chunks ih =>
    rw [List.forall_mem_cons] at hChunks
    simp only [List.flatten_cons, List.length_append] at hB hK
    have hLength := List.length_pos_of_ne_nil hChunks.1.ne_nil
    obtain ⟨k, rfl⟩ : ∃ k', k = k' + 1 := ⟨k - 1, by omega⟩
    rcases hChunks.1.declaration_eq hLast chunks.flatten n faults
      (by omega : chunk.length + 2 ≤ b) with
      ⟨first, new, n₁, hGives, hFirst, hOwn⟩
    rcases ih hChunks.2 (by omega) n₁ (faults ++ new) k (by omega) with
      ⟨others, n', hOthers, hValue, hSettled⟩
    have hParsed := hChunks.1.parseProgram_eq hLast hOwn
    simp only [apart, hParsed]
    refine ⟨first.toList ++ others, n', ?_, ?_, .cons (hGives.settled n₁) hSettled⟩
    · rw [List.flatten_cons, List.flatMap_cons, ← List.append_assoc]
      refine declarations_done ?_ hFirst hOthers
      exact List.append_ne_nil_of_left_ne_nil hChunks.1.ne_nil _
    · rw [List.flatMap_cons, ← hValue]
      cases first <;> rfl

/-
  Recovery loses and invents nothing between simple
  statements: the statements and the faults of a program of
  chunks are those of its chunks on their own.
-/
theorem chunks_parsed_apart
    (chunks : List (List Token))
    (last : Token)
    (firstId : Nat)
    (hLast : last.kind = .endOfFile)
    (hChunks : ∀ chunk ∈ chunks, IsChunk chunk) :
    let whole :=
      parseProgram (chunks.flatten ++ [last]) firstId
    let own := apart last firstId chunks
    whole.value = own.flatMap Parsed.value ∧
    whole.faults = own.flatMap Parsed.faults ∧
    List.Forall₂ Settled chunks own := by
  intro whole own
  have hTs :
      ∀ token ∈ chunks.flatten, token.kind ≠ .endOfFile := by
    intro token hToken
    rcases List.mem_flatten.mp hToken with
      ⟨chunk, hChunk, hMem⟩
    exact (hChunks chunk hChunk).inner token hMem
  rcases declarations_chunks hLast hChunks (Nat.le_refl _)
    (Nat.lt_add_of_pos_right Nat.two_pos) firstId [] with
    ⟨stmts, n', hDone, hValue, hSettled⟩
  have hProgram :
      let start := Cursor.at chunks.flatten last firstId
      program start.budget start =
        .done stmts ⟨[], last, n', own.flatMap Parsed.faults⟩ :=
    hDone
  have hWhole :
      whole = ⟨stmts, n', own.flatMap Parsed.faults⟩ := by
    unfold whole parseProgram
    rw [Cursor.start?_append hLast hTs]
    simp only [hProgram]
  -- the tokens are exchanged for themselves
  have hSame : stmtsMap id 0 whole.value = whole.value :=
    (congrArg Parsed.value
      (parseProgram_later (chunks.flatten ++ [last]) firstId
        0)).symm
  refine ⟨?_, by rw [hWhole], hSettled⟩
  rw [← hSame, ← hValue, hWhole]

/-
  The chunks `let = a;`, `print a;`, `a + a = a;`, `fun a;`
  and `;` on lines of their own.
-/
def simpleChunks : List (List Token) :=
  let kinds : List (List Token.Kind) :=
    [[.keyword .letWord, .symbol .equal, .identifier, .symbol .semicolon],
     [.keyword .printWord, .identifier, .symbol .semicolon],
     [.identifier, .symbol .plus, .identifier, .symbol .equal, .identifier, .symbol .semicolon],
     [.keyword .funWord, .identifier, .symbol .semicolon], [.symbol .semicolon]]
  kinds.mapIdx fun line chunk => chunk.map fun kind => ⟨kind, "", line + 1, ""⟩

theorem simpleChunks_apart :
    (∀ chunk ∈ simpleChunks, IsChunk chunk) ∧
    let last := Token.endOfFile 6 ""
    let whole :=
      parseProgram (simpleChunks.flatten ++ [last]) 0
    whole.value =
      (apart last 0 simpleChunks).flatMap Parsed.value ∧
    whole.value.length = 1 ∧
    whole.faults.map (·.token.line) = [1, 3, 4, 5] := by
  have hChunks : ∀ chunk ∈ simpleChunks, IsChunk chunk := by
    intro chunk hChunk
    constructor <;> revert chunk <;> decide
  have hApart :=
    chunks_parsed_apart simpleChunks (Token.endOfFile 6 "") 0
      rfl hChunks
  exact ⟨hChunks, hApart.1, by decide +kernel,
    by decide +kernel⟩

end Grammar

end Scriptlet
