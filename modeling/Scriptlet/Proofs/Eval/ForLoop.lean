import Scriptlet.Proofs.Eval.Compound
import Scriptlet.Proofs.Eval.Following
import Scriptlet.Proofs.Grammar.Sugar

/-
  How `for` statements are run.

  Key declarations include:
    * `Eval.runRounds`
    * `Eval.runFor`
    * `Eval.execute_forLoop`

  The first clause is run once, then come rounds of condition,
  body and last clause.  A body that breaks off or returns is
  the end of the loop, without the last clause.
-/

namespace Scriptlet

namespace Eval

open Grammar (Derives ForParts forLoop parseProgram parseProgram_derives)

/- The frame of a block inside the current one. -/
def enterBlock (ctx : Context) : Action Context := do
  let frame ← allocate fun heap => heap.addFrame [] (some ctx.frame)
  return { ctx with frame := frame }

section

variable (condition last : Option Expr) (body : Stmt)

/-
  The body and then the last clause, in a frame of their own.
  Blocks and statements take their units of fuel.
-/
def runRound (fuel : Nat) (ctx : Context) : Action Flow :=
  match last with
  | none => execute fuel ctx body
  | some expr => do
      let inside ← enterBlock ctx
      match ← execute (fuel - 2) inside body with
      | .normal =>
          let _ ← evaluate (fuel - 4) inside expr
          return .normal
      | flow => return flow

/- Rounds as long as the condition holds. -/
def runRounds : Nat → Context → Action Flow
  | 0, _ => exhausted
  | fuel + 1, ctx => do
      if (← evaluate fuel ctx (condition.getD .always)).isTruthy then
        match ← runRound last body fuel ctx with
        | .normal => runRounds fuel ctx
        | .broke => return .normal
        | .returned value => return .returned value
      else return .normal

/- The first clause, and rounds in the same frame. -/
def runFor (first : Option Stmt) (fuel : Nat) (ctx : Context) : Action Flow :=
  match first with
  | none => runRounds condition last body fuel ctx
  | some stmt => do
      let inside ← enterBlock ctx
      match ← execute (fuel - 2) inside stmt with
      | .normal => runRounds condition last body (fuel - 3) inside
      | flow => return flow

end

variable {condition last : Option Expr} {body : Stmt}

theorem executeAll_single (fuel : Nat) (ctx : Context) (stmt : Stmt) :
    executeAll fuel ctx [stmt] = execute (fuel - 1) ctx stmt := by
  match fuel with
  | 0 | 1 => rfl
  | fuel + 2 =>
    funext w
    change Action.bind (execute (fuel + 1) ctx stmt) _ w = execute (fuel + 1) ctx stmt w
    unfold Action.bind
    cases execute (fuel + 1) ctx stmt w with
    | done flow w' => cases flow <;> rfl
    | failed | stopped => rfl

theorem execute_pair (fuel : Nat) (ctx : Context) (first second : Stmt) :
    execute fuel ctx (.block [first, second]) = do
      let inside ← enterBlock ctx
      match ← execute (fuel - 2) inside first with
      | .normal => execute (fuel - 3) inside second
      | flow => return flow := by
  match fuel with
  | 0 | 1 => rfl
  | fuel + 2 =>
    change (do
      let frame ← allocate _
      let flow ← execute fuel { ctx with frame := frame } first
      match flow with
      | .normal => executeAll fuel { ctx with frame := frame } [second]
      | flow => return flow) = _
    simp only [executeAll_single, enterBlock, then_assoc, pure_then]
    rfl

theorem execute_expression (fuel : Nat) (ctx : Context) (expr : Expr) :
    execute fuel ctx (.expression expr) = do
      let _ ← evaluate (fuel - 1) ctx expr
      return .normal := by
  cases fuel <;> rfl

theorem execute_round (fuel : Nat) (ctx : Context) :
    execute fuel ctx (match last with
      | some expr => .block [body, .expression expr]
      | none => body) = runRound last body fuel ctx := by
  cases last with
  | none => rfl
  | some expr => simp only [execute_pair, execute_expression, runRound, Nat.sub_sub]

theorem execute_rounds (fuel : Nat) (ctx : Context) :
    execute fuel ctx (forLoop none condition last body) =
      runRounds condition last body fuel ctx := by
  induction fuel with
  | zero => rfl
  | succ fuel ih =>
    simp only [forLoop] at ih ⊢
    rw [runRounds, ← ih, ← execute_round]
    rfl

theorem execute_forLoop (first : Option Stmt) (fuel : Nat) (ctx : Context) :
    execute fuel ctx (forLoop first condition last body) =
      runFor condition last body first fuel ctx := by
  cases first with
  | none => exact execute_rounds fuel ctx
  | some stmt =>
    change execute fuel ctx (.block [stmt, forLoop none condition last body]) = _
    rw [execute_pair, runFor]
    simp only [execute_rounds]
/-
  The tree of a `for` statement is the one of a `while` loop
  written with the same parts, but for the numbers of nodes.
  Both run in rounds, and the names in scope for the clauses
  are the same after the body as before it.
-/
theorem for_is_sugar {n n' : Nat} {ts : List Token} {stmt : Stmt}
    (h : Derives False .declaration n ts stmt n')
    (hWord : ts.head?.map Token.kind = some (.keyword .forWord))
    (hWritten : ∀ token ∈ ts, token.Written) :
    ∃ (parts : ForParts) (first : Option Stmt) (condition last : Option Expr) (body : Stmt),
      parts.Reads ts ∧ parts.Derived n first condition last body n' ∧
      (∀ (make : Token.Kind → Token) (stop : Token) (m : Nat),
        (∀ kind, (make kind).kind = kind) → stop.kind = .endOfFile →
        parseProgram (ts ++ [stop]) n = ⟨[stmt], n', []⟩ ∧
        ∃ loop m', parseProgram (parts.loop make ++ [stop]) m = ⟨[loop], m', []⟩ ∧
          Stmt.Alike .anyNumbers stmt loop) ∧
      (∀ fuel ctx, execute fuel ctx stmt = runFor condition last body first fuel ctx) ∧
      (∀ ctx walk, (body.resolve ctx walk).scopes = walk.scopes) ∧
      ∀ fuel ctx w, (execute fuel ctx body w).Spares w.heap.frames.size w.heap := by
  obtain ⟨parts, first, condition, last, body, hReads, hParts, hDerived, rfl⟩ :=
    h.forStatement_parts hWord hWritten
  have hBody : body.Sensible ∧ body.declares = false := by
    rcases hDerived with ⟨_, _, _, _, -, -, -, hBody⟩
    exact hBody.sensible (List.forall_mem_append.mp hParts).2
  refine ⟨parts, first, condition, last, body, hReads, hDerived, ?_, ?_, ?_, ?_⟩
  · intro make stop m hMake hStop
    obtain ⟨loop, m', hLoop, hAlike⟩ := hDerived.rereads hParts hMake m
    exact ⟨h.alone.parseProgram_eq hStop (Grammar.ne_end_of_written hWritten), loop, m',
      hLoop.alone.parseProgram_eq hStop (ForParts.ne_end_of_mem_loop hParts hMake), hAlike⟩
  · exact fun fuel ctx => execute_forLoop first fuel ctx
  · intro ctx walk
    rw [body.resolve_after hBody.1, Stmt.after_of_declares hBody.2]
  · intro fuel ctx w
    have hFollows := (follows_any ctx.distances fuel w.heap.frames.size).execute
      ⟨ctx.frame, ctx.depth⟩ body (body.every_of fun _ => trivial) (.inr hBody)
    exact spares_of_keeping (hFollows.fits w w.heap.holds_any (Nat.le_refl _)).kept (Nat.le_refl _)

/- A loop with all of its clauses, and one name for three variables. -/
def fullLoop : List Token :=
  Token.body "for (let a; b; a = b) \x7b let a = b; if (a) break; \x7d" ""

theorem fullLoop_sugar :
    fullLoop.head?.map Token.kind = some (.keyword .forWord) ∧
    ∃ stmt n', Derives False .declaration 0 fullLoop stmt n' ∧
      ∃ parts first condition last body, ForParts.Reads parts fullLoop ∧
        parts.Derived 0 first condition last body n' ∧
        ∀ fuel ctx, execute fuel ctx stmt = runFor condition last body first fuel ctx := by
  have hWritten : ∀ token ∈ fullLoop, token.Written := Token.written_body _ _
  have hWord : fullLoop.head?.map Token.kind = some (.keyword .forWord) := by decide +kernel
  have hTree := parseProgram_derives Grammar.endOfFile_kind
    (Grammar.ne_end_of_written hWritten) 0
  obtain ⟨stmt, hStmt⟩ := List.length_eq_one_iff.mp
    (show (parseProgram (fullLoop ++ [.endOfFile 0 ""]) 0).value.length = 1 by decide +kernel)
  have hParsed : Derives False .declarations 0 fullLoop _ _ := hTree.mono (by decide +kernel)
  rw [hStmt] at hParsed
  obtain ⟨parts, first, condition, last, body, hReads, hDerived, -, hRuns, -⟩ :=
    for_is_sugar hParsed.single hWord hWritten
  exact ⟨hWord, stmt, _, hParsed.single, parts, first, condition, last, body, hReads, hDerived,
    hRuns⟩

end Eval

end Scriptlet
