import Scriptlet.Proofs.Grammar.Related
import Scriptlet.Proofs.Grammar.Trees

/-
  `for` statements and the loops that are written for them.

  Key declarations include:
    * `Grammar.Derives.renumber`
    * `Grammar.ForParts`
    * `Grammar.ForParts.loop`
    * `Grammar.ForParts.Derived.rereads`
    * `Grammar.Derives.forStatement_parts`

  The clauses of a `for` statement are read in another order
  than they are run in.  Each part is read alike wherever it
  stands, only its nodes have other numbers.
-/

namespace Scriptlet

theorem trees_renumbered (n m : Nat) :
    (∀ expr : Expr, Expr.Alike .anyNumbers (expr.map id n) (expr.map id m)) ∧
    (∀ f : Function, Function.Alike .anyNumbers (f.map id n) (f.map id m)) ∧
    (∀ stmts, stmtsAlike .anyNumbers (stmtsMap id n stmts) (stmtsMap id m stmts)) ∧
    (∀ stmt : Stmt, Stmt.Alike .anyNumbers (stmt.map id n) (stmt.map id m)) ∧
    (∀ methods, functionsAlike .anyNumbers (functionsMap id n methods)
      (functionsMap id m methods)) ∧
    ∀ exprs, exprsAlike .anyNumbers (exprsMap id n exprs) (exprsMap id m exprs) := by
  apply Expr.references.mutual_induct
  case case33 =>
    intro name keyword params body ih
    simp only [Function.map, Option.map_id, List.map_id, id_eq]
    refine .mk (m := ()) ?_ rfl (List.forall₂_same.mpr fun _ _ => rfl) ih
    cases name with
    | none => exact .none
    | some name => exact .some rfl
  case case26 => exact fun body ih => .block (m := ()) ih
  all_goals
    intros
    simp only [Expr.map, Stmt.map, exprsMap, stmtsMap, functionsMap]
    constructor
  all_goals first
    | assumption
    | rfl
    | exact ⟨trivial, rfl⟩

namespace Grammar

section

variable {n n' : Nat} {ts : List Token} (hTs : ∀ token ∈ ts, token.kind ≠ .endOfFile) (m : Nat)
include hTs

omit hTs in
theorem endOfFile_kind : (Token.endOfFile 0 "").kind = .endOfFile := rfl

/- Tokens of a program have a tree from any number on. -/
theorem Derives.renumber {body : List Stmt} (h : Derives False .declarations n ts body n') :
    ∃ body' m', Derives False .declarations m ts body' m' ∧ stmtsAlike .anyNumbers body body' := by
  have hParsed := parseProgram_later (ts ++ [.endOfFile 0 ""]) 0 n
  rw [Nat.zero_add, h.parseProgram_eq rfl hTs] at hParsed
  have hFaults := List.map_eq_nil_iff.mp (congrArg Parsed.faults hParsed).symm
  have hDerives : Derives False .declarations 0 ts _ _ :=
    (parseProgram_derives endOfFile_kind hTs 0).mono (by simp [hFaults])
  have hMoved := hDerives.map (g := id) (fun _ => rfl) hTs m
  rw [List.map_id, Nat.zero_add] at hMoved
  refine ⟨_, _, hMoved, ?_⟩
  rw [show body = _ from congrArg Parsed.value hParsed]
  exact (trees_renumbered n m).2.2.1 _

theorem Derives.renumber_expression {expr : Expr}
    (h : Derives False .expression n ts expr n') :
    ∃ expr' m', Derives False .expression m ts expr' m' ∧
      Expr.Alike .anyNumbers expr expr' := by
  have hParsed := parseExpression_later (ts ++ [.endOfFile 0 ""]) 0 n
  rw [Nat.zero_add, h.parseExpression_eq rfl hTs] at hParsed
  have hFaults := List.map_eq_nil_iff.mp (congrArg Parsed.faults hParsed).symm
  obtain ⟨old, hOld, rfl⟩ := Option.map_eq_some_iff.mp (congrArg Parsed.value hParsed).symm
  have hMoved := parseExpression_later (ts ++ [.endOfFile 0 ""]) 0 m
  rw [Nat.zero_add] at hMoved
  obtain ⟨expr', m', hDerives⟩ := parseExpression_derives endOfFile_kind hTs m
    (by rw [hMoved, Parsed.map, hFaults]; rfl)
  rw [hDerives.parseExpression_eq rfl hTs] at hMoved
  have hValue := congrArg Parsed.value hMoved
  simp only [Parsed.map, hOld, Option.map_some, Option.some.injEq] at hValue
  exact ⟨expr', m', hDerives, hValue ▸ (trees_renumbered n m).1 old⟩

end

/-
  The tokens of the clauses and of the body.  The first
  clause has its semicolon; a clause that is absent has no
  token.
-/
structure ForParts where
  first : List Token
  condition : List Token
  last : List Token
  body : List Token

namespace ForParts

def tokens (parts : ForParts) : List Token :=
  parts.first ++ parts.condition ++ parts.last ++ parts.body

/- The tokens of a `for` statement are those of its parts. -/
def Reads (parts : ForParts) (ts : List Token) : Prop :=
  ∃ word opening clause stop closing,
    ts = word :: opening ::
      (clause ++ (parts.condition ++ stop :: (parts.last ++ closing :: parts.body))) ∧
    word.kind = .keyword .forWord ∧ opening.kind = .symbol .leftParen ∧
    stop.kind = .symbol .semicolon ∧ closing.kind = .symbol .rightParen ∧
    (parts.first = clause ∨
      parts.first = [] ∧ clause.map Token.kind = [.symbol .semicolon])

/-
  The loop that stands for it, with tokens of the given kinds
  around the parts: the braces around the loop are there for
  the first clause, and those around the body for the last.
-/
def loop (make : Token.Kind → Token) (parts : ForParts) : List Token :=
  let test := if parts.condition = [] then [make (.keyword .trueWord)] else parts.condition
  let round :=
    if parts.last = [] then parts.body
    else make (.symbol .leftBrace) ::
      (parts.body ++ (parts.last ++ [make (.symbol .semicolon)]) ++ [make (.symbol .rightBrace)])
  let loop := make (.keyword .whileWord) :: make (.symbol .leftParen) ::
    (test ++ make (.symbol .rightParen) :: round)
  if parts.first = [] then loop
  else make (.symbol .leftBrace) :: (parts.first ++ loop ++ [make (.symbol .rightBrace)])

/- The trees of the parts, in the order in which they are read. -/
def Derived (parts : ForParts) (n : Nat) (first : Option Stmt) (condition last : Option Expr)
    (body : Stmt) (n' : Nat) : Prop :=
  ∃ n₁ n₂ n₃ isOpen, Derives False .declarations n parts.first first.toList n₁ ∧
    Derives False .optional n₁ parts.condition condition n₂ ∧
    Derives False .optional n₂ parts.last last n₃ ∧
    Derives False (.statement isOpen) n₃ parts.body body n'

end ForParts

section

variable {n n' : Nat} {ts : List Token} {stmt : Stmt}

/- A program of one statement is a declaration. -/
theorem Derives.single (h : Derives False .declarations n ts [stmt] n') :
    Derives False .declaration n ts stmt n' := by
  cases h with
  | moreDeclarations hFirst hOthers =>
    cases hOthers with
    | noDeclaration =>
      rw [List.append_nil]
      exact hFirst
    | leftOut _ hGaps => exact hGaps.elim
  | leftOut _ hGaps => exact hGaps.elim

theorem Derives.alone (h : Derives False .declaration n ts stmt n') :
    Derives False .declarations n ts [stmt] n' := by
  have hBoth := h.moreDeclarations .noDeclaration
  rwa [List.append_nil] at hBoth

theorem ne_end_of_written (hWritten : ∀ token ∈ ts, token.Written) :
    ∀ token ∈ ts, token.kind ≠ .endOfFile := by
  intro token hMem hKind
  have hToken := hWritten token hMem
  rw [Token.Written, hKind] at hToken
  exact hToken

variable (hWritten : ∀ token ∈ ts, token.Written) (m : Nat)
include hWritten

theorem Derives.renumber_declaration (h : Derives False .declaration n ts stmt n') :
    ∃ stmt' m', Derives False .declaration m ts stmt' m' ∧ Stmt.Alike .anyNumbers stmt stmt' := by
  obtain ⟨body', m', hDerives, hAlike⟩ := h.alone.renumber (ne_end_of_written hWritten) m
  cases hAlike with
  | cons hStmt hOthers =>
    cases hOthers
    exact ⟨_, m', hDerives.single, hStmt⟩

/- What declares nothing is a statement under other numbers. -/
theorem Derives.renumber_statement {isOpen : Bool}
    (h : Derives False (.statement isOpen) n ts stmt n') :
    ∃ isOpen' stmt' m', Derives False (.statement isOpen') m ts stmt' m' ∧
      Stmt.Alike .anyNumbers stmt stmt' := by
  obtain ⟨stmt', m', hDerives, hAlike⟩ := (Derives.plain h).renumber_declaration hWritten m
  have hPlain := (h.sensible hWritten).2
  cases hDerives with
  | plain hStmt => exact ⟨_, _, _, hStmt, hAlike⟩
  | letVariable hLet => cases hLet <;> cases hAlike <;> cases hPlain
  | functionDecl
  | rootClass
  | derivedClass =>
    cases hAlike
    cases hPlain

end

variable {n n' : Nat} {ts : List Token}

/- A clause that may be absent. -/
theorem Derives.renumber_optional {expr? : Option Expr}
    (hTs : ∀ token ∈ ts, token.kind ≠ .endOfFile) (m : Nat)
    (h : Derives False .optional n ts expr? n') :
    ∃ other? m', Derives False .optional m ts other? m' ∧
      Option.Rel (Expr.Alike .anyNumbers) expr? other? := by
  cases h with
  | absent => exact ⟨none, m, .absent, .none⟩
  | present h =>
    obtain ⟨expr', m', hDerives, hAlike⟩ := h.renumber_expression hTs m
    exact ⟨some expr', m', .present hDerives, .some hAlike⟩

theorem Derives.of_literal {token : Token} {value : Literal}
    (h : literalOf? token.kind = some value) (n : Nat) :
    Derives False .expression n [token] (.literal value) n := by
  have hUnary : Derives False .unary n [token] (.literal value) n :=
    .unsigned (.unstepped (.call (.literal h) .noTrailer))
  refine .unassigned ?_
  induction levels with
  | nil => exact .tightest hUnary
  | cons level tighter ih => exact .chained ih .noOperand

namespace ForParts

variable {make : Token.Kind → Token} (hMake : ∀ kind, (make kind).kind = kind)
variable {parts : ForParts} {m m₁ m₂ m₃ m₄ : Nat} {condition last : Option Expr} {body : Stmt}
variable {isOpen : Bool} (hCondition : Derives False .optional m₁ parts.condition condition m₂)
variable (hBody : Derives False (.statement isOpen) m₂ parts.body body m₃)
variable (hLast : Derives False .optional m₃ parts.last last m₄)
include hMake hCondition hBody hLast

/- The loop without its first clause. -/
theorem derives_while (hFirst : parts.first = []) :
    ∃ isOpen, Derives False (.statement isOpen) m₁ (parts.loop make)
      (forLoop none condition last body) m₄ := by
  have hTest : Derives False .expression m₁
      (if parts.condition = [] then [make (.keyword .trueWord)] else parts.condition)
      (condition.getD .always) m₂ := by
    generalize parts.condition = us at hCondition
    cases hCondition with
    | absent => exact .of_literal (by rw [hMake]; rfl) m₁
    | present h =>
      rw [if_neg h.opening.ne_nil]
      exact h
  rw [loop, if_pos hFirst]
  generalize parts.last = vs at hLast
  cases hLast with
  | absent => exact ⟨_, .whileStatement (hMake _) (hMake _) hTest (hMake _) hBody⟩
  | present h =>
    refine ⟨false, .whileStatement (hMake _) (hMake _) hTest (hMake _) ?_⟩
    rw [if_neg h.opening.ne_nil]
    have hStep := Derives.plain (.expressionStatement (h.exprStmt (hMake (.symbol .semicolon))))
    exact .blockStatement
      (.block (hMake _) (.moreDeclarations (.plain hBody) hStep.alone) (hMake _))

/- The first clause is run before it, in the same block. -/
theorem derives_loop {first : Option Stmt}
    (hFirst : Derives False .declarations m parts.first first.toList m₁) :
    Derives False .declaration m (parts.loop make) (forLoop first condition last body) m₄ := by
  cases first with
  | none =>
    generalize hTokens : parts.first = ts at hFirst
    cases hFirst with
    | noDeclaration =>
      exact .plain (derives_while hMake hCondition hBody hLast hTokens).choose_spec
    | leftOut _ hGaps => exact hGaps.elim
  | some stmt =>
    obtain ⟨_, hWhile⟩ : ∃ isOpen, Derives False (.statement isOpen) m₁
        (loop make { parts with first := [] }) (forLoop none condition last body) m₄ :=
      derives_while hMake hCondition hBody hLast rfl
    obtain ⟨_, _, hTokens, _⟩ := hFirst.single.opening
    rw [loop, if_neg (hTokens ▸ List.cons_ne_nil _ _)]
    exact .plain (.blockStatement (.block (hMake _)
      (.moreDeclarations hFirst.single (Derives.plain hWhile).alone) (hMake _)))

end ForParts

section

variable {parts : ForParts} {first : Option Stmt} {condition last : Option Expr} {body : Stmt}

variable {make : Token.Kind → Token}

theorem ForParts.ne_end_of_mem_loop
    (hWritten : ∀ token ∈ parts.tokens, token.Written)
    (hMake : ∀ kind, (make kind).kind = kind) :
    ∀ token ∈ parts.loop make, token.kind ≠ .endOfFile := by
  have hParts := ne_end_of_written hWritten
  simp only [tokens, List.forall_mem_append] at hParts
  simp only [loop]
  split <;> split <;> split <;>
    simp_all only [List.forall_mem_cons, List.forall_mem_append, ne_eq, reduceCtorEq,
      not_false_eq_true, true_and, List.not_mem_nil, false_imp_iff, implies_true, and_self]

/-
  Every part is read again where the loop has it, one after
  another.
-/
theorem ForParts.Derived.rereads (h : parts.Derived n first condition last body n')
    (hWritten : ∀ token ∈ parts.tokens, token.Written)
    (hMake : ∀ kind, (make kind).kind = kind) (m : Nat) :
    ∃ loop m', Derives False .declaration m (parts.loop make) loop m' ∧
      Stmt.Alike .anyNumbers (forLoop first condition last body) loop := by
  rcases h with ⟨_, _, _, _, hFirst, hCondition, hLast, hBody⟩
  have hInner := ne_end_of_written hWritten
  simp only [ForParts.tokens, List.forall_mem_append] at hInner hWritten
  rcases hInner with ⟨⟨⟨hFirstInner, hConditionInner⟩, hLastInner⟩, -⟩
  obtain ⟨firsts, m₁, hFirst', hFirsts⟩ := hFirst.renumber hFirstInner m
  obtain ⟨condition', m₂, hCondition', hTest⟩ := hCondition.renumber_optional hConditionInner m₁
  obtain ⟨_, body', m₃, hBody', hRound⟩ := hBody.renumber_statement hWritten.2 m₂
  obtain ⟨last', m₄, hLast', hStep⟩ := hLast.renumber_optional hLastInner m₃
  obtain ⟨first', rfl, hClause⟩ : ∃ first' : Option Stmt, first'.toList = firsts ∧
      Option.Rel (Stmt.Alike .anyNumbers) first first' := by
    cases first with
    | none =>
      cases hFirsts
      exact ⟨none, rfl, .none⟩
    | some stmt =>
      cases hFirsts with
      | cons hStmt hOthers =>
        cases hOthers
        exact ⟨some _, rfl, .some hStmt⟩
  exact ⟨_, m₄, derives_loop hMake hCondition' hBody' hLast' hFirst',
    forLoop_alike hClause hTest hStep hRound⟩

end

/- What a `for` statement is made of. -/
theorem Derives.forStatement_parts {stmt : Stmt} (h : Derives False .declaration n ts stmt n')
    (hWord : ts.head?.map Token.kind = some (.keyword .forWord))
    (hWritten : ∀ token ∈ ts, token.Written) :
    ∃ (parts : ForParts) (first : Option Stmt) (condition last : Option Expr) (body : Stmt),
      parts.Reads ts ∧ (∀ token ∈ parts.tokens, token.Written) ∧
      parts.Derived n first condition last body n' ∧
      stmt = forLoop first condition last body := by
  obtain ⟨_, hHead, hKind⟩ := Option.map_eq_some_iff.mp hWord
  obtain ⟨_, rfl⟩ := List.head?_eq_some_iff.mp hHead
  obtain ⟨_, h⟩ : ∃ isOpen, Derives False (.statement isOpen) n _ stmt n' := by
    cases h with
    | plain h => exact ⟨_, h⟩
    | letVariable h => cases h <;> simp_all
    | _ => simp_all
  cases h with
  | @forStatement _ n₁ _ _ _ _ opening clause first us condition stop vs last closing ws body _
      _ hOpening hFirst hCondition hStop hLast hClosing hBody =>
    simp only [List.forall_mem_cons, List.forall_mem_append] at hWritten
    rcases hWritten with ⟨-, -, hClause, hUs, -, hVs, -, hWs⟩
    obtain ⟨ts, hTs, hReads, hDerives⟩ : ∃ ts, (∀ token ∈ ts, token.Written) ∧
        (ts = clause ∨ ts = [] ∧ clause.map Token.kind = [.symbol .semicolon]) ∧
        Derives False .declarations n ts first.toList n₁ := by
      cases hFirst with
      | noClause hSemicolon => exact ⟨[], nofun, .inr ⟨rfl, by simp [hSemicolon]⟩, .noDeclaration⟩
      | letClause hLet => exact ⟨clause, hClause, .inl rfl, (Derives.letVariable hLet).alone⟩
      | exprClause hExpr =>
        exact ⟨clause, hClause, .inl rfl, (Derives.plain (.expressionStatement hExpr)).alone⟩
    refine ⟨⟨ts, us, vs, ws⟩, first, condition, last, body, ?_, ?_, ?_, rfl⟩
    · exact ⟨_, opening, clause, stop, closing, rfl, hKind, hOpening, hStop, hClosing, hReads⟩
    · simpa only [ForParts.tokens, List.forall_mem_append] using ⟨⟨⟨hTs, hUs⟩, hVs⟩, hWs⟩
    · exact ⟨n₁, _, _, _, hDerives, hCondition, hLast, hBody⟩
  | expressionStatement h =>
    have hStarts := h.opening.1
    rw [hKind] at hStarts
    cases hStarts
  | blockStatement h =>
    cases h
    simp_all
  | _ => simp_all

end Grammar

end Scriptlet
