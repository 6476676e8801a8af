import Mathlib.Data.List.Nodup
import Mathlib.Data.List.Perm.Subperm
import Scriptlet.Proofs.Scope.Position

/-
  The tokens of a tree and the tokens it is read from.

  Key declarations include:
    * `Grammar.Covers`
    * `Grammar.Derives.covers`

  No token is used twice in a tree.  The names of variables
  are identifiers.
-/

namespace Scriptlet

namespace Grammar

open Scope

/-
  Occurrences of tokens, each as often at most as in a list
  of tokens.
-/
structure Covers (ts : List Token) (occurrences : List Occurrence) : Prop where
  tokens : (occurrences.map Occurrence.token).Subperm ts
  names : ∀ occurrence ∈ occurrences, occurrence.use = .variable →
        occurrence.token.kind = .identifier

namespace Covers

variable {ts us : List Token} {os ps : List Occurrence}

theorem nil : Covers ts [] := ⟨List.nil_subperm, fun _ hMem => nomatch hMem⟩

theorem append (h₁ : Covers ts os) (h₂ : Covers us ps) : Covers (ts ++ us) (os ++ ps) := by
  constructor
  · rw [List.map_append]
    exact h₁.tokens.append h₂.tokens
  · intro occurrence hMem
    rcases List.mem_append.mp hMem with hMem | hMem
    · exact h₁.names occurrence hMem
    · exact h₂.names occurrence hMem

section

variable (h : Covers ts os)
include h

theorem perm (hOthers : os.Perm ps) : Covers ts ps := by
  constructor
  · exact (hOthers.map _).symm.subperm.trans h.tokens
  · intro occurrence hMem
    exact h.names occurrence (hOthers.mem_iff.mpr hMem)

theorem more (hMore : ts.Subperm us) : Covers us os :=
  ⟨h.tokens.trans hMore, h.names⟩

/- A token that is not used. -/
theorem skip (token : Token) : Covers (token :: ts) os :=
  h.more (List.subperm_cons_self ..)

theorem skipLast (token : Token) : Covers (ts ++ [token]) os :=
  h.more (List.sublist_append_left ..).subperm

/- A token that is used. -/
theorem take (occurrence : Occurrence)
    (hName : occurrence.use = .variable → occurrence.token.kind = .identifier) :
    Covers (occurrence.token :: ts) (occurrence :: os) := by
  constructor
  · exact (List.subperm_cons _).mpr h.tokens
  · exact List.forall_mem_cons.mpr ⟨hName, h.names⟩

theorem other (token : Token) : Covers (token :: ts) (token.other :: os) :=
  h.take token.other fun hUse => nomatch hUse

theorem refer (token : Token) (binders : Binders) :
    Covers (token :: ts) (token.refer binders :: os) :=
  h.take (token.refer binders) fun hUse => nomatch hUse

theorem bind {token : Token} (hKind : token.kind = .identifier) (binders : Binders) :
    Covers (token :: ts) (token.bind binders :: os) := h.take (token.bind binders) fun _ => hKind

theorem otherLast (token : Token) : Covers (ts ++ [token]) (token.other :: os) :=
  (h.other token).more (List.perm_append_singleton ..).symm.subperm

/- An occurrence of a token is one of the tokens. -/
theorem mem {occurrence : Occurrence} (hMem : occurrence ∈ os) : occurrence.token ∈ ts :=
  h.tokens.subset (List.mem_map_of_mem hMem)

/- At each place there is one occurrence at most. -/
theorem unique (hPlaces : (ts.map Token.line).Nodup)
    {first second : Occurrence} (hFirst : first ∈ os) (hSecond : second ∈ os)
    (hSame : first.token.line = second.token.line) :
    first = second := by
  have hLines : (os.map fun occurrence => occurrence.token.line).Nodup := by
    rcases h.tokens with ⟨used, hPerm, hUsed⟩
    have hTokens := (hPerm.map Token.line).nodup_iff.mp ((hUsed.map Token.line).nodup hPlaces)
    rw [List.map_map] at hTokens
    exact hTokens
  exact List.inj_on_of_nodup_map hLines hFirst hSecond hSame

end

theorem skipMiddle (h : Covers (ts ++ us) os) (token : Token) :
    Covers (ts ++ token :: us) os :=
  (h.skip token).more List.perm_middle.symm.subperm

theorem otherMiddle (h : Covers (ts ++ us) os) (token : Token) :
    Covers (ts ++ token :: us) (token.other :: os) :=
  (h.other token).more List.perm_middle.symm.subperm

end Covers

def Trailer.occurrences (binders : Binders) :
    Trailer → List Occurrence
  | .call arguments paren => paren.other :: exprsOccurrences binders arguments
  | .property name => [name.other]
  | .element position bracket => bracket.other :: position.occurrences binders

/- The tokens of an operator and the operand after it. -/
def operandOccurrences (binders : Binders) (next : Token × Expr) : List Occurrence :=
  next.1.other :: next.2.occurrences binders

theorem occurrences_foldl_join {level : Level} (hLevel : level.IsPlain)
    (binders : Binders) (others : List (Token × Expr)) (first : Expr) :
    (first.occurrences binders ++ others.flatMap (operandOccurrences binders)).Perm
      ((others.foldl level.join first).occurrences binders) := by
  induction others generalizing first with
  | nil =>
    rw [List.flatMap_nil, List.append_nil]
    rfl
  | cons next others ih =>
    have hJoin : (level.join first next).occurrences binders = next.1.other ::
            (first.occurrences binders ++ next.2.occurrences binders) := by
      rcases hLevel with hNode | hNode <;>
        simp only [Level.join, hNode, Expr.occurrences]
    refine .trans ?_ (ih (level.join first next))
    rw [hJoin, List.flatMap_cons, operandOccurrences, ← List.append_assoc]
    exact List.perm_middle.append_right _

theorem occurrences_foldl_on (binders : Binders) (others : List Trailer) (first : Expr) :
    (first.occurrences binders ++ others.flatMap (Trailer.occurrences binders)).Perm
      ((others.foldl Trailer.on first).occurrences binders) := by
  induction others generalizing first with
  | nil =>
    rw [List.flatMap_nil, List.append_nil]
    rfl
  | cons next others ih =>
    refine .trans ?_ (ih (next.on first))
    rw [List.flatMap_cons, ← List.append_assoc]
    apply List.Perm.append_right
    cases next <;>
      simp only [Trailer.on, Trailer.occurrences, Expr.occurrences] <;>
      first
        | exact List.perm_middle
        | exact List.perm_append_singleton ..

section

variable (last : Option Expr) (body : Stmt)

/- One round of a `for` statement. -/
theorem occurrences_round (binders : Binders) :
    let round : Stmt :=
      match last with
      | some expr => .block [body, .expression expr]
      | none => body
    ∃ b₁ b₂, (last.toList.flatMap (Expr.occurrences b₁) ++ body.occurrences b₂).Perm
        (round.occurrences binders) := by
  cases last with
  | none => exact ⟨binders, binders, .rfl⟩
  | some expr =>
    refine ⟨body.binders ([] :: binders), [] :: binders, ?_⟩
    simp only [Option.toList, List.flatMap_singleton,
      Stmt.occurrences, stmtsOccurrences, List.append_nil]
    exact List.perm_append_comm

/- The parts of a `for` statement, each in its scopes. -/
theorem occurrences_forLoop (first : Option Stmt) (condition : Option Expr)
    (binders : Binders) :
    ∃ b₁ b₂ b₃ b₄,
      (first.toList.flatMap (Stmt.occurrences b₁) ++
          (condition.toList.flatMap (Expr.occurrences b₂) ++
            (last.toList.flatMap (Expr.occurrences b₃) ++ body.occurrences b₄))).Perm
        ((forLoop first condition last body).occurrences binders) := by
  have hCondition : ∀ binders, (condition.getD .always).occurrences binders =
          condition.toList.flatMap (Expr.occurrences binders) := by
    intro binders
    cases condition with
    | none => rfl
    | some expr => exact (List.flatMap_singleton ..).symm
  cases first with
  | none =>
    rcases occurrences_round last body binders with ⟨b₁, b₂, hRound⟩
    refine ⟨binders, binders, b₁, b₂, ?_⟩
    simp only [forLoop, Stmt.occurrences, hCondition]
    exact hRound.append_left _
  | some stmt =>
    rcases occurrences_round last body (stmt.binders ([] :: binders)) with ⟨b₁, b₂, hRound⟩
    refine ⟨[] :: binders, stmt.binders ([] :: binders), b₁, b₂, ?_⟩
    simp only [forLoop, Stmt.occurrences, stmtsOccurrences,
      hCondition, Option.toList, List.flatMap_singleton, List.append_nil]
    exact (hRound.append_left _).append_left _

end

/- The tokens of a phrase cover those of its tree. -/
def Phrase.Covered (ts : List Token) :
    (phrase : Phrase) → phrase.Tree → Binders → Prop
  | .declarations => fun body binders => Covers ts (stmtsOccurrences binders body)
  | .declaration => fun stmt binders => Covers ts (stmt.occurrences binders)
  | .functions => fun members binders => Covers ts (methodsOccurrences binders members)
  | .function => fun f binders => Covers ts (f.occurrences binders)
  | .signature _ keyword => fun f binders => Covers (keyword :: ts) (f.occurrences binders)
  | .parameters => fun params binders => Covers ts (params.map (Token.bind binders))
  | .names => fun params binders => Covers ts (params.map (Token.bind binders))
  | .block => fun body binders => Covers ts (stmtsOccurrences binders body)
  | .letDecl => fun stmt binders => Covers ts (stmt.occurrences binders)
  | .exprStmt => fun stmt binders => Covers ts (stmt.occurrences binders)
  | .clause => fun stmt? binders => Covers ts (stmt?.toList.flatMap (Stmt.occurrences binders))
  | .optional => fun expr? binders => Covers ts (expr?.toList.flatMap (Expr.occurrences binders))
  | .statement _ => fun stmt binders => Covers ts (stmt.occurrences binders)
  | .expression => fun expr binders => Covers ts (expr.occurrences binders)
  | .target => fun expr binders => Covers ts (expr.occurrences binders)
  | .binary all => fun expr binders =>
    (∀ level ∈ all, level.IsPlain) → Covers ts (expr.occurrences binders)
  | .operands _ tighter => fun others binders =>
    (∀ level ∈ tighter, level.IsPlain) → Covers ts (others.flatMap (operandOccurrences binders))
  | .unary => fun expr binders => Covers ts (expr.occurrences binders)
  | .operand => fun expr binders => Covers ts (expr.occurrences binders)
  | .call => fun expr binders => Covers ts (expr.occurrences binders)
  | .trailers => fun others binders => Covers ts (others.flatMap (Trailer.occurrences binders))
  | .primary => fun expr binders => Covers ts (expr.occurrences binders)
  | .arguments => fun items binders => Covers ts (exprsOccurrences binders items)
  | .list => fun items binders => Covers ts (exprsOccurrences binders items)

theorem Derives.covers {gaps : Prop} {phrase : Phrase} {n n' : Nat}
    {ts : List Token} {tree : phrase.Tree}
    (h : Derives gaps phrase n ts tree n') (binders : Binders) :
    phrase.Covered ts tree binders := by
  induction h generalizing binders with
      try simp only [Phrase.Covered, Stmt.occurrences, Expr.occurrences, Function.occurrences,
        stmtsOccurrences, exprsOccurrences, methodsOccurrences]
  | noDeclaration
  | noFunction
  | noParameter
  | noClause
  | absent
  | noTrailer
  | literal
  | noArgument => exact .nil
  | moreDeclarations _ _ ihFirst ihOthers =>
    exact (ihFirst _).append (ihOthers _)
  | leftOut ts _ _ _ ih => exact (ih _).more (List.sublist_append_right ..).subperm
  | rootClass _ _ _ _ _ ih =>
    exact ((((ih _).skipLast _).skip _).other _).skip _
  | derivedClass _ _ _ _ _ _ _ ih =>
    exact ((((((ih _).skipLast _).skip _).refer _ _).skip _).other _).skip _
  | functionDecl _ _ ih =>
    exact (ih _).skip _
  | letVariable _ ih
  | plain _ ih
  | function _ _ ih
  | someParameters _ _ ih
  | expressionStatement _ ih
  | unsigned _ ih
  | unstepped _ ih
  | someArguments _ _ ih => exact ih binders
  | moreFunctions _ _ ihFirst ihOthers =>
    exact (ihFirst _).append (ihOthers _)
  | signature _ _ _ _ ihParams ihBody =>
    exact ((((ihParams _).append (ihBody _)).skipMiddle _).skip _).other _
  | lastName hName => exact Covers.nil.bind hName binders
  | moreNames hName _ _ ih => exact ((ih binders).skip _).bind hName binders
  | block _ _ _ ih => exact ((ih binders).skipLast _).skip _
  | letBare _ hName _ =>
    exact (Covers.nil.bind hName binders).skip _
  | letValue _ hName _ _ _ ih =>
    exact ((((ih _).skipLast _).skip _).bind hName binders).skip _
  | exprStmt _ _ ih =>
    exact (ih binders).skipLast _
  | letClause _ ih
  | exprClause _ ih
  | present _ ih =>
    simp only [Option.toList, List.flatMap_singleton]
    exact ih binders
  | printStatement _ _ _ ih =>
    exact ((ih binders).skipLast _).other _
  | ifStatement _ _ _ _ _ ihCondition ihThen
  | whileStatement _ _ _ _ _ ihCondition ihThen =>
    exact ((((ihCondition _).append (ihThen _)).skipMiddle _).skip _).skip _
  | ifElse _ _ _ _ _ _ _ ihCondition ihThen ihElse =>
    exact ((((ihCondition _).append (((ihThen _).append (ihElse _)).skipMiddle _)).skipMiddle
        _).skip _).skip _
  | loopStatement _ _ ih =>
    exact (ih binders).skip _
  | @forStatement _ _ _ _ _ _ _ _ first _ condition _ _ last
      _ _ body _ _ _ _ _ _ _ _ _ ihFirst ihCondition ihLast ihBody =>
      rcases occurrences_forLoop last body first condition binders with ⟨b₁, b₂, b₃, b₄, hParts⟩
      refine .perm ?_ hParts
      exact (((ihFirst b₁).append (((ihCondition b₂).append
        (((ihLast b₃).append (ihBody b₄)).skipMiddle _)).skipMiddle _)).skip _).skip _
  | breakStatement =>
    exact Covers.nil.other _
  | @returnStatement _ _ _ _ value _ _ _ _ ih =>
    have hValue := ih binders
    cases value with
    | none =>
      exact Covers.nil.other _
    | some expr =>
      simp only [Phrase.Covered, Option.toList, List.flatMap_singleton] at hValue
      exact (hValue.skipLast _).other _
  | blockStatement _ ih =>
    exact ih _
  | assign _ _ _ ih =>
    exact ((ih binders).skip _).refer _ binders
  | setProperty _ _ _ _ _ ihObject ihValue =>
    exact ((((ihObject _).append ((ihValue _).skip _)).otherMiddle _).skipMiddle _)
  | setElement _ _ _ _ _ _ ihObject ihPosition ihValue =>
    refine .perm ?_ List.perm_middle
    exact (ihObject _).append ((((ihPosition _).append ((ihValue _).skip _)).otherMiddle _).skip _)
  | compound _ _ _ ihTarget ihValue =>
    exact ((ihTarget _).append (ihValue _)).otherMiddle _
  | unassigned _ ih => exact ih binders levels_plain
  | nameTarget
  | self
  | name =>
    exact Covers.nil.refer _ binders
  | propertyTarget _ _ _ ih =>
    refine .perm ?_ (List.perm_append_singleton ..)
    exact (ih _).append ((Covers.nil.other _).skip _)
  | elementTarget _ _ _ _ ihObject ihPosition =>
    refine .perm ?_ List.perm_middle
    exact (ihObject _).append (((ihPosition _).otherLast _).skip _)
  | tightest _ ih => exact fun _ => ih binders
  | chained _ _ ihFirst ihOthers =>
    intro hPlain
    have hLevel := hPlain _ (List.mem_cons_self ..)
    have hTighter := fun level hMem => hPlain level (List.mem_cons_of_mem _ hMem)
    exact ((ihFirst _ hTighter).append (ihOthers _ hTighter)).perm
        (occurrences_foldl_join hLevel ..)
  | noOperand => exact fun _ => .nil
  | moreOperands _ _ _ ihRight ihOthers =>
    intro hPlain
    exact ((ihRight binders hPlain).append (ihOthers binders hPlain)).other _
  | sign _ _ ih
  | stepBefore _ _ _ ih =>
    exact (ih binders).other _
  | stepAfter _ _ _ ih =>
    exact (ih binders).otherLast _
  | call _ _ ihFirst ihOthers =>
    exact ((ihFirst binders).append (ihOthers binders)).perm (occurrences_foldl_on ..)
  | callTrailer _ _ _ _ ihArguments ihOthers
  | elementTrailer _ _ _ _ ihArguments ihOthers =>
    exact (((ihArguments binders).append (ihOthers binders)).otherMiddle _).skip _
  | propertyTrailer _ _ _ ih => exact ((ih binders).other _).skip _
  | superMethod =>
    exact ((Covers.nil.other _).skip _).refer _ binders
  | group _ _ _ ih =>
    exact ((ih binders).skipLast _).skip _
  | array _ _ _ ih =>
    exact ((ih binders).otherLast _).skip _
  | functionLiteral _ _ ih =>
    exact ih binders
  | lastItem _ ih =>
    simp only [List.append_nil]
    exact ih binders
  | moreItems _ _ _ ihItem ihItems =>
    exact ((ihItem _).append (ihItems _)).skipMiddle _

end Grammar

end Scriptlet
