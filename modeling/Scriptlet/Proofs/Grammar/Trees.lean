import Scriptlet.Proofs.Grammar.Map
import Scriptlet.Proofs.Scan.Written

/-
  What stands where in trees that are read.

  Key declarations include:
    * `Grammar.Derives.numbered`
    * `Ordinary`
    * `Expr.Sensible`
    * `Grammar.Derives.sensible`

  Every reference node has a number of its own.  The words
  `this` and `super` stand for the object and the superclass
  only, and are never the names of variables.  Operators
  stand where they have a meaning.  Branches and bodies of
  loops declare nothing, a superclass is given by a name, and
  just those functions have names that are declared or
  methods.
-/

namespace Scriptlet

namespace Grammar

/- Nodes have numbers of their own from `n` up to `n'`. -/
structure Numbered (n n' : Nat) (nodes : List Reference) : Prop where
  le : n ≤ n'
  distinct : (nodes.map Reference.id).Nodup
  bounds : ∀ node ∈ nodes, n ≤ node.id ∧ node.id < n'

namespace Numbered

variable {n n₁ n₂ : Nat} {nodes others : List Reference}

theorem nil (h : n ≤ n₁) : Numbered n n₁ [] where
  le := h
  distinct := List.nodup_nil
  bounds := fun _ hMem => absurd hMem List.not_mem_nil

theorem single (role : Role) (token : Token) {id : Nat} (hFrom : n ≤ id)
    (hTo : id < n₁) : Numbered n n₁ [⟨role, id, token⟩] where
  le := by omega
  distinct := List.pairwise_singleton _ _
  bounds := by
    intro node hMem
    rw [List.mem_singleton.mp hMem]
    exact ⟨hFrom, hTo⟩

theorem append (h : Numbered n n₁ nodes) (h' : Numbered n₁ n₂ others) :
    Numbered n n₂ (nodes ++ others) where
  le := Nat.le_trans h.le h'.le
  distinct := by
    rw [List.map_append]
    refine List.nodup_append.mpr ⟨h.distinct, h'.distinct, ?_⟩
    intro id hId id' hId' hSame
    rcases List.mem_map.mp hId with ⟨node, hMem, rfl⟩
    rcases List.mem_map.mp hId' with ⟨node', hMem', rfl⟩
    have hBelow := (h.bounds node hMem).2
    have hAbove := (h'.bounds node' hMem').1
    omega
  bounds := by
    intro node hMem
    have hLe := h.le
    have hLe' := h'.le
    rcases List.mem_append.mp hMem with hMem | hMem
    · have hBounds := h.bounds node hMem
      omega
    · have hBounds := h'.bounds node hMem
      omega

/- The order of nodes does not matter. -/
theorem swap (h : Numbered n n₁ (nodes ++ others)) : Numbered n n₁ (others ++ nodes) where
  le := h.le
  distinct := by
    have hDistinct := h.distinct
    rw [List.map_append] at hDistinct ⊢
    exact List.perm_append_comm.nodup hDistinct
  bounds := by
    intro node hMem
    exact h.bounds node (List.mem_append.mpr (List.mem_append.mp hMem).symm)

/- Numbers may have been handed out before. -/
theorem later (h : Numbered n₁ n₂ nodes) (hLe : n ≤ n₁) : Numbered n n₂ nodes :=
  (nil hLe).append h

end Numbered

def Trailer.references : Trailer → List Reference
  | .call arguments _ => exprsReferences arguments
  | .property _ => []
  | .element position _ => position.references

/- The nodes of operands. -/
def operandReferences (others : List (Token × Expr)) : List Reference :=
  others.flatMap fun next => next.2.references

/- Numbers of the nodes of what a phrase stands for. -/
def Phrase.Numbered (n n' : Nat) :
    (phrase : Phrase) → phrase.Tree → Prop
  | .declarations => fun body => Grammar.Numbered n n' (stmtsReferences body)
  | .declaration => fun stmt => Grammar.Numbered n n' stmt.references
  | .functions => fun members => Grammar.Numbered n n' (functionsReferences members)
  | .function => fun f => Grammar.Numbered n n' f.references
  | .signature _ _ => fun f => Grammar.Numbered n n' f.references
  | .parameters => fun _ => True
  | .names => fun _ => True
  | .block => fun body => Grammar.Numbered n n' (stmtsReferences body)
  | .letDecl => fun stmt => Grammar.Numbered n n' stmt.references
  | .exprStmt => fun stmt => Grammar.Numbered n n' stmt.references
  | .clause => fun stmt? => Grammar.Numbered n n' (stmtsReferences stmt?.toList)
  | .optional => fun expr? => Grammar.Numbered n n' (exprsReferences expr?.toList)
  | .statement _ => fun stmt => Grammar.Numbered n n' stmt.references
  | .binary all => fun expr =>
    (∀ level ∈ all, level.IsPlain) → Grammar.Numbered n n' expr.references
  | .operands _ tighter => fun others =>
    (∀ level ∈ tighter, level.IsPlain) → Grammar.Numbered n n' (operandReferences others)
  | .trailers => fun others => Grammar.Numbered n n' (others.flatMap Trailer.references)
  | .arguments => fun items => Grammar.Numbered n n' (exprsReferences items)
  | .list => fun items => Grammar.Numbered n n' (exprsReferences items)
  | .expression => fun expr => Grammar.Numbered n n' expr.references
  | .target => fun expr => Grammar.Numbered n n' expr.references
  | .unary => fun expr => Grammar.Numbered n n' expr.references
  | .operand => fun expr => Grammar.Numbered n n' expr.references
  | .call => fun expr => Grammar.Numbered n n' expr.references
  | .primary => fun expr => Grammar.Numbered n n' expr.references

theorem references_foldl_join {level : Level} (hLevel : level.IsPlain)
    (others : List (Token × Expr)) (first : Expr) :
    (others.foldl level.join first).references = first.references ++ operandReferences others := by
  induction others generalizing first with
  | nil => simp [operandReferences]
  | cons next others ih =>
    have hJoin : (level.join first next).references = first.references ++ next.2.references := by
      rcases hLevel with hNode | hNode <;>
        simp only [Level.join, hNode, Expr.references]
    rw [List.foldl_cons, ih, hJoin, List.append_assoc]
    rfl

theorem references_foldl_on (others : List Trailer) (first : Expr) :
    (others.foldl Trailer.on first).references =
      first.references ++ others.flatMap Trailer.references := by
  induction others generalizing first with
  | nil => simp
  | cons next others ih =>
    have hOn : (next.on first).references = first.references ++ next.references := by
      cases next <;>
        simp [Trailer.on, Trailer.references, Expr.references]
    rw [List.foldl_cons, ih, hOn, List.append_assoc]
    rfl

/-
  The nodes of a `for` statement: its last clause is read
  before its body and stands behind it.
-/
theorem numbered_forLoop {n n₁ n₂ n₃ n₄ : Nat} {first : Option Stmt}
    {condition last : Option Expr} {body : Stmt}
    (hFirst : Numbered n n₁ (stmtsReferences first.toList))
    (hCondition : Numbered n₁ n₂ (exprsReferences condition.toList))
    (hLast : Numbered n₂ n₃ (exprsReferences last.toList))
    (hBody : Numbered n₃ n₄ body.references) :
    Numbered n n₄ (forLoop first condition last body).references := by
  have hRound := (hLast.append hBody).swap
  have hAll := hFirst.append (hCondition.append hRound)
  cases first <;> cases condition <;> cases last <;>
    simpa [forLoop, Stmt.references, Expr.references,
      Expr.always, stmtsReferences, exprsReferences] using hAll

/- Distinct nodes have distinct numbers. -/
theorem Derives.numbered {gaps : Prop} {phrase : Phrase} {n n' : Nat}
    {ts : List Token} {tree : phrase.Tree}
    (h : Derives gaps phrase n ts tree n') : phrase.Numbered n n' tree := by
  induction h with
  | noDeclaration
  | noFunction
  | letBare
  | noClause
  | absent
  | breakStatement
  | noTrailer
  | literal
  | noArgument => exact .nil (Nat.le_refl _)
  | moreDeclarations _ _ ihFirst ihOthers
  | moreFunctions _ _ ihFirst ihOthers
  | ifStatement _ _ _ _ _ ihFirst ihOthers
  | whileStatement _ _ _ _ _ ihFirst ihOthers
  | setProperty _ _ _ _ _ ihFirst ihOthers
  | compound _ _ _ ihFirst ihOthers
  | elementTarget _ _ _ _ ihFirst ihOthers
  | callTrailer _ _ _ _ ihFirst ihOthers
  | elementTrailer _ _ _ _ ihFirst ihOthers
  | moreItems _ _ _ ihFirst ihOthers => exact ihFirst.append ihOthers
  | leftOut _ _ hLe _ ih => exact ih.later hLe
  | derivedClass _ _ _ _ _ _ _ ih =>
    exact (Numbered.single _ _ (Nat.le_refl _) (Nat.lt_succ_self _)).append ih
  | noParameter
  | someParameters
  | lastName
  | moreNames => trivial
  | letClause _ ih
  | exprClause _ ih
  | present _ ih
  | lastItem _ ih => exact ih.append (.nil (Nat.le_refl _))
  | ifElse _ _ _ _ _ _ _ ihCondition ihThen ihElse
  | setElement _ _ _ _ _ _ ihCondition ihThen ihElse =>
    exact ihCondition.append (ihThen.append ihElse)
  | forStatement _ _ _ _ _ _ _ _ ihFirst ihCondition ihLast ihBody =>
    exact numbered_forLoop ihFirst ihCondition ihLast ihBody
  | @returnStatement _ _ _ _ value _ _ _ _ ih =>
    cases value with
    | none => exact ih
    | some expr =>
      simp only [Phrase.Numbered, Option.toList_some, exprsReferences, List.append_nil] at ih
      exact ih
  | assign _ _ _ ih =>
    exact (ih.later (Nat.le_succ _)).append (.single _ _ (Nat.le_refl _) (Nat.lt_succ_self _))
  | unassigned _ ih => exact ih levels_plain
  | nameTarget
  | self
  | superMethod
  | name => exact .single _ _ (Nat.le_refl _) (Nat.lt_succ_self _)
  | tightest _ ih => exact fun _ => ih
  | chained _ _ ihFirst ihOthers =>
    intro hPlain
    have hLevel := hPlain _ (List.mem_cons_self ..)
    have hTighter := fun level hMem => hPlain level (List.mem_cons_of_mem _ hMem)
    rw [references_foldl_join hLevel]
    exact (ihFirst hTighter).append (ihOthers hTighter)
  | noOperand => exact fun _ => .nil (Nat.le_refl _)
  | moreOperands _ _ _ ihRight ihOthers =>
    exact fun hPlain => (ihRight hPlain).append (ihOthers hPlain)
  | call _ _ ihFirst ihOthers =>
    simp only [Phrase.Numbered, references_foldl_on]
    exact ihFirst.append ihOthers
  | _ => assumption

end Grammar

------------------------------------------------------------
-- Sensible Trees
------------------------------------------------------------

/- A name that a variable may have. -/
structure Ordinary (name : String) : Prop where
  ne_this : name ≠ "this"
  ne_super : name ≠ "super"

variable {token : Token}

theorem Token.Written.ordinary (h : token.Written)
    (hKind : token.kind = .identifier) : Ordinary token.lexeme := by
  simp only [Token.Written, hKind, Token.Kind.Written] at h
  constructor
  · intro hThis
    rw [hThis] at h
    revert h
    decide
  · intro hSuper
    rw [hSuper] at h
    revert h
    decide

theorem Token.IsName.ordinary (h : token.IsName) : Ordinary token.lexeme :=
  h.written.ordinary h.kind

theorem Token.Written.lexeme_eq {keyword : Keyword}
    (h : token.Written) (hKind : token.kind = .keyword keyword) :
    token.lexeme = String.ofList keyword.chars := by
  simp only [Token.Written, hKind, Token.Kind.Written] at h
  rw [← h, String.ofList_toList]

/- An operator between two values. -/
def Token.Kind.isArithmetic : Token.Kind → Bool
  | .symbol .plus => true
  | .symbol .minus => true
  | .symbol .star => true
  | .symbol .slash => true
  | .symbol .greater => true
  | .symbol .greaterEqual => true
  | .symbol .less => true
  | .symbol .lessEqual => true
  | .symbol .equalEqual => true
  | .symbol .bangEqual => true
  | _ => false

/- An operator that decides by its first value. -/
def Token.Kind.isLink : Token.Kind → Bool
  | .keyword .andWord => true
  | .keyword .orWord => true
  | _ => false

/- A written token of a kind that passes the test. -/
@[mk_iff]
structure Token.Is (test : Token.Kind → Bool) (token : Token) : Prop where
  written : token.Written
  kind : test token.kind = true

/- Numbers are spelled in digits. -/
def Literal.Sensible : Literal → Prop
  | .number x => ∃ whole fraction, Numeral.Spells whole fraction x
  | _ => True

theorem Token.Written.literal {value : Literal} (h : token.Written)
    (hValue : Grammar.literalOf? token.kind = some value) : value.Sensible := by
  unfold Grammar.literalOf? at hValue
  split at hValue <;> cases hValue
  case h_4 x hKind =>
    rw [Token.Written, hKind] at h
    rcases h with ⟨whole, fraction, hSpells, -⟩
    exact ⟨whole, fraction, hSpells⟩
  all_goals trivial

open Grammar (isSign isStep isCompound)

mutual

/-
  Operators have a meaning where they stand, targets can be
  assigned to, words are what their places say, and names and
  declarations stand where they may.
-/
def Expr.Sensible : Expr → Prop
  | .literal value => value.Sensible
  | .name _ name => name.IsName
  | .assign _ name value => name.IsName ∧ value.Sensible
  | .compound target operator value =>
    (target.isAssignable = true ∧ operator.Is isCompound) ∧
        target.Sensible ∧ value.Sensible
  | .increment target operator _ =>
    (target.isAssignable = true ∧ operator.Is isStep) ∧ target.Sensible
  | .unary operator operand => operator.Is isSign ∧ operand.Sensible
  | .binary left operator right =>
    operator.Is Token.Kind.isArithmetic ∧ left.Sensible ∧ right.Sensible
  | .logical left operator right =>
    operator.Is Token.Kind.isLink ∧ left.Sensible ∧ right.Sensible
  | .call callee _ arguments => callee.Sensible ∧ exprsSensible arguments
  | .get object name => name.IsName ∧ object.Sensible
  | .set object name value => name.IsName ∧ object.Sensible ∧ value.Sensible
  | .index object _ position => object.Sensible ∧ position.Sensible
  | .indexSet object _ position value => object.Sensible ∧ position.Sensible ∧ value.Sensible
  | .self _ keyword => keyword.lexeme = "this"
  | .superMethod _ keyword method => keyword.lexeme = "super" ∧ method.IsName
  | .function f => f.name = none ∧ f.Sensible
  | .group inner => inner.Sensible
  | .array _ elements => exprsSensible elements

def Stmt.Sensible : Stmt → Prop
  | .expression expr => expr.Sensible
  | .print _ value => value.Sensible
  | .letDecl name none => name.IsName
  | .letDecl name (some value) => name.IsName ∧ value.Sensible
  | .functionDecl f => f.IsNamed ∧ f.Sensible
  | .classDecl name none methods => name.IsName ∧ functionsSensible methods
  | .classDecl name (some superclass) methods =>
    name.IsName ∧ (superclass.isName = true ∧ superclass.Sensible) ∧
        functionsSensible methods
  | .block body => stmtsSensible body
  | .conditional condition thenBranch none =>
    condition.Sensible ∧ thenBranch.Sensible ∧ thenBranch.declares = false
  | .conditional condition thenBranch (some elseBranch) =>
    condition.Sensible ∧ (thenBranch.Sensible ∧ thenBranch.declares = false) ∧
        elseBranch.Sensible ∧ elseBranch.declares = false
  | .whileLoop condition body => condition.Sensible ∧ body.Sensible ∧ body.declares = false
  | .breakLoop _ => True
  | .returnValue _ none => True
  | .returnValue _ (some value) => value.Sensible

def Function.Sensible : Function → Prop
  | .mk name _ params body =>
    ((∀ token ∈ name, token.IsName) ∧
      ∀ param ∈ params, param.IsName) ∧ stmtsSensible body

def exprsSensible : List Expr → Prop
  | [] => True
  | first :: others => first.Sensible ∧ exprsSensible others

def stmtsSensible : List Stmt → Prop
  | [] => True
  | first :: others => first.Sensible ∧ stmtsSensible others

def functionsSensible : List Function → Prop
  | [] => True
  | first :: others => (first.IsNamed ∧ first.Sensible) ∧ functionsSensible others

end

namespace Function.Sensible

variable {f : Function}

theorem name (h : f.Sensible) {token : Token} (hName : f.name = some token) :
    Ordinary token.lexeme := by
  cases f with
  | mk name keyword params body =>
    exact (h.1.1 token hName).ordinary

theorem param (h : f.Sensible) {token : Token} (hParam : token ∈ f.params) :
    Ordinary token.lexeme := by
  cases f with
  | mk name keyword params body =>
    exact (h.1.2 token hParam).ordinary

theorem label (h : f.Sensible) : Ordinary f.label := by
  unfold Function.label
  split
  · rename_i token hName
    exact h.name hName
  · exact ⟨by decide, by decide⟩

theorem body (h : f.Sensible) : stmtsSensible f.body := by
  cases f with
  | mk name keyword params body =>
    exact h.2

end Function.Sensible

theorem sensible_of_mem {methods : List Function}
    (h : functionsSensible methods) {f : Function} (hMem : f ∈ methods) : f.Sensible := by
  induction methods with
  | nil => cases hMem
  | cons first others ih =>
    rcases List.mem_cons.mp hMem with rfl | hMem
    · exact h.1.2
    · exact ih h.2 hMem

theorem sensible_of_mem_stmts {stmts : List Stmt}
    (h : stmtsSensible stmts) {stmt : Stmt} (hMem : stmt ∈ stmts) : stmt.Sensible := by
  induction stmts with
  | nil => cases hMem
  | cons first others ih =>
    rcases List.mem_cons.mp hMem with rfl | hMem
    · exact h.1
    · exact ih h.2 hMem

namespace Grammar

/- The operators of a level have a meaning in its nodes. -/
def Level.IsSensible (level : Level) : Prop :=
  level.node = .logical ∧ (∀ kind, level.operators.contains kind = true → kind.isLink = true) ∨
    level.node = .binary ∧
      ∀ kind, level.operators.contains kind = true → kind.isArithmetic = true

theorem levels_sensible : ∀ level ∈ levels, level.IsSensible := by
  have hOperators {operators : List Token.Kind} {test : Token.Kind → Bool}
      (h : ∀ kind ∈ operators, test kind = true) :
      ∀ kind, operators.contains kind = true → test kind = true := by
    intro kind hMem
    exact h kind (List.contains_iff_mem.mp hMem)
  intro level hLevel
  simp only [levels, List.mem_cons, List.not_mem_nil, or_false] at hLevel
  rcases hLevel with rfl | rfl | rfl | rfl | rfl | rfl
  · exact .inl ⟨rfl, hOperators (by decide)⟩
  · exact .inl ⟨rfl, hOperators (by decide)⟩
  all_goals exact .inr ⟨rfl, hOperators (by decide)⟩

def Trailer.Sensible : Trailer → Prop
  | .call arguments _ => exprsSensible arguments
  | .property name => name.IsName
  | .element position _ => position.Sensible

/- What a phrase stands for is sensible. -/
def Phrase.Sensible : (phrase : Phrase) → phrase.Tree → Prop
  | .declarations => stmtsSensible
  | .declaration => Stmt.Sensible
  | .functions => functionsSensible
  | .function => fun f => f.IsNamed ∧ f.Sensible
  | .signature name keyword => fun f =>
    (∀ token ∈ name, token.IsName) → (f.name = name ∧ f.keyword = keyword) ∧ f.Sensible
  | .parameters => fun params => ∀ param ∈ params, param.IsName
  | .names => fun names => ∀ name ∈ names, name.IsName
  | .block => stmtsSensible
  | .letDecl => Stmt.Sensible
  | .exprStmt => fun stmt => stmt.Sensible ∧ stmt.declares = false
  | .clause => fun stmt? => stmtsSensible stmt?.toList
  | .optional => fun expr? => exprsSensible expr?.toList
  | .statement _ => fun stmt => stmt.Sensible ∧ stmt.declares = false
  | .binary all => fun expr => (∀ level ∈ all, level.IsSensible) → expr.Sensible
  | .operands level tighter => fun others =>
    (∀ level ∈ tighter, level.IsSensible) → ∀ next ∈ others,
        next.1.Is level.operators.contains ∧ next.2.Sensible
  | .trailers => fun others => ∀ next ∈ others, next.Sensible
  | .arguments => exprsSensible
  | .list => exprsSensible
  | .expression => Expr.Sensible
  | .target => fun expr => expr.isAssignable = true ∧ expr.Sensible
  | .unary => Expr.Sensible
  | .operand => Expr.Sensible
  | .call => Expr.Sensible
  | .primary => Expr.Sensible

variable {first : Expr}

theorem sensible_foldl_join {level : Level} (hLevel : level.IsSensible)
    {others : List (Token × Expr)}
    (hOthers : ∀ next ∈ others, next.1.Is level.operators.contains ∧ next.2.Sensible)
    (hFirst : first.Sensible) :
    (others.foldl level.join first).Sensible := by
  induction others generalizing first with
  | nil => exact hFirst
  | cons next others ih =>
    rcases List.forall_mem_cons.mp hOthers with ⟨⟨hOperator, hNext⟩, hOthers⟩
    apply ih hOthers
    rcases hLevel with ⟨hNode, hKind⟩ | ⟨hNode, hKind⟩ <;>
      simp only [Level.join, hNode, Expr.Sensible] <;>
      exact ⟨⟨hOperator.written, hKind _ hOperator.kind⟩, hFirst, hNext⟩

theorem sensible_foldl_on {others : List Trailer}
    (hOthers : ∀ next ∈ others, next.Sensible)
    (hFirst : first.Sensible) : (others.foldl Trailer.on first).Sensible := by
  induction others generalizing first with
  | nil => exact hFirst
  | cons next others ih =>
    rcases List.forall_mem_cons.mp hOthers with ⟨hNext, hOthers⟩
    apply ih hOthers
    cases next with
    | call arguments paren
    | element position bracket => exact ⟨hFirst, hNext⟩
    | property name => exact ⟨hNext, hFirst⟩

theorem sensible_forLoop {first : Option Stmt} {condition last : Option Expr}
    {body : Stmt} (hFirst : stmtsSensible first.toList)
    (hCondition : exprsSensible condition.toList) (hLast : exprsSensible last.toList)
    (hBody : body.Sensible ∧ body.declares = false) :
    (forLoop first condition last body).Sensible ∧ (forLoop first condition last body).declares =
        false := by
  cases first <;> cases condition <;> cases last <;>
    simp_all [forLoop, Stmt.Sensible, Stmt.declares,
      Expr.Sensible, Literal.Sensible, Expr.always, stmtsSensible, exprsSensible]

/- Trees that are read from written tokens are sensible. -/
theorem Derives.sensible {gaps : Prop} {phrase : Phrase} {n n' : Nat}
    {ts : List Token} {tree : phrase.Tree} (h : Derives gaps phrase n ts tree n')
    (hWritten : ∀ token ∈ ts, token.Written) : phrase.Sensible tree := by
  induction h with
      try simp only [List.forall_mem_cons, List.forall_mem_append] at hWritten
  | forStatement _ _ _ _ _ _ _ _ ihFirst ihCondition ihLast ihBody =>
    rcases hWritten with ⟨_, _, hFirst, hCondition, _, hLast, _, hBody⟩
    exact sensible_forLoop (ihFirst hFirst) (ihCondition hCondition) (ihLast hLast) (ihBody hBody)
  | loopStatement _ _ ih => exact ⟨⟨trivial, ih hWritten.2⟩, rfl⟩
  | @returnStatement _ _ _ _ value _ _ _ _ ih =>
    cases value with
    | none => exact ⟨trivial, rfl⟩
    | some expr => exact ⟨(ih hWritten.2.1).1, rfl⟩
  | unassigned _ ih => exact ih hWritten levels_sensible
  | chained _ _ ihFirst ihOthers =>
    rcases hWritten with ⟨hFirst, hOthers⟩
    intro hLevels
    rcases List.forall_mem_cons.mp hLevels with ⟨hLevel, hTighter⟩
    exact sensible_foldl_join hLevel (ihOthers hOthers hTighter) (ihFirst hFirst hTighter)
  | moreOperands hOperator _ _ ihRight ihOthers =>
    rcases hWritten with ⟨hWord, hRight, hOthers⟩
    intro hTighter
    exact List.forall_mem_cons.mpr
      ⟨⟨⟨hWord, hOperator⟩, ihRight hRight hTighter⟩, ihOthers hOthers hTighter⟩
  | call _ _ ihFirst ihOthers =>
    rcases hWritten with ⟨hFirst, hOthers⟩
    exact sensible_foldl_on (ihOthers hOthers) (ihFirst hFirst)
  | literal hValue => exact hWritten.1.literal hValue
  | self hWord => exact hWritten.1.lexeme_eq hWord
  | superMethod hWord _ hMethod =>
    exact ⟨hWritten.1.lexeme_eq hWord, hWritten.2.2.1, hMethod⟩
  | _ =>
    simp_all [Phrase.Sensible, Expr.Sensible, Stmt.Sensible, Function.Sensible, Trailer.Sensible,
      exprsSensible, stmtsSensible, functionsSensible, Token.isName_iff, Token.is_iff,
      Stmt.declares, Expr.isAssignable, Expr.isName, Function.IsNamed, Function.name,
      Function.keyword]

end Grammar

end Scriptlet
