import Scriptlet.Proofs.Grammar.Derivation
import Scriptlet.Proofs.Tree.Guise

/-
  Trees with other tokens and other node numbers.

  Key declarations include:
    * `Grammar.Phrase.Alike`
    * `Grammar.Derives.le`
    * `Grammar.Phrase.mapped`
    * `Grammar.Fits`
    * `Grammar.Derives.alike`

  Numbers of reference nodes are handed out upwards.  What
  the parser builds from parts that are alike is alike.  If
  the tokens that a phrase is derived from are alike to those
  they are exchanged for, and so are its numbers, then its
  tree is alike to the one with the new tokens.
-/

namespace Scriptlet

namespace Grammar

/- A level that makes nodes of the two binary kinds. -/
def Level.IsPlain (level : Level) : Prop := level.node = .logical ∨ level.node = .binary

theorem levels_plain : ∀ level ∈ levels, level.IsPlain := by
  intro level hLevel
  simp only [levels, List.mem_cons, List.not_mem_nil, or_false] at hLevel
  rcases hLevel with rfl | rfl | rfl | rfl | rfl | rfl
  · exact .inl rfl
  · exact .inl rfl
  all_goals exact .inr rfl

/- Trailers alike. -/
inductive Trailer.Alike (l : Likeness) : Trailer → Trailer → Prop where
  | call {arguments arguments' paren paren'} :
      exprsAlike l arguments arguments' → l.token paren paren' →
      Trailer.Alike l (.call arguments paren) (.call arguments' paren')
  | property {name name'} : l.token name name' → Trailer.Alike l (.property name) (.property name')
  | element {position position' bracket bracket'} :
      Expr.Alike l position position' → l.token bracket bracket' →
      Trailer.Alike l (.element position bracket) (.element position' bracket')

/- An operator and its right operand alike. -/
def OperandAlike (l : Likeness) (next next' : Token × Expr) : Prop :=
  l.token next.1 next'.1 ∧ Expr.Alike l next.2 next'.2

/-
  Trees of a phrase alike.  A signature leaves name and
  keyword of its function to whoever gives them.
-/
def Phrase.Alike (l : Likeness) :
    (phrase : Phrase) → phrase.Tree → phrase.Tree → Prop
  | .declarations => stmtsAlike l
  | .declaration => Stmt.Alike l
  | .functions => functionsAlike l
  | .function => Function.Alike l
  | .signature _ _ => fun f f' =>
    List.Forall₂ l.token f.params f'.params ∧ stmtsAlike l f.body f'.body
  | .parameters => List.Forall₂ l.token
  | .names => List.Forall₂ l.token
  | .block => stmtsAlike l
  | .letDecl => Stmt.Alike l
  | .exprStmt => Stmt.Alike l
  | .clause => Option.Rel (Stmt.Alike l)
  | .optional => Option.Rel (Expr.Alike l)
  | .statement _ => Stmt.Alike l
  | .expression => Expr.Alike l
  | .target => Expr.Alike l
  | .binary all => fun expr expr' => (∀ level ∈ all, level.IsPlain) → Expr.Alike l expr expr'
  | .operands _ tighter => fun others others' =>
    (∀ level ∈ tighter, level.IsPlain) → List.Forall₂ (OperandAlike l) others others'
  | .unary => Expr.Alike l
  | .operand => Expr.Alike l
  | .call => Expr.Alike l
  | .trailers => List.Forall₂ (Trailer.Alike l)
  | .primary => Expr.Alike l
  | .arguments => exprsAlike l
  | .list => exprsAlike l

variable {l : Likeness}

/- A chain of operators over operands alike. -/
theorem foldl_join_alike {level : Level} (hLevel : level.IsPlain)
    {others others' : List (Token × Expr)} (hOthers : List.Forall₂ (OperandAlike l) others others')
    {first first' : Expr} (hFirst : Expr.Alike l first first') :
    Expr.Alike l (others.foldl level.join first) (others'.foldl level.join first') := by
  refine List.rel_foldl ?_ hFirst hOthers
  intro _ _ hFirst _ _ hNext
  rcases hLevel with hNode | hNode
  · simp only [Level.join, hNode]
    exact .logical hFirst hNext.1 hNext.2
  · simp only [Level.join, hNode]
    exact .binary hFirst hNext.1 hNext.2

/- A chain of trailers over objects alike. -/
theorem foldl_on_alike {others others' : List Trailer}
    (hOthers : List.Forall₂ (Trailer.Alike l) others others')
    {first first' : Expr} (hFirst : Expr.Alike l first first') :
    Expr.Alike l (others.foldl Trailer.on first) (others'.foldl Trailer.on first') := by
  refine List.rel_foldl ?_ hFirst hOthers
  intro _ _ hFirst _ _ hNext
  cases hNext with
  | call hArguments hParen => exact .call hFirst hParen hArguments
  | property hName => exact .get hFirst hName
  | element hPosition hBracket => exact .index hFirst hBracket hPosition

/- What a `for` statement stands for, from parts alike. -/
theorem forLoop_alike {first first' : Option Stmt}
    {condition condition' last last' : Option Expr} {body body' : Stmt}
    (hFirst : Option.Rel (Stmt.Alike l) first first')
    (hCondition : Option.Rel (Expr.Alike l) condition condition')
    (hLast : Option.Rel (Expr.Alike l) last last') (hBody : Stmt.Alike l body body') :
    Stmt.Alike l (forLoop first condition last body) (forLoop first' condition' last' body') := by
  have hTest : Expr.Alike l (condition.getD .always) (condition'.getD .always) := by
    cases hCondition with
    | some hExpr => exact hExpr
    | none => exact .literal _
  cases hLast with
  | some hExpr =>
    have hWhile := Stmt.Guised.whileLoop hTest
      (.block (m := ()) (.cons hBody (.cons (.expression hExpr) .nil)))
    cases hFirst with
    | some hStmt => exact .block (m := ()) (.cons hStmt (.cons hWhile .nil))
    | none => exact hWhile
  | none =>
    have hWhile := Stmt.Guised.whileLoop hTest hBody
    cases hFirst with
    | some hStmt => exact .block (m := ()) (.cons hStmt (.cons hWhile .nil))
    | none => exact hWhile

/- Numbers are handed out upwards. -/
theorem Derives.le {gaps : Prop} {phrase : Phrase} {n n' : Nat}
    {ts : List Token} {tree : phrase.Tree} (h : Derives gaps phrase n ts tree n') : n ≤ n' := by
  induction h <;> omega

end Grammar

namespace Grammar

section

variable (g : Token → Token) (k : Nat)

def Trailer.map : Trailer → Trailer
  | .call arguments paren => .call (exprsMap g k arguments) (g paren)
  | .property name => .property (g name)
  | .element position bracket => .element (position.map g k) (g bracket)

/- An operator with the operand after it. -/
def mapOperand (next : Token × Expr) : Token × Expr := (g next.1, next.2.map g k)

theorem map_foldl_join {level : Level} (hLevel : level.IsPlain)
    (others : List (Token × Expr)) (first : Expr) :
    (others.foldl level.join first).map g k =
      (others.map (mapOperand g k)).foldl level.join (first.map g k) := by
  induction others generalizing first with
  | nil => rfl
  | cons next others ih =>
    have hJoin : (level.join first next).map g k = level.join (first.map g k)
            (mapOperand g k next) := by
      rcases hLevel with hNode | hNode <;>
        simp only [Level.join, hNode, Expr.map, mapOperand]
    rw [List.foldl_cons, ih, hJoin]
    rfl

theorem map_foldl_on (others : List Trailer) (first : Expr) :
    (others.foldl Trailer.on first).map g k =
      (others.map (Trailer.map g k)).foldl Trailer.on (first.map g k) := by
  induction others generalizing first with
  | nil => rfl
  | cons next others ih =>
    have hOn : (next.on first).map g k = (next.map g k).on (first.map g k) := by
      cases next <;>
        simp only [Trailer.on, Trailer.map, Expr.map]
    rw [List.foldl_cons, ih, hOn]
    rfl

theorem map_forLoop (first : Option Stmt) (condition last : Option Expr) (body : Stmt) :
    (forLoop first condition last body).map g k =
      forLoop (first.map (Stmt.map g k)) (condition.map (Expr.map g k))
        (last.map (Expr.map g k)) (body.map g k) := by
  cases first <;> cases condition <;> cases last <;>
    simp [forLoop, Stmt.map, stmtsMap, Expr.map, Expr.always]

end

/- The tree of a phrase with the new tokens. -/
def Phrase.mapped (g : Token → Token) (k : Nat) :
    (phrase : Phrase) → phrase.Tree → phrase.Tree
  | .declarations | .block => stmtsMap g k
  | .declaration | .letDecl | .exprStmt | .statement _ => Stmt.map g k
  | .functions => functionsMap g k
  | .function | .signature _ _ => Function.map g k
  | .parameters | .names => List.map g
  | .clause => Option.map (Stmt.map g k)
  | .optional => Option.map (Expr.map g k)
  | .expression | .target | .binary _ | .unary | .operand
  | .call | .primary => Expr.map g k
  | .operands _ _ => List.map (mapOperand g k)
  | .trailers => List.map (Trailer.map g k)
  | .arguments | .list => exprsMap g k

variable {g : Token → Token} {l : Likeness} {k : Nat}

/-
  The tokens `ts` and the numbers from `n` up to `n'` are
  alike to what they are exchanged for.
-/
structure Fits (l : Likeness) (g : Token → Token) (k n : Nat) (ts : List Token)
    (n' : Nat) : Prop where
  token {t : Token} : t ∈ ts → l.token t (g t)
  node {id : Nat} : n ≤ id → id < n' → l.node id (id + k)

variable {n n₁ n₂ n' : Nat} {ts us : List Token}

theorem Fits.part (h : Fits l g k n ts n') (hTokens : ∀ t ∈ us, t ∈ ts)
    (hFrom : n ≤ n₁) (hTo : n₂ ≤ n') : Fits l g k n₁ us n₂ where
  token hMem := h.token (hTokens _ hMem)
  node hId hId' := h.node (Nat.le_trans hFrom hId) (Nat.lt_of_lt_of_le hId' hTo)

/-
  By induction on the derivation.  The tokens and numbers of
  a part are some of those of the whole.
-/
theorem Derives.alike {gaps : Prop} {phrase : Phrase} {tree : phrase.Tree}
    (h : Derives gaps phrase n ts tree n') :
    Fits l g k n ts n' → phrase.Alike l tree (phrase.mapped g k tree) := by
  induction h with
  -- what a phrase is made of only
  | letVariable _ ih
  | plain _ ih
  | expressionStatement _ ih
  | someParameters _ _ ih
  | unsigned _ ih
  | unstepped _ ih
  | someArguments _ _ ih => exact ih
  | tightest _ ih => exact fun hFits _ => ih hFits
  | unassigned _ ih => exact fun hFits => ih hFits levels_plain
  | leftOut ts _ hLe _ ih => exact fun hFits => ih (hFits.part (by simp +contextual) hLe .refl)
  | block _ _ _ ih => exact fun hFits => ih (hFits.part (by simp +contextual) .refl .refl)
  -- a signature knows its name from outside
  | function _ hSignature ih =>
    intro hFits
    cases hSignature
    rcases ih (hFits.part (by simp +contextual) .refl .refl) with ⟨hParams, hBody⟩
    have hName := hFits.token List.mem_cons_self
    exact .mk (m := ()) (.some hName) hName hParams hBody
  | functionLiteral _ hSignature ih =>
    intro hFits
    cases hSignature
    rcases ih (hFits.part (by simp +contextual) .refl .refl) with ⟨hParams, hBody⟩
    exact .function (.mk (m := ()) .none (hFits.token List.mem_cons_self) hParams hBody)
  -- chains of operators and trailers
  | chained hFirst hOthers ihFirst ihOthers =>
    intro hFits hPlain
    have hLevel := hPlain _ List.mem_cons_self
    have hTighter := fun level hMem => hPlain level (List.mem_cons_of_mem _ hMem)
    rw [Phrase.mapped, map_foldl_join g k hLevel]
    exact foldl_join_alike hLevel
      (ihOthers (hFits.part (by simp +contextual) hFirst.le .refl) hTighter)
      (ihFirst (hFits.part (by simp +contextual) .refl hOthers.le) hTighter)
  | noOperand => exact fun _ _ => .nil
  | moreOperands _ hRight hOthers ihRight ihOthers =>
    intro hFits hPlain
    exact .cons ⟨hFits.token List.mem_cons_self,
        ihRight (hFits.part (by simp +contextual) .refl hOthers.le) hPlain⟩
      (ihOthers (hFits.part (by simp +contextual) hRight.le .refl) hPlain)
  | call hFirst hOthers ihFirst ihOthers =>
    intro hFits
    rw [Phrase.mapped, map_foldl_on]
    exact foldl_on_alike (ihOthers (hFits.part (by simp +contextual) hFirst.le .refl))
      (ihFirst (hFits.part (by simp +contextual) .refl hOthers.le))
  | forStatement =>
    intro hFits
    rw [Phrase.mapped, map_forLoop]
    apply forLoop_alike <;> apply_assumption <;>
      refine hFits.part (by simp +contextual) ?_ ?_ <;>
      grind [→ Derives.le]
  | @returnStatement _ _ _ _ value _ _ _ _ ih =>
    intro hFits
    have hWord := hFits.token List.mem_cons_self
    have hValue := ih (hFits.part (by simp +contextual) .refl .refl)
    cases value with
    | none => exact .returnBare hWord
    | some value =>
      cases hValue with
      | some hValue => exact .returnValue hWord hValue
  -- tokens of given kinds around the parts
  | _ =>
    intro hFits
    simp only [Phrase.Alike, Phrase.mapped, Trailer.map,
      Expr.always, Stmt.map, Expr.map, Function.map, stmtsMap,
      exprsMap, functionsMap, List.map_cons, List.map_nil, Option.map_some, Option.map_none] at *
    repeat' first
      | exact hFits.token (by simp)
      | (refine hFits.node ?_ ?_ <;> grind [→ Derives.le])
      | (refine hFits.part (by simp +contextual) ?_ ?_ <;>
          grind [→ Derives.le])
      | apply_assumption
      | constructor

end Grammar

end Scriptlet
