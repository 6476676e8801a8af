import Mathlib.Data.List.Forall2
import Mathlib.Logic.Equiv.Basic
import Scriptlet.Proofs.Tree.Map
import Scriptlet.Scope.Walk

/-
  Trees that stand for other trees.

  Key declarations include:
    * `Guise`
    * `Expr.Guised`
    * `Likeness`
    * `Expr.Alike`
    * `Renaming.guise`

  Tokens and node numbers stand for other ones.  Every scope
  has a mark, and a variable is spelled on the other side as
  the mark of its scope says.  Functions, classes and
  properties keep their names.

  Trees that are alike differ in the places of their tokens
  and in their node numbers only.  In a renamed scope an old
  name and a new one change places.  The new name does not
  occur.
-/

namespace Scriptlet

section

theorem rel_imp {α β : Type} {R S : α → β → Prop}
    (hImp : ∀ {x y}, R x y → S x y) {x? : Option α} {y? : Option β}
    (h : Option.Rel R x? y?) : Option.Rel S x? y? := by
  cases h with
  | none => exact .none
  | some hBoth => exact .some (hImp hBoth)

/- Related lists have related members at each position. -/
theorem rel_getElem? {α β : Type} {R : α → β → Prop} {xs : List α} {ys : List β}
    (h : List.Forall₂ R xs ys) (i : Nat) : Option.Rel R xs[i]? ys[i]? := by
  induction h generalizing i with
  | nil => exact .none
  | cons hHead _ ih =>
    cases i with
    | zero => exact .some hHead
    | succ i => exact ih i

/-
  Which tokens and which node numbers stand for each other,
  and how a variable is spelled in a scope with a mark.  The
  table has the distances of references.
-/
structure Guise (Mark : Type) where
  token : Token → Token → Prop
  node : Nat → Nat → Prop
  name : Mark → Token → Token → Prop
  plain : Mark
  spell : Mark → Equiv.Perm String
  table : Scope.Distances
  kind_eq {t t' : Token} : token t t' → t'.kind = t.kind
  lexeme_eq {t t' : Token} : token t t' → t'.lexeme = t.lexeme
  spelled_eq {mark : Mark} {t t' : Token} : name mark t t' → t'.lexeme = spell mark t.lexeme
  spell_plain (name : String) : spell plain name = name
  spell_this (mark : Mark) : spell mark "this" = "this"

variable {Mark : Type}

/- The marks by distance, from inside of one more scope. -/
def pushMark (mark : Mark) (marks : Nat → Mark) : Nat → Mark
  | 0 => mark
  | distance + 1 => marks distance

/- The mark of the scope that a reference node refers to. -/
def Scope.Distances.mark (table : Scope.Distances) (plain : Mark)
    (marks : Nat → Mark) (id : Nat) : Mark :=
  match table[id]? with
  | some distance => marks distance
  | none => plain

variable (g : Guise Mark)

/- A reference is spelled as in its scope. -/
structure Guise.Refers (marks : Nat → Mark) (id id' : Nat) (name name' : Token) : Prop where
  node : g.node id id'
  name : g.name (g.table.mark g.plain marks id) name name'

/- A name is spelled the same in the innermost scope. -/
def Guise.Keeps (marks : Nat → Mark) (name : String) : Prop := g.spell (marks 0) name = name

mutual

/- The second expression stands for the first one. -/
inductive Expr.Guised : (Nat → Mark) → Expr → Expr → Prop where
  | literal {marks} (value) : Expr.Guised marks (.literal value) (.literal value)
  | name {marks id id' name name'} : g.Refers marks id id' name name' →
      Expr.Guised marks (.name id name) (.name id' name')
  | assign {marks id id' name name' value value'} :
      g.Refers marks id id' name name' → Expr.Guised marks value value' →
      Expr.Guised marks (.assign id name value) (.assign id' name' value')
  | compound {marks target target' operator operator' value value'} :
      Expr.Guised marks target target' → g.token operator operator' →
      Expr.Guised marks value value' → Expr.Guised marks (.compound target operator value)
        (.compound target' operator' value')
  | increment {marks target target' operator operator'} (before) :
      Expr.Guised marks target target' → g.token operator operator' →
      Expr.Guised marks (.increment target operator before) (.increment target' operator' before)
  | unary {marks operator operator' operand operand'} :
      g.token operator operator' → Expr.Guised marks operand operand' →
      Expr.Guised marks (.unary operator operand) (.unary operator' operand')
  | binary {marks left left' operator operator' right right'} :
      Expr.Guised marks left left' → g.token operator operator' → Expr.Guised marks right right' →
      Expr.Guised marks (.binary left operator right) (.binary left' operator' right')
  | logical {marks left left' operator operator' right right'} :
      Expr.Guised marks left left' → g.token operator operator' → Expr.Guised marks right right' →
      Expr.Guised marks (.logical left operator right) (.logical left' operator' right')
  | call {marks callee callee' paren paren' arguments arguments'} :
      Expr.Guised marks callee callee' → g.token paren paren' →
      exprsGuised marks arguments arguments' → Expr.Guised marks (.call callee paren arguments)
        (.call callee' paren' arguments')
  | get {marks object object' name name'} : Expr.Guised marks object object' →
      g.token name name' → Expr.Guised marks (.get object name) (.get object' name')
  | set {marks object object' name name' value value'} :
      Expr.Guised marks object object' → g.token name name' → Expr.Guised marks value value' →
      Expr.Guised marks (.set object name value) (.set object' name' value')
  | index {marks object object' bracket bracket' position position'} :
      Expr.Guised marks object object' → g.token bracket bracket' →
      Expr.Guised marks position position' → Expr.Guised marks (.index object bracket position)
        (.index object' bracket' position')
  | indexSet {marks object object' bracket bracket' position position' value value'} :
      Expr.Guised marks object object' → g.token bracket bracket' →
      Expr.Guised marks position position' → Expr.Guised marks value value' →
      Expr.Guised marks (.indexSet object bracket position value)
        (.indexSet object' bracket' position' value')
  | self {marks id id' keyword keyword'} : g.Refers marks id id' keyword keyword' →
      Expr.Guised marks (.self id keyword) (.self id' keyword')
  | superMethod {marks id id' keyword keyword' name name'} :
      g.Refers marks id id' keyword keyword' → g.token name name' →
      Expr.Guised marks (.superMethod id keyword name) (.superMethod id' keyword' name')
  | function {marks f f'} : Function.Guised marks f f' →
      Expr.Guised marks (.function f) (.function f')
  | group {marks inner inner'} : Expr.Guised marks inner inner' →
      Expr.Guised marks (.group inner) (.group inner')
  | array {marks bracket bracket' elements elements'} :
      g.token bracket bracket' → exprsGuised marks elements elements' →
      Expr.Guised marks (.array bracket elements) (.array bracket' elements')

/- The second statement stands for the first one. -/
inductive Stmt.Guised : (Nat → Mark) → Stmt → Stmt → Prop where
  | expression {marks expr expr'} : Expr.Guised marks expr expr' →
      Stmt.Guised marks (.expression expr) (.expression expr')
  | print {marks keyword keyword' value value'} : g.token keyword keyword' →
      Expr.Guised marks value value' → Stmt.Guised marks (.print keyword value)
        (.print keyword' value')
  | letBare {marks name name'} : g.name (marks 0) name name' →
      Stmt.Guised marks (.letDecl name none) (.letDecl name' none)
  | letValue {marks name name' value value'} : g.name (marks 0) name name' →
      Expr.Guised marks value value' → Stmt.Guised marks (.letDecl name (some value))
        (.letDecl name' (some value'))
  | functionDecl {marks f f'} : g.Keeps marks f.label → Function.Guised marks f f' →
      Stmt.Guised marks (.functionDecl f) (.functionDecl f')
  | rootClass {marks name name' methods methods'} : g.token name name' →
      g.Keeps marks name.lexeme → methodsGuised (pushMark g.plain marks) methods
        methods' → Stmt.Guised marks (.classDecl name none methods) (.classDecl name' none methods')
  | derivedClass {marks name name' parent parent' methods methods'} :
      g.token name name' → g.Keeps marks name.lexeme →
      Expr.Guised marks parent parent' → methodsGuised
        (pushMark g.plain (pushMark g.plain marks)) methods methods' →
      Stmt.Guised marks (.classDecl name (some parent) methods)
        (.classDecl name' (some parent') methods')
  | block {marks m body body'} : stmtsGuised (pushMark m marks) body body' →
      Stmt.Guised marks (.block body) (.block body')
  | ifOnly {marks condition condition' thenBranch thenBranch'} :
      Expr.Guised marks condition condition' → Stmt.Guised marks thenBranch thenBranch' →
      Stmt.Guised marks (.conditional condition thenBranch none)
        (.conditional condition' thenBranch' none)
  | ifElse
      {marks condition condition' thenBranch thenBranch'
        elseBranch elseBranch'} : Expr.Guised marks condition condition' →
      Stmt.Guised marks thenBranch thenBranch' →
      Stmt.Guised marks elseBranch elseBranch' → Stmt.Guised marks
        (.conditional condition thenBranch (some elseBranch))
        (.conditional condition' thenBranch' (some elseBranch'))
  | whileLoop {marks condition condition' body body'} :
      Expr.Guised marks condition condition' → Stmt.Guised marks body body' →
      Stmt.Guised marks (.whileLoop condition body) (.whileLoop condition' body')
  | breakLoop {marks keyword keyword'} : g.token keyword keyword' →
      Stmt.Guised marks (.breakLoop keyword) (.breakLoop keyword')
  | returnBare {marks keyword keyword'} : g.token keyword keyword' →
      Stmt.Guised marks (.returnValue keyword none) (.returnValue keyword' none)
  | returnValue {marks keyword keyword' value value'} :
      g.token keyword keyword' → Expr.Guised marks value value' →
      Stmt.Guised marks (.returnValue keyword (some value)) (.returnValue keyword' (some value'))

/- Parameters and body share one scope. -/
inductive Function.Guised : (Nat → Mark) → Function → Function → Prop where
  | mk {marks m name name' keyword keyword' params params' body body'} :
      Option.Rel g.token name name' → g.token keyword keyword' →
      List.Forall₂ (g.name m) params params' → stmtsGuised (pushMark m marks) body body' →
      Function.Guised marks (.mk name keyword params body) (.mk name' keyword' params' body')

inductive exprsGuised : (Nat → Mark) → List Expr → List Expr → Prop where
  | nil {marks} : exprsGuised marks [] []
  | cons {marks first first' others others'} : Expr.Guised marks first first' →
      exprsGuised marks others others' → exprsGuised marks (first :: others) (first' :: others')

inductive stmtsGuised : (Nat → Mark) → List Stmt → List Stmt → Prop where
  | nil {marks} : stmtsGuised marks [] []
  | cons {marks first first' others others'} : Stmt.Guised marks first first' →
      stmtsGuised marks others others' → stmtsGuised marks (first :: others) (first' :: others')

inductive methodsGuised : (Nat → Mark) → List Function → List Function → Prop where
  | nil {marks} : methodsGuised marks [] []
  | cons {marks first first' others others'} :
      Function.Guised marks first first' → methodsGuised marks others others' →
      methodsGuised marks (first :: others) (first' :: others')

end

namespace Function.Guised

variable {g} {marks : Nat → Mark} {f f' : Function}

theorem label (h : f.Guised g marks f') : f'.label = f.label := by
  cases h with
  | mk hName =>
    cases hName with
    | some hToken => exact g.lexeme_eq hToken
    | none => rfl

theorem keyword (h : f.Guised g marks f') : g.token f.keyword f'.keyword := by
  cases h with
  | mk _ hKeyword => exact hKeyword

/- Parameters and body are spelled as in one scope. -/
theorem scope (h : f.Guised g marks f') :
    ∃ mark, List.Forall₂ (g.name mark) f.params f'.params ∧
        stmtsGuised g (pushMark mark marks) f.body f'.body := by
  cases h with
  | mk _ _ hParams hBody => exact ⟨_, hParams, hBody⟩

theorem arity (h : f.Guised g marks f') : f'.arity = f.arity := by
  rcases h.scope with ⟨_, hParams, _⟩
  exact hParams.length_eq.symm

end Function.Guised

end

------------------------------------------------------------
-- Likenesses
------------------------------------------------------------

section

/-
  Which tokens and which node numbers stand for each other.
  Tokens that do are spelled alike.
-/
structure Likeness where
  token : Token → Token → Prop
  node : Nat → Nat → Prop
  kind_eq {t t' : Token} : token t t' → t'.kind = t.kind
  lexeme_eq {t t' : Token} : token t t' → t'.lexeme = t.lexeme

namespace Likeness

/- The least likeness of given tokens and node numbers. -/
def within (tokens : Token → Prop) (nodes : Nat → Prop) : Likeness where
  token t t' := t' = t ∧ tokens t
  node id id' := id' = id ∧ nodes id
  kind_eq h := by rw [h.1]
  lexeme_eq h := by rw [h.1]

/- Any tokens, each for itself, with any numbers. -/
def anyNumbers : Likeness where
  token t t' := t' = t
  node _ _ := True
  kind_eq h := by rw [h]
  lexeme_eq h := by rw [h]

/- One likeness is part of another. -/
structure Le (l m : Likeness) : Prop where
  token {t t' : Token} : l.token t t' → m.token t t'
  node {id id' : Nat} : l.node id id' → m.node id id'

/- No variable is respelled, so that all marks are the same. -/
def guise (l : Likeness) : Guise Unit where
  token := l.token
  node := l.node
  name _ := l.token
  plain := ()
  spell _ := Equiv.refl String
  table := {}
  kind_eq := l.kind_eq
  lexeme_eq := l.lexeme_eq
  spelled_eq := l.lexeme_eq
  spell_plain _ := rfl
  spell_this _ := rfl

end Likeness

section

variable (l : Likeness)

/- Trees alike, in whatever scopes they stand. -/
abbrev Expr.Alike : Expr → Expr → Prop := Expr.Guised l.guise fun _ => ()

abbrev Stmt.Alike : Stmt → Stmt → Prop := Stmt.Guised l.guise fun _ => ()

abbrev Function.Alike : Function → Function → Prop := Function.Guised l.guise fun _ => ()

abbrev exprsAlike : List Expr → List Expr → Prop := exprsGuised l.guise fun _ => ()

abbrev stmtsAlike : List Stmt → List Stmt → Prop := stmtsGuised l.guise fun _ => ()

abbrev functionsAlike : List Function → List Function → Prop := methodsGuised l.guise fun _ => ()

end

variable {l m : Likeness}

theorem Likeness.Le.refers (hLe : l.Le m) {marks : Nat → Unit} {id id' : Nat}
    {name name' : Token} (h : l.guise.Refers marks id id' name name') :
    m.guise.Refers marks id id' name name' := ⟨hLe.node h.node, hLe.token h.name⟩

/- By induction on all trees at once, one rule after another. -/
theorem Function.alike_mono (hLe : l.Le m) {f f' : Function} (h : Function.Alike l f f') :
    Function.Alike m f f' := by
  apply @Function.Guised.rec Unit l.guise
    (fun marks expr expr' _ => expr.Guised m.guise marks expr')
    (fun marks stmt stmt' _ => stmt.Guised m.guise marks stmt')
    (fun marks f f' _ => f.Guised m.guise marks f')
    (fun marks exprs exprs' _ => exprsGuised m.guise marks exprs exprs')
    (fun marks stmts stmts' _ => stmtsGuised m.guise marks stmts stmts')
    (fun marks methods methods' _ => methodsGuised m.guise marks methods methods') <;> intros
  all_goals first
    | assumption
    | constructor
  all_goals first
    | assumption
    | exact hLe.refers ‹_›
    | exact hLe.token ‹_›
    | exact rel_imp hLe.token ‹_›
    | exact List.Forall₂.imp (fun _ _ => hLe.token) ‹_›

end

/- A name and the name that takes its place. -/
structure Renaming where
  old : String
  new : String
  old_ne_this : old ≠ "this"
  new_ne_this : new ≠ "this"

namespace Renaming

variable (r : Renaming)

/- How names are spelled in a scope, renamed or not. -/
def spell : Bool → Equiv.Perm String
  | true => Equiv.swap r.old r.new
  | false => Equiv.refl String

@[simp] theorem spell_false (name : String) :
    r.spell false name = name := rfl

@[simp] theorem spell_this (renamed : Bool) : r.spell renamed "this" = "this" := by
  cases renamed with
  | false => rfl
  | true => exact Equiv.swap_apply_of_ne_of_ne r.old_ne_this.symm r.new_ne_this.symm

theorem spell_inj (renamed : Bool) {name other : String} :
    r.spell renamed name = r.spell renamed other ↔ name = other :=
  (r.spell renamed).injective.eq_iff

/- A name other than the new one stays or is the old one. -/
theorem spell_cases (renamed : Bool) {name : String} (h : renamed = true → name ≠ r.new) :
    r.spell renamed name = name ∨ name = r.old ∧ r.spell renamed name = r.new := by
  cases renamed with
  | false => exact .inl rfl
  | true =>
    by_cases hOld : name = r.old
    · subst hOld
      exact .inr ⟨rfl, Equiv.swap_apply_left _ _⟩
    · exact .inl (Equiv.swap_apply_of_ne_of_ne hOld (h rfl))

end Renaming

/- A token whose name is spelled as in a scope. -/
def Token.spelled (r : Renaming) (renamed : Bool) (token : Token) : Token :=
  { token with lexeme := r.spell renamed token.lexeme }

/- The guise of respelled trees. -/
def Renaming.guise (r : Renaming) (table : Scope.Distances) : Guise Bool where
  token t t' := t' = t
  node id id' := id' = id
  name renamed t t' := t' = t.spelled r renamed ∧ (renamed = true → t.lexeme ≠ r.new)
  plain := false
  spell := r.spell
  table := table
  kind_eq := congrArg Token.kind
  lexeme_eq := congrArg Token.lexeme
  spelled_eq h := congrArg Token.lexeme h.1
  spell_plain := r.spell_false
  spell_this := r.spell_this

/- Which scopes around are renamed, by distance. -/
def marksOf : List Bool → Nat → Bool
  | [] => fun _ => false
  | renamed :: flags => pushMark renamed (marksOf flags)

section

variable {r : Renaming} {table : Scope.Distances} {marks : Nat → Bool}

/- No scope is renamed. -/
def Plain (marks : Nat → Bool) : Prop := ∀ distance, marks distance = false

namespace Plain

theorem push (h : Plain marks) : Plain (pushMark false marks)
  | 0 => rfl
  | distance + 1 => h distance

theorem name {renamed : Bool} (h : renamed = false) (name : Token) :
    (r.guise table).name renamed name name := by
  subst h
  exact ⟨rfl, by rintro ⟨⟩⟩

theorem refers (h : Plain marks) (id : Nat) (name : Token) :
    (r.guise table).Refers marks id id name name := by
  refine ⟨rfl, Plain.name ?_ name⟩
  simp only [Renaming.guise, Scope.Distances.mark]
  split
  · exact h _
  · rfl

theorem keeps (h : Plain marks) (name : String) : (r.guise table).Keeps marks name := by
  unfold Guise.Keeps
  rw [h 0]
  rfl

end Plain

/- What is not renamed stands for itself. -/
theorem trees_guised_refl :
    (∀ (expr : Expr) marks, Plain marks → expr.Guised (r.guise table) marks expr) ∧
    (∀ (f : Function) marks, Plain marks → f.Guised (r.guise table) marks f) ∧
    (∀ stmts marks, Plain marks → stmtsGuised (r.guise table) marks stmts stmts) ∧
    (∀ (stmt : Stmt) marks, Plain marks → stmt.Guised (r.guise table) marks stmt) ∧
    (∀ methods marks, Plain marks → methodsGuised (r.guise table) marks methods methods) ∧
    ∀ exprs marks, Plain marks → exprsGuised (r.guise table) marks exprs exprs := by
  apply Expr.references.mutual_induct <;> intros
  case case33 name keyword params body ih marks h =>
    have hParams : List.Forall₂ ((r.guise table).name false) params params :=
      List.forall₂_same.mpr fun param _ => Plain.name rfl param
    refine .mk ?_ rfl hParams (ih _ h.push)
    cases name with
    | none => exact .none
    | some name => exact .some rfl
  case case26 ih _ h => exact .block (ih _ h.push)
  -- the scopes of the other parts are not renamed either
  all_goals constructor
  all_goals first
    | rfl
    | exact Plain.refers ‹_› _ _
    | exact Plain.keeps ‹_› _
    | exact Plain.name (‹Plain _› 0) _
    | solve_by_elim [Plain.push]

end

end Scriptlet
