import Scriptlet.Proofs.Grammar.Map
import Scriptlet.Proofs.Scan.Written
import Scriptlet.Tree.Source

/-
  Trees that are the same node by node, and phrases that are
  read again as the same trees.

  Key declarations include:
    * `Expr.IsFinite`
    * `Token.Same`
    * `Expr.Same`
    * `Stmt.Same`
    * `Grammar.Phrase.Same`
    * `Grammar.Phrase.Rereads`

  Names and operators are compared by their kinds and texts.
  The numbers of nodes, the places of tokens, and brackets
  and keywords do not count.  The second tree has a variable
  in place of an infinite number, since infinity is not
  written as a number.  Chains of operators and trailers are
  printed from left to right, so the text of a chain is the
  text of its head and then those of its members.
-/

namespace Scriptlet

/- The number that is too large to be written in digits. -/
def Literal.IsInfinity (value : Literal) : Prop :=
  ∃ x, value = .number x ∧ Decimal.Double.ofFloat x = .infinite false

mutual

/- No literal is infinity. -/
def Expr.IsFinite : Expr → Prop
  | .literal value => ¬ value.IsInfinity
  | .name .. | .self .. | .superMethod .. => True
  | .assign _ _ operand
  | .increment operand _ _
  | .unary _ operand
  | .get operand _
  | .group operand => operand.IsFinite
  | .compound left _ right
  | .binary left _ right
  | .logical left _ right
  | .set left _ right
  | .index left _ right => left.IsFinite ∧ right.IsFinite
  | .indexSet object _ position value => object.IsFinite ∧ position.IsFinite ∧ value.IsFinite
  | .call callee _ arguments => callee.IsFinite ∧ exprsFinite arguments
  | .function f => f.IsFinite
  | .array _ elements => exprsFinite elements

def Stmt.IsFinite : Stmt → Prop
  | .expression value
  | .print _ value
  | .letDecl _ (some value)
  | .returnValue _ (some value) => value.IsFinite
  | .letDecl _ none | .breakLoop _ | .returnValue _ none => True
  | .functionDecl f => f.IsFinite
  | .classDecl _ none methods => functionsFinite methods
  | .classDecl _ (some superclass) methods => superclass.IsFinite ∧ functionsFinite methods
  | .block body => stmtsFinite body
  | .conditional condition thenBranch none => condition.IsFinite ∧ thenBranch.IsFinite
  | .conditional condition thenBranch (some elseBranch) =>
    condition.IsFinite ∧ thenBranch.IsFinite ∧ elseBranch.IsFinite
  | .whileLoop condition body => condition.IsFinite ∧ body.IsFinite

def Function.IsFinite : Function → Prop
  | .mk _ _ _ body => stmtsFinite body

def exprsFinite : List Expr → Prop
  | [] => True
  | first :: others => first.IsFinite ∧ exprsFinite others

def stmtsFinite : List Stmt → Prop
  | [] => True
  | first :: others => first.IsFinite ∧ stmtsFinite others

def functionsFinite : List Function → Prop
  | [] => True
  | first :: others => first.IsFinite ∧ functionsFinite others

end

/- Tokens of one kind and text. -/
structure Token.Same (token token' : Token) : Prop where
  kind : token'.kind = token.kind
  lexeme : token'.lexeme = token.lexeme

mutual

inductive Expr.Same : Expr → Expr → Prop where
  | literal {value} : ¬ value.IsInfinity → Expr.Same (.literal value) (.literal value)
  | infinity {value id name} : value.IsInfinity → name.kind = .identifier →
      name.lexeme = "inf" → Expr.Same (.literal value) (.name id name)
  | name {id id' name name'} : Token.Same name name' → Expr.Same (.name id name) (.name id' name')
  | assign {id id' name name' value value'} : Token.Same name name' →
      Expr.Same value value' → Expr.Same (.assign id name value) (.assign id' name' value')
  | compound {target target' operator operator' value value'} :
      Expr.Same target target' → Token.Same operator operator' →
      Expr.Same value value' → Expr.Same (.compound target operator value)
        (.compound target' operator' value')
  | increment {target target' operator operator'} (before) :
      Expr.Same target target' → Token.Same operator operator' →
      Expr.Same (.increment target operator before) (.increment target' operator' before)
  | unary {operator operator' operand operand'} :
      Token.Same operator operator' → Expr.Same operand operand' →
      Expr.Same (.unary operator operand) (.unary operator' operand')
  | binary {left left' operator operator' right right'} : Expr.Same left left' →
      Token.Same operator operator' → Expr.Same right right' →
      Expr.Same (.binary left operator right) (.binary left' operator' right')
  | logical {left left' operator operator' right right'} :
      Expr.Same left left' → Token.Same operator operator' →
      Expr.Same right right' → Expr.Same (.logical left operator right)
        (.logical left' operator' right')
  | call {callee callee' arguments arguments'} (paren paren') :
      Expr.Same callee callee' → List.Forall₂ Expr.Same arguments arguments' →
      Expr.Same (.call callee paren arguments) (.call callee' paren' arguments')
  | get {object object' name name'} : Expr.Same object object' →
      Token.Same name name' → Expr.Same (.get object name) (.get object' name')
  | set {object object' name name' value value'} : Expr.Same object object' →
      Token.Same name name' → Expr.Same value value' →
      Expr.Same (.set object name value) (.set object' name' value')
  | index {object object' position position'} (bracket bracket') :
      Expr.Same object object' → Expr.Same position position' →
      Expr.Same (.index object bracket position) (.index object' bracket' position')
  | indexSet {object object' position position' value value'}
      (bracket bracket') : Expr.Same object object' →
      Expr.Same position position' → Expr.Same value value' →
      Expr.Same (.indexSet object bracket position value)
        (.indexSet object' bracket' position' value')
  | self (id id' keyword keyword') : Expr.Same (.self id keyword) (.self id' keyword')
  | superMethod {method method'} (id id' keyword keyword') :
      Token.Same method method' → Expr.Same (.superMethod id keyword method)
        (.superMethod id' keyword' method')
  | function {f f'} : Function.Same f f' → Expr.Same (.function f) (.function f')
  | group {inner inner'} : Expr.Same inner inner' → Expr.Same (.group inner) (.group inner')
  | array {elements elements'} (bracket bracket') : List.Forall₂ Expr.Same elements elements' →
      Expr.Same (.array bracket elements) (.array bracket' elements')

inductive Stmt.Same : Stmt → Stmt → Prop where
  | expression {expr expr'} : Expr.Same expr expr' →
      Stmt.Same (.expression expr) (.expression expr')
  | print {value value'} (keyword keyword') : Expr.Same value value' →
      Stmt.Same (.print keyword value) (.print keyword' value')
  | letBare {name name'} : Token.Same name name' →
      Stmt.Same (.letDecl name none) (.letDecl name' none)
  | letValue {name name' value value'} : Token.Same name name' →
      Expr.Same value value' → Stmt.Same (.letDecl name (some value)) (.letDecl name' (some value'))
  | functionDecl {f f'} : Function.Same f f' → Stmt.Same (.functionDecl f) (.functionDecl f')
  | rootClass {name name' methods methods'} : Token.Same name name' →
      List.Forall₂ Function.Same methods methods' →
      Stmt.Same (.classDecl name none methods) (.classDecl name' none methods')
  | derivedClass {name name' parent parent' methods methods'} :
      Token.Same name name' → Expr.Same parent parent' →
      List.Forall₂ Function.Same methods methods' →
      Stmt.Same (.classDecl name (some parent) methods) (.classDecl name' (some parent') methods')
  | block {body body'} : List.Forall₂ Stmt.Same body body' → Stmt.Same (.block body) (.block body')
  | ifOnly {condition condition' thenBranch thenBranch'} :
      Expr.Same condition condition' → Stmt.Same thenBranch thenBranch' →
      Stmt.Same (.conditional condition thenBranch none) (.conditional condition' thenBranch' none)
  | ifElse {condition condition' thenBranch thenBranch' elseBranch elseBranch'} :
      Expr.Same condition condition' → Stmt.Same thenBranch thenBranch' →
      Stmt.Same elseBranch elseBranch' → Stmt.Same
        (.conditional condition thenBranch (some elseBranch))
        (.conditional condition' thenBranch' (some elseBranch'))
  | whileLoop {condition condition' body body'} :
      Expr.Same condition condition' → Stmt.Same body body' →
      Stmt.Same (.whileLoop condition body) (.whileLoop condition' body')
  | breakLoop (keyword keyword') : Stmt.Same (.breakLoop keyword) (.breakLoop keyword')
  | returnBare (keyword keyword') : Stmt.Same (.returnValue keyword none)
        (.returnValue keyword' none)
  | returnValue {value value'} (keyword keyword') : Expr.Same value value' →
      Stmt.Same (.returnValue keyword (some value)) (.returnValue keyword' (some value'))

inductive Function.Same : Function → Function → Prop where
  | named {name name' params params' body body'} (keyword keyword') :
      Token.Same name name' → List.Forall₂ Token.Same params params' →
      List.Forall₂ Stmt.Same body body' → Function.Same (.mk (some name) keyword params body)
        (.mk (some name') keyword' params' body')
  | unnamed {params params' body body'} (keyword keyword') :
      List.Forall₂ Token.Same params params' → List.Forall₂ Stmt.Same body body' →
      Function.Same (.mk none keyword params body) (.mk none keyword' params' body')

end

/- What can be assigned to stays so. -/
theorem Expr.Same.isAssignable {target target' : Expr}
    (h : Expr.Same target target') (hAssignable : target.isAssignable = true) :
    target'.isAssignable = true := by
  cases h <;> first | rfl | cases hAssignable

------------------------------------------------------------
-- Trees of Phrases
------------------------------------------------------------

namespace Grammar

inductive Trailer.Same : Trailer → Trailer → Prop where
  | call {arguments arguments'} (paren paren') : List.Forall₂ Expr.Same arguments arguments' →
      Trailer.Same (.call arguments paren) (.call arguments' paren')
  | property {name name'} : Token.Same name name' → Trailer.Same (.property name) (.property name')
  | element {position position'} (bracket bracket') :
      Expr.Same position position' → Trailer.Same (.element position bracket)
        (.element position' bracket')

/- The same operator and right operand. -/
def OperandSame (next next' : Token × Expr) : Prop :=
  Token.Same next.1 next'.1 ∧ Expr.Same next.2 next'.2

/-
  The same trees of a phrase.  A signature leaves name and
  keyword of its function to whoever gives them.
-/
def Phrase.Same :
    (phrase : Phrase) → phrase.Tree → phrase.Tree → Prop
  | .declarations => List.Forall₂ Stmt.Same
  | .declaration => Stmt.Same
  | .functions => List.Forall₂ Function.Same
  | .function => Function.Same
  | .signature _ _ => fun f f' =>
    List.Forall₂ Token.Same f.params f'.params ∧ List.Forall₂ Stmt.Same f.body f'.body
  | .parameters => List.Forall₂ Token.Same
  | .names => List.Forall₂ Token.Same
  | .block => List.Forall₂ Stmt.Same
  | .letDecl => Stmt.Same
  | .exprStmt => Stmt.Same
  | .clause => Option.Rel Stmt.Same
  | .optional => Option.Rel Expr.Same
  | .statement _ => Stmt.Same
  | .expression => Expr.Same
  | .target => Expr.Same
  | .binary _ => Expr.Same
  | .operands _ _ => List.Forall₂ OperandSame
  | .unary => Expr.Same
  | .operand => Expr.Same
  | .call => Expr.Same
  | .trailers => List.Forall₂ Trailer.Same
  | .primary => Expr.Same
  | .arguments => List.Forall₂ Expr.Same
  | .list => List.Forall₂ Expr.Same

/- Tokens that are read as the same tree from any number on. -/
def Phrase.Rereads (phrase : Phrase) (tree : phrase.Tree) : Token.Language :=
  fun ts => ∀ n, ∃ tree' n', Derives False phrase n ts tree' n' ∧ phrase.Same tree tree'

/- A rule that leaves the tree as it is keeps what is read. -/
theorem rereads_widen {α : Type}
    {narrow wide : Nat → List Token → α → Nat → Prop} {same : α → α → Prop}
    {tree : α} {ts : List Token}
    (hRule : ∀ {n us other n'}, narrow n us other n' → wide n us other n')
    (h : ∀ n, ∃ tree' n', narrow n ts tree' n' ∧ same tree tree') :
    ∀ n, ∃ tree' n', wide n ts tree' n' ∧ same tree tree' := by
  intro n
  rcases h n with ⟨tree', n', hTree, hSame⟩
  exact ⟨tree', n', hRule hTree, hSame⟩

variable {level : Level} {first first' : Expr}

theorem foldl_join_same (hLevel : level.IsPlain)
    {others others' : List (Token × Expr)}
    (hOthers : List.Forall₂ OperandSame others others')
    (hFirst : Expr.Same first first') :
    Expr.Same (others.foldl level.join first) (others'.foldl level.join first') := by
  refine List.rel_foldl ?_ hFirst hOthers
  intro _ _ hFirst _ _ hNext
  rcases hLevel with hNode | hNode
  · simp only [Level.join, hNode]
    exact .logical hFirst hNext.1 hNext.2
  · simp only [Level.join, hNode]
    exact .binary hFirst hNext.1 hNext.2

theorem foldl_on_same {others others' : List Trailer}
    (hOthers : List.Forall₂ Trailer.Same others others')
    (hFirst : Expr.Same first first') :
    Expr.Same (others.foldl Trailer.on first) (others'.foldl Trailer.on first') := by
  refine List.rel_foldl ?_ hFirst hOthers
  intro _ _ hFirst _ _ hNext
  cases hNext with
  | call paren paren' hArguments => exact .call paren paren' hFirst hArguments
  | property hName => exact .get hFirst hName
  | element bracket bracket' hPosition => exact .index bracket bracket' hFirst hPosition

/- An operator between blanks, and its operand. -/
def operandText (next : Token × Expr) : List Char :=
  ' ' :: (next.1.lexeme.toList ++ ' ' :: next.2.source.toList)

theorem source_foldl_join (hLevel : level.IsPlain)
    (others : List (Token × Expr)) (first : Expr) :
    (others.foldl level.join first).source.toList =
      first.source.toList ++ others.flatMap operandText := by
  induction others generalizing first with
  | nil => simp
  | cons next others ih =>
    have hJoin : (level.join first next).source.toList =
          first.source.toList ++ operandText next := by
      rcases hLevel with hNode | hNode <;>
        simp [Level.join, hNode, Expr.source, operandText]
    rw [List.foldl_cons, ih, hJoin, List.flatMap_cons, List.append_assoc]

def trailerText : Trailer → List Char
  | .call arguments _ => '(' :: ((commaSeparated (sourceExprs arguments)).toList ++ [')'])
  | .property name => '.' :: name.lexeme.toList
  | .element position _ => '[' :: (position.source.toList ++ [']'])

theorem source_foldl_on (others : List Trailer) (first : Expr) :
    (others.foldl Trailer.on first).source.toList =
      first.source.toList ++ others.flatMap trailerText := by
  induction others generalizing first with
  | nil => simp
  | cons next others ih =>
    have hOn : (Trailer.on first next).source.toList = first.source.toList ++ trailerText next := by
      cases next <;> simp [Trailer.on, Expr.source, trailerText]
    rw [List.foldl_cons, ih, hOn, List.flatMap_cons, List.append_assoc]

/- The same token and then a language. -/
def sameThen (token : Token) (language : Token.Language) : Token.Language :=
  fun ts => ∃ token' us, ts = token' :: us ∧ Token.Same token token' ∧ language us

/- Kinds that are symbols or words. -/
def isOperator : Token.Kind → Bool
  | .symbol _ => true
  | .keyword _ => true
  | _ => false

/- A level whose operators are so, and whose nodes are plain. -/
structure Level.IsPrintable (level : Level) : Prop where
  plain : level.IsPlain
  operators : ∀ kind ∈ level.operators, isOperator kind = true

theorem levels_printable : ∀ level ∈ levels, level.IsPrintable := by
  intro level hLevel
  refine ⟨levels_plain level hLevel, ?_⟩
  revert level
  decide

section

variable {token : Token} {rest : List Char} {language : Token.Language}

theorem sameThen_of_after {ts : List Token}
    (h : language.after token.kind token.lexeme.toList ts) :
    sameThen token language ts := by
  rcases h with ⟨token', us, rfl, hKind, hText, hRest⟩
  exact ⟨token', us, rfl, ⟨hKind, String.toList_injective hText⟩, hRest⟩

theorem prints_name (hName : token.IsName) (hParts : Piece.Parts rest)
    (h : Token.Prints rest language) :
    Token.Prints (token.lexeme.toList ++ rest) (sameThen token language) := by
  rcases hName with ⟨hWritten, hKind⟩
  rw [Token.Written, hKind] at hWritten
  have hPrints := h.name hWritten hParts
  rw [← hKind] at hPrints
  exact hPrints.mono fun _ => sameThen_of_after

theorem prints_closed {s : Symbol} (hWritten : token.Written)
    (hKind : token.kind = .symbol s) (hClosed : Piece.isClosed s = true)
    (h : Token.Prints rest language) :
    Token.Prints (token.lexeme.toList ++ rest) (sameThen token language) := by
  rw [Token.Written, hKind] at hWritten
  have hPrints := h.closed s hClosed
  rw [← hKind, ← hWritten] at hPrints
  exact hPrints.mono fun _ => sameThen_of_after

/- An operator between operands. -/
theorem prints_operator (hWritten : token.Written) (hOperator : isOperator token.kind = true)
    (h : Token.Prints rest language) :
    Token.Prints (token.lexeme.toList ++ ' ' :: rest) (sameThen token language) := by
  rw [Token.Written] at hWritten
  unfold isOperator at hOperator
  split at hOperator
  · rename_i s hKind
    rw [hKind] at hWritten
    have hPrints := h.symbol s
    rw [← hKind, ← hWritten] at hPrints
    exact hPrints.mono fun _ => sameThen_of_after
  · rename_i k hKind
    rw [hKind] at hWritten
    have hPrints := (h.blank rfl).keyword k (.blank rest)
    rw [← hKind, ← hWritten] at hPrints
    exact hPrints.mono fun _ => sameThen_of_after
  · cases hOperator

/- The text of an operand, whose first character is no such. -/
def Opens (text : List Char) : Prop := ∃ c ∈ text.head?, c ∉ ['=', '>']

theorem Opens.cons {c : Char} (h : c ∉ ['=', '>']) (text : List Char) :
    Opens (c :: text) := ⟨c, rfl, h⟩

theorem Opens.append {text : List Char} (h : Opens text) (rest : List Char) :
    Opens (text ++ rest) := by
  rcases h with ⟨c, hHead, hNot⟩
  cases text with
  | nil => cases hHead
  | cons d text => exact ⟨c, hHead, hNot⟩

variable {kind : Token.Kind}

theorem symbol_of_isSign (h : isSign kind = true) :
    ∃ s, kind = .symbol s ∧ (s = .bang ∨ s = .minus) := by
  unfold isSign at h
  split at h
  · exact ⟨.bang, rfl, .inl rfl⟩
  · exact ⟨.minus, rfl, .inr rfl⟩
  · cases h

theorem symbol_of_isStep (h : isStep kind = true) :
    ∃ s, kind = .symbol s ∧ Piece.isClosed s = true := by
  unfold isStep at h
  split at h
  · exact ⟨.plusPlus, rfl, rfl⟩
  · exact ⟨.minusMinus, rfl, rfl⟩
  · cases h

theorem isOperator_of_isCompound (h : isCompound kind = true) : isOperator kind = true := by
  unfold isCompound at h
  split at h
  all_goals first | rfl | cases h

/- A sign before its operand, a blank between two minuses. -/
theorem prints_sign {operand : String} (hWritten : token.Written)
    (hSign : isSign token.kind = true) (hOpens : Opens operand.toList)
    (h : Token.Prints operand.toList language) :
    Token.Prints (signedText token.lexeme operand).toList (sameThen token language) := by
  rcases symbol_of_isSign hSign with ⟨s, hKind, hSymbol⟩
  unfold signedText
  split
  · have hOperator : isOperator token.kind = true := by
      rw [hKind]
      rfl
    simpa using prints_operator hWritten hOperator h
  · rename_i hMinus
    rcases hOpens with ⟨c, hHead, hNot⟩
    have hRest : ∃ d ∈ operand.toList.head?, d ∉ ['=', '>', '-'] := by
      refine ⟨c, hHead, ?_⟩
      rintro hMem
      rcases List.mem_append.mp (show c ∈ ['=', '>'] ++ ['-'] from hMem) with hOther | hLast
      · exact hNot hOther
      · rw [List.mem_singleton.mp hLast] at hHead
        exact hMinus hHead
    rw [Token.Written, hKind] at hWritten
    have hPrints := h.sign hSymbol hRest
    rw [← hKind, ← hWritten] at hPrints
    rw [String.toList_append]
    exact hPrints.mono fun _ => sameThen_of_after

end

end Grammar

end Scriptlet
