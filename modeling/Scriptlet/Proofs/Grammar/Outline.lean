import Scriptlet.Proofs.Decimal.Reading
import Scriptlet.Proofs.Grammar.Exact
import Scriptlet.Proofs.Grammar.Trees
import Scriptlet.Proofs.Tree.Layout
import Scriptlet.Proofs.Grammar.Same

/-
  Trees are told apart by their outlines.

  Key declarations include:
    * `kindOf?`
    * `Layout.node`
    * `Throughout`
    * `trees_show_words`
    * `trees_shown`
    * `outlines_identify_trees`

  The words of an outline are tokens whose kinds their texts
  tell, and the head and the parts of a node tell what node
  it is.  A string without quotes is told from words only if
  it has a text of its own.
-/

namespace Scriptlet

open Grammar (isSign isStep isCompound literalOf? parseExpression parseProgram)
open Layout (Worded Legible word bracketed leavesAll)

/- The kind of the first token of a text. -/
def kindOf? : List Char → Option Token.Kind
  | [] => none
  | c :: cs =>
    match (Piece.cut c cs).reading with
    | .token kind => some kind
    | _ => none

theorem kindOf?_of_isWhole {kind : Token.Kind} {text : List Char}
    (h : Piece.IsWhole ⟨.token kind, text⟩) : kindOf? text = some kind := by
  obtain ⟨c, cs, hCut⟩ := h
  obtain ⟨hReading, rfl⟩ := Piece.mk.inj hCut
  have hAgain := @Piece.cut_again c cs [] (by rw [← hReading]; rfl) (Piece.stops_nil _ _)
  rw [List.append_nil] at hAgain
  rw [kindOf?, hAgain, Piece.Cut.onto, ← hReading]

namespace Token

def Kind.isLeaf : Kind → Bool
  | .identifier => true
  | .number _ => true
  | .keyword _ => true
  | _ => false

/- Names, numbers, keywords and operators. -/
def Kind.isWord (kind : Kind) : Bool :=
  kind.isLeaf || isCompound kind || isStep kind || isSign kind || kind.isArithmetic || kind.isLink

theorem isBare_of_isWordPart {c : Char} (h : Piece.isWordPart c = true) :
    Layout.isBare c = true := by
  simp only [Layout.isBare, Bool.and_eq_true, decide_eq_true_eq]
  refine ⟨⟨?_, ?_⟩, ?_⟩ <;> rintro rfl <;> cases h

theorem Kind.Written.word {kind : Kind} {text : List Char} (h : kind.Written text)
    (hWord : kind.isWord = true) : kindOf? text = some kind ∧ Layout.Plain text := by
  cases kind with
  | symbol s =>
    cases h
    cases s <;> first | exact ⟨rfl, nofun, rfl⟩ | cases hWord
  | keyword k =>
    cases h
    cases k <;> exact ⟨rfl, nofun, rfl⟩
  | identifier =>
    refine ⟨kindOf?_of_isWhole (Piece.isWhole_of_isName h), ?_⟩
    cases text with
    | nil => cases h
    | cons c cs =>
      refine ⟨nofun, List.all_eq_true.mpr fun d hMem => isBare_of_isWordPart ?_⟩
      grind [Kind.Written, Piece.isName, Piece.isWordPart, Piece.isWordStart, Char.isAlphanum]
  | number x =>
    obtain ⟨whole, fraction, hSpells, rfl⟩ := h
    refine ⟨kindOf?_of_isWhole (Piece.isWhole_number hSpells), ?_, ?_⟩
    · have hNonempty := hSpells.nonempty
      cases fraction <;> simp [Numeral.decimalText, hNonempty]
    · refine List.all_eq_true.mpr fun d hMem => ?_
      have hChar : d.isDigit = true ∨ d = '.' := by
        have hDigits := hSpells.digits
        cases fraction <;> grind [Numeral.decimalText]
      rcases hChar with hDigit | rfl
      · exact isBare_of_isWordPart (by simp [Piece.isWordPart, Char.isAlphanum, hDigit])
      · rfl
  | _ => cases hWord

variable {token token' : Token}

theorem IsName.word (h : token.IsName) : token.Is Kind.isWord :=
  ⟨h.written, by rw [h.kind]; rfl⟩

theorem Is.word {test : Kind → Bool} (h : token.Is test)
    (hTest : test ∈ [isCompound, isStep, isSign, Kind.isArithmetic, Kind.isLink]) :
    token.Is Kind.isWord := by
  simp only [List.mem_cons, List.not_mem_nil, or_false] at hTest
  rcases hTest with rfl | rfl | rfl | rfl | rfl <;>
    exact ⟨h.written, by simp [Kind.isWord, h.kind]⟩

section

variable (h : token.Is Kind.isWord)

include h

theorem Is.plain : Layout.Plain token.lexeme.toList := (Kind.Written.word h.written h.kind).2

theorem Is.lexeme_ne : token.lexeme ≠ "" := by
  intro hEmpty
  apply h.plain.nonempty
  rw [hEmpty]
  rfl

theorem Is.same_iff (h' : token'.Is Kind.isWord) :
    token.lexeme = token'.lexeme ↔ Token.Same token token' := by
  refine ⟨fun hEq => ⟨Option.some.inj ?_, hEq.symm⟩, fun hSame => hSame.lexeme.symm⟩
  rw [← (Kind.Written.word h.written h.kind).1, ← (Kind.Written.word h'.written h'.kind).1, hEq]

end

end Token

/- The literal that a leaf shows. -/
def Literal.ofLeaf (isString : Bool) (text : String) : Option Literal :=
  if isString then some (.string text) else (kindOf? text.toList).bind literalOf?

section

variable {value value' : Literal} (h : value.Sensible) (hFinite : ¬ value.IsInfinity)

include h hFinite

theorem Literal.shown :
    ∃ isString text, value.layout = .leaf isString text ∧ ofLeaf isString text = some value ∧
      (isString = false → Layout.Plain text.toList) := by
  cases value with
  | number x =>
    obtain ⟨_, _, hSpells⟩ := h
    rcases hSpells.double with hFloat | ⟨mantissa, exponent, hFloat⟩
    · exact absurd ⟨x, rfl, hFloat⟩ hFinite
    obtain ⟨whole, fraction, hSpells, hText⟩ := Numeral.spells_oneDecimal hFloat
    obtain ⟨hKind, hPlain⟩ := Token.Kind.Written.word
      (show (Token.Kind.number x).Written _ from ⟨whole, fraction, hSpells, hText⟩) rfl
    exact ⟨false, _, rfl, congrArg (·.bind literalOf?) hKind, fun _ => hPlain⟩
  | string => exact ⟨true, _, rfl, rfl, nofun⟩
  | bool value => cases value <;> exact ⟨false, _, rfl, rfl, fun _ => ⟨nofun, rfl⟩⟩
  | nil => exact ⟨false, _, rfl, rfl, fun _ => ⟨nofun, rfl⟩⟩

theorem Literal.worded : Worded value.layout.leaves := by
  obtain ⟨_, _, hLayout, -, hPlain⟩ := Literal.shown h hFinite
  simpa [hLayout, Layout.leaves] using hPlain

theorem Literal.layout_eq (h' : value'.Sensible) (hFinite' : ¬ value'.IsInfinity) :
    value.layout = value'.layout ↔ value = value' := by
  obtain ⟨_, _, hLayout, hLeaf, -⟩ := Literal.shown h hFinite
  obtain ⟨_, _, hLayout', hLeaf', -⟩ := Literal.shown h' hFinite'
  refine ⟨fun hEq => ?_, congrArg layout⟩
  rw [hLayout, hLayout'] at hEq
  cases hEq
  exact Option.some.inj (hLeaf.symm.trans hLeaf')

end

/- The constructor of an expression with this head and so many parts. -/
def nodeOf (head : String) (count : Nat) : Option Token.Kind → Nat
  | some .identifier =>
    if head = "call" then 8 else if head = "group" then 16 else if head = "array" then 17 else 4
  | some (.symbol .equal) => 2
  | some (.symbol .dot) => if head = "." then 9 else 10
  | some (.symbol .leftSquare) => if head = "[]" then 11 else 12
  | some (.keyword .superWord) => 14
  | some (.keyword .fnWord) => 15
  | some kind => if isCompound kind then 3 else if kind.isLink then 7 else 4 + count
  | none => 0

/- The constructor of an expression. -/
def Layout.node : Layout → Nat
  | .leaf isString text =>
    match Literal.ofLeaf isString text with
    | some _ => 0
    | none => if Piece.isName text.toList then 1 else 13
  | .branch _ (.leaf _ head :: parts) => nodeOf head parts.length (kindOf? head.toList)
  | _ => 0

theorem Expr.node_layout {expr : Expr} (h : expr.Sensible) (hFinite : expr.IsFinite) :
    expr.layout.node = expr.ctorIdx := by
  have hOperator {operator : Token} {test : Token.Kind → Bool} {parts : List Layout} {index : Nat}
      (h : operator.Is test) (hTest : ∀ kind, test kind = true →
        kind.isWord = true ∧ nodeOf operator.lexeme parts.length (some kind) = index) :
      (bracketed operator.lexeme parts).node = index := by
    obtain ⟨hWord, hNode⟩ := hTest _ h.kind
    rw [bracketed, word, Layout.node, (h.written.word hWord).1, hNode]
  cases expr with
  | literal value =>
    obtain ⟨_, _, hLayout, hLeaf, -⟩ := Literal.shown h hFinite
    rw [layout, hLayout, Layout.node, hLeaf]
    rfl
  | name _ name =>
    have hName := h.written
    rw [Token.Written, h.kind] at hName
    have hKind := (hName.word rfl).1
    simp only [layout, word, Layout.node, Literal.ofLeaf, hKind]
    exact if_pos hName
  | compound | unary | binary | logical =>
    first
    | refine hOperator h.1 fun kind hKind => ?_
    | refine hOperator h.1.2 fun kind hKind => ?_
    cases kind with
    | symbol s => cases s <;> first | exact ⟨rfl, rfl⟩ | cases hKind
    | keyword k => cases k <;> first | exact ⟨rfl, rfl⟩ | cases hKind
    | _ => cases hKind
  | increment _ operator before =>
    -- the head of a step is no token
    have hWritten := h.1.2.written
    have hStep := h.1.2.kind
    unfold isStep at hStep
    split at hStep <;> cases hStep <;> rename_i hKind <;> rw [Token.Written, hKind] at hWritten
    all_goals
      rw [layout, ← @String.ofList_toList operator.lexeme,
        show operator.lexeme.toList = _ from hWritten]
      cases before <;> rfl
  | function f => cases f; rfl
  | _ => rfl

theorem Expr.ctorIdx_eq {expr expr' : Expr} (h : expr.Sensible) (hFinite : expr.IsFinite)
    (h' : expr'.Sensible) (hFinite' : expr'.IsFinite) (hEq : expr.layout = expr'.layout) :
    expr.ctorIdx = expr'.ctorIdx := by
  rw [← node_layout h hFinite, hEq, node_layout h' hFinite']

/- The constructor of a statement. -/
def Layout.stmtNode : Layout → Nat
  | .branch _ (.leaf _ head :: _) =>
    [";", "print", "let", "fn", "class", "block", "if", "while", "break", "return"].idxOf head
  | _ => 0

theorem Stmt.node_layout (stmt : Stmt) : stmt.layout.stmtNode = stmt.ctorIdx := by
  cases stmt with
  | functionDecl f => cases f; rfl
  | letDecl _ value | returnValue _ value => cases value <;> rfl
  | classDecl _ parent _ => cases parent <;> rfl
  | conditional _ _ other => cases other <;> rfl
  | _ => rfl

theorem Stmt.ctorIdx_eq {stmt stmt' : Stmt} (h : stmt.layout = stmt'.layout) :
    stmt.ctorIdx = stmt'.ctorIdx := by
  rw [← node_layout, h, node_layout]

------------------------------------------------------------
-- Nodes
------------------------------------------------------------

namespace Layout

/- Methods do not start as a superclass does. -/
theorem ne_methodsLayout (methods : List Function) (text : String) (parts : List Layout) :
    methodsLayout methods ≠ .leaf false text :: parts := by
  match methods with
  | [] => exact nofun
  | .mk .. :: _ => exact nofun

theorem step_head {before before' : Bool} {text text' : String} :
    (if before then "pre" else "post") ++ text = (if before' then "pre" else "post") ++ text' ↔
      before = before' ∧ text = text' := by
  rw [← String.toList_inj]
  cases before <;> cases before' <;> simp [String.toList_inj]

theorem plain_step {text : String} (h : Plain text.toList) (before : Bool) :
    Plain ((if before then "pre" else "post") ++ text).toList := by
  have hBare := h.bare
  cases before <;> simp_all [isBare]

section

variable {names names' : List Token} (h : ∀ name ∈ names, name.IsName)

include h

theorem names_same (h' : ∀ name ∈ names', name.IsName) :
    (names.map fun name => word name.lexeme) = (names'.map fun name => word name.lexeme) ↔
      List.Forall₂ Token.Same names names' := by
  induction names generalizing names' with
  | nil => cases names' <;> simp
  | cons => cases names' <;> simp_all [word, Token.Is.same_iff, Token.IsName.word]

theorem worded_names : Worded (leavesAll (names.map fun name => word name.lexeme)) := by
  induction names with
  | nil => exact worded_nil
  | cons => simp_all [word, leaves, leavesAll, Token.IsName.word, Token.Is.plain]

end

/- Names are not empty, so a title tells whether there is one. -/
theorem heading_same {name name' : Option Token} {params params' : List Token}
    (h : (∀ token ∈ name, token.IsName) ∧ ∀ param ∈ params, param.IsName)
    (h' : (∀ token ∈ name', token.IsName) ∧ ∀ param ∈ params', param.IsName) :
    Function.heading name params = Function.heading name' params' ↔
      Option.Rel Token.Same name name' ∧ List.Forall₂ Token.Same params params' := by
  rw [Function.heading, Function.heading, branch.injEq, names_same h.2 h'.2]
  refine and_congr_left' ?_
  cases name <;> cases name' <;>
    simp_all [Token.IsName.word, Token.Is.same_iff, Token.Is.lexeme_ne, Ne.symm]

end Layout

/- In trees of every kind that are sensible and finite. -/
def Throughout
    (property : {α : Type} → (α → Prop) → (α → α → Prop) → (α → Layout) → α → Prop) : Prop :=
  (∀ expr, property (fun expr : Expr => expr.Sensible ∧ expr.IsFinite)
    Expr.Same Expr.layout expr) ∧
  (∀ f, ∀ head : String, Layout.Plain head.toList → property
    (fun f : Function => f.Sensible ∧ f.IsFinite) Function.Same (Function.layout head) f) ∧
  (∀ stmts, property (fun stmts => stmtsSensible stmts ∧ stmtsFinite stmts)
    (List.Forall₂ Stmt.Same) (fun stmts => .branch "" (stmtsLayout stmts)) stmts) ∧
  (∀ stmt, property (fun stmt : Stmt => stmt.Sensible ∧ stmt.IsFinite)
    Stmt.Same Stmt.layout stmt) ∧
  (∀ methods, property (fun methods => functionsSensible methods ∧ functionsFinite methods)
    (List.Forall₂ Function.Same) (fun methods => .branch "" (methodsLayout methods)) methods) ∧
  ∀ exprs, property (fun exprs => exprsSensible exprs ∧ exprsFinite exprs)
    (List.Forall₂ Expr.Same) (fun exprs => .branch "" (exprsLayout exprs)) exprs

attribute [local simp] Expr.layout Stmt.layout Function.layout exprsLayout stmtsLayout
  methodsLayout bracketed word Layout.leaves leavesAll Layout.isBare

attribute [local grind =] Expr.layout Stmt.layout exprsLayout stmtsLayout methodsLayout bracketed
  word Expr.Sensible Stmt.Sensible exprsSensible stmtsSensible functionsSensible Expr.IsFinite
  Stmt.IsFinite exprsFinite stmtsFinite functionsFinite

attribute [local grind .] Token.IsName.word Token.Is.word Token.Is.plain Token.Is.same_iff

/- By induction on trees: tokens are words, and so are heads. -/
theorem trees_show_words :
    Throughout fun good _ layout x => good x → Worded (layout x).leaves := by
  have hFn : Layout.Plain "fn".toList := by simp
  have hMethod : Layout.Plain "method".toList := by simp
  apply Expr.references.mutual_induct
  case case1 => exact fun value h => Literal.worded h.1 h.2
  case case5 =>
    intro target operator before ih h
    have hPlain := Layout.plain_step (h.1.1.2.word (by simp)).plain before
    simpa using ⟨by simpa using hPlain, ih ⟨h.1.2, h.2⟩⟩
  case case14 | case30 | case31 | case34 | case36 | case38 => simp
  case case33 =>
    intro name keyword params body ih head hHead h
    have hBody := ih ⟨h.1.2, h.2⟩
    have hParams := Layout.worded_names h.1.1.2
    cases name with
    | none => simpa [Function.heading] using ⟨hHead, hParams, by simpa using hBody⟩
    | some name =>
      have hName := (h.1.1.1 name rfl).word
      simpa [Function.heading, hName.lexeme_ne] using
        ⟨hHead, hName.plain, hParams, by simpa using hBody⟩
  -- the words of other nodes are their heads and tokens
  all_goals
    intros
    simp
    grind [Layout.leaves]

/-
  By induction on trees.  Layouts that are equal are of nodes
  with one constructor, and their parts are equal.
-/
theorem trees_shown : Throughout fun good same layout x =>
    good x → ∀ x', good x' → (layout x = layout x' ↔ same x x') := by
  have hFn : Layout.Plain "fn".toList := by simp
  have hMethod : Layout.Plain "method".toList := by simp
  apply Expr.references.mutual_induct
  -- a literal
  case case1 =>
    intro value h expr' h'
    refine ⟨fun hEq => ?_, fun hSame => ?_⟩
    · have hNode := Expr.ctorIdx_eq h.1 h.2 h'.1 h'.2 hEq
      cases expr' <;> cases hNode
      rw [(Literal.layout_eq h.1 h.2 h'.1 h'.2).mp hEq]
      exact .literal h'.2
    · cases hSame with
      | literal => rfl
      | infinity hInfinity => exact absurd hInfinity h.2
  -- an increment
  case case5 =>
    intro target operator before ih h expr' h'
    refine ⟨fun hEq => ?_, fun hSame => ?_⟩
    · have hNode := Expr.ctorIdx_eq h.1 h.2 h'.1 h'.2 hEq
      cases expr' <;> cases hNode
      simp [Layout.step_head] at hEq
      obtain ⟨⟨rfl, hOperator⟩, hTarget⟩ := hEq
      constructor <;> grind
    · cases hSame
      grind
  -- a function
  case case33 =>
    intro name keyword params body ih head hHead h f' h'
    cases f' with
    | mk name' keyword' params' body' =>
      have hHeading := Layout.heading_same h.1.1 h'.1.1
      have hBody := ih ⟨h.1.2, h.2⟩ body' ⟨h'.1.2, h'.2⟩
      simp only [Layout.branch.injEq, true_and] at hBody
      simp [hHeading, hBody]
      grind [Function.Same, Option.Rel]
  -- lists
  case case34 | case36 | case38 =>
    intro _ others _
    cases others <;> simp
  case case35 | case37 | case39 =>
    intro first others ihFirst ihOthers h others' h'
    cases others' with
    | nil => simp
    | cons =>
      rw [List.forall₂_cons]
      grind
  -- statements with a part that may be missing
  case case21 | case22 | case24 | case25 | case27 | case28 | case31 | case32 =>
    intros
    intro h stmt' h'
    refine ⟨fun hEq => ?_, fun hSame => ?_⟩
    · have hNode := Stmt.ctorIdx_eq hEq
      cases stmt' <;> cases hNode
      cases ‹Option _› <;> grind [intro Stmt.Same, Layout.ne_methodsLayout]
    · cases hSame
      grind
  -- other statements
  case case19 | case20 | case23 | case26 | case29 | case30 =>
    intros
    intro h stmt' h'
    refine ⟨fun hEq => ?_, fun hSame => ?_⟩
    · have hNode := Stmt.ctorIdx_eq hEq
      cases stmt' <;> cases hNode
      constructor <;> grind
    · cases hSame
      grind
  -- other expressions
  all_goals
    intros
    intro h expr' h'
    refine ⟨fun hEq => ?_, fun hSame => ?_⟩
    · have hNode := Expr.ctorIdx_eq h.1 h.2 h'.1 h'.2 hEq
      cases expr' <;> cases hNode
      constructor <;> grind
    · cases hSame
      grind

/- Some text is read as the expression. -/
def Expr.IsRead (expr : Expr) : Prop := ∃ source file n,
  (parseExpression (Token.tokens (Token.scan source file)) n).value = some expr

/- Some text is read as a program with the statement. -/
def Stmt.IsRead (stmt : Stmt) : Prop := ∃ source file n,
  stmt ∈ (parseProgram (Token.tokens (Token.scan source file)) n).value

theorem Expr.IsRead.sensible {expr : Expr} (h : expr.IsRead) : expr.Sensible := by
  obtain ⟨source, file, n, hValue⟩ := h
  rw [Token.tokens_scan] at hValue
  obtain ⟨_, hDerives⟩ := Grammar.parseExpression_some rfl (Token.kind_body source file) hValue
  exact hDerives.sensible (Token.written_body source file)

theorem Stmt.IsRead.sensible {stmt : Stmt} (h : stmt.IsRead) : stmt.Sensible := by
  obtain ⟨source, file, n, hMem⟩ := h
  rw [Token.tokens_scan] at hMem
  exact sensible_of_mem_stmts (Grammar.Derives.sensible
    (Grammar.parseProgram_derives rfl (Token.kind_body source file) n)
    (Token.written_body source file)) hMem

/- If words and strings are told apart, texts tell what layouts tell. -/
theorem Layout.text_eq_iff {x y : Layout} {P : Prop} (hx : Worded x.leaves)
    (hy : Worded y.leaves)
    (hLegible : Legible (x.leaves ++ y.leaves)) (hIff : x = y ↔ P) : x.text = y.text ↔ P := by
  have hWords := (Layout.worded_append _ _).mpr ⟨hx, hy⟩
  rw [← hIff]
  exact ⟨Layout.eq_of_text hWords hLegible, congrArg Layout.text⟩

/-
  Trees that can be read, without infinite numbers.  If every
  string in them is one word, and a word that stands nowhere
  else, they have one outline just if they are the same.
-/
theorem outlines_identify_trees (expr expr' : Expr) (stmt stmt' : Stmt) :
    (expr.IsRead → expr'.IsRead → expr.IsFinite → expr'.IsFinite →
      Legible (expr.layout.leaves ++ expr'.layout.leaves) →
      (expr.outline = expr'.outline ↔ expr.Same expr')) ∧
    (stmt.IsRead → stmt'.IsRead → stmt.IsFinite → stmt'.IsFinite →
      Legible (stmt.layout.leaves ++ stmt'.layout.leaves) →
      (stmt.outline = stmt'.outline ↔ stmt.Same stmt')) := by
  obtain ⟨hExprs, _, _, hStmts, _⟩ := trees_shown
  obtain ⟨hExprWords, _, _, hStmtWords, _⟩ := trees_show_words
  constructor
  · intro hRead hRead' hFinite hFinite' hLegible
    have hGood := And.intro hRead.sensible hFinite
    have hGood' := And.intro hRead'.sensible hFinite'
    exact Layout.text_eq_iff (hExprWords _ hGood) (hExprWords _ hGood') hLegible
      (hExprs _ hGood _ hGood')
  · intro hRead hRead' hFinite hFinite' hLegible
    have hGood := And.intro hRead.sensible hFinite
    have hGood' := And.intro hRead'.sensible hFinite'
    exact Layout.text_eq_iff (hStmtWords _ hGood) (hStmtWords _ hGood') hLegible
      (hStmts _ hGood _ hGood')

/- `print a + "b";` as it stands on some line. -/
def printSum (line id : Nat) : Stmt :=
  .print ⟨.keyword .printWord, "print", line, ""⟩
    (.binary (.name id ⟨.identifier, "a", line, ""⟩) ⟨.symbol .plus, "+", line, ""⟩
      (.literal (.string "b")))

theorem string_isFinite (text : String) : Expr.IsFinite (.literal (.string text)) := by
  rintro ⟨_, hNumber, _⟩
  cases hNumber

theorem printSum_identified :
    Stmt.IsRead (printSum 1 0) ∧ Stmt.IsRead (printSum 2 1) ∧
      Legible ((printSum 1 0).layout.leaves ++ (printSum 2 1).layout.leaves) ∧
      ((printSum 1 0).outline = (printSum 2 1).outline ↔ (printSum 1 0).Same (printSum 2 1)) := by
  have hRead : Stmt.IsRead (printSum 1 0) := by
    refine ⟨"print a + \"b\";", "", 0, ?_⟩
    cbv
    exact .head _
  have hRead' : Stmt.IsRead (printSum 2 1) := by
    refine ⟨"a;\nprint a + \"b\";", "", 0, ?_⟩
    cbv
    exact .tail _ (.head _)
  have hFinite (line id : Nat) : (printSum line id).IsFinite := ⟨trivial, string_isFinite "b"⟩
  have hLegible : Legible ((printSum 1 0).layout.leaves ++ (printSum 2 1).layout.leaves) := by
    intro text hMem
    simp only [printSum, Stmt.layout, Expr.layout, Literal.layout, Layout.leaves, leavesAll,
      bracketed, word] at hMem ⊢
    simp at hMem
    simp [hMem]
  have hOutlines := outlines_identify_trees (.literal .nil) (.literal .nil) (printSum 1 0)
    (printSum 2 1)
  exact ⟨hRead, hRead', hLegible,
    hOutlines.2 hRead hRead' (hFinite 1 0) (hFinite 2 1) hLegible⟩

/- In `x; "x";` the string has the outline of the name. -/
theorem string_outlined_as_name :
    let name : Stmt := .expression (.name 0 ⟨.identifier, "x", 1, ""⟩)
    let string : Stmt := .expression (.literal (.string "x"))
    name.IsRead ∧ string.IsRead ∧ name.IsFinite ∧ string.IsFinite ∧
      name.outline = string.outline ∧ ¬ name.Same string := by
  intro name string
  have hValue : (parseProgram (Token.tokens (Token.scan "x; \"x\";" "")) 0).value =
      [name, string] := by
    cbv
  have hRead {stmt : Stmt} (hMem : stmt ∈ [name, string]) : stmt.IsRead :=
    ⟨"x; \"x\";", "", 0, hValue ▸ hMem⟩
  refine ⟨hRead (.head _), hRead (.tail _ (.head _)), trivial, string_isFinite "x", rfl,
    ?_⟩
  intro (hSame : Stmt.Same (.expression (.name ..)) (.expression (.literal _)))
  rcases hSame with ⟨hExpr⟩
  cases hExpr

end Scriptlet
