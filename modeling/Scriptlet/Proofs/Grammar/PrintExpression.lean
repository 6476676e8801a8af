import Scriptlet.Proofs.Decimal.Reading
import Scriptlet.Proofs.Grammar.Same

/-
  Expressions that are printed and read again.

  Key declarations include:
    * `Grammar.Readable`
    * `Grammar.Trailing`
    * `Grammar.readable_literal`
    * `Grammar.readable_call`
    * `Grammar.readable_chained`
    * `Grammar.readable_assign`

  One lemma for each rule of the grammar: if the parts of an
  expression are read again from their texts, so is the whole.
-/

namespace Scriptlet

namespace Grammar

open Token (Prints Language)
open Piece (Parts)

variable {rest text : List Char} {language language' : Language}

/- An expression whose text is of a language. -/
structure Readable (expr : Expr) (language : Language) : Prop where
  opens : Opens expr.source.toList
  prints : Prints expr.source.toList language

/- What follows an expression, with a text of a language. -/
structure Trailing (text : List Char) (language : Language) : Prop where
  parts : Parts text
  prints : Prints text language

/- A text that is read again as a phrase with this tree. -/
def PrintsAs (phrase : Phrase) (tree : phrase.Tree) (text : String) : Prop :=
  Prints text.toList (phrase.Rereads tree)

/- Tokens that are read again without taking a number. -/
def Phrase.RereadsAt (phrase : Phrase) (tree : phrase.Tree) : Language :=
  fun ts => ∀ n, ∃ tree', Derives False phrase n ts tree' n ∧ phrase.Same tree tree'

/- A function from its parameters on. -/
def signatureText (params : List Token) (body : List Stmt) : List Char :=
  '(' :: ((commaSeparated (params.map Token.lexeme)).toList ++
    ')' :: ' ' :: (braced (sourceStmts body)).toList)

/- What is read again as a function of any name. -/
def signatureRereads (params : List Token) (body : List Stmt) : Language :=
  fun ts =>
    ∀ name keyword n, ∃ params' body' n', Derives False (.signature name keyword) n ts
            (.mk name keyword params' body') n' ∧ List.Forall₂ Token.Same params params' ∧
          List.Forall₂ Stmt.Same body body'

/- A statement that is read again, open to an `else` or not. -/
abbrev PrintsStmt (isOpen : Bool) (stmt : Stmt) : Prop :=
  PrintsAs (.statement isOpen) stmt stmt.source

/-
  A statement that is read again as a statement, which is
  open only if this one is.
-/
def PrintsStatement (isOpen : Bool) (stmt : Stmt) : Prop :=
  ∃ isOpen', (isOpen = false → isOpen' = false) ∧ PrintsStmt isOpen' stmt

/-
  The text of a tree is read again as its phrase.  Levels of
  operators have to be printable.
-/
def Phrase.Printed : (phrase : Phrase) → phrase.Tree → Prop
  | .declarations => fun body => ∀ stmt ∈ body, PrintsAs .declaration stmt stmt.source
  | .declaration => fun stmt => PrintsAs .declaration stmt stmt.source
  | .functions => fun methods =>
    Trailing (sourceMethods methods).toList (Phrase.functions.Rereads methods)
  | .function => fun f => PrintsAs .function f f.source
  | .signature name keyword => fun f =>
    f = .mk name keyword f.params f.body ∧ Prints (signatureText f.params f.body)
        (signatureRereads f.params f.body)
  | .parameters => fun params =>
    Prints (commaSeparated (params.map Token.lexeme)).toList (Phrase.parameters.RereadsAt params)
  | .names => fun names =>
    names ≠ [] ∧ Prints (commaSeparated (names.map Token.lexeme)).toList
        (Phrase.names.RereadsAt names)
  | .block => fun body => PrintsAs .block body (braced (sourceStmts body))
  | .letDecl => fun stmt => PrintsAs .letDecl stmt stmt.source
  | .exprStmt => fun stmt => PrintsAs .exprStmt stmt stmt.source
  | .clause => fun first => ∀ stmt ∈ first, PrintsAs .declaration stmt stmt.source
  | .optional => fun value => ∀ expr ∈ value, Readable expr (Phrase.expression.Rereads expr)
  | .statement isOpen => PrintsStatement isOpen
  | .expression => fun expr => Readable expr (Phrase.expression.Rereads expr)
  | .target => fun expr => Readable expr (Phrase.target.Rereads expr)
  | .binary levels => fun expr =>
    (∀ level ∈ levels, level.IsPrintable) → Readable expr ((Phrase.binary levels).Rereads expr)
  | .operands level tighter => fun others =>
    level.IsPrintable → (∀ level ∈ tighter, level.IsPrintable) →
        Trailing (others.flatMap operandText) ((Phrase.operands level tighter).Rereads others)
  | .unary => fun expr => Readable expr (Phrase.unary.Rereads expr)
  | .operand => fun expr => Readable expr (Phrase.operand.Rereads expr)
  | .call => fun expr => Readable expr (Phrase.call.Rereads expr)
  | .trailers => fun others =>
    Trailing (others.flatMap trailerText) (Phrase.trailers.Rereads others)
  | .primary => fun expr => Readable expr (Phrase.primary.Rereads expr)
  | .arguments => fun items =>
    Prints (commaSeparated (sourceExprs items)).toList (Phrase.arguments.Rereads items)
  | .list => fun items =>
    items ≠ [] ∧ Prints (commaSeparated (sourceExprs items)).toList (Phrase.list.Rereads items)

theorem Readable.of_text {expr : Expr} (hText : expr.source.toList = text)
    (hOpens : Opens text) (hPrints : Prints text language) : Readable expr language := by
  rw [← hText] at hOpens hPrints
  exact ⟨hOpens, hPrints⟩

theorem Trailing.of_text {chars : List Char} (hText : text = chars) (hParts : Parts chars)
    (hPrints : Prints chars language) : Trailing text language := by
  rw [hText]
  exact ⟨hParts, hPrints⟩

theorem Readable.mono {expr : Expr} (h : Readable expr language)
    (hLanguage : ∀ ts, language ts → language' ts) : Readable expr language' :=
  ⟨h.opens, h.prints.mono hLanguage⟩

theorem Trailing.mono (h : Trailing text language)
    (hLanguage : ∀ ts, language ts → language' ts) : Trailing text language' :=
  ⟨h.parts, h.prints.mono hLanguage⟩

/- A name starts like a word. -/
theorem name_eq_cons {name : Token} (hName : name.IsName) :
    ∃ c text, name.lexeme.toList = c :: text ∧ Piece.isWordStart c = true := by
  rcases hName with ⟨hWritten, hKind⟩
  rw [Token.Written, hKind, Token.Kind.Written] at hWritten
  cases hText : name.lexeme.toList with
  | nil =>
    rw [hText] at hWritten
    cases hWritten
  | cons c text =>
    rw [hText, Piece.isName, Bool.and_eq_true, Bool.and_eq_true] at hWritten
    exact ⟨c, text, rfl, hWritten.1.1⟩

theorem opens_name {name : Token} (hName : name.IsName) : Opens name.lexeme.toList := by
  rcases name_eq_cons hName with ⟨c, text, hText, hStart⟩
  rw [hText]
  apply Opens.cons
  intro hMem
  simp only [List.mem_cons, List.not_mem_nil, or_false] at hMem
  rcases hMem with rfl | rfl <;> cases hStart

/- A property behind a point. -/
theorem parts_property {name : Token} (hName : name.IsName) (rest : List Char) :
    Parts ('.' :: (name.lexeme.toList ++ rest)) := by
  rcases name_eq_cons hName with ⟨c, text, hText, hStart⟩
  rw [hText]
  exact .point hStart (text ++ rest)

variable {x : Float}

theorem opens_decimal {whole fraction : List Char}
    (h : Numeral.Spells whole fraction x) : Opens (Numeral.decimalText whole fraction) := by
  cases whole with
  | nil => exact absurd rfl h.nonempty
  | cons c whole =>
    have hDigit := h.digits c (List.mem_cons_self ..)
    have hOpens : c ∉ ['=', '>'] := by
      intro hMem
      simp only [List.mem_cons, List.not_mem_nil, or_false] at hMem
      rcases hMem with rfl | rfl <;> cases hDigit
    cases fraction <;> exact .cons hOpens _

/- A word that stands for a value. -/
theorem readable_word {k : Keyword} {value : Literal} (hText : value.source.toList = k.chars)
    (hValue : literalOf? (.keyword k) = some value) (hFinite : ¬ value.IsInfinity) :
    Phrase.primary.Printed (.literal value) := by
  have hSource : (Expr.literal value).source.toList = k.chars ++ [] := by
    rw [List.append_nil, Expr.source, hText]
  have hOpens : Opens (k.chars ++ []) := by
    cases k <;> exact .cons (by decide) _
  refine .of_text hSource hOpens ((Prints.nil.keyword k .nil).mono ?_)
  rintro ts ⟨token, us, rfl, hKind, _, rfl⟩ n
  refine ⟨.literal value, n, .literal ?_, .literal hFinite⟩
  rw [hKind, hValue]

theorem readable_string (text : String) :
    Phrase.primary.Printed (.literal (.string text)) := by
  have hText : (Expr.literal (.string text)).source.toList = Quoted.encode text.toList ++ [] := by
    simp [Expr.source, Literal.source]
  refine .of_text hText (.cons (by decide) _) ((Prints.nil.string text.toList).mono ?_)
  rintro ts ⟨token, us, rfl, hKind, _, rfl⟩ n
  rw [String.ofList_toList] at hKind
  refine ⟨.literal (.string text), n, .literal ?_, .literal ?_⟩
  · rw [hKind]
    rfl
  · rintro ⟨x, hNumber, _⟩
    cases hNumber

/- Infinity is read again as the name of a variable. -/
theorem readable_infinity (hInfinite : Decimal.Double.ofFloat x = .infinite false)
    (hDisplay : Numeral.display x = "inf") : Phrase.primary.Printed (.literal (.number x)) := by
  have hText : (Expr.literal (.number x)).source.toList = ['i', 'n', 'f'] ++ [] := by
    simp [Expr.source, Literal.source, hDisplay]
  refine .of_text hText (.cons (by decide) _) ((Prints.nil.name (by decide) .nil).mono ?_)
  rintro ts ⟨token, us, rfl, hKind, hLexeme, rfl⟩ n
  refine ⟨.name n token, n + 1, .name hKind, .infinity ⟨x, rfl, hInfinite⟩ hKind ?_⟩
  apply String.toList_injective
  rw [hLexeme]
  rfl

theorem readable_number (h : Numeral.Displayed x) :
    Phrase.primary.Printed (.literal (.number x)) := by
  unfold Numeral.Displayed at h
  split at h
  · rename_i hInfinite
    exact readable_infinity hInfinite h
  · rename_i hFinite
    rcases h with ⟨whole, fraction, hSpells, hDisplay⟩
    have hText : (Expr.literal (.number x)).source.toList =
          Numeral.decimalText whole fraction ++ [] := by
      rw [List.append_nil, ← hDisplay]
      rfl
    refine .of_text hText ((opens_decimal hSpells).append [])
      ((Prints.nil.number hSpells .nil).mono ?_)
    rintro ts ⟨token, us, rfl, hKind, _, rfl⟩ n
    refine ⟨.literal (.number x), n, .literal ?_, .literal ?_⟩
    · rw [hKind]
      rfl
    · rintro ⟨y, hNumber, hInfinite⟩
      cases hNumber
      exact hFinite hInfinite

theorem readable_literal {token : Token} {value : Literal}
    (hWritten : token.Written) (hValue : literalOf? token.kind = some value) :
    Phrase.primary.Printed (.literal value) := by
  have hBool : ∀ b, ¬ (Literal.bool b).IsInfinity := by
    rintro b ⟨x, hNumber, _⟩
    cases hNumber
  unfold literalOf? at hValue
  split at hValue
  · cases hValue
    exact readable_word (k := .falseWord) rfl rfl (hBool false)
  · cases hValue
    exact readable_word (k := .trueWord) rfl rfl (hBool true)
  · cases hValue
    refine readable_word (k := .nilWord) rfl rfl ?_
    rintro ⟨x, hNumber, _⟩
    cases hNumber
  · rename_i x hKind
    cases hValue
    rw [Token.Written, hKind] at hWritten
    rcases hWritten with ⟨whole, fraction, hSpells, _⟩
    exact readable_number (Numeral.displayed_of_spells hSpells)
  · cases hValue
    exact readable_string _
  · cases hValue

section

variable {name : Token} {expr : Expr}

/- A name by itself. -/
theorem readable_alone (hName : name.IsName) (id : Nat) :
    Readable (.name id name) (sameThen name .done) := by
  have hText : (Expr.name id name).source.toList = name.lexeme.toList ++ [] := by simp [Expr.source]
  exact .of_text hText ((opens_name hName).append []) (prints_name hName .nil .nil)

theorem readable_name (hName : name.IsName) (id : Nat) :
    Phrase.primary.Printed (.name id name) := by
  refine (readable_alone hName id).mono ?_
  rintro ts ⟨name', us, rfl, hSame, rfl⟩ n
  exact ⟨.name n name', n + 1, .name (hSame.kind.trans hName.kind), .name hSame⟩

theorem readable_self (id : Nat) (word : Token) : Phrase.primary.Printed (.self id word) := by
  have hText : (Expr.self id word).source.toList = Keyword.thisWord.chars ++ [] := by
    simp [Expr.source, Keyword.chars]
  refine .of_text hText (.cons (by decide) _) ((Prints.nil.keyword .thisWord .nil).mono ?_)
  rintro ts ⟨word', us, rfl, hKind, _, rfl⟩ n
  exact ⟨.self n word', n + 1, .self hKind, .self id n word word'⟩

theorem readable_superMethod (hName : name.IsName) (id : Nat) (word : Token) :
    Phrase.primary.Printed (.superMethod id word name) := by
  have hText : (Expr.superMethod id word name).source.toList = Keyword.superWord.chars ++
          (Symbol.dot.chars ++ (name.lexeme.toList ++ [])) := by
    simp [Expr.source, Keyword.chars, Symbol.chars]
  have hMethod := prints_name hName .nil .nil
  have hPrints := (hMethod.closed .dot rfl).keyword .superWord (parts_property hName [])
  refine .of_text hText (.cons (by decide) _) (hPrints.mono ?_)
  rintro ts ⟨word', us, rfl, hWord, _, dot, vs, rfl, hDot, _, name', ws, rfl, hSame, rfl⟩ n
  exact ⟨.superMethod n word' name', n + 1, .superMethod hWord hDot (hSame.kind.trans hName.kind),
    .superMethod id n word word' hSame⟩

theorem readable_group (h : Phrase.expression.Printed expr) :
    Phrase.primary.Printed (.group expr) := by
  have hText : (Expr.group expr).source.toList = Symbol.leftParen.chars ++
          (expr.source.toList ++ (Symbol.rightParen.chars ++ [])) := by
    simp [Expr.source, Symbol.chars]
  have hClosing := Prints.nil.closed .rightParen rfl
  have hPrints := (h.prints.append hClosing (.cons rfl (by decide) _)).closed .leftParen rfl
  refine .of_text hText (.cons (by decide) _) (hPrints.mono ?_)
  rintro ts ⟨opening, us, rfl, hOpening, _, vs, ws, rfl, hExpr,
    closing, xs, rfl, hClosing, _, rfl⟩ n
  rcases hExpr n with ⟨expr', n', hExpr, hSame⟩
  exact ⟨.group expr', n', .group hOpening hExpr hClosing, .group hSame⟩

end

------------------------------------------------------------
-- Lists, Calls and Operators
------------------------------------------------------------

theorem commaSeparated_cons (part other : String) (parts : List String) :
    (commaSeparated (part :: other :: parts)).toList = part.toList ++
        (Symbol.comma.chars ++ ' ' :: (commaSeparated (other :: parts)).toList) := by
  simp [commaSeparated, Symbol.chars, String.intercalate_cons_cons]

variable {item : Expr}

theorem prints_lastItem (h : Phrase.expression.Printed item) :
    Phrase.list.Printed [item] := by
  have hText : (commaSeparated (sourceExprs [item])).toList = item.source.toList := by
    simp [sourceExprs, commaSeparated]
  refine ⟨List.cons_ne_nil _ _, .of_text hText h.prints ?_⟩
  intro ts hItem n
  rcases hItem n with ⟨item', n', hItem, hSame⟩
  exact ⟨[item'], n', .lastItem hItem, .cons hSame .nil⟩

variable {items : List Expr}

theorem prints_moreItems (h : Phrase.expression.Printed item)
    (hItems : Phrase.list.Printed items) : Phrase.list.Printed (item :: items) := by
  have hText : (commaSeparated (sourceExprs (item :: items))).toList = item.source.toList ++
          (Symbol.comma.chars ++ ' ' :: (commaSeparated (sourceExprs items)).toList) := by
    cases items with
    | nil => exact absurd rfl hItems.1
    | cons other others => exact commaSeparated_cons ..
  have hPrints :=
    h.prints.append ((hItems.2.blank (c := ' ') rfl).closed .comma rfl) (.cons rfl (by decide) _)
  refine ⟨List.cons_ne_nil _ _, .of_text hText hPrints ?_⟩
  rintro ts ⟨us, vs, rfl, hItem, comma, ws, rfl, hComma, _, hOthers⟩ n
  rcases hItem n with ⟨item', n₁, hItem, hSame⟩
  rcases hOthers n₁ with ⟨items', n₂, hItems, hSames⟩
  exact ⟨item' :: items', n₂, .moreItems hItem hComma hItems, .cons hSame hSames⟩

theorem prints_arguments (hLimit : items.length ≤ listLimit)
    (h : Phrase.list.Printed items) : Phrase.arguments.Printed items := by
  refine h.2.mono ?_
  intro ts hItems n
  rcases hItems n with ⟨items', n', hItems, hSame⟩
  refine ⟨items', n', .someArguments hItems ?_, hSame⟩
  rw [← hSame.length_eq]
  exact hLimit

theorem prints_noArgument : Phrase.arguments.Printed [] := by
  have hText : (commaSeparated (sourceExprs [])).toList = [] := by
    simp [sourceExprs, commaSeparated]
  refine .of_text hText Prints.nil ?_
  rintro ts rfl n
  exact ⟨[], n, .noArgument, .nil⟩

theorem readable_array {elements : List Expr}
    (h : Phrase.arguments.Printed elements) (bracket : Token) :
    Phrase.primary.Printed (.array bracket elements) := by
  have hText : (Expr.array bracket elements).source.toList = Symbol.leftSquare.chars ++
          ((commaSeparated (sourceExprs elements)).toList ++ (Symbol.rightSquare.chars ++ [])) := by
    simp [Expr.source, Symbol.chars]
  have hClosing := Prints.nil.closed .rightSquare rfl
  have hPrints := (h.append hClosing (.cons rfl (by decide) _)).closed .leftSquare rfl
  refine .of_text hText (.cons (by decide) _) (hPrints.mono ?_)
  rintro ts ⟨opening, us, rfl, hOpening, _, vs, ws, rfl, hItems,
    closing, xs, rfl, hClosing, _, rfl⟩ n
  rcases hItems n with ⟨elements', n', hItems, hSame⟩
  exact ⟨.array closing elements', n', .array hOpening hItems hClosing,
    .array bracket closing hSame⟩

section

variable {others : List Trailer}

theorem trailing_noTrailer : Phrase.trailers.Printed [] := by
  refine ⟨.nil, Prints.nil.mono ?_⟩
  rintro ts rfl n
  exact ⟨[], n, .noTrailer, .nil⟩

theorem trailing_call {arguments : List Expr} (hArguments : Phrase.arguments.Printed arguments)
    (h : Phrase.trailers.Printed others) (paren : Token) :
    Phrase.trailers.Printed (.call arguments paren :: others) := by
  have hText : (Trailer.call arguments paren :: others).flatMap trailerText =
        Symbol.leftParen.chars ++
          ((commaSeparated (sourceExprs arguments)).toList ++
            (Symbol.rightParen.chars ++ others.flatMap trailerText)) := by
    simp [trailerText, Symbol.chars]
  have hPrints :=
    (hArguments.append (h.prints.closed .rightParen rfl)
      (.cons rfl (by decide) _)).closed .leftParen rfl
  refine .of_text hText (.cons rfl (by decide) _) (hPrints.mono ?_)
  rintro ts ⟨opening, us, rfl, hOpening, _, vs, ws, rfl, hItems,
    closing, xs, rfl, hClosing, _, hOthers⟩ n
  rcases hItems n with ⟨arguments', n₁, hItems, hSame⟩
  rcases hOthers n₁ with ⟨others', n₂, hOthers, hSames⟩
  exact ⟨.call arguments' closing :: others', n₂, .callTrailer hOpening hItems hClosing hOthers,
    .cons (.call paren closing hSame) hSames⟩

variable {name : Token}

/- A property and what follows it. -/
theorem trailing_named (hName : name.IsName) (h : Trailing rest language) :
    Trailing ('.' :: (name.lexeme.toList ++ rest))
      ((sameThen name language).after (.symbol .dot) Symbol.dot.chars) :=
  ⟨parts_property hName _, (prints_name hName h.parts h.prints).closed .dot
      rfl⟩

variable {position : Expr}

/- An element and what follows it. -/
theorem trailing_indexed (hPosition : Phrase.expression.Printed position)
    (h : Trailing rest language) :
    Trailing ('[' :: (position.source.toList ++ ']' :: rest))
      (((Phrase.expression.Rereads position).andThen
        (language.after (.symbol .rightSquare) Symbol.rightSquare.chars)).after
        (.symbol .leftSquare) Symbol.leftSquare.chars) :=
  ⟨.cons rfl (by decide) _,
    (hPosition.prints.append (h.prints.closed .rightSquare rfl)
      (.cons rfl (by decide) _)).closed .leftSquare rfl⟩

theorem trailing_property (hName : name.IsName)
    (h : Phrase.trailers.Printed others) : Phrase.trailers.Printed (.property name :: others) := by
  refine (trailing_named hName h).mono ?_
  rintro ts ⟨dot, us, rfl, hDot, _, name', vs, rfl, hSame, hOthers⟩ n
  rcases hOthers n with ⟨others', n', hOthers, hSames⟩
  exact ⟨.property name' :: others', n',
    .propertyTrailer hDot (hSame.kind.trans hName.kind) hOthers, .cons (.property hSame) hSames⟩

theorem trailing_element (hPosition : Phrase.expression.Printed position)
    (h : Phrase.trailers.Printed others) (bracket : Token) :
    Phrase.trailers.Printed (.element position bracket :: others) := by
  have hText : (Trailer.element position bracket :: others).flatMap
          trailerText = '[' :: (position.source.toList ++ ']' :: others.flatMap trailerText) := by
    simp [trailerText]
  have hRest := trailing_indexed hPosition h
  refine .of_text hText hRest.parts (hRest.prints.mono ?_)
  rintro ts ⟨opening, us, rfl, hOpening, _, vs, ws, rfl, hExpr,
    closing, xs, rfl, hClosing, _, hOthers⟩ n
  rcases hExpr n with ⟨position', n₁, hExpr, hSame⟩
  rcases hOthers n₁ with ⟨others', n₂, hOthers, hSames⟩
  exact ⟨.element position' closing :: others', n₂, .elementTrailer hOpening hExpr hClosing hOthers,
    .cons (.element bracket closing hSame) hSames⟩

theorem readable_call {expr : Expr} (hExpr : Phrase.primary.Printed expr)
    (h : Phrase.trailers.Printed others) : Phrase.call.Printed (others.foldl Trailer.on expr) := by
  refine .of_text (source_foldl_on others expr) (hExpr.opens.append _)
    ((hExpr.prints.append h.prints h.parts).mono ?_)
  rintro ts ⟨us, vs, rfl, hPrimary, hOthers⟩ n
  rcases hPrimary n with ⟨expr', n₁, hPrimary, hSame⟩
  rcases hOthers n₁ with ⟨others', n₂, hOthers, hSames⟩
  exact ⟨others'.foldl Trailer.on expr', n₂, .call hPrimary hOthers, foldl_on_same hSames hSame⟩

end

section

variable {operator : Token} {expr : Expr}

variable (hWritten : operator.Written)

include hWritten

theorem opens_sign (hSign : isSign operator.kind = true) (operand : String) :
    Opens (signedText operator.lexeme operand).toList := by
  have hOpens : Opens operator.lexeme.toList := by
    rcases symbol_of_isSign hSign with ⟨s, hKind, hSymbol⟩
    rw [Token.Written, hKind] at hWritten
    rw [show operator.lexeme.toList = s.chars from hWritten]
    rcases hSymbol with rfl | rfl <;> exact .cons (by decide) _
  unfold signedText
  split
  · rw [String.toList_append, String.toList_append]
    exact (hOpens.append _).append _
  · rw [String.toList_append]
    exact hOpens.append _

theorem readable_sign (hSign : isSign operator.kind = true) (h : Phrase.unary.Printed expr) :
    Phrase.unary.Printed (.unary operator expr) := by
  refine .of_text rfl (opens_sign hWritten hSign expr.source)
    ((prints_sign hWritten hSign h.opens h.prints).mono ?_)
  rintro ts ⟨operator', us, rfl, hOperator, hExpr⟩ n
  rcases hExpr n with ⟨expr', n', hExpr, hSame⟩
  rw [← hOperator.kind] at hSign
  exact ⟨.unary operator' expr', n', .sign hSign hExpr, .unary hOperator hSame⟩

variable (hStep : isStep operator.kind = true)
include hStep

theorem step_eq_cons :
    ∃ c text, operator.lexeme.toList = c :: text ∧ c ∈ ['+', '-'] := by
  rw [Token.Written] at hWritten
  unfold isStep at hStep
  split at hStep
  · rename_i hKind
    rw [hKind] at hWritten
    exact ⟨'+', ['+'], hWritten, by decide⟩
  · rename_i hKind
    rw [hKind] at hWritten
    exact ⟨'-', ['-'], hWritten, by decide⟩
  · cases hStep

theorem readable_stepAfter (hTarget : expr.isAssignable = true)
    (h : Phrase.call.Printed expr) :
    Phrase.operand.Printed (.increment expr operator false) := by
  have hText : (Expr.increment expr operator false).source.toList =
        expr.source.toList ++ (operator.lexeme.toList ++ []) := by
    simp [Expr.source]
  have hParts : Parts (operator.lexeme.toList ++ []) := by
    rcases step_eq_cons hWritten hStep with ⟨c, text, hText, hMem⟩
    rw [hText]
    simp only [List.mem_cons, List.not_mem_nil, or_false] at hMem
    rcases hMem with rfl | rfl <;>
      exact .cons rfl (by decide) _
  rcases symbol_of_isStep hStep with ⟨s, hKind, hClosed⟩
  have hPrints := h.prints.append (prints_closed hWritten hKind hClosed .nil) hParts
  refine .of_text hText (h.opens.append _) (hPrints.mono ?_)
  rintro ts ⟨us, vs, rfl, hExpr, operator', ws, rfl, hOperator,
    rfl⟩ n
  rcases hExpr n with ⟨expr', n', hExpr, hSame⟩
  rw [← hOperator.kind] at hStep
  exact ⟨.increment expr' operator' false, n', .stepAfter hExpr hStep (hSame.isAssignable hTarget),
    .increment false hSame hOperator⟩

theorem readable_stepBefore (hTarget : expr.isAssignable = true)
    (h : Phrase.unary.Printed expr) :
    Phrase.unary.Printed (.increment expr operator true) := by
  have hText : (Expr.increment expr operator true).source.toList =
        operator.lexeme.toList ++ expr.source.toList := by
    simp [Expr.source]
  have hOpens : Opens (operator.lexeme.toList ++ expr.source.toList) := by
    rcases step_eq_cons hWritten hStep with ⟨c, text, hText, hMem⟩
    rw [hText]
    simp only [List.mem_cons, List.not_mem_nil, or_false] at hMem
    rcases hMem with rfl | rfl <;> exact .cons (by decide) _
  rcases symbol_of_isStep hStep with ⟨s, hKind, hClosed⟩
  have hPrints := prints_closed hWritten hKind hClosed h.prints
  refine .of_text hText hOpens (hPrints.mono ?_)
  rintro ts ⟨operator', us, rfl, hOperator, hExpr⟩ n
  rcases hExpr n with ⟨expr', n', hExpr, hSame⟩
  rw [← hOperator.kind] at hStep
  exact ⟨.increment expr' operator' true, n', .stepBefore hStep hExpr (hSame.isAssignable hTarget),
    .increment true hSame hOperator⟩

end

section

variable {level : Level} {tighter : List Level} {others : List (Token × Expr)}

theorem trailing_noOperand :
    Trailing ([].flatMap operandText) ((Phrase.operands level tighter).Rereads []) := by
  refine ⟨.nil, Prints.nil.mono ?_⟩
  rintro ts rfl n
  exact ⟨[], n, .noOperand, .nil⟩

theorem trailing_operand {operator : Token} {right : Expr}
    (hLevel : level.IsPrintable) (hWritten : operator.Written)
    (hOperator : level.operators.contains operator.kind = true)
    (hRight : Readable right ((Phrase.binary tighter).Rereads right))
    (h : Trailing (others.flatMap operandText) ((Phrase.operands level tighter).Rereads others)) :
    Trailing (((operator, right) :: others).flatMap operandText)
      ((Phrase.operands level tighter).Rereads ((operator, right) :: others)) := by
  have hText : ((operator, right) :: others).flatMap operandText =
        ' ' :: (operator.lexeme.toList ++ ' ' :: (right.source.toList ++
            others.flatMap operandText)) := by
    simp [operandText]
  have hPlain := hLevel.operators _ (List.contains_iff_mem.mp hOperator)
  have hPrints :=
    (prints_operator hWritten hPlain (hRight.prints.append h.prints h.parts)).blank (c := ' ') rfl
  rw [hText]
  refine ⟨.blank _, hPrints.mono ?_⟩
  rintro ts ⟨operator', us, rfl, hSame, vs, ws, rfl, hExpr, hOthers⟩ n
  rcases hExpr n with ⟨right', n₁, hExpr, hSameRight⟩
  rcases hOthers n₁ with ⟨others', n₂, hOthers, hSames⟩
  rw [← hSame.kind] at hOperator
  exact ⟨(operator', right') :: others', n₂,
    .moreOperands hOperator hExpr hOthers, .cons ⟨hSame, hSameRight⟩ hSames⟩

theorem readable_chained {first : Expr} (hLevel : level.IsPrintable)
    (hFirst : Readable first ((Phrase.binary tighter).Rereads first))
    (h : Trailing (others.flatMap operandText) ((Phrase.operands level tighter).Rereads others)) :
    Readable (others.foldl level.join first)
      ((Phrase.binary (level :: tighter)).Rereads (others.foldl level.join first)) := by
  refine .of_text (source_foldl_join hLevel.plain others first)
    (hFirst.opens.append _) ((hFirst.prints.append h.prints h.parts).mono ?_)
  rintro ts ⟨us, vs, rfl, hExpr, hOthers⟩ n
  rcases hExpr n with ⟨first', n₁, hExpr, hSame⟩
  rcases hOthers n₁ with ⟨others', n₂, hOthers, hSames⟩
  exact ⟨others'.foldl level.join first', n₂, .chained hExpr hOthers,
    foldl_join_same hLevel.plain hSames hSame⟩

end

section

variable {name : Token} {object position target value : Expr}

theorem trailing_nothing : Trailing [] .done := ⟨.nil, .nil⟩

theorem readable_nameTarget (hName : name.IsName) (id : Nat) :
    Phrase.target.Printed (.name id name) := by
  refine (readable_alone hName id).mono ?_
  rintro ts ⟨name', us, rfl, hSame, rfl⟩ n
  exact ⟨.name n name', n + 1, .nameTarget (hSame.kind.trans hName.kind), .name hSame⟩

theorem readable_propertyTarget (hName : name.IsName) (h : Phrase.call.Printed object) :
    Phrase.target.Printed (.get object name) := by
  have hText : (Expr.get object name).source.toList = object.source.toList ++
          '.' :: (name.lexeme.toList ++ []) := by
    simp [Expr.source]
  have hRest := trailing_named hName trailing_nothing
  refine .of_text hText (h.opens.append _) ((h.prints.append hRest.prints hRest.parts).mono ?_)
  rintro ts ⟨us, vs, rfl, hObject, dot, ws, rfl, hDot, _, name', xs, rfl, hSame, rfl⟩ n
  rcases hObject n with ⟨object', n', hObject, hSameObject⟩
  exact ⟨.get object' name', n', .propertyTarget hObject hDot (hSame.kind.trans hName.kind),
    .get hSameObject hSame⟩

theorem readable_elementTarget (h : Phrase.call.Printed object)
    (hPosition : Phrase.expression.Printed position) (bracket : Token) :
    Phrase.target.Printed (.index object bracket position) := by
  have hText : (Expr.index object bracket position).source.toList = object.source.toList ++
          '[' :: (position.source.toList ++ ']' :: []) := by
    simp [Expr.source]
  have hRest := trailing_indexed hPosition trailing_nothing
  refine .of_text hText (h.opens.append _) ((h.prints.append hRest.prints hRest.parts).mono ?_)
  rintro ts ⟨us, vs, rfl, hObject, opening, ws, rfl, hOpening, _,
    xs, ys, rfl, hExpr, closing, zs, rfl, hClosing, _, rfl⟩ n
  rcases hObject n with ⟨object', n₁, hObject, hSameObject⟩
  rcases hExpr n₁ with ⟨position', n₂, hExpr, hSame⟩
  exact ⟨.index object' closing position', n₂, .elementTarget hObject hOpening hExpr hClosing,
    .index bracket closing hSameObject hSame⟩

variable (h : Phrase.expression.Printed value)
include h

/- An assigned value, behind its target. -/
theorem trailing_assigned :
    Trailing (' ' :: '=' :: ' ' :: value.source.toList)
      ((Phrase.expression.Rereads value).after (.symbol .equal)
        Symbol.equal.chars) := ⟨.blank _, (h.prints.symbol .equal).blank rfl⟩

theorem readable_assign (hName : name.IsName) (id : Nat) :
    Phrase.expression.Printed (.assign id name value) := by
  have hText : (Expr.assign id name value).source.toList = name.lexeme.toList ++
          ' ' :: '=' :: ' ' :: value.source.toList := by
    simp [Expr.source]
  have hRest := trailing_assigned h
  refine .of_text hText ((opens_name hName).append _)
    ((prints_name hName hRest.parts hRest.prints).mono ?_)
  rintro ts ⟨name', us, rfl, hSame, equals, vs, rfl, hEquals, _, hValue⟩ n
  rcases hValue (n + 1) with ⟨value', n', hValue, hSameValue⟩
  exact ⟨.assign n' name' value', n' + 1,
    .assign (hSame.kind.trans hName.kind) hEquals hValue, .assign hSame hSameValue⟩

theorem readable_setProperty (hName : name.IsName) (hObject : Phrase.call.Printed object) :
    Phrase.expression.Printed (.set object name value) := by
  have hText : (Expr.set object name value).source.toList =
        object.source.toList ++ '.' :: (name.lexeme.toList ++
            ' ' :: '=' :: ' ' :: value.source.toList) := by
    simp [Expr.source]
  have hRest := trailing_named hName (trailing_assigned h)
  refine .of_text hText (hObject.opens.append _)
    ((hObject.prints.append hRest.prints hRest.parts).mono ?_)
  rintro ts ⟨us, vs, rfl, hObject, dot, ws, rfl, hDot, _, name',
    xs, rfl, hSame, equals, ys, rfl, hEquals, _, hValue⟩ n
  rcases hObject n with ⟨object', n₁, hObject, hSameObject⟩
  rcases hValue n₁ with ⟨value', n₂, hValue, hSameValue⟩
  exact ⟨.set object' name' value', n₂,
    .setProperty hObject hDot (hSame.kind.trans hName.kind) hEquals hValue,
    .set hSameObject hSame hSameValue⟩

theorem readable_setElement (hObject : Phrase.call.Printed object)
    (hPosition : Phrase.expression.Printed position) (bracket : Token) :
    Phrase.expression.Printed (.indexSet object bracket position value) := by
  have hText : (Expr.indexSet object bracket position value).source.toList =
        object.source.toList ++ '[' :: (position.source.toList ++
            ']' :: ' ' :: '=' :: ' ' :: value.source.toList) := by
    simp [Expr.source]
  have hRest := trailing_indexed hPosition (trailing_assigned h)
  refine .of_text hText (hObject.opens.append _)
    ((hObject.prints.append hRest.prints hRest.parts).mono ?_)
  rintro ts ⟨us, vs, rfl, hObject, opening, ws, rfl, hOpening, _,
    xs, ys, rfl, hExpr, closing, zs, rfl, hClosing, _, equals, vs', rfl, hEquals, _, hValue⟩ n
  rcases hObject n with ⟨object', n₁, hObject, hSameObject⟩
  rcases hExpr n₁ with ⟨position', n₂, hExpr, hSame⟩
  rcases hValue n₂ with ⟨value', n₃, hValue, hSameValue⟩
  exact ⟨.indexSet object' closing position' value', n₃,
    .setElement hObject hOpening hExpr hClosing hEquals hValue,
    .indexSet bracket closing hSameObject hSame hSameValue⟩

theorem readable_compound {operator : Token} (hWritten : operator.Written)
    (hOperator : isCompound operator.kind = true) (hTarget : Phrase.target.Printed target) :
    Phrase.expression.Printed (.compound target operator value) := by
  have hText : (Expr.compound target operator value).source.toList =
        target.source.toList ++ ' ' :: (operator.lexeme.toList ++ ' ' :: value.source.toList) := by
    simp [Expr.source]
  have hRest :=
    (prints_operator hWritten (isOperator_of_isCompound hOperator) h.prints).blank (c := ' ') rfl
  refine .of_text hText (hTarget.opens.append _) ((hTarget.prints.append hRest (.blank _)).mono ?_)
  rintro ts ⟨us, vs, rfl, hTarget, operator', ws, rfl, hSame, hValue⟩ n
  rcases hTarget n with ⟨target', n₁, hTarget, hSameTarget⟩
  rcases hValue n₁ with ⟨value', n₂, hValue, hSameValue⟩
  rw [← hSame.kind] at hOperator
  exact ⟨.compound target' operator' value', n₂,
    .compound hTarget hOperator hValue, .compound hSameTarget hSame hSameValue⟩

end

section

variable {expr : Expr}

theorem Readable.operand (h : Readable expr (Phrase.call.Rereads expr)) :
    Phrase.operand.Printed expr := h.mono fun _ => rereads_widen .unstepped

theorem Readable.unary (h : Readable expr (Phrase.operand.Rereads expr)) :
    Phrase.unary.Printed expr := h.mono fun _ => rereads_widen .unsigned

theorem Readable.tightest (h : Readable expr (Phrase.unary.Rereads expr)) :
    Readable expr ((Phrase.binary []).Rereads expr) := h.mono fun _ => rereads_widen .tightest

theorem Readable.unassigned (h : Readable expr ((Phrase.binary levels).Rereads expr)) :
    Phrase.expression.Printed expr := h.mono fun _ => rereads_widen .unassigned

/- No operator at any level. -/
theorem Readable.binary (h : Readable expr (Phrase.unary.Rereads expr))
    {levels : List Level} (hLevels : ∀ level ∈ levels, level.IsPrintable) :
    Readable expr ((Phrase.binary levels).Rereads expr) := by
  induction levels with
  | nil => exact h.tightest
  | cons level tighter ih =>
    rw [List.forall_mem_cons] at hLevels
    exact readable_chained hLevels.1 (ih hLevels.2) trailing_noOperand

/- The condition of a loop without condition. -/
theorem readable_always : Phrase.expression.Printed .always := by
  have hPrimary : Phrase.primary.Printed .always := by
    refine readable_word (k := .trueWord) rfl rfl ?_
    rintro ⟨x, hNumber, _⟩
    cases hNumber
  have hCall : Phrase.call.Printed .always := readable_call hPrimary trailing_noTrailer
  exact (hCall.operand.unary.binary levels_printable).unassigned

end

end Grammar

end Scriptlet
