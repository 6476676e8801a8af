import Scriptlet.Grammar.Reparse
import Scriptlet.Proofs.Grammar.Exact
import Scriptlet.Proofs.Grammar.PrintExpression

/-
  Programs read from their own source text.

  Key declarations include:
    * `Grammar.PrintsAs`
    * `Grammar.prints_joined`
    * `Grammar.prints_forLoop`
    * `Grammar.Derives.printed`

  One lemma for each rule of the grammar, as for expressions.
  A loop of the form `for` is printed as the `while` loop it
  stands for.  Whatever is read, its text is read again as
  the same tree:
    * `Grammar.programText_rereads`
-/

namespace Scriptlet

namespace Grammar

open Token (Prints Language)
open Piece (Parts)

attribute [local simp] Expr.source Stmt.source
attribute [local simp] Function.source sourceMethods

theorem parts_blank {c : Char} (h : Piece.isBlank c = true) (text : List Char) :
    Parts (c :: text) := by
  simp only [Piece.isBlank, Bool.or_eq_true, decide_eq_true_eq] at h
  rcases h with ((rfl | rfl) | rfl) | rfl <;>
    exact .cons rfl (by decide) _

/- Statements with blanks between them. -/
theorem prints_joined {c : Char} {separator : String}
    (hSeparator : separator.toList = [c]) (hBlank : Piece.isBlank c = true) {body : List Stmt}
    (h : ∀ stmt ∈ body, Phrase.declaration.Printed stmt) :
    PrintsAs .declarations body (String.intercalate separator (body.map Stmt.source)) := by
  induction body with
  | nil =>
    refine Prints.nil.mono ?_
    rintro ts rfl n
    exact ⟨[], n, .noDeclaration, .nil⟩
  | cons first others ih =>
    rw [List.forall_mem_cons] at h
    have hOthers := ih h.2
    have hReads : ∀ ts,
          ((Phrase.declaration.Rereads first).andThen (Phrase.declarations.Rereads others)) ts →
          Phrase.declarations.Rereads (first :: others) ts := by
      rintro ts ⟨us, vs, rfl, hFirst, hOthers⟩ n
      rcases hFirst n with ⟨first', n₁, hFirst, hSame⟩
      rcases hOthers n₁ with ⟨others', n₂, hOthers, hSames⟩
      exact ⟨first' :: others', n₂, .moreDeclarations hFirst hOthers, .cons hSame hSames⟩
    cases others with
    | nil =>
      have hEnd : Prints [] (Phrase.declarations.Rereads []) := hOthers
      have hText : (String.intercalate separator ([first].map Stmt.source)).toList =
            first.source.toList ++ [] := by
        simp
      rw [PrintsAs, hText]
      exact (h.1.append hEnd .nil).mono hReads
    | cons second others =>
      have hText :
          (String.intercalate separator ((first :: second :: others).map Stmt.source)).toList =
            first.source.toList ++ c :: (String.intercalate separator
                ((second :: others).map Stmt.source)).toList := by
        simp [String.intercalate_cons_cons, hSeparator]
      rw [PrintsAs, hText]
      exact (h.1.append (hOthers.blank hBlank) (parts_blank hBlank _)).mono hReads

theorem sourceStmts_eq (body : List Stmt) : sourceStmts body = body.map Stmt.source := by
  induction body with
  | nil => rfl
  | cons first others ih => rw [sourceStmts, ih, List.map_cons]

theorem prints_block {body : List Stmt} (h : ∀ stmt ∈ body, Phrase.declaration.Printed stmt) :
    Phrase.block.Printed body := by
  have hJoined := @prints_joined ' ' " " rfl rfl body h
  have hClosing := (Prints.nil.closed .rightBrace rfl).blank (c := ' ') rfl
  have hBody := hJoined.append hClosing (.blank _)
  have hReads : ∀ ts,
        (((Phrase.declarations.Rereads body).andThen
          (Language.done.after (.symbol .rightBrace)
            Symbol.rightBrace.chars)).after (.symbol .leftBrace)
              Symbol.leftBrace.chars) ts → Phrase.block.Rereads body ts := by
    rintro ts ⟨opening, us, rfl, hOpening, _, vs, ws, rfl,
      hBody, closing, xs, rfl, hClosing, _, rfl⟩ n
    rcases hBody n with ⟨body', n', hBody, hSame⟩
    exact ⟨body', n', .block hOpening hBody hClosing, hSame⟩
  change PrintsAs .block body (braced (sourceStmts body))
  rw [sourceStmts_eq]
  cases body with
  | nil => exact (hBody.closed .leftBrace rfl).mono hReads
  | cons first others =>
    have hText : (braced ((first :: others).map Stmt.source)).toList =
          Symbol.leftBrace.chars ++ ' ' :: ((String.intercalate " "
              ((first :: others).map Stmt.source)).toList ++
                ' ' :: (Symbol.rightBrace.chars ++ [])) := by
      simp [braced, Symbol.chars]
    exact .of_text hText ((hBody.blank rfl).closed .leftBrace rfl) hReads

section

variable {name : Token} {names params : List Token} {body : List Stmt}

theorem prints_lastName (hName : name.IsName) : Phrase.names.Printed [name] := by
  have hText : (commaSeparated ([name].map Token.lexeme)).toList = name.lexeme.toList ++ [] := by
    simp [commaSeparated]
  refine ⟨List.cons_ne_nil _ _, .of_text hText (prints_name hName .nil .nil) ?_⟩
  rintro ts ⟨name', us, rfl, hSame, rfl⟩ n
  exact ⟨[name'], .lastName (hSame.kind.trans hName.kind), .cons hSame .nil⟩

theorem prints_moreNames (hName : name.IsName) (h : Phrase.names.Printed names) :
    Phrase.names.Printed (name :: names) := by
  have hText : (commaSeparated ((name :: names).map Token.lexeme)).toList = name.lexeme.toList ++
          (Symbol.comma.chars ++ ' ' :: (commaSeparated (names.map Token.lexeme)).toList) := by
    cases names with
    | nil => exact absurd rfl h.1
    | cons other others => exact commaSeparated_cons ..
  have hRest := (h.2.blank (c := ' ') rfl).closed .comma rfl
  have hPrints := prints_name hName (.cons rfl (by decide) _) hRest
  refine ⟨List.cons_ne_nil _ _, .of_text hText hPrints ?_⟩
  rintro ts ⟨name', us, rfl, hSame, comma, vs, rfl, hComma, _, hNames⟩ n
  rcases hNames n with ⟨names', hNames, hSames⟩
  exact ⟨name' :: names', .moreNames (hSame.kind.trans hName.kind) hComma hNames,
    .cons hSame hSames⟩

theorem prints_noParameter : Phrase.parameters.Printed [] := by
  refine Prints.nil.mono ?_
  rintro ts rfl n
  exact ⟨[], .noParameter, .nil⟩

theorem prints_parameters (hLimit : names.length ≤ listLimit)
    (h : Phrase.names.Printed names) :
    Phrase.parameters.Printed names := by
  refine h.2.mono ?_
  intro ts hNames n
  rcases hNames n with ⟨names', hNames, hSame⟩
  refine ⟨names', .someParameters hNames ?_, hSame⟩
  rw [← hSame.length_eq]
  exact hLimit

theorem prints_signature (hParams : Phrase.parameters.Printed params)
    (hBody : Phrase.block.Printed body) :
    Prints (signatureText params body) (signatureRereads params body) := by
  have hRest := (Prints.blank hBody (c := ' ') rfl).closed .rightParen rfl
  have hPrints := (hParams.append hRest (.cons rfl (by decide) _)).closed .leftParen rfl
  refine hPrints.mono ?_
  rintro ts ⟨opening, us, rfl, hOpening, _, vs, ws, rfl,
    hParams, closing, xs, rfl, hClosing, _, hBody⟩ name keyword n
  rcases hParams n with ⟨params', hParams, hSameParams⟩
  rcases hBody n with ⟨body', n', hBody, hSameBody⟩
  exact ⟨params', body', n', .signature hOpening hParams hClosing hBody, hSameParams, hSameBody⟩

theorem source_named (name keyword : Token) :
    (Function.mk (some name) keyword params body).source.toList =
      name.lexeme.toList ++ signatureText params body := by
  simp [parameterText, signatureText]

theorem source_unnamed (keyword : Token) :
    (Function.mk none keyword params body).source.toList =
      signatureText params body := by
  simp [parameterText, signatureText]

theorem prints_function (hName : name.IsName)
    (h : Prints (signatureText params body) (signatureRereads params body)) (keyword : Token) :
    Phrase.function.Printed (.mk (some name) keyword params body) := by
  refine .of_text (source_named name keyword) (prints_name hName (.cons rfl (by decide) _) h) ?_
  rintro ts ⟨name', us, rfl, hSame, hRest⟩ n
  rcases hRest (some name') name' n with ⟨params', body', n', hRest, hSameParams, hSameBody⟩
  exact ⟨.mk (some name') name' params' body', n', .function (hSame.kind.trans hName.kind) hRest,
    .named keyword name' hSame hSameParams hSameBody⟩

/- A word before a blank. -/
theorem prints_word {rest : List Char} {language : Language} (k : Keyword)
    (h : Prints rest language) :
    Prints (k.chars ++ ' ' :: rest) (language.after (.keyword k) k.chars) :=
  (h.blank rfl).keyword k (.blank rest)

theorem readable_function
    (h : Prints (signatureText params body) (signatureRereads params body))
    (keyword : Token) : Phrase.primary.Printed (.function (.mk none keyword params body)) := by
  have hText : (Expr.function (.mk none keyword params body)).source.toList =
        Keyword.fnWord.chars ++ ' ' :: signatureText params body := by
    rw [Expr.source, String.toList_append, source_unnamed]
    rfl
  refine .of_text hText (.cons (by decide) _) ((prints_word .fnWord h).mono ?_)
  rintro ts ⟨word, us, rfl, hWord, _, hRest⟩ n
  rcases hRest none word n with ⟨params', body', n', hRest, hSameParams, hSameBody⟩
  exact ⟨.function (.mk none word params' body'), n', .functionLiteral hWord hRest,
    .function (.unnamed keyword word hSameParams hSameBody)⟩

theorem trailing_noFunction : Phrase.functions.Printed [] := by
  refine ⟨.nil, Prints.nil.mono ?_⟩
  rintro ts rfl n
  exact ⟨[], n, .noFunction, .nil⟩

theorem trailing_function {first : Function} {others : List Function}
    (hFirst : Phrase.function.Printed first) (h : Phrase.functions.Printed others) :
    Phrase.functions.Printed (first :: others) := by
  have hText : (sourceMethods (first :: others)).toList =
        ' ' :: (first.source.toList ++ (sourceMethods others).toList) := by
    simp
  have hPrints := (hFirst.append h.prints h.parts).blank (c := ' ') rfl
  refine .of_text hText (.blank _) (hPrints.mono ?_)
  rintro ts ⟨us, vs, rfl, hFirst, hOthers⟩ n
  rcases hFirst n with ⟨first', n₁, hFirst, hSame⟩
  rcases hOthers n₁ with ⟨others', n₂, hOthers, hSames⟩
  exact ⟨first' :: others', n₂, .moreFunctions hFirst hOthers, .cons hSame hSames⟩

end

------------------------------------------------------------
-- Declarations and Statements
------------------------------------------------------------

section

variable {name parent : Token} {methods : List Function} {stmt : Stmt}

theorem prints_functionDecl {f : Function} (h : Phrase.function.Printed f) :
    Phrase.declaration.Printed (.functionDecl f) := by
  have hText : (Stmt.functionDecl f).source.toList =
        Keyword.fnWord.chars ++ ' ' :: f.source.toList := by
    rw [Stmt.source, String.toList_append]
    rfl
  refine .of_text hText (prints_word .fnWord h) ?_
  rintro ts ⟨word, us, rfl, hWord, _, hRest⟩ n
  rcases hRest n with ⟨f', n', hRest, hSame⟩
  exact ⟨.functionDecl f', n', .functionDecl hWord hRest, .functionDecl hSame⟩

/- Methods in braces, behind the head of a class. -/
theorem trailing_methods (h : Phrase.functions.Printed methods) : Trailing
      (' ' :: '\x7b' :: ((sourceMethods methods).toList ++ [' ', '\x7d']))
      (((Phrase.functions.Rereads methods).andThen
        (Language.done.after (.symbol .rightBrace) Symbol.rightBrace.chars)).after
        (.symbol .leftBrace) Symbol.leftBrace.chars) := by
  have hClosing := (Prints.nil.closed .rightBrace rfl).blank (c := ' ') rfl
  exact ⟨.blank _,
    ((h.prints.append hClosing (.blank _)).closed .leftBrace
      rfl).blank rfl⟩

theorem prints_rootClass (hName : name.IsName) (h : Phrase.functions.Printed methods) :
    Phrase.declaration.Printed (.classDecl name none methods) := by
  have hText : (Stmt.classDecl name none methods).source.toList =
        Keyword.classWord.chars ++ ' ' :: (name.lexeme.toList ++ ' ' :: '\x7b' ::
              ((sourceMethods methods).toList ++ [' ', '\x7d'])) := by
    simp [Keyword.chars]
  have hRest := trailing_methods h
  refine .of_text hText (prints_word .classWord (prints_name hName hRest.parts hRest.prints)) ?_
  rintro ts ⟨word, us, rfl, hWord, _, name', vs, rfl, hSame,
    opening, ws, rfl, hOpening, _, xs, ys, rfl, hMethods, closing, zs, rfl, hClosing, _, rfl⟩ n
  rcases hMethods n with ⟨methods', n', hMethods, hSames⟩
  exact ⟨.classDecl name' none methods', n',
    .rootClass hWord (hSame.kind.trans hName.kind) hOpening hMethods hClosing,
    .rootClass hSame hSames⟩

theorem prints_derivedClass (hName : name.IsName) (hParent : parent.IsName)
    (h : Phrase.functions.Printed methods) (id : Nat) :
    Phrase.declaration.Printed (.classDecl name (some (.name id parent)) methods) := by
  have hText : (Stmt.classDecl name (some (.name id parent)) methods).source.toList =
        Keyword.classWord.chars ++ ' ' :: (name.lexeme.toList ++
            ' ' :: (Symbol.less.chars ++ ' ' :: (parent.lexeme.toList ++ ' ' :: '\x7b' ::
                  ((sourceMethods methods).toList ++ [' ', '\x7d'])))) := by
    simp [Keyword.chars, Symbol.chars]
  have hRest := trailing_methods h
  have hBehind := ((prints_name hParent hRest.parts hRest.prints).symbol .less).blank (c := ' ') rfl
  refine .of_text hText (prints_word .classWord (prints_name hName (.blank _) hBehind)) ?_
  rintro ts ⟨word, us, rfl, hWord, _, name', vs, rfl, hSame,
    less, ws, rfl, hLess, _, parent', xs, rfl, hSame', opening,
    ys, rfl, hOpening, _, zs, vs', rfl, hMethods, closing, ws',
    rfl, hClosing, _, rfl⟩ n
  rcases hMethods (n + 1) with ⟨methods', n', hMethods, hSames⟩
  exact ⟨.classDecl name' (some (.name n parent')) methods', n',
    .derivedClass hWord (hSame.kind.trans hName.kind) hLess
      (hSame'.kind.trans hParent.kind) hOpening hMethods hClosing,
    .derivedClass hSame (.name hSame') hSames⟩

end

section

variable {name : Token} {value : Expr}

/- A semicolon at the end of a statement. -/
def stop : Language := Language.done.after (.symbol .semicolon) Symbol.semicolon.chars

theorem trailing_stop : Trailing [';'] stop :=
  ⟨.cons rfl (by decide) _, Prints.nil.closed .semicolon rfl⟩

theorem prints_stopped (h : Phrase.expression.Printed value) :
    Prints (value.source.toList ++ [';']) ((Phrase.expression.Rereads value).andThen stop) :=
  h.prints.append trailing_stop.prints trailing_stop.parts

theorem prints_letBare (hName : name.IsName) :
    Phrase.letDecl.Printed (.letDecl name none) := by
  have hText : (Stmt.letDecl name none).source.toList = Keyword.letWord.chars ++
          ' ' :: (name.lexeme.toList ++ [';']) := by
    simp [Keyword.chars]
  refine .of_text hText (prints_word .letWord
    (prints_name hName trailing_stop.parts trailing_stop.prints)) ?_
  rintro ts ⟨word, us, rfl, hWord, _, name', vs, rfl, hSame, semicolon, ws, rfl, hStop, _, rfl⟩ n
  exact ⟨.letDecl name' none, n, .letBare hWord (hSame.kind.trans hName.kind) hStop, .letBare hSame⟩

theorem prints_letValue (hName : name.IsName) (h : Phrase.expression.Printed value) :
    Phrase.letDecl.Printed (.letDecl name (some value)) := by
  have hText : (Stmt.letDecl name (some value)).source.toList =
        Keyword.letWord.chars ++ ' ' :: (name.lexeme.toList ++ ' ' :: (Symbol.equal.chars ++
              ' ' :: (value.source.toList ++ [';']))) := by
    simp [Keyword.chars, Symbol.chars]
  have hValue := ((prints_stopped h).symbol .equal).blank (c := ' ') rfl
  refine .of_text hText (prints_word .letWord (prints_name hName (.blank _) hValue)) ?_
  rintro ts ⟨word, us, rfl, hWord, _, name', vs, rfl, hSame,
    equals, ws, rfl, hEquals, _, xs, ys, rfl, hValue, semicolon, zs, rfl, hStop, _, rfl⟩ n
  rcases hValue n with ⟨value', n', hValue, hSameValue⟩
  have hBinding : isBinding equals.kind = true := by
    rw [hEquals]
    rfl
  exact ⟨.letDecl name' (some value'), n',
    .letValue hWord (hSame.kind.trans hName.kind) hBinding hValue hStop, .letValue hSame hSameValue⟩

theorem prints_exprStmt (h : Phrase.expression.Printed value) :
    Phrase.exprStmt.Printed (.expression value) := by
  have hText : (Stmt.expression value).source.toList = value.source.toList ++ [';'] := by simp
  refine .of_text hText (prints_stopped h) ?_
  rintro ts ⟨us, vs, rfl, hValue, semicolon, ws, rfl, hStop, _,
    rfl⟩ n
  rcases hValue n with ⟨value', n', hValue, hSame⟩
  exact ⟨.expression value', n', .exprStmt hValue hStop, .expression hSame⟩

theorem prints_print (h : Phrase.expression.Printed value) (keyword : Token) :
    PrintsStmt false (.print keyword value) := by
  have hText : (Stmt.print keyword value).source.toList =
        Keyword.printWord.chars ++ ' ' :: (value.source.toList ++ [';']) := by
    simp [Keyword.chars]
  refine .of_text hText (prints_word .printWord (prints_stopped h)) ?_
  rintro ts ⟨word, us, rfl, hWord, _, vs, ws, rfl, hValue, semicolon, xs, rfl, hStop, _, rfl⟩ n
  rcases hValue n with ⟨value', n', hValue, hSame⟩
  exact ⟨.print word value', n', .printStatement hWord hValue hStop, .print keyword word hSame⟩

/- A word that is a statement with its semicolon. -/
theorem prints_bare (k : Keyword) :
    Prints (k.chars ++ [';']) (stop.after (.keyword k) k.chars) :=
  trailing_stop.prints.keyword k trailing_stop.parts

theorem prints_break (keyword : Token) : PrintsStmt false (.breakLoop keyword) := by
  have hText : (Stmt.breakLoop keyword).source.toList = Keyword.breakWord.chars ++ [';'] := by
    simp [Keyword.chars]
  refine .of_text hText (prints_bare .breakWord) ?_
  rintro ts ⟨word, us, rfl, hWord, _, semicolon, vs, rfl, hStop, _, rfl⟩ n
  exact ⟨.breakLoop word, n, .breakStatement hWord hStop, .breakLoop keyword word⟩

theorem prints_returnBare (keyword : Token) :
    PrintsStmt false (.returnValue keyword none) := by
  have hText : (Stmt.returnValue keyword none).source.toList =
        Keyword.returnWord.chars ++ [';'] := by
    simp [Keyword.chars]
  refine .of_text hText (prints_bare .returnWord) ?_
  rintro ts ⟨word, us, rfl, hWord, _, semicolon, vs, rfl, hStop, _, rfl⟩ n
  exact ⟨.returnValue word none, n, .returnStatement hWord .absent hStop, .returnBare keyword word⟩

theorem prints_returnValue (h : Phrase.expression.Printed value) (keyword : Token) :
    PrintsStmt false (.returnValue keyword (some value)) := by
  have hText : (Stmt.returnValue keyword (some value)).source.toList =
        Keyword.returnWord.chars ++ ' ' :: (value.source.toList ++ [';']) := by
    simp [Keyword.chars]
  refine .of_text hText (prints_word .returnWord (prints_stopped h)) ?_
  rintro ts ⟨word, us, rfl, hWord, _, vs, ws, rfl, hValue, semicolon, xs, rfl, hStop, _, rfl⟩ n
  rcases hValue n with ⟨value', n', hValue, hSame⟩
  exact ⟨.returnValue word (some value'), n', .returnStatement hWord (.present hValue) hStop,
    .returnValue keyword word hSame⟩

theorem prints_blockStatement {body : List Stmt} (h : Phrase.block.Printed body) :
    PrintsStmt false (.block body) := by
  refine .of_text (by rw [Stmt.source]) h ?_
  intro ts hBody n
  rcases hBody n with ⟨body', n', hBody, hSame⟩
  exact ⟨.block body', n', .blockStatement hBody, .block hSame⟩

end

section

variable {condition : Expr} {stmt thenBranch elseBranch body : Stmt} {isOpen : Bool}

theorem PrintsAs.letVariable (h : PrintsAs .letDecl stmt stmt.source) :
    Phrase.declaration.Printed stmt := Prints.mono h fun _ => rereads_widen .letVariable

theorem PrintsAs.declaration (h : PrintsStmt isOpen stmt) :
    Phrase.declaration.Printed stmt := Prints.mono h fun _ => rereads_widen .plain

theorem PrintsAs.statement (h : PrintsAs .exprStmt stmt stmt.source) : PrintsStmt false stmt :=
  Prints.mono h fun _ => rereads_widen .expressionStatement

/- A word, a condition in parentheses and what follows. -/
theorem prints_headed {rest : List Char} {language : Language} (k : Keyword)
    (hCondition : Phrase.expression.Printed condition) (h : Prints rest language) :
    Prints (k.chars ++ ' ' :: '(' :: (condition.source.toList ++ ')' :: ' ' :: rest))
      ((((Phrase.expression.Rereads condition).andThen
        (language.after (.symbol .rightParen) Symbol.rightParen.chars)).after (.symbol .leftParen)
            Symbol.leftParen.chars).after (.keyword k) k.chars) := by
  have hRest := (h.blank (c := ' ') rfl).closed .rightParen rfl
  exact prints_word k
    ((hCondition.prints.append hRest (.cons rfl (by decide) _)).closed .leftParen rfl)

section

variable (hCondition : Phrase.expression.Printed condition)

include hCondition

theorem prints_ifOnly (h : PrintsStmt isOpen thenBranch) :
    PrintsStmt true (.conditional condition thenBranch none) := by
  have hText : (Stmt.conditional condition thenBranch none).source.toList =
        Keyword.ifWord.chars ++ ' ' :: '(' :: (condition.source.toList ++
            ')' :: ' ' :: thenBranch.source.toList) := by
    simp [Keyword.chars]
  refine .of_text hText (prints_headed .ifWord hCondition h) ?_
  rintro ts ⟨word, us, rfl, hWord, _, opening, vs, rfl, hOpening,
    _, ws, xs, rfl, hCondition, closing, ys, rfl, hClosing, _, hThen⟩ n
  rcases hCondition n with ⟨condition', n₁, hCondition, hSame⟩
  rcases hThen n₁ with ⟨thenBranch', n₂, hThen, hSameThen⟩
  exact ⟨.conditional condition' thenBranch' none, n₂,
    .ifStatement hWord hOpening hCondition hClosing hThen, .ifOnly hSame hSameThen⟩

theorem prints_ifElse (hThen : PrintsStmt false thenBranch)
    (hElse : PrintsStmt isOpen elseBranch) :
    PrintsStmt isOpen (.conditional condition thenBranch (some elseBranch)) := by
  have hText : (Stmt.conditional condition thenBranch (some elseBranch)).source.toList =
        Keyword.ifWord.chars ++ ' ' :: '(' :: (condition.source.toList ++
            ')' :: ' ' :: (thenBranch.source.toList ++ ' ' :: (Keyword.elseWord.chars ++
                ' ' :: elseBranch.source.toList))) := by
    simp [Keyword.chars]
  have hBranches :=
    Prints.append hThen ((prints_word .elseWord hElse).blank (c := ' ') rfl) (.blank _)
  refine .of_text hText (prints_headed .ifWord hCondition hBranches) ?_
  rintro ts ⟨word, us, rfl, hWord, _, opening, vs, rfl, hOpening,
    _, ws, xs, rfl, hCondition, closing, ys, rfl, hClosing, _,
    zs, us', rfl, hThen, other, vs', rfl, hOther, _, hElse⟩ n
  rcases hCondition n with ⟨condition', n₁, hCondition, hSame⟩
  rcases hThen n₁ with ⟨thenBranch', n₂, hThen, hSameThen⟩
  rcases hElse n₂ with ⟨elseBranch', n₃, hElse, hSameElse⟩
  exact ⟨.conditional condition' thenBranch' (some elseBranch'), n₃,
    .ifElse hWord hOpening hCondition hClosing hThen hOther hElse,
    .ifElse hSame hSameThen hSameElse⟩

theorem prints_while (h : PrintsStmt isOpen body) :
    PrintsStmt isOpen (.whileLoop condition body) := by
  have hText : (Stmt.whileLoop condition body).source.toList =
        Keyword.whileWord.chars ++ ' ' :: '(' :: (condition.source.toList ++
            ')' :: ' ' :: body.source.toList) := by
    simp [Keyword.chars]
  refine .of_text hText (prints_headed .whileWord hCondition h) ?_
  rintro ts ⟨word, us, rfl, hWord, _, opening, vs, rfl, hOpening,
    _, ws, xs, rfl, hCondition, closing, ys, rfl, hClosing, _, hBody⟩ n
  rcases hCondition n with ⟨condition', n₁, hCondition, hSame⟩
  rcases hBody n₁ with ⟨body', n₂, hBody, hSameBody⟩
  exact ⟨.whileLoop condition' body', n₂, .whileStatement hWord hOpening hCondition hClosing hBody,
    .whileLoop hSame hSameBody⟩

end

theorem PrintsAs.closed (h : PrintsStmt false stmt) (isOpen : Bool) :
    PrintsStatement isOpen stmt :=
  ⟨false, fun _ => rfl, h⟩

theorem prints_loop (hCondition : Phrase.expression.Printed condition)
    (h : PrintsStatement isOpen body) : PrintsStatement isOpen (.whileLoop condition body) := by
  rcases h with ⟨isOpen', hOpen, hBody⟩
  exact ⟨isOpen', hOpen, prints_while hCondition hBody⟩

theorem prints_pair {first second : Stmt} (hFirst : Phrase.declaration.Printed first)
    (hSecond : Phrase.declaration.Printed second) (isOpen : Bool) :
    PrintsStatement isOpen (.block [first, second]) := by
  have hBody : ∀ stmt ∈ [first, second], Phrase.declaration.Printed stmt := by
    simp only [List.forall_mem_cons]
    exact ⟨hFirst, hSecond, List.forall_mem_nil _⟩
  exact (prints_blockStatement (prints_block hBody)).closed isOpen

/- A loop with clauses, as blocks around a `while` loop. -/
theorem prints_forLoop {first : Option Stmt} {condition last : Option Expr}
    (hFirst : ∀ stmt ∈ first, Phrase.declaration.Printed stmt)
    (hCondition : ∀ expr ∈ condition, Phrase.expression.Printed expr)
    (hLast : ∀ expr ∈ last, Phrase.expression.Printed expr) (h : PrintsStatement isOpen body) :
    PrintsStatement isOpen (forLoop first condition last body) := by
  have hAlways : Phrase.expression.Printed (condition.getD .always) := by
    cases condition with
    | none => exact readable_always
    | some expr => exact hCondition expr rfl
  have hLoop : PrintsStatement isOpen (forLoop none condition last body) := by
    cases last with
    | none => exact prints_loop hAlways h
    | some expr =>
      rcases h with ⟨_, _, hBody⟩
      have hStep := (prints_exprStmt (hLast expr rfl)).statement
      exact prints_loop hAlways (prints_pair hBody.declaration hStep.declaration isOpen)
  cases first with
  | none => exact hLoop
  | some stmt =>
    rcases hLoop with ⟨_, _, hLoop⟩
    exact prints_pair (hFirst stmt rfl) hLoop.declaration isOpen

end

end Grammar

namespace Grammar

open Token (Prints)

/- Trees that are read from written tokens are read again. -/
theorem Derives.printed {gaps : Prop} {phrase : Phrase} {n n' : Nat}
    {ts : List Token} {tree : phrase.Tree} (h : Derives gaps phrase n ts tree n')
    (hWritten : ∀ token ∈ ts, token.Written) : phrase.Printed tree := by
  induction h with
      try simp only [List.forall_mem_cons, List.forall_mem_append] at hWritten
  | noDeclaration => exact List.forall_mem_nil _
  | moreDeclarations _ _ ihFirst ihOthers =>
    rcases hWritten with ⟨hFirst, hOthers⟩
    exact List.forall_mem_cons.mpr ⟨ihFirst hFirst, ihOthers hOthers⟩
  | leftOut _ _ _ _ ih => exact ih hWritten.2
  | rootClass _ hName _ _ _ ih =>
    rcases hWritten with ⟨_, hWord, _, hMembers, _⟩
    exact prints_rootClass ⟨hWord, hName⟩ (ih hMembers)
  | derivedClass _ hName _ hParent _ _ _ ih =>
    rcases hWritten with ⟨_, hWord, _, hOther, _, hMembers, _⟩
    exact prints_derivedClass ⟨hWord, hName⟩ ⟨hOther, hParent⟩ (ih hMembers) _
  | functionDecl _ _ ih => exact prints_functionDecl (ih hWritten.2)
  | letVariable _ ih => exact (ih hWritten).letVariable
  | plain _ ih =>
    rcases ih hWritten with ⟨_, _, hStmt⟩
    exact hStmt.declaration
  | noFunction => exact trailing_noFunction
  | moreFunctions _ _ ihFirst ihOthers =>
    rcases hWritten with ⟨hFirst, hOthers⟩
    exact trailing_function (ihFirst hFirst) (ihOthers hOthers)
  | function hName _ ih =>
    rcases hWritten with ⟨hWord, hRest⟩
    rcases ih hRest with ⟨hFunction, hSignature⟩
    rw [hFunction]
    exact prints_function ⟨hWord, hName⟩ hSignature _
  | signature _ _ _ _ ihParams ihBody =>
    rcases hWritten with ⟨_, hParams, _, hBody⟩
    exact ⟨rfl, prints_signature (ihParams hParams) (ihBody hBody)⟩
  | noParameter => exact prints_noParameter
  | someParameters _ hLimit ih => exact prints_parameters hLimit (ih hWritten)
  | lastName hName => exact prints_lastName ⟨hWritten.1, hName⟩
  | moreNames hName _ _ ih =>
    rcases hWritten with ⟨hWord, _, hRest⟩
    exact prints_moreNames ⟨hWord, hName⟩ (ih hRest)
  | block _ _ _ ih =>
    rcases hWritten with ⟨_, hBody, _⟩
    exact prints_block (ih hBody)
  | letBare _ hName _ =>
    rcases hWritten with ⟨_, hWord, _⟩
    exact prints_letBare ⟨hWord, hName⟩
  | letValue _ hName _ _ _ ih =>
    rcases hWritten with ⟨_, hWord, _, hValue, _⟩
    exact prints_letValue ⟨hWord, hName⟩ (ih hValue)
  | exprStmt _ _ ih => exact prints_exprStmt (ih hWritten.1)
  | noClause => rintro _ ⟨⟩
  | letClause _ ih =>
    intro stmt hMem
    cases Option.mem_some_iff.mp hMem
    exact (ih hWritten).letVariable
  | exprClause _ ih =>
    intro stmt hMem
    cases Option.mem_some_iff.mp hMem
    exact (ih hWritten).statement.declaration
  | absent => rintro _ ⟨⟩
  | present _ ih =>
    intro expr hMem
    cases Option.mem_some_iff.mp hMem
    exact ih hWritten
  | expressionStatement _ ih => exact (ih hWritten).statement.closed false
  | printStatement _ _ _ ih =>
    rcases hWritten with ⟨_, hValue, _⟩
    exact (prints_print (ih hValue) _).closed false
  | ifStatement _ _ _ _ _ ihCondition ihThen =>
    rcases hWritten with ⟨_, _, hCondition, _, hThen⟩
    rcases ihThen hThen with ⟨_, _, hThen⟩
    exact ⟨true, id, prints_ifOnly (ihCondition hCondition) hThen⟩
  | ifElse _ _ _ _ _ _ _ ihCondition ihThen ihElse =>
    rcases hWritten with ⟨_, _, hCondition, _, hThen, _, hElse⟩
    rcases ihThen hThen with ⟨isOpen, hOpen, hThen⟩
    rcases ihElse hElse with ⟨isOpen', hOpen', hElse⟩
    cases hOpen rfl
    exact ⟨isOpen', hOpen', prints_ifElse (ihCondition hCondition) hThen hElse⟩
  | whileStatement _ _ _ _ _ ihCondition ihBody =>
    rcases hWritten with ⟨_, _, hCondition, _, hBody⟩
    exact prints_loop (ihCondition hCondition) (ihBody hBody)
  | loopStatement _ _ ih => exact prints_loop readable_always (ih hWritten.2)
  | forStatement _ _ _ _ _ _ _ _ ihFirst ihCondition ihLast ihBody =>
    rcases hWritten with ⟨_, _, hFirst, hCondition, _, hLast, _, hBody⟩
    exact prints_forLoop (ihFirst hFirst) (ihCondition hCondition) (ihLast hLast) (ihBody hBody)
  | breakStatement => exact (prints_break _).closed false
  | @returnStatement _ _ _ _ value _ _ _ _ ih =>
    cases value with
    | none => exact (prints_returnBare _).closed false
    | some expr =>
      have hValue := ih hWritten.2.1 expr rfl
      exact (prints_returnValue hValue _).closed false
  | blockStatement _ ih => exact (prints_blockStatement (ih hWritten)).closed false
  | assign hName _ _ ih =>
    rcases hWritten with ⟨hWord, _, hValue⟩
    exact readable_assign (ih hValue) ⟨hWord, hName⟩ _
  | setProperty _ _ hName _ _ ihObject ihValue =>
    rcases hWritten with ⟨hObject, _, hWord, _, hValue⟩
    exact readable_setProperty (ihValue hValue) ⟨hWord, hName⟩ (ihObject hObject)
  | setElement _ _ _ _ _ _ ihObject ihPosition ihValue =>
    rcases hWritten with ⟨hObject, _, hPosition, _, _, hValue⟩
    exact readable_setElement (ihValue hValue) (ihObject hObject) (ihPosition hPosition) _
  | compound _ hOperator _ ihTarget ihValue =>
    rcases hWritten with ⟨hTarget, hWord, hValue⟩
    exact readable_compound (ihValue hValue) hWord hOperator (ihTarget hTarget)
  | unassigned _ ih => exact (ih hWritten levels_printable).unassigned
  | nameTarget hName => exact readable_nameTarget ⟨hWritten.1, hName⟩ _
  | propertyTarget _ _ hName ih =>
    rcases hWritten with ⟨hObject, _, hWord, _⟩
    exact readable_propertyTarget ⟨hWord, hName⟩ (ih hObject)
  | elementTarget _ _ _ _ ihObject ihPosition =>
    rcases hWritten with ⟨hObject, _, hPosition, _⟩
    exact readable_elementTarget (ihObject hObject) (ihPosition hPosition) _
  | tightest _ ih => exact fun _ => (ih hWritten).tightest
  | chained _ _ ihFirst ihOthers =>
    rcases hWritten with ⟨hFirst, hOthers⟩
    intro hLevels
    rcases List.forall_mem_cons.mp hLevels with ⟨hLevel, hTighter⟩
    exact readable_chained hLevel (ihFirst hFirst hTighter) (ihOthers hOthers hLevel hTighter)
  | noOperand => exact fun _ _ => trailing_noOperand
  | moreOperands hOperator _ _ ihRight ihOthers =>
    rcases hWritten with ⟨hWord, hRight, hOthers⟩
    intro hLevel hTighter
    exact trailing_operand hLevel hWord hOperator (ihRight hRight hTighter)
      (ihOthers hOthers hLevel hTighter)
  | sign hOperator _ ih =>
    rcases hWritten with ⟨hWord, hExpr⟩
    exact readable_sign hWord hOperator (ih hExpr)
  | stepBefore hStep _ hTarget ih =>
    rcases hWritten with ⟨hWord, hExpr⟩
    exact readable_stepBefore hWord hStep hTarget (ih hExpr)
  | unsigned _ ih => exact (ih hWritten).unary
  | stepAfter _ hStep hTarget ih =>
    rcases hWritten with ⟨hExpr, hWord, _⟩
    exact readable_stepAfter hWord hStep hTarget (ih hExpr)
  | unstepped _ ih => exact (ih hWritten).operand
  | call _ _ ihFirst ihOthers =>
    rcases hWritten with ⟨hFirst, hOthers⟩
    exact readable_call (ihFirst hFirst) (ihOthers hOthers)
  | noTrailer => exact trailing_noTrailer
  | callTrailer _ _ _ _ ihArguments ihOthers =>
    rcases hWritten with ⟨_, hArguments, _, hOthers⟩
    exact trailing_call (ihArguments hArguments) (ihOthers hOthers) _
  | propertyTrailer _ hName _ ih =>
    rcases hWritten with ⟨_, hWord, hOthers⟩
    exact trailing_property ⟨hWord, hName⟩ (ih hOthers)
  | elementTrailer _ _ _ _ ihPosition ihOthers =>
    rcases hWritten with ⟨_, hPosition, _, hOthers⟩
    exact trailing_element (ihPosition hPosition) (ihOthers hOthers) _
  | literal hValue => exact readable_literal hWritten.1 hValue
  | self _ => exact readable_self _ _
  | superMethod _ _ hName =>
    rcases hWritten with ⟨_, _, hWord, _⟩
    exact readable_superMethod ⟨hWord, hName⟩ _ _
  | name hName => exact readable_name ⟨hWritten.1, hName⟩ _
  | group _ _ _ ih =>
    rcases hWritten with ⟨_, hInner, _⟩
    exact readable_group (ih hInner)
  | array _ _ _ ih =>
    rcases hWritten with ⟨_, hElements, _⟩
    exact readable_array (ih hElements) _
  | functionLiteral _ _ ih =>
    rcases ih hWritten.2 with ⟨hFunction, hSignature⟩
    rw [hFunction]
    exact readable_function hSignature _
  | noArgument => exact prints_noArgument
  | someArguments _ hLimit ih => exact prints_arguments hLimit (ih hWritten)
  | lastItem _ ih => exact prints_lastItem (ih hWritten)
  | moreItems _ _ _ ihItem ihItems =>
    rcases hWritten with ⟨hItem, _, hItems⟩
    exact prints_moreItems (ihItem hItem) (ihItems hItems)

/- What is read from a text has parts that are read again. -/
theorem printed_scan (source file : String) (n : Nat) :
    Phrase.declarations.Printed (parseProgram (Token.tokens (Token.scan source file)) n).value := by
  rw [Token.tokens_scan]
  exact Derives.printed (parseProgram_derives rfl (Token.kind_body source file) n)
    (Token.written_body source file)

theorem Derives.scan_eq {source file : String} {n n' : Nat} {body : List Stmt}
    (h : Derives False .declarations n (Token.body source file) body n') :
    parseProgram (Token.tokens (Token.scan source file)) n = ⟨body, n', []⟩ := by
  rw [Token.tokens_scan]
  exact h.parseProgram_eq rfl (Token.kind_body source file)

/-
  Read any text, with or without faults.  The source text of
  the statements that were kept, one on a line, has no fault,
  and the same statements are read from it.
-/
theorem programText_rereads
    (source file file' : String)
    (n m : Nat) :
    let body :=
      (parseProgram
        (Token.tokens (Token.scan source file)) n).value
    let items := Token.scan (programText body) file'
    let again := parseProgram (Token.tokens items) m
    Token.faults items = [] ∧ again.faults = [] ∧
      List.Forall₂ Stmt.Same body again.value := by
  intro body items again
  have hText : PrintsAs .declarations body (programText body) :=
    @prints_joined '\n' "\n" rfl rfl body
      (printed_scan source file n)
  rcases Prints.scan hText file' with ⟨hFaults, hReads⟩
  rcases hReads m with ⟨body', m', hDerives, hSame⟩
  have hAgain : again = ⟨body', m', []⟩ := hDerives.scan_eq
  rw [hAgain]
  exact ⟨hFaults, rfl, hSame⟩

end Grammar

end Scriptlet
