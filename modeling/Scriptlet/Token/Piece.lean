import Scriptlet.Numeral
import Scriptlet.Text.Quoted
import Scriptlet.Token.Basic

/-
  Source text cut into pieces.

  Key declarations include:
    * `Piece`
    * `Piece.Reading`
    * `Piece.cut`
    * `Piece.pieces`

  Every source text is a sequence of nonempty pieces: blanks,
  comments, tokens and faults.  Cutting looks only at the
  characters still to come, so it knows no position.

  The cut is exact by:
    * `Piece.cut_append`
    * `Piece.cut_rest_length`
-/

namespace Scriptlet

/- What is wrong with a piece of text. -/
inductive Piece.Cause where
  | unexpected (c : Char)
  | unterminatedString
  | unterminatedComment
  | unknownEscape (c : Char)
  deriving DecidableEq, Repr

/- What a piece of text turns out to be. -/
inductive Piece.Reading where
  | blank
  | comment
  | token (kind : Token.Kind)
  | fault (cause : Piece.Cause)
  deriving DecidableEq, Repr

/- A piece of text with its reading. -/
structure Piece where
  reading : Piece.Reading
  text : List Char
  deriving DecidableEq, Repr

namespace Piece

namespace Cause

def message : Cause → String
  | .unexpected c =>
      "Unexpected character '" ++ c.toString ++ "'."
  | .unterminatedString => "Unterminated string."
  | .unterminatedComment => "Unterminated block comment."
  | .unknownEscape c =>
      "Invalid escape sequence '\\" ++ c.toString ++ "'."

end Cause

def isBlank (c : Char) : Bool := c = ' ' || c = '\r' || c = '\t' || c = '\n'

/- Identifiers start with an ASCII letter or underscore. -/
def isWordStart (c : Char) : Bool := c.isAlpha || c = '_'

def isWordPart (c : Char) : Bool := c.isAlphanum || c = '_'

/-
  One piece cut off: its reading, the characters after its
  first one, and the characters after the piece.
-/
structure Cut where
  reading : Reading
  tail : List Char
  rest : List Char
  deriving DecidableEq, Repr

/- A comment up to the end of the line. -/
def lineComment (cs : List Char) : Cut where
  reading := .comment
  tail := cs.takeWhile (· ≠ '\n')
  rest := cs.dropWhile (· ≠ '\n')

/- Split after the first `*/`. -/
def closeComment :
    List Char → Option (List Char × List Char)
  | [] => none
  | '*' :: '/' :: rest => some (['*', '/'], rest)
  | c :: rest =>
      (closeComment rest).map fun (inside, after) =>
        (c :: inside, after)

/- A comment from `/*` on; `cs` follows the star. -/
def blockComment (cs : List Char) : Cut :=
  match closeComment cs with
  | some (inside, after) => ⟨.comment, '*' :: inside, after⟩
  | none => ⟨.fault .unterminatedComment, '*' :: cs, []⟩

/- A string literal; `cs` follows the opening quote. -/
def stringLiteral (cs : List Char) : Cut :=
  match Quoted.split cs with
  | none => ⟨.fault .unterminatedString, cs, []⟩
  | some (atoms, after) =>
      let tail := Quoted.spell atoms ++ ['"']
      match atoms.findSome? Quoted.Atom.unknown? with
      | some c => ⟨.fault (.unknownEscape c), tail, after⟩
      | none =>
          let text := atoms.filterMap Quoted.Atom.value?
          ⟨.token (.string (String.ofList text)), tail, after⟩

/-
  Digits, then a point if digits follow it, and those.
-/
def numberLiteral (c : Char) (cs : List Char) : Cut :=
  let whole := cs.takeWhile Char.isDigit
  let after := cs.dropWhile Char.isDigit
  match after with
  | '.' :: d :: rest =>
      if d.isDigit then
        let fraction := d :: rest.takeWhile Char.isDigit
        ⟨.token (.number (Numeral.ofDecimal (c :: whole) fraction)), whole ++ '.' :: fraction,
          rest.dropWhile Char.isDigit⟩
      else
        ⟨.token (.number (Numeral.ofDecimal (c :: whole) [])), whole, after⟩
  | _ =>
      ⟨.token (.number (Numeral.ofDecimal (c :: whole) [])), whole, after⟩

/- The kind of a whole word. -/
def wordKind (word : List Char) : Token.Kind :=
  match Keyword.ofChars? word with
  | some keyword => .keyword keyword
  | none => .identifier

/- A keyword or identifier, as long as possible. -/
def word (c : Char) (cs : List Char) : Cut :=
  let tail := cs.takeWhile isWordPart
  ⟨.token (wordKind (c :: tail)), tail, cs.dropWhile isWordPart⟩

/- A symbol of one character, or a character out of place. -/
def singleSymbol (c : Char) (cs : List Char) : Cut :=
  match Symbol.single? c with
  | some symbol => ⟨.token (.symbol symbol), [], cs⟩
  | none => ⟨.fault (.unexpected c), [], cs⟩

/- A symbol, of two characters if these spell one. -/
def symbol (c : Char) (cs : List Char) : Cut :=
  match cs with
  | [] => singleSymbol c []
  | d :: rest =>
      match Symbol.pair? c d with
      | some symbol => ⟨.token (.symbol symbol), [d], rest⟩
      | none => singleSymbol c (d :: rest)

/- Comments and the symbols that start with a slash. -/
def slash (cs : List Char) : Cut :=
  match cs with
  | '/' :: rest =>
      let c := lineComment rest
      ⟨c.reading, '/' :: c.tail, c.rest⟩
  | '*' :: rest => blockComment rest
  | _ => symbol '/' cs

/- Cut one piece off a text that starts with `c`. -/
def cut (c : Char) (cs : List Char) : Cut :=
  if isBlank c then ⟨.blank, [], cs⟩
  else if c = '/' then slash cs
  else if c = '"' then stringLiteral cs
  else if c.isDigit then numberLiteral c cs
  else if isWordStart c then word c cs
  else symbol c cs

theorem closeComment_eq_some {cs inside after : List Char}
    (h : closeComment cs = some (inside, after)) : inside ++ after = cs := by
  fun_induction closeComment cs generalizing inside after with
  | case1 => simp at h
  | case2 rest =>
      simp only [Option.some.injEq, Prod.mk.injEq] at h
      simp [← h.1, ← h.2]
  | case3 c rest _ ih =>
      obtain ⟨⟨inside', after'⟩, hTail, hEq⟩ := Option.map_eq_some_iff.1 h
      simp only [Prod.mk.injEq] at hEq
      simp [← hEq.1, ← hEq.2, ih hTail]

theorem blockComment_append (cs : List Char) :
    (blockComment cs).tail ++ (blockComment cs).rest = '*' :: cs := by
  unfold blockComment
  split
  · rename_i inside after h
    simp [closeComment_eq_some h]
  · simp

theorem stringLiteral_append (cs : List Char) :
    (stringLiteral cs).tail ++ (stringLiteral cs).rest =
      cs := by
  unfold stringLiteral
  split
  · simp
  · rename_i atoms after h
    have hText := Quoted.split_eq_some h
    dsimp only
    split <;> simp [hText]

theorem numberLiteral_append (c : Char) (cs : List Char) :
    (numberLiteral c cs).tail ++ (numberLiteral c cs).rest =
      cs := by
  have hSplit : cs.takeWhile Char.isDigit ++ cs.dropWhile Char.isDigit = cs :=
    List.takeWhile_append_dropWhile
  unfold numberLiteral
  dsimp only
  split
  · rename_i d rest hAfter
    split
    · simp only [List.append_assoc, List.cons_append, List.takeWhile_append_dropWhile]
      rw [← hAfter]
      exact hSplit
    · exact hSplit
  · exact hSplit

theorem symbol_append (c : Char) (cs : List Char) :
    (symbol c cs).tail ++ (symbol c cs).rest = cs := by
  unfold symbol singleSymbol
  split
  · split <;> rfl
  · split
    · rfl
    · split <;> rfl

theorem slash_append (cs : List Char) : (slash cs).tail ++ (slash cs).rest = cs := by
  unfold slash
  split
  · simp [lineComment]
  · exact blockComment_append _
  · exact symbol_append _ _

/- A cut loses and invents nothing. -/
theorem cut_append (c : Char) (cs : List Char) : (cut c cs).tail ++ (cut c cs).rest = cs := by
  unfold cut
  split
  · rfl
  · split
    · exact slash_append cs
    · split
      · exact stringLiteral_append cs
      · split
        · exact numberLiteral_append c cs
        · split
          · simp [word]
          · exact symbol_append c cs

theorem cut_rest_length (c : Char) (cs : List Char) : (cut c cs).rest.length ≤ cs.length := by
  have h := congrArg List.length (cut_append c cs)
  simp only [List.length_append] at h
  omega

/- All pieces of a text, in order. -/
def pieces : List Char → List Piece
  | [] => []
  | c :: cs =>
      let first := cut c cs
      ⟨first.reading, c :: first.tail⟩ :: pieces first.rest
termination_by text => text.length
decreasing_by
  have := cut_rest_length c cs
  simp only [List.length_cons]
  omega

end Piece

end Scriptlet
