import Scriptlet.Token.Piece

/-
  Tokens and lexical faults of a source text, in order.

  Key declarations include:
    * `Token.Fault`
    * `Token.scan`
    * `Token.tokens`
    * `Token.faults`

  A token stands on the line where it starts, a fault on the
  line where its piece ends.
-/

namespace Scriptlet

namespace Token

/- A lexical fault in a file. -/
structure Fault where
  cause : Piece.Cause
  line : Nat
  file : String
  deriving DecidableEq, Repr

/- The number of line ends in a text. -/
def newlines (text : List Char) : Nat := text.count '\n'

/- The token that ends every scan. -/
def endOfFile (line : Nat) (file : String) : Token where
  kind := .endOfFile
  lexeme := ""
  line := line
  file := file

/-
  Number the pieces from `line` on and keep the tokens and
  the faults.
-/
def items (file : String) :
    Nat → List Piece → List (Except Fault Token)
  | line, [] => [.ok (endOfFile line file)]
  | line, piece :: others =>
      let next := line + newlines piece.text
      match piece.reading with
      | .blank => items file next others
      | .comment => items file next others
      | .token kind =>
          let lexeme := String.ofList piece.text
          .ok ⟨kind, lexeme, line, file⟩ :: items file next others
      | .fault cause =>
          .error ⟨cause, next, file⟩ :: items file next others

/- The items of a source text. -/
def scan (source : String) (file : String) : List (Except Fault Token) :=
  items file 1 (Piece.pieces source.toList)

/- The tokens among scanned items. -/
def tokens (scanned : List (Except Fault Token)) : List Token :=
  scanned.filterMap fun
    | .ok token => some token
    | .error _ => none

/- The faults among scanned items. -/
def faults (scanned : List (Except Fault Token)) : List Fault :=
  scanned.filterMap fun
    | .ok _ => none
    | .error fault => some fault

end Token

end Scriptlet
