/-
  Tokens of the scripting language.

  Key declarations include:
    * `Symbol`
    * `Keyword`
    * `Token.Kind`
    * `Token`
-/

namespace Scriptlet

/- Punctuators and operators. -/
inductive Symbol where
  | leftParen
  | rightParen
  | leftBrace
  | rightBrace
  | leftSquare
  | rightSquare
  | comma
  | dot
  | minus
  | plus
  | semicolon
  | slash
  | star
  | bang
  | bangEqual
  | equal
  | equalEqual
  | greater
  | greaterEqual
  | less
  | lessEqual
  | arrow
  | plusEqual
  | minusEqual
  | starEqual
  | slashEqual
  | plusPlus
  | minusMinus
  deriving DecidableEq, Repr

namespace Symbol

/- The one or two characters that spell a symbol. -/
def chars : Symbol → List Char
  | .leftParen => ['(']
  | .rightParen => [')']
  | .leftBrace => ['\x7b']
  | .rightBrace => ['\x7d']
  | .leftSquare => ['[']
  | .rightSquare => [']']
  | .comma => [',']
  | .dot => ['.']
  | .minus => ['-']
  | .plus => ['+']
  | .semicolon => [';']
  | .slash => ['/']
  | .star => ['*']
  | .bang => ['!']
  | .bangEqual => ['!', '=']
  | .equal => ['=']
  | .equalEqual => ['=', '=']
  | .greater => ['>']
  | .greaterEqual => ['>', '=']
  | .less => ['<']
  | .lessEqual => ['<', '=']
  | .arrow => ['-', '>']
  | .plusEqual => ['+', '=']
  | .minusEqual => ['-', '=']
  | .starEqual => ['*', '=']
  | .slashEqual => ['/', '=']
  | .plusPlus => ['+', '+']
  | .minusMinus => ['-', '-']

/- The symbol spelled by two characters. -/
def pair? : Char → Char → Option Symbol
  | '!', '=' => some .bangEqual
  | '=', '=' => some .equalEqual
  | '>', '=' => some .greaterEqual
  | '<', '=' => some .lessEqual
  | '-', '>' => some .arrow
  | '+', '=' => some .plusEqual
  | '-', '=' => some .minusEqual
  | '*', '=' => some .starEqual
  | '/', '=' => some .slashEqual
  | '+', '+' => some .plusPlus
  | '-', '-' => some .minusMinus
  | _, _ => none

/- The symbol spelled by one character. -/
def single? : Char → Option Symbol
  | '(' => some .leftParen
  | ')' => some .rightParen
  | '\x7b' => some .leftBrace
  | '\x7d' => some .rightBrace
  | '[' => some .leftSquare
  | ']' => some .rightSquare
  | ',' => some .comma
  | '.' => some .dot
  | '-' => some .minus
  | '+' => some .plus
  | ';' => some .semicolon
  | '/' => some .slash
  | '*' => some .star
  | '!' => some .bang
  | '=' => some .equal
  | '>' => some .greater
  | '<' => some .less
  | _ => none

/- The name a listing shows. -/
def name : Symbol → String
  | .leftParen => "LEFT_PAREN"
  | .rightParen => "RIGHT_PAREN"
  | .leftBrace => "LEFT_BRACE"
  | .rightBrace => "RIGHT_BRACE"
  | .leftSquare => "LEFT_SQUARE"
  | .rightSquare => "RIGHT_SQUARE"
  | .comma => "COMMA"
  | .dot => "DOT"
  | .minus => "MINUS"
  | .plus => "PLUS"
  | .semicolon => "SEMICOLON"
  | .slash => "SLASH"
  | .star => "STAR"
  | .bang => "BANG"
  | .bangEqual => "BANG_EQUAL"
  | .equal => "EQUAL"
  | .equalEqual => "EQUAL_EQUAL"
  | .greater => "GREATER"
  | .greaterEqual => "GREATER_EQUAL"
  | .less => "LESS"
  | .lessEqual => "LESS_EQUAL"
  | .arrow => "VAR_ARROW"
  | .plusEqual => "PLUS_EQUAL"
  | .minusEqual => "MINUS_EQUAL"
  | .starEqual => "STAR_EQUAL"
  | .slashEqual => "SLASH_EQUAL"
  | .plusPlus => "PLUS_PLUS"
  | .minusMinus => "MINUS_MINUS"

end Symbol

/-
  Words that are no identifiers.  The word `fun` is set
  aside and has no meaning yet.
-/
inductive Keyword where
  | andWord
  | breakWord
  | classWord
  | elseWord
  | falseWord
  | fnWord
  | forWord
  | funWord
  | ifWord
  | letWord
  | loopWord
  | nilWord
  | orWord
  | printWord
  | returnWord
  | superWord
  | thisWord
  | trueWord
  | whileWord
  deriving DecidableEq, Repr

namespace Keyword

/- The letters that spell a keyword. -/
def chars : Keyword → List Char
  | .andWord => ['a', 'n', 'd']
  | .breakWord => ['b', 'r', 'e', 'a', 'k']
  | .classWord => ['c', 'l', 'a', 's', 's']
  | .elseWord => ['e', 'l', 's', 'e']
  | .falseWord => ['f', 'a', 'l', 's', 'e']
  | .fnWord => ['f', 'n']
  | .forWord => ['f', 'o', 'r']
  | .funWord => ['f', 'u', 'n']
  | .ifWord => ['i', 'f']
  | .letWord => ['l', 'e', 't']
  | .loopWord => ['l', 'o', 'o', 'p']
  | .nilWord => ['n', 'i', 'l']
  | .orWord => ['o', 'r']
  | .printWord => ['p', 'r', 'i', 'n', 't']
  | .returnWord => ['r', 'e', 't', 'u', 'r', 'n']
  | .superWord => ['s', 'u', 'p', 'e', 'r']
  | .thisWord => ['t', 'h', 'i', 's']
  | .trueWord => ['t', 'r', 'u', 'e']
  | .whileWord => ['w', 'h', 'i', 'l', 'e']

def all : List Keyword :=
  [.andWord, .breakWord, .classWord, .elseWord, .falseWord, .fnWord, .forWord, .funWord, .ifWord,
   .letWord, .loopWord, .nilWord, .orWord, .printWord,
   .returnWord, .superWord, .thisWord, .trueWord, .whileWord]

/- The keyword that a word spells. -/
def ofChars? (word : List Char) : Option Keyword := all.find? fun keyword => keyword.chars = word

/- The name a listing shows. -/
def name : Keyword → String
  | .andWord => "AND"
  | .breakWord => "BREAK"
  | .classWord => "CLASS"
  | .elseWord => "ELSE"
  | .falseWord => "FALSE"
  | .fnWord => "FN"
  | .forWord => "FOR"
  | .funWord => "RESERVED"
  | .ifWord => "IF"
  | .letWord => "LET"
  | .loopWord => "LOOP"
  | .nilWord => "NIL"
  | .orWord => "OR"
  | .printWord => "PRINT"
  | .returnWord => "RETURN"
  | .superWord => "SUPER"
  | .thisWord => "THIS"
  | .trueWord => "TRUE"
  | .whileWord => "WHILE"

end Keyword

/-
  The kind of a token.  Literals carry the value that their
  spelling denotes.
-/
inductive Token.Kind where
  | symbol (s : Symbol)
  | keyword (k : Keyword)
  | identifier
  | string (text : String)
  | number (value : Float)
  | endOfFile
  deriving DecidableEq, Repr

namespace Token.Kind

/- The name a listing shows. -/
def name : Kind → String
  | .symbol s => s.name
  | .keyword k => k.name
  | .identifier => "IDENTIFIER"
  | .string _ => "STRING"
  | .number _ => "NUMBER"
  | .endOfFile => "EOF"

end Token.Kind

/- A kind with its spelling and its place. -/
structure Token where
  kind : Token.Kind
  lexeme : String
  line : Nat
  file : String
  deriving DecidableEq, Repr

end Scriptlet
