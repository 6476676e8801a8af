import Scriptlet.Token.Scan

/-
  Tokens as listed by the command line.

  Key declarations include:
    * `Json.string`
    * `Token.description`
    * `Token.json`
    * `Token.jsonListing`
-/

namespace Scriptlet

namespace Json

def hexDigit (n : Nat) : Char := Nat.digitChar (n % 16)

/-
  A character inside a JSON string.  Quotes, backslashes and
  control characters are escaped, all others stand as they
  are.
-/
def escape (c : Char) : List Char :=
  match c with
  | '"' => ['\\', '"']
  | '\\' => ['\\', '\\']
  | '\x08' => ['\\', 'b']
  | '\t' => ['\\', 't']
  | '\n' => ['\\', 'n']
  | '\x0c' => ['\\', 'f']
  | '\r' => ['\\', 'r']
  | c =>
      if c.toNat < 32 then
        ['\\', 'u', '0', '0', hexDigit (c.toNat / 16), hexDigit c.toNat]
      else [c]

/- A text as a JSON string, quotes included. -/
def string (text : String) : String :=
  String.ofList ('"' :: (text.toList.flatMap escape ++ ['"']))

end Json

namespace Token

/- The value shown for a number token. -/
def numberText (x : Float) : String :=
  if Numeral.isWhole x then Numeral.display x ++ ".0"
  else Numeral.shortest x

/- The value shown after the lexeme. -/
def valueText : Kind → String
  | .string text => text
  | .number x => numberText x
  | _ => "null"

/- The kind, the lexeme and the value. -/
def description (token : Token) : String :=
  token.kind.name ++ " " ++ token.lexeme ++ " " ++ valueText token.kind

/- The name of a kind, with the value of a literal. -/
def kindJson (kind : Kind) : List String :=
  match kind with
  | .string text =>
      ["    \"token_type\": \x7b", "      \"STRING\": " ++ Json.string text, "    \x7d,"]
  | .number x =>
      ["    \"token_type\": \x7b", "      \"NUMBER\": " ++ Numeral.json x, "    \x7d,"]
  | kind =>
      ["    \"token_type\": " ++ Json.string kind.name ++ ","]

/- The lines of one token inside the listing. -/
def json (token : Token) : List String :=
  ["  \x7b"] ++ kindJson token.kind ++
    ["    \"lexeme\": " ++ Json.string token.lexeme ++ ",",
      "    \"line\": " ++ toString token.line ++ ",", "    \"file\": " ++ Json.string token.file,
      "  \x7d"]

/- An array of tokens, two blanks of indent a level. -/
def jsonListing (tokens : List Token) : String :=
  match tokens with
  | [] => "[]"
  | tokens =>
      let entries :=
        tokens.map fun token =>
          String.intercalate "\n" token.json
      "[\n" ++ String.intercalate ",\n" entries ++ "\n]"

end Token

end Scriptlet
