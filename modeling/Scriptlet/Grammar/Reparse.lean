import Scriptlet.Grammar.Parse
import Scriptlet.Tree.Outline
import Scriptlet.Tree.Source

/-
  Source text parsed again.

  Key declarations include:
    * `Grammar.readBack`
    * `Grammar.reparses`
-/

namespace Scriptlet

namespace Grammar

/- The source text of a program, a statement a line. -/
def programText (body : List Stmt) : String := String.intercalate "\n" (body.map Stmt.source)

/- Scan and parse a program; nothing if it has a fault. -/
def readBack (source file : String) : Option (List Stmt) :=
  let items := Token.scan source file
  let parsed := parseProgram (Token.tokens items) 0
  if (Token.faults items).isEmpty && parsed.faults.isEmpty
  then some parsed.value
  else none

/-
  Does the source text of a program parse back to the same
  outlines?
-/
def reparses (body : List Stmt) (file : String) : Bool :=
  match readBack (programText body) file with
  | some again =>
      again.map Stmt.outline = body.map Stmt.outline
  | none => false

end Grammar

end Scriptlet
