import Scriptlet.Script.Load
import Scriptlet.Session
import Scriptlet.Token.Listing
import Scriptlet.Tree.Outline

/-
  The commands of the command line.

  Key declarations include:
    * `Command.Output`
    * `Command`
    * `Command.ofArguments?`
    * `Command.tokenOutput`
    * `Command.outlineOutput`
    * `Command.valueOutput`
    * `Command.runOutput`
-/

namespace Scriptlet

namespace Command

/- Both output streams and the exit code. -/
structure Output where
  code : Nat := 0
  stdout : String := ""
  stderr : String := ""
  deriving DecidableEq, Repr

/- Each text on lines of its own. -/
def onLines (texts : List String) : String := String.join (texts.map fun text => text ++ "\n")

/- Reported faults, one after another. -/
def faultLines (ds : List Diagnostic) : String := onLines (ds.map Diagnostic.text)

/- The byte that ends a line. -/
def newline : UInt8 := 10

/- Split bytes after every line end. -/
def byteLines : List UInt8 → List (List UInt8)
  | [] => []
  | byte :: others =>
      if byte = newline then [byte] :: byteLines others
      else
        match byteLines others with
        | [] => [[byte]]
        | first :: rest => (byte :: first) :: rest

def endsLine (c : Char) : Bool := c = '\n' || c = '\r'

/- A line without the characters that end it, and these. -/
def splitEnding (line : List Char) : List Char × List Char :=
  let back := line.reverse
  ((back.dropWhile endsLine).reverse, (back.takeWhile endsLine).reverse)

/- Decode one line. -/
def decodeLine (bytes : List UInt8) : Line :=
  match Utf8.decode bytes with
  | .ok line =>
      let (content, ending) := splitEnding line.toList
      .text (String.ofList content) (String.ofList ending)
  | .error _ => .undecodable

/- The lines of an input stream. -/
def lines (bytes : List UInt8) : List Line := (byteLines bytes).map decodeLine

end Command

inductive Command where
  | tokenize (path : String) (json : Bool)
  | parse (path : String)
  | evaluate (path : String)
  | run (path : String)
  | repl
  deriving DecidableEq, Repr

namespace Command

/- The command that arguments ask for. -/
def ofArguments? : List String → Option Command
  | [] => some .repl
  | ["repl"] => some .repl
  | ["tokenize", "--json", path] => some (.tokenize path true)
  | ["tokenize", path, "--json"] => some (.tokenize path true)
  | ["tokenize", path] => some (.tokenize path false)
  | ["parse", path] => some (.parse path)
  | ["evaluate", path] => some (.evaluate path)
  | ["run", path] => some (.run path)
  | _ => none

/- The exit code for faults found before a run. -/
def faultyCode : Nat := Status.staticError.exitCode

/- What a script that cannot be loaded leads to. -/
def notLoaded (path : String) (fault : Script.Fault) : Output :=
  if fault.isPath then
    { code := faultyCode
      stderr := onLines [fault.message] }
  else
    { code := 1
      stderr :=
        onLines
          ["Error: Failed to load " ++ Path.shown path ++ ": " ++ fault.message] }

/- List the tokens of a script. -/
def tokenOutput (script : Script) (json : Bool) : Output :=
  let items := Token.scan script.source script.fileName
  let tokens := Token.tokens items
  let faults := Token.faults items
  { code := if faults.isEmpty then 0 else faultyCode
    stdout :=
      if json then onLines [Token.jsonListing tokens]
      else onLines (tokens.map Token.description)
    stderr := faultLines (faults.map Token.Fault.diagnostic) }

/-
  Show the outline of a script that is one expression.
-/
def outlineOutput (script : Script) : Output :=
  let items := Token.scan script.source script.fileName
  let faults := Token.faults items
  if faults.isEmpty then
    let parsed := Grammar.parseExpression (Token.tokens items) 0
    match parsed.value with
    | some expr => { stdout := onLines [expr.outline] }
    | none =>
        { code := faultyCode
          stderr :=
            faultLines (parsed.faults.map Grammar.Fault.diagnostic) }
  else
    { code := faultyCode
      stderr := faultLines (faults.map Token.Fault.diagnostic) }

/- All that a session has printed. -/
def printed (session : Session) : String := onLines session.world.host.printed.toList

/- The pending faults of a session. -/
def reported (session : Session) : String := faultLines session.report.pending

/- Show the value of a script that is one expression. -/
def valueOutput (fuel : Nat) (host : Host) (script : Script) : Except Eval.Stop Output :=
  let start := Session.start host .halt
  match start.evaluate fuel script.source script.fileName with
  | .ok (some value, session) =>
      let text := session.world.heap.display value
      .ok { stdout := printed session ++ onLines [text] }
  | .ok (none, session) =>
      let status : Status :=
        if session.report.hadRuntimeError then .runtimeError
        else .staticError
      .ok
        { code := status.exitCode
          stdout := printed session
          stderr := reported session }
  | .error reason => .error reason

/- Run a script. -/
def runOutput (fuel : Nat) (host : Host) (script : Script) : Except Eval.Stop Output :=
  let start := Session.start host .halt
  match start.run fuel script.source script.fileName with
  | .ok (status, session) =>
      .ok
        { code := status.exitCode
          stdout := printed session
          stderr := reported session }
  | .error reason => .error reason

end Command

end Scriptlet
