import Std.Time.DateTime.Timestamp
import Scriptlet.Command.Repl

/-
  The command line as a program.

  Key declarations include:
    * `Console.answering`
    * `Console.interact`
    * `main`

  Commands are pure.  Whenever one asks for a line or a
  resource that is not known yet, what it printed so far is
  shown, the answer is found, and it is run again with it.
-/

namespace Scriptlet

namespace Console

/- What has been found out for a command so far. -/
structure Known where
  lines : List Line := []
  ended : Bool := false
  resources : List (String × Bool) := []

/- Enough fuel for any run that ends in practice. -/
def fuel : Nat := Nat.pow 2 60

/- The time in seconds, to the millisecond. -/
def seconds : IO Float := do
  let now ← Std.Time.Timestamp.now
  return .ofInt now.toMillisecondsSinceUnixEpoch.val / 1000

def Known.host (known : Known) (now : Float) : Host where
  input := known.lines
  inputEnds := known.ended
  resource? := fun name => known.resources.lookup name
  seconds := now

/- The bytes of standard input up to a line end. -/
partial def lineBytes (before : List UInt8) :
    IO (List UInt8) := do
  let bytes ← (← IO.getStdin).read 1
  match bytes.toList with
  | [] => return before.reverse
  | byte :: _ =>
      let line := byte :: before
      if byte = Command.newline then return line.reverse
      else lineBytes line

/- The next line of standard input, nothing at its end. -/
def nextLine : IO (Option Line) := do
  match ← lineBytes [] with
  | [] => return none
  | bytes => return some (Command.decodeLine bytes)

/- Does a path lead anywhere? -/
def pathExists (path : String) : IO Bool := do
  if path.isEmpty then return false
  try
    let _ ← IO.FS.realPath path
    return true
  catch _ => return false

/- Find the answer to a question. -/
def Known.answer (known : Known) (question : Question) :
    IO Known := do
  match question with
  | .line =>
      match ← nextLine with
      | some line =>
          return { known with lines := known.lines ++ [line] }
      | none => return { known with ended := true }
  | .resource name =>
      let found ← pathExists name
      let resources := (name, found) :: known.resources
      return { known with resources := resources }

/- Show what one output stream gets before the other. -/
def showBoth (stdout stderr : String) : IO Unit := do
  IO.print stdout
  (← IO.getStdout).flush
  IO.eprint stderr

/- A text behind the characters that are shown already. -/
def unshown (text : String) (shown : Nat) : String := String.ofList (text.toList.drop shown)

/-
  Run an attempt until no question is left open, and tell
  how many of the printed characters are shown by then.
-/
partial def answering {α : Type} (attempt : Host → Except Eval.Stop α) (known : Known)
    (shown : Nat) : IO (Option (α × Nat)) := do
  match attempt (known.host (← seconds)) with
  | .ok result => return some (result, shown)
  | .error .outOfFuel => return none
  | .error (.asking question printed) =>
      let text := Command.onLines printed.toList
      showBoth (unshown text shown) ""
      let known ← known.answer question
      answering attempt known (max shown text.length)

/- Show the output of a command. -/
def showOutput (output : Command.Output) : IO UInt32 := do
  showBoth output.stdout output.stderr
  return output.code.toUInt32

/- Run a command on a script and show what it gives. -/
def runScript (command : Host → Except Eval.Stop Command.Output) :
    IO UInt32 := do
  match ← answering command {} 0 with
  | none => return 1
  | some (output, shown) =>
      let later := unshown output.stdout shown
      showOutput { output with stdout := later }

/- The contents of a file, nothing if there is none. -/
def contents? (path : String) :
    IO (Except String (Option (List UInt8))) := do
  try
    let bytes ← IO.FS.readBinFile path
    return .ok (some bytes.toList)
  catch error =>
    match error with
    | .noFileOrDirectory .. => return .ok none
    | error => return .error error.toString

/- Read and run lines until the input ends. -/
partial def interact (session : Session) : IO UInt32 := do
  IO.print Command.prompt
  (← IO.getStdout).flush
  match ← nextLine with
  | none =>
      IO.print "\n"
      return 0
  | some .undecodable =>
      IO.eprint Command.unreadable
      return 1
  | some (.text content ending) =>
      let attempt (host : Host) :=
        Command.replLine fuel (session.withHost host) (content ++ ending)
      match ← answering attempt {} 0 with
      | none => return 1
      | some ((output, after), shown) =>
          showBoth (unshown output.stdout shown) output.stderr
          interact after

/- Run a command on the file at a path. -/
def onFile (path : String)
    (load : String → Option (List UInt8) → Except Script.Fault Script)
    (command : Script → IO UInt32) : IO UInt32 := do
  match ← contents? path with
  | .error text =>
      IO.eprint
        ("Error: Failed to load " ++ Path.shown path ++ ": " ++ text ++ "\n")
      return 1
  | .ok bytes =>
      match load path bytes with
      | .error fault =>
          showOutput (Command.notLoaded path fault)
      | .ok script => command script

/- Run a command. -/
def runCommand : Command → IO UInt32
  | .tokenize path json =>
      onFile path Script.read fun script =>
        showOutput (Command.tokenOutput script json)
  | .parse path =>
      onFile path Script.read fun script =>
        showOutput (Command.outlineOutput script)
  | .evaluate path =>
      onFile path Script.read fun script =>
        runScript fun host =>
          Command.valueOutput fuel host script
  | .run path =>
      onFile path Script.load fun script =>
        runScript fun host =>
          Command.runOutput fuel host script
  | .repl => interact (Session.start {} .proceed)

end Console

end Scriptlet

/- Run the command that the arguments ask for. -/
def main (arguments : List String) : IO UInt32 := do
  match Scriptlet.Command.ofArguments? arguments with
  | some command => Scriptlet.Console.runCommand command
  | none =>
      IO.eprintln
        ("usage: tokenize FILE [--json] | parse FILE | " ++
          "evaluate FILE | run FILE | repl")
      return 2
