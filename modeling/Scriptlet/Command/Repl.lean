import Scriptlet.Command.Basic

/-
  The interactive session and whole command lines.

  Key declarations include:
    * `Command.replLine`
    * `Command.replOutput`
    * `Command.execute`
-/

namespace Scriptlet

namespace Command

/- What asks for a line. -/
def prompt : String := ">> "

/- The file name of lines that are typed in. -/
def replFile : String := "REPL"

/- What a line of code that is no text leads to. -/
def unreadable : String :=
  "Error: Failed to read from stdin\n\nCaused by:\n    " ++ Host.undecodableText ++ "\n"

/-
  Run one line and hand out what it printed and reported;
  the session goes on without either.
-/
def replLine (fuel : Nat) (session : Session) (line : String) :
    Except Eval.Stop (Output × Session) :=
  match session.run fuel line replFile with
  | .error reason => .error reason
  | .ok (_, session) =>
      let host := session.world.host
      let output : Output :=
        { stdout := printed session
          stderr := reported session }
      let quiet := { host with printed := #[] }
      .ok (output, (session.withHost quiet).resetErrors)

/- Run lines until the input ends. -/
def replLoop (fuel : Nat) :
    Nat → Session → Output → Except Eval.Stop Output
  | 0, _, _ => .error .outOfFuel
  | rounds + 1, session, output =>
      let host := session.world.host
      let prompted := output.stdout ++ prompt
      match host.input with
      | [] => .ok { output with stdout := prompted ++ "\n" }
      | .undecodable :: _ =>
          .ok
            { code := 1
              stdout := prompted
              stderr := output.stderr ++ unreadable }
      | .text content ending :: others =>
          let session := session.withHost { host with input := others }
          match replLine fuel session (content ++ ending) with
          | .error reason => .error reason
          | .ok (shown, session) =>
              replLoop fuel rounds session
                { stdout := prompted ++ shown.stdout
                  stderr := output.stderr ++ shown.stderr }

/- A session that goes on after faults. -/
def replOutput (fuel : Nat) (host : Host) : Except Eval.Stop Output :=
  replLoop fuel (host.input.length + 1) (Session.start host .proceed) {}

/- The host of a command in a folder. -/
def hostIn (folder : Folder) (stdin : List UInt8) (seconds : Float) : Host where
  input := lines stdin
  resource? := fun name => some (folder.holds name)
  seconds := seconds

/- Run a command in a folder. -/
def execute (fuel : Nat) (folder : Folder) (stdin : List UInt8) (seconds : Float)
    (command : Command) : Except Eval.Stop Output :=
  let host := hostIn folder stdin seconds
  let script (path : String) := Script.read path (folder.contents? path)
  match command with
  | .tokenize path json =>
      match script path with
      | .ok script => .ok (tokenOutput script json)
      | .error fault => .ok (notLoaded path fault)
  | .parse path =>
      match script path with
      | .ok script => .ok (outlineOutput script)
      | .error fault => .ok (notLoaded path fault)
  | .evaluate path =>
      match script path with
      | .ok script => valueOutput fuel host script
      | .error fault => .ok (notLoaded path fault)
  | .run path =>
      match Script.load path (folder.contents? path) with
      | .ok script => runOutput fuel host script
      | .error fault => .ok (notLoaded path fault)
  | .repl => replOutput fuel host

end Command

end Scriptlet
