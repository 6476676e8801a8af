/-
  The outside world as a program sees it.

  Key declarations include:
    * `Line`
    * `Host`
    * `Host.print`
    * `Host.readLine`

  A host holds what was printed and what is known of the
  input and of named resources.  What is not known yet it
  cannot answer.
-/

namespace Scriptlet

/-
  A line of input: its text and what ends it, or bytes that
  are no text.
-/
inductive Line where
  | text (content : String) (ending : String)
  | undecodable
  deriving DecidableEq, Repr

/- What a host may be asked. -/
inductive Question where
  | line
  | resource (name : String)
  deriving DecidableEq, Repr

/-
  What a program can reach.  A resource that is not known of
  has no answer.
-/
structure Host where
  printed : Array String := #[]
  input : List Line := []
  inputEnds : Bool := true
  resource? : String → Option Bool := fun _ => some false
  printFailure : Option String := none
  readFailure : Option String := none
  seconds : Float := 0

namespace Host

/- Print a line. -/
def print (host : Host) (text : String) : Host := { host with printed := host.printed.push text }

/- What reading a line gives. -/
inductive Reading where
  | line (content : String)
  | atEnd
  | failure (text : String)
  | unknown
  deriving DecidableEq, Repr

/- Why bytes that are no text cannot be read. -/
def undecodableText : String := "stream did not contain valid UTF-8"

/- Take the next line off the input. -/
def readLine (host : Host) : Reading × Host :=
  match host.readFailure with
  | some failure => (.failure failure, host)
  | none =>
      match host.input with
      | .text content _ :: others =>
          (.line content, { host with input := others })
      | .undecodable :: others =>
          (.failure undecodableText, { host with input := others })
      | [] =>
          if host.inputEnds then (.atEnd, host)
          else (.unknown, host)

end Host

end Scriptlet
