import Scriptlet.Token.Scan

/-
  Faults as they are reported, and their collector.

  Key declarations include:
    * `Diagnostic`
    * `Diagnostic.text`
    * `Diagnostic.atToken`
    * `Token.Fault.diagnostic`
    * `Report`
-/

namespace Scriptlet

/- The stages that judge a program before it runs. -/
inductive Stage where
  | lexical
  | grammar
  | scope
  deriving DecidableEq, Repr

/-
  A reported fault: found before a run, raised by a run, or
  met while loading a script.
-/
inductive Diagnostic where
  | static (stage : Stage) (line : Nat) (location : String) (message : String)
  | runtime (line : Nat) (file : String) (message : String)
  | script (message : String)
  deriving DecidableEq, Repr

namespace Diagnostic

/- The text shown to the user. -/
def text : Diagnostic → String
  | .static _ line location message =>
      "[line " ++ toString line ++ "] Error " ++ location ++ " : " ++ message
  | .runtime line file message =>
      message ++ "\n[line " ++ toString line ++ "] at " ++ file
  | .script message => message

/- Was it raised by a run? -/
def isRuntime : Diagnostic → Bool
  | .runtime .. => true
  | _ => false

/- Where a token stands, in words. -/
def location (token : Token) : String :=
  if token.kind = .endOfFile then
    "at end of " ++ token.file
  else "at '" ++ token.lexeme ++ "' " ++ token.file

/- A fault found at a token. -/
def atToken (stage : Stage) (token : Token) (message : String) : Diagnostic :=
  .static stage token.line (location token) message

/- A fault found in the text of a file. -/
def inFile (line : Nat) (file : String) (message : String) : Diagnostic :=
  .static .lexical line ("in " ++ file) message

end Diagnostic

namespace Token

def Fault.diagnostic (fault : Fault) : Diagnostic :=
  .inFile fault.line fault.file fault.cause.message

end Token

/-
  Pending faults, whether any was found before or during a
  run since the last reset, and the text of the latest one.
-/
structure Report where
  pending : List Diagnostic := []
  hadError : Bool := false
  hadRuntimeError : Bool := false
  latest : Option String := none
  deriving DecidableEq, Repr

namespace Report

/- Report one fault. -/
def add (report : Report) (d : Diagnostic) : Report where
  pending := report.pending ++ [d]
  hadError := report.hadError || !d.isRuntime
  hadRuntimeError := report.hadRuntimeError || d.isRuntime
  latest := some d.text

/- Report faults in order. -/
def addAll (report : Report) (ds : List Diagnostic) : Report := ds.foldl add report

/- Hand out the pending faults; the flags stay. -/
def take (report : Report) : List Diagnostic × Report :=
  (report.pending, { report with pending := [] })

/- Forget faults and flags; the latest text stays. -/
def reset (report : Report) : Report := { latest := report.latest }

end Report

end Scriptlet
