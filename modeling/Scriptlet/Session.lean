import Scriptlet.Eval.Run
import Scriptlet.Grammar.Parse
import Scriptlet.Scope.Resolve

/-
  Sessions: programs that run one after another.

  Key declarations include:
    * `Status`
    * `Session`
    * `Session.run`
    * `Session.evaluate`

  What one program defines is there for the next one.  A
  program runs only if no stage before has found a fault
  since the faults were last reset.
-/

namespace Scriptlet

/- How a program ended. -/
inductive Status where
  | ok
  | staticError
  | runtimeError
  deriving DecidableEq, Repr

def Status.exitCode : Status → Nat
  | .ok => 0
  | .staticError => 65
  | .runtimeError => 70

structure Session where
  world : Eval.World
  distances : Scope.Distances
  report : Report
  nextId : Nat
  policy : Eval.Policy

namespace Session

/- A session in which nothing has run. -/
def start (host : Host) (policy : Eval.Policy) : Session where
  world := ⟨.initial, host⟩
  distances := {}
  report := {}
  nextId := 0
  policy := policy

/- Replace what is known of the host. -/
def withHost (session : Session) (host : Host) : Session :=
  { session with world := { session.world with host := host } }

/- Forget reported faults; definitions stay. -/
def resetErrors (session : Session) : Session := { session with report := session.report.reset }

/- Hand out the pending faults. -/
def takeErrors (session : Session) : List Diagnostic × Session :=
  let (taken, report) := session.report.take
  (taken, { session with report := report })

/- Report faults of a stage. -/
def reporting (session : Session) (ds : List Diagnostic) : Session :=
  { session with report := session.report.addAll ds }

/- Scan a source text. -/
def scan (session : Session) (source file : String) : List Token × Session :=
  let items := Token.scan source file
  (Token.tokens items, session.reporting ((Token.faults items).map Token.Fault.diagnostic))

/- Take over what parsing gave. -/
def parsed {α : Type} (session : Session) (result : Grammar.Parsed α) : α × Session :=
  (result.value,
    { session.reporting (result.faults.map Grammar.Fault.diagnostic) with
      nextId := result.nextId })

/- Report the faults of name resolution. -/
def resolved (session : Session) (walk : Scope.Walk) : Session :=
  session.reporting (walk.faults.map Scope.Fault.diagnostic)

/- Add the distances of name resolution. -/
def linked (session : Session) (walk : Scope.Walk) : Session :=
  { session with
    distances := session.distances.extend walk.found }

/- The context of top-level code. -/
def context (session : Session) : Eval.Context := .top session.distances

/- How a program ended that was run. -/
def runStatus (session : Session) : Status :=
  if session.report.hadRuntimeError then .runtimeError
  else .ok

/- Run checked statements. -/
def interpret (fuel : Nat) (session : Session) (body : List Stmt) : Except Eval.Stop Session :=
  match Eval.interpret fuel session.policy session.context body session.world session.report with
  | .ok (world, report) =>
      .ok { session with world := world, report := report }
  | .error reason => .error reason

/- Run a whole program. -/
def run (fuel : Nat) (session : Session) (source file : String) :
    Except Eval.Stop (Status × Session) :=
  let (tokens, session) := session.scan source file
  if session.report.hadError then
    .ok (.staticError, session)
  else
    let (body, session) :=
      session.parsed (Grammar.parseProgram tokens session.nextId)
    if session.report.hadError then
      .ok (.staticError, session)
    else
      let walk := Scope.resolveProgram body
      let session := session.resolved walk
      if session.report.hadError then
        .ok (.staticError, session)
      else
        match (session.linked walk).interpret fuel body with
        | .ok session => .ok (session.runStatus, session)
        | .error reason => .error reason

/-
  Evaluate a single expression at top level; no value if a
  fault was reported.
-/
def evaluate (fuel : Nat) (session : Session) (source file : String) :
    Except Eval.Stop (Option Value × Session) :=
  let (tokens, session) := session.scan source file
  if session.report.hadError then .ok (none, session)
  else
    let (expr?, session) :=
      session.parsed (Grammar.parseExpression tokens session.nextId)
    match expr? with
    | none => .ok (none, session)
    | some expr =>
        let walk := Scope.resolveExpression expr
        let session := session.resolved walk
        if session.report.hadError then .ok (none, session)
        else
          let session := session.linked walk
          match Eval.evaluate fuel session.context expr session.world with
          | .done value world =>
              .ok (some value, { session with world := world })
          | .failed fault world =>
              .ok
                (none,
                  { session.reporting [fault.diagnostic] with
                    world := world })
          | .stopped reason => .error reason

end Session

end Scriptlet
