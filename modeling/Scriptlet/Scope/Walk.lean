import Std.Data.TreeMap
import Scriptlet.Diagnostic

/-
  The state of name resolution.

  Key declarations include:
    * `Scope.Cause`
    * `Scope.Fault`
    * `Scope.Walk`
    * `Scope.Walk.declare`
    * `Scope.Walk.define`
    * `Scope.Walk.reference`
    * `Scope.Distances`
-/

namespace Scriptlet

namespace Scope

/- A misuse of names or of control words. -/
inductive Cause where
  | redeclared
  | ownInitializer
  | ownSuperclass
  | breakOutsideLoop
  | returnOutsideFunction
  | selfOutsideClass
  | superOutsideClass
  | superWithoutSuperclass
  deriving DecidableEq, Repr

def Cause.message : Cause → String
  | .redeclared =>
      "Already a variable with this name in this scope."
  | .ownInitializer =>
      "Can't read local variable in its own initializer."
  | .ownSuperclass => "A class can't inherit from itself."
  | .breakOutsideLoop =>
      "Can't use 'break' outside of a loop."
  | .returnOutsideFunction =>
      "Can't return from top-level code."
  | .selfOutsideClass =>
      "Can't use 'this' outside of a class."
  | .superOutsideClass =>
      "Can't use 'super' outside of a class."
  | .superWithoutSuperclass =>
      "Can't use 'super' in a class with no superclass."

/- A cause at the token of the offending node. -/
structure Fault where
  cause : Cause
  token : Token
  deriving DecidableEq, Repr

def Fault.diagnostic (fault : Fault) : Diagnostic := .atToken .scope fault.token fault.cause.message

/-
  The names declared in one scope so far.  A name is ready
  once its initializer is complete.
-/
abbrev Names := List (String × Bool)

namespace Names

def declares (names : Names) (name : String) : Bool := names.any fun entry => entry.1 = name

/- Is the name declared and its initializer incomplete? -/
def awaits (names : Names) (name : String) : Bool := names.lookup name = some false

/- Declare a name or mark it ready. -/
def ready (names : Names) (name : String) : Names :=
  match names with
  | [] => [(name, true)]
  | entry :: others =>
      if entry.1 = name then (name, true) :: others
      else entry :: ready others name

end Names

/-
  Open scopes, innermost first; the distances recorded for
  reference nodes; and the faults found, in order.
-/
structure Walk where
  scopes : List Names := []
  found : List (Nat × Nat) := []
  faults : List Fault := []
  deriving DecidableEq, Repr

namespace Walk

/- Record a fault and go on. -/
def fault (walk : Walk) (token : Token) (cause : Cause) : Walk :=
  { walk with faults := walk.faults ++ [⟨cause, token⟩] }

/- Enter a scope. -/
def enter (walk : Walk) (names : Names) : Walk := { walk with scopes := names :: walk.scopes }

/- Leave the innermost scope. -/
def leave (walk : Walk) : Walk := { walk with scopes := walk.scopes.tail }

/-
  Declare a name in the innermost scope.  At top level names
  are global and may be declared again.
-/
def declare (walk : Walk) (name : Token) : Walk :=
  match walk.scopes with
  | [] => walk
  | names :: outer =>
      if names.declares name.lexeme then
        walk.fault name .redeclared
      else
        { walk with
          scopes := ((name.lexeme, false) :: names) :: outer }

/- Mark a name of the innermost scope ready. -/
def define (walk : Walk) (name : Token) : Walk :=
  match walk.scopes with
  | [] => walk
  | names :: outer =>
      { walk with scopes := names.ready name.lexeme :: outer }

/-
  How many scopes outward a name is declared; nothing for a
  global name.
-/
def distance? (walk : Walk) (name : String) : Option Nat :=
  walk.scopes.findIdx? fun names => names.declares name

/- Record the distance of a reference node. -/
def reference (walk : Walk) (id : Nat) (name : Token) : Walk :=
  match walk.distance? name.lexeme with
  | some distance =>
      { walk with found := walk.found ++ [(id, distance)] }
  | none => walk

end Walk

/- Scope distances by node number. -/
abbrev Distances := Std.TreeMap Nat Nat

/- Add distances to a table. -/
def Distances.extend (table : Distances) (found : List (Nat × Nat)) : Distances :=
  found.foldl (fun table entry => table.insert entry.1 entry.2) table

end Scope

end Scriptlet
