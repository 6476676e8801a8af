import Scriptlet.Eval.Fault
import Scriptlet.Heap.Lookup
import Scriptlet.Heap.Unfold
import Scriptlet.Host
import Scriptlet.Scope.Walk

/-
  Actions on the world of a running program.

  Key declarations include:
    * `Eval.World`
    * `Eval.Stop`
    * `Eval.Outcome`
    * `Eval.Action`
    * `Eval.Context`
    * `Eval.Flow`

  An action ends with a value or a fault, and in either case
  leaves a world behind; or it is broken off, for want of
  fuel or of an answer of the host.
-/

namespace Scriptlet

namespace Eval

/- The heap and the host. -/
structure World where
  heap : Heap
  host : Host

/-
  Why an action is broken off.  A question comes with what
  had been printed when it was asked.
-/
inductive Stop where
  | outOfFuel
  | asking (question : Question) (printed : Array String)
  deriving DecidableEq, Repr

/- How an action ends. -/
inductive Outcome (α : Type) where
  | done (value : α) (world : World)
  | failed (fault : Fault) (world : World)
  | stopped (reason : Stop)

def Action (α : Type) : Type := World → Outcome α

namespace Action

@[always_inline, inline]
protected def pure {α : Type} (value : α) : Action α := fun w => .done value w

@[always_inline, inline]
protected def bind {α β : Type} (action : Action α) (next : α → Action β) : Action β :=
  fun w =>
    match action w with
    | .done value w' => next value w'
    | .failed fault w' => .failed fault w'
    | .stopped reason => .stopped reason

@[always_inline]
instance : Monad Action where
  pure := Action.pure
  bind := Action.bind

end Action

/- Break off because the fuel ran out. -/
def exhausted {α : Type} : Action α := fun _ => .stopped .outOfFuel

/- Break off with a question to the host. -/
def ask {α : Type} (question : Question) : Action α :=
  fun w => .stopped (.asking question w.host.printed)

/- Stop with a fault at a token. -/
def failAt {α : Type} (token : Token) (cause : Cause) : Action α :=
  fun w => .failed (.atToken token cause) w

/- What the heap holds. -/
def inspect {α : Type} (view : Heap → α) : Action α := fun w => .done (view w.heap) w

/- Change the heap. -/
def updateHeap (change : Heap → Heap) : Action Unit :=
  fun w => .done () { w with heap := change w.heap }

/- Put something into the heap and name it. -/
def allocate {α : Type} (create : Heap → α × Heap) : Action α :=
  fun w =>
    let (made, heap) := create w.heap
    .done made { w with heap := heap }

/- A value that may be missing. -/
def require {α : Type} (token : Token) (cause : Cause) (found : Heap → Option α) : Action α :=
  fun w =>
    match found w.heap with
    | some value => .done value w
    | none => .failed (.atToken token cause) w

/-
  What an action runs in: the scope distances, the current
  frame and the number of active calls.
-/
structure Context where
  distances : Scope.Distances
  frame : FrameId
  depth : Nat

/- The context of top-level code. -/
def Context.top (distances : Scope.Distances) : Context where
  distances := distances
  frame := Heap.globals
  depth := 0

/- How a statement ends. -/
inductive Flow where
  | normal
  | broke
  | returned (value : Value)
  deriving DecidableEq, Repr

end Eval

end Scriptlet
