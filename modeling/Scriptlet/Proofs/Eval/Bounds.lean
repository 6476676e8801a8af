import Scriptlet.Eval.Run
import Scriptlet.Proofs.Heap.Lined

/-
  Bounds that actions keep to.

  Key declarations include:
    * `Eval.Cause.isInternal`
    * `Eval.Bounds`
    * `Eval.Within`
    * `Eval.StoresOnly`
    * `Eval.FailsExternally`

  Bounds say what may become of the world, and what an action
  may fail for.  An action that only stores may change values
  of variables, arrays, objects and the host, but adds no
  frame, no function and no class, and does not keep the host
  from printing.  Some causes say that the tree or the heap
  is not what it should be.  An action that fails externally
  never fails for one of them, and leaves code and reserved
  names as they are.
-/

namespace Scriptlet

namespace Eval

/-
  Causes that no program has a part in: operators and targets
  without a meaning, and `this` or `super` without a value of
  the right kind.
-/
def Cause.isInternal : Cause → Bool
  | .assignmentTarget => true
  | .unaryOperator => true
  | .binaryOperator => true
  | .superOutsideMethod => true
  | .selfNotObject => true
  | .undefinedVariable name => name = selfName || name = superName
  | _ => false

/- A cause that a program may have a part in. -/
def Cause.External (cause : Cause) : Prop := cause.isInternal = false

/-
  How the world may change, and what is a cause to fail.  An
  action may leave frames, code and printer alone, and may
  fail for causes that are not internal.
-/
structure Bounds where
  change : World → World → Prop
  allows : Cause → Prop
  trans {w w₁ w₂ : World} : change w w₁ → change w₁ w₂ → change w w₂
  same {w w' : World} : w'.heap.frames = w.heap.frames →
    w'.heap.functions = w.heap.functions → w'.heap.classes = w.heap.classes →
    w'.host.printFailure = w.host.printFailure → change w w'
  external {cause : Cause} : cause.External → allows cause

theorem Bounds.refl (bounds : Bounds) (w : World) : bounds.change w w :=
  bounds.same rfl rfl rfl rfl

variable {bounds : Bounds}

/- How an action ends that keeps to its bounds. -/
inductive Bounds.Ends (bounds : Bounds) {α : Type} (w : World) : Outcome α → Prop where
  | done {value w'} : bounds.change w w' → bounds.Ends w (.done value w')
  | failed {fault w'} : bounds.change w w' → bounds.allows fault.cause →
      bounds.Ends w (.failed fault w')
  | stopped {reason} : bounds.Ends w (.stopped reason)

theorem Bounds.Ends.since {α : Type} {w w' : World} {outcome : Outcome α}
    (h : bounds.Ends w' outcome) (hChange : bounds.change w w') : bounds.Ends w outcome := by
  cases h with
  | done hChange' => exact .done (bounds.trans hChange hChange')
  | failed hChange' hCause => exact .failed (bounds.trans hChange hChange') hCause
  | stopped => exact .stopped

structure Within (bounds : Bounds) {α : Type} (action : Action α) : Prop where
  ends (w : World) : bounds.Ends w (action w)

namespace Within

variable {α β : Type}

theorem pure (value : α) : Within bounds (Pure.pure value : Action α) :=
  ⟨fun w => .done (bounds.refl w)⟩

theorem bind {action : Action α} {next : α → Action β} (hAction : Within bounds action)
    (hNext : ∀ value, Within bounds (next value)) : Within bounds (action >>= next) := by
  constructor
  intro w
  have hEnds := hAction.ends w
  change bounds.Ends w (Action.bind action next w)
  unfold Action.bind
  generalize action w = outcome at hEnds
  cases hEnds with
  | @done value w' hChange => exact ((hNext value).ends w').since hChange
  | failed hChange hCause => exact .failed hChange hCause
  | stopped => exact .stopped

variable {cause : Cause}

theorem failAt (token : Token) (hCause : bounds.allows cause) :
    Within bounds (Eval.failAt token cause : Action α) :=
  ⟨fun w => .failed (bounds.refl w) hCause⟩

theorem fails (token : Token) (hCause : cause.External) :
    Within bounds (Eval.failAt token cause : Action α) := failAt token (bounds.external hCause)

theorem inspect (view : Heap → α) : Within bounds (inspect view) :=
  ⟨fun w => .done (bounds.refl w)⟩

theorem updateHeap {change : Heap → Heap}
    (h : ∀ w : World, bounds.change w ⟨change w.heap, w.host⟩) :
    Within bounds (updateHeap change) := ⟨fun w => .done (h w)⟩

theorem allocate {create : Heap → α × Heap}
    (h : ∀ w : World, bounds.change w ⟨(create w.heap).2, w.host⟩) :
    Within bounds (allocate create) := ⟨fun w => .done (h w)⟩

theorem require (token : Token) (hCause : bounds.allows cause)
    (found : Heap → Option α) : Within bounds (require token cause found) := by
  constructor
  intro w
  unfold Eval.require
  split
  · exact .done (bounds.refl w)
  · exact .failed (bounds.refl w) hCause

end Within

theorem setProperty_within (object : Value) (name : Token) (value : Value) :
    Within bounds (setProperty object name value) := by
  unfold setProperty
  split
  · exact .updateHeap fun _ => bounds.same rfl rfl rfl rfl
  · exact .fails name rfl
  · exact .fails name rfl

theorem locate_within (bracket : Token) (index : Value) (length : Nat) :
    Within bounds (locate bracket index length) := by
  unfold locate
  split
  · exact .pure _
  · rename_i cause hCause
    apply Within.fails
    unfold position at hCause
    split at hCause
    · split at hCause
      · split at hCause
        · cases hCause
        · cases hCause
          rfl
      · cases hCause
        rfl
    · cases hCause
      rfl

theorem getElement_within (object index : Value) (bracket : Token) :
    Within bounds (getElement object index bracket) := by
  unfold getElement
  split
  · apply Within.bind (.inspect _)
    intro length
    exact .bind (locate_within bracket index length) fun _ => .inspect _
  · exact .bind (locate_within bracket index _) fun _ => .pure _
  · exact .fails bracket rfl
  · exact .fails bracket rfl

theorem setElement_within (object index : Value) (bracket : Token)
    (value : Value) : Within bounds (setElement object index bracket value) := by
  unfold setElement
  split
  · apply Within.bind (.inspect _)
    intro length
    apply Within.bind (locate_within bracket index length)
    intro i
    exact .updateHeap fun _ => bounds.same rfl rfl rfl rfl
  · exact .fails bracket rfl
  · exact .fails bracket rfl
  · exact .fails bracket rfl

theorem printValue_within (keyword : Token) (value : Value) :
    Within bounds (printValue keyword value) := by
  constructor
  intro w
  unfold printValue
  split
  · exact .failed (bounds.refl w) (bounds.external rfl)
  · exact .done (bounds.same rfl rfl rfl rfl)

theorem readLine_printFailure (host : Host) :
    host.readLine.2.printFailure = host.printFailure := by
  unfold Host.readLine
  split
  · rfl
  · split
    · rfl
    · rfl
    · split <;> rfl

theorem readInput_within (paren : Token) : Within bounds (readInput paren) := by
  constructor
  intro w
  have hSame : bounds.change w { w with host := w.host.readLine.2 } :=
    bounds.same rfl rfl rfl (readLine_printFailure w.host)
  simp only [readInput]
  split
  · exact .done hSame
  · exact .done hSame
  · exact .failed hSame (bounds.external rfl)
  · exact .stopped

theorem findResource_within (key : String) : Within bounds (findResource key) := by
  constructor
  intro w
  unfold findResource
  split
  · exact .done (bounds.refl w)
  · exact .stopped

theorem lengthOf_within (paren : Token) (value : Value) :
    Within bounds (lengthOf paren value) := by
  unfold lengthOf
  split
  · exact .pure _
  · exact .bind (.inspect _) fun _ => .pure _
  · exact .fails paren rfl

theorem callNative_within (native : Native) (paren : Token)
    (arguments : List Value) : Within bounds (callNative native paren arguments) := by
  fun_cases callNative native paren arguments
  · exact ⟨fun w => .done (bounds.refl w)⟩
  · exact readInput_within paren
  · exact lengthOf_within paren _
  · exact .inspect _
  · exact findResource_within _
  · exact .fails paren rfl
  · exact .fails paren rfl

theorem checkCall_within (callee : Value) (paren : Token) (given : Nat) :
    Within bounds (checkCall callee paren given) := by
  apply Within.bind (.inspect _)
  intro found
  cases found with
  | none => exact .fails paren rfl
  | some expected =>
    dsimp only
    split
    · exact .pure ()
    · exact .fails paren rfl

theorem asSuperclass_within (name : Token) (expr : Expr) (value : Value) :
    Within bounds (asSuperclass name expr value) := by
  unfold asSuperclass
  split
  · exact .pure _
  · exact .fails _ rfl

------------------------------------------------------------
-- Actions That Only Store
------------------------------------------------------------

/- The same code, frames and printer. -/
structure World.Settles (w w' : World) : Prop where
  heap : w.heap.Settles w'.heap
  printer : w'.host.printFailure = w.host.printFailure

namespace World.Settles

theorem trans {w w₁ w₂ : World} (h : w.Settles w₁) (h' : w₁.Settles w₂) :
    w.Settles w₂ := ⟨h.heap.trans h'.heap, h'.printer.trans h.printer⟩

end World.Settles

def storing : Bounds where
  change := World.Settles
  allows _ := True
  trans := .trans
  same hFrames hFunctions hClasses hPrinter := ⟨.of_same hFrames hFunctions hClasses, hPrinter⟩
  external _ := trivial

/- The action leaves code and frames as they are. -/
abbrev StoresOnly {α : Type} (action : Action α) : Prop := Within storing action

variable (ctx : Context) (id : Nat) (name : Token)

theorem readVariable_stores : StoresOnly (readVariable ctx id name) := .require _ trivial _

theorem assign_stores {holder : Heap → Option FrameId} (value : Value)
    (h : ∀ heap frame, holder heap = some frame → (heap.local? frame name.lexeme).isSome = true) :
    StoresOnly (assign name holder value) := by
  constructor
  intro w
  change storing.Ends w (Action.bind (require name _ holder) _ w)
  unfold Action.bind require
  cases hHolder : holder w.heap with
  | none => exact .failed (storing.refl w) trivial
  | some frame => exact .done ⟨.define (h _ _ hHolder) value, rfl⟩

theorem writeVariable_stores (value : Value) :
    StoresOnly (writeVariable ctx id name value) := by
  apply assign_stores
  intro heap frame hHolder
  split at hHolder
  · exact (Option.filter_eq_some_iff.mp hHolder).2
  · exact Heap.isSome_of_holder? hHolder

theorem Place.write_stores (value : Value) (place : Place) :
    StoresOnly (place.write ctx value) := by
  cases place with
  | named id name => exact writeVariable_stores ctx id name value
  | property object name => exact setProperty_within object name value
  | element object index bracket => exact setElement_within object index bracket value

theorem operate_stores (kind : Token.Kind) (operator : Token)
    (left right : Value) : StoresOnly (operate kind operator left right) := by
  constructor
  intro w
  unfold operate
  split
  · exact .done (storing.refl w)
  · exact .failed (storing.refl w) trivial

theorem negate_stores (operator : Token) (operand : Value) :
    StoresOnly (negate operator operand) := by
  unfold negate
  split
  · split
    · exact .pure _
    · exact .fails operator rfl
  · exact .pure _
  · exact .failAt operator trivial

theorem result_stores (closure : Closure) (flow : Flow) :
    StoresOnly (result closure flow) := by
  unfold result
  split
  · exact .require _ trivial _
  · split
    · exact .pure _
    · exact .pure _

end Eval

namespace Eval

variable {cause : Cause} {left right : Value} {kind : Token.Kind}

theorem Cause.External.undefinedVariable {name : String} (h : Ordinary name) :
    (Cause.undefinedVariable name).External := by
  simp only [Cause.External, Cause.isInternal, Bool.or_eq_false_iff, decide_eq_false_iff_not]
  exact ⟨h.ne_this, h.ne_super⟩

/- The code is the same, and so are reserved names. -/
structure SameCode (heap heap' : Heap) : Prop where
  keeps : heap.Keeps heap'
  functions : heap'.functions = heap.functions
  classes : heap'.classes = heap.classes

namespace SameCode

theorem of_same {heap heap' : Heap} (hFrames : heap'.frames = heap.frames)
    (hFunctions : heap'.functions = heap.functions)
    (hClasses : heap'.classes = heap.classes) : SameCode heap heap' :=
  ⟨.of_frames hFrames fun _ hMem => hClasses ▸ hMem, hFunctions, hClasses⟩

theorem trans {first second third : Heap} (h₁ : SameCode first second)
    (h₂ : SameCode second third) : SameCode first third where
  keeps := h₁.keeps.trans h₂.keeps
  functions := h₂.functions.trans h₁.functions
  classes := h₂.classes.trans h₁.classes

theorem define (heap : Heap) (frame : FrameId) {name : String}
    (hName : Ordinary name) (value : Value) : SameCode heap (heap.define frame name value) :=
  ⟨.define heap frame hName value, rfl, rfl⟩

end SameCode

def externally : Bounds where
  change w w' := SameCode w.heap w'.heap
  allows := Cause.External
  trans := .trans
  same hFrames hFunctions hClasses _ := .of_same hFrames hFunctions hClasses
  external := id

/- The action fails for no internal cause. -/
abbrev FailsExternally {α : Type} (action : Action α) : Prop := Within externally action

section

variable (ctx : Context) (id : Nat) {name : Token} (hName : Ordinary name.lexeme)
include hName

theorem readVariable_external : FailsExternally (readVariable ctx id name) :=
  .require name (Cause.External.undefinedVariable hName) _

theorem assign_external (holder : Heap → Option FrameId) (value : Value) :
    FailsExternally (assign name holder value) := by
  apply Within.bind (.require name (Cause.External.undefinedVariable hName) holder)
  intro frame
  exact .updateHeap fun w => .define w.heap frame hName value

theorem writeVariable_external (value : Value) :
    FailsExternally (writeVariable ctx id name value) := assign_external hName _ value

end

theorem declare_external (ctx : Context) {name : String} (hName : Ordinary name)
    (value : Value) : FailsExternally (declare ctx name value) :=
  .updateHeap fun w => .define w.heap ctx.frame hName value

/- A place that is a variable has an ordinary name. -/
def Place.IsOrdinary : Place → Prop
  | .named _ name => Ordinary name.lexeme
  | _ => True

theorem Place.write_external (ctx : Context) (value : Value) {place : Place}
    (hPlace : place.IsOrdinary) : FailsExternally (place.write ctx value) := by
  cases place with
  | named id name => exact writeVariable_external ctx id hPlace value
  | property object name => exact setProperty_within object name value
  | element object index bracket => exact setElement_within object index bracket value

variable {heap : Heap}

theorem sum_external (h : sum heap left right = .error cause) : cause.External := by
  unfold sum at h
  split at h
  · cases h
  · cases h
  · cases h
  · cases h
    rfl

theorem onNumbers_external {operator : Float → Float → Except Cause Value}
    (hOperator : ∀ {a b cause}, operator a b = .error cause → cause.External)
    (h : onNumbers operator left right = .error cause) : cause.External := by
  unfold onNumbers at h
  split at h
  · exact hOperator h
  · cases h
    rfl

theorem quotient_external {a b : Float} (h : quotient a b = .error cause) :
    cause.External := by
  unfold quotient at h
  split at h
  · cases h
    rfl
  · cases h

/- An operator between values finds its own meaning. -/
theorem arithmetic_external (hKind : kind.isArithmetic = true)
    (h : arithmetic heap kind left right = .error cause) : cause.External := by
  unfold arithmetic at h
  split at h
  · exact sum_external h
  · exact onNumbers_external (by nofun) h
  · exact onNumbers_external (by nofun) h
  · exact onNumbers_external quotient_external h
  · exact onNumbers_external (by nofun) h
  · exact onNumbers_external (by nofun) h
  · exact onNumbers_external (by nofun) h
  · exact onNumbers_external (by nofun) h
  · cases h
  · cases h
  · -- the kinds above are those of operators
    unfold Token.Kind.isArithmetic at hKind
    split at hKind <;> contradiction

theorem operate_external (hKind : kind.isArithmetic = true) (operator : Token)
    (left right : Value) : FailsExternally (operate kind operator left right) := by
  constructor
  intro w
  unfold operate
  split
  · exact .done (externally.refl w)
  · rename_i cause hCause
    exact .failed (externally.refl w) (arithmetic_external hKind hCause)

theorem isArithmetic_baseOperator (h : Grammar.isCompound kind = true) :
    (baseOperator kind).isArithmetic = true := by
  unfold Grammar.isCompound at h
  split at h
  · rfl
  · rfl
  · rfl
  · rfl
  · cases h

theorem negate_external {operator : Token}
    (hOperator : Grammar.isSign operator.kind = true) (operand : Value) :
    FailsExternally (negate operator operand) := by
  unfold negate
  split
  · split
    · exact .pure _
    · exact .fails operator rfl
  · exact .pure _
  · unfold Grammar.isSign at hOperator
    split at hOperator <;> contradiction

end Eval

end Scriptlet
