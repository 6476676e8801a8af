import Scriptlet.Proofs.Eval.Bounds

/-
  Variables found by distance and by search.

  Key declarations include:
    * `Heap.FrameStep`
    * `Heap.built`
    * `Heap.Nearest`
    * `Heap.Rebound`
    * `Eval.distance_agrees_with_search`

  However frames have been made and changed, a search outward
  comes to the frame at the least distance at which the name
  is bound.  So both ways to a variable read and change the
  same binding, and neither ever makes a new one.
-/

namespace Scriptlet

namespace Heap

/- What is done to frames. -/
inductive FrameStep where
  | create (outer : Option FrameId)
  | define (frame : FrameId) (name : String) (value : Value)
  | assign (frame : FrameId) (name : String) (value : Value)
  | assignAt (frame : FrameId) (distance : Nat) (name : String) (value : Value)

/-
  A frame is created on its own or inside one that exists.
  An assignment that fails changes nothing.
-/
def build (heap : Heap) : FrameStep → Heap
  | .create outer =>
    if outer.all (· < heap.frames.size) then (heap.addFrame [] outer).2 else heap
  | .define frame name value => heap.define frame name value
  | .assign frame name value => (heap.assign? frame name value).getD heap
  | .assignAt frame distance name value => (heap.assignAt? frame distance name value).getD heap

/- The frames after some steps. -/
def built (steps : List FrameStep) : Heap := steps.foldl build empty

/- The frame at this distance binds the name, and none before it does. -/
structure Nearest (heap : Heap) (frame : FrameId) (name : String)
    (distance : Nat) (holder : FrameId) : Prop where
  ancestor : heap.ancestor? frame distance = some holder
  binds : (heap.local? holder name).isSome = true
  least : ∀ d < distance, ∀ f, heap.ancestor? frame d = some f → heap.local? f name = none

/- One binding has another value, and all else is the same. -/
structure Rebound (heap : Heap) (holder : FrameId) (name : String) (value : Value)
    (heap' : Heap) : Prop where
  others : heap' = { heap with frames := heap'.frames }
  size : heap'.frames.size = heap.frames.size
  parents : ∀ f, heap'.parent? f = heap.parent? f
  bindings : ∀ f key, heap'.local? f key =
    if f = holder ∧ key = name then some value else heap.local? f key

variable {heap : Heap} {frame holder : FrameId} {name : String}

theorem lt_of_binds (h : (heap.local? frame name).isSome = true) :
    frame < heap.frames.size := by
  rcases Option.isSome_iff_exists.mp h with ⟨value, hValue⟩
  rcases Option.bind_eq_some_iff.mp hValue with ⟨f, hFrame, _⟩
  exact (Array.getElem?_eq_some_iff.mp hFrame).1

theorem Nested.define (h : heap.Nested) (frame : FrameId) (name : String) (value : Value) :
    (heap.define frame name value).Nested := by
  intro f outer hParent
  rw [parent?_define] at hParent
  exact h f outer hParent

theorem Nested.addFrame (h : heap.Nested) {outer : Option FrameId}
    (hOuter : ∀ f ∈ outer, f < heap.frames.size) : (heap.addFrame [] outer).2.Nested := by
  intro f g hParent
  have hLt := lt_of_parent? hParent
  rw [Heap.addFrame, Array.size_push] at hLt
  rcases Nat.lt_succ_iff_lt_or_eq.mp hLt with hOld | rfl
  · rw [parent?, frames_addFrame _ _ _ hOld] at hParent
    exact h f g hParent
  · rw [parent?, frames_addFrame_new] at hParent
    exact hOuter g hParent

theorem Nested.build (h : heap.Nested) (step : FrameStep) : (heap.build step).Nested := by
  cases step with
  | create outer =>
    simp only [Heap.build]
    split
    · rename_i hOuter
      refine h.addFrame fun f hMem => ?_
      rw [Option.mem_def.mp hMem] at hOuter
      exact of_decide_eq_true hOuter
    · exact h
  | define frame name value => exact h.define frame name value
  | assign frame name value =>
    simp only [Heap.build, assign?]
    cases heap.holder? frame name with
    | none => exact h
    | some f => exact h.define f name value
  | assignAt frame distance name value =>
    simp only [Heap.build, assignAt?]
    cases heap.holderAt? frame distance name with
    | none => exact h
    | some f => exact h.define f name value

/- Frames are inside older ones, whatever has been done. -/
theorem built_nested (steps : List FrameStep) : (built steps).Nested := by
  have hRun (steps : List FrameStep) {heap : Heap} (h : heap.Nested) :
      (steps.foldl build heap).Nested := by
    induction steps generalizing heap with
    | nil => exact h
    | cons step others ih => exact ih (h.build step)
  exact hRun steps nofun

/- A search comes to the nearest frame that binds the name. -/
theorem Nearest.holder? {distance : Nat} (h : heap.Nearest frame name distance holder)
    (hNested : heap.Nested) : heap.holder? frame name = some holder := by
  induction distance generalizing frame with
  | zero =>
    obtain rfl : frame = holder := Option.some.inj h.ancestor
    rw [hNested.holder?_eq]
    rcases Option.isSome_iff_exists.mp h.binds with ⟨value, hValue⟩
    rw [hValue]
    rfl
  | succ distance ih =>
    have hNone := h.least 0 (Nat.succ_pos distance) frame rfl
    have hAncestor := h.ancestor
    rw [ancestor?_succ] at hAncestor
    rcases Option.bind_eq_some_iff.mp hAncestor with ⟨outer, hParent, hHolder⟩
    have hOuter : heap.Nearest outer name distance holder := by
      refine ⟨hHolder, h.binds, fun d hLess f hFrame => ?_⟩
      refine h.least (d + 1) (Nat.succ_lt_succ hLess) f ?_
      rw [ancestor?_succ, hParent]
      exact hFrame
    rw [hNested.holder?_eq, hNone, hParent]
    exact ih hOuter

/- What a search comes to is on the way out and binds the name. -/
theorem binds_of_holder? (h : heap.holder? frame name = some holder) :
    (heap.local? holder name).isSome = true ∧
      ∃ distance, heap.ancestor? frame distance = some holder := by
  fun_induction Heap.holder? heap frame name with
  | case1 frame value hLocal =>
    cases h
    exact ⟨by rw [hLocal]; rfl, 0, rfl⟩
  | case2 frame _ outer hLt hOuter ih =>
    rcases ih h with ⟨hBinds, distance, hAncestor⟩
    refine ⟨hBinds, distance + 1, ?_⟩
    have hParent : heap.parent? frame = some outer := by
      unfold outer? at hOuter
      split at hOuter
      · split at hOuter
        · cases hOuter
          assumption
        · cases hOuter
      · cases hOuter
    rw [ancestor?_succ, hParent]
    exact hAncestor
  | case3 => cases h

/- A search reads what the frame it comes to binds. -/
theorem get?_eq_holder? (heap : Heap) (frame : FrameId) (name : String) :
    heap.get? frame name = (heap.holder? frame name).bind (heap.local? · name) := by
  fun_induction Heap.get? heap frame name with
  | case1 frame value hLocal => rw [Heap.holder?, hLocal, Option.bind_some, hLocal]
  | case2 frame hLocal outer hLt hOuter ih => rw [Heap.holder?, hLocal, hOuter, ih]
  | case3 frame hLocal hOuter => rw [Heap.holder?, hLocal, hOuter, Option.bind_none]

theorem holderAt?_some {distance : Nat} :
    heap.holderAt? frame distance name = some holder ↔
      heap.ancestor? frame distance = some holder ∧ (heap.local? holder name).isSome = true :=
  Option.filter_eq_some_iff

/- A binding that is there is changed. -/
theorem define_rebound (h : (heap.local? holder name).isSome = true) (value : Value) :
    heap.Rebound holder name value (heap.define holder name value) where
  others := rfl
  size := by simp [define]
  parents f := parent?_define heap holder f name value
  bindings f key := by
    rw [local?_define]
    by_cases hHere : f = holder ∧ key = name
    · rw [if_pos ⟨hHere.1, hHere.2, hHere.1 ▸ lt_of_binds h⟩, if_pos hHere]
    · rw [if_neg hHere, if_neg fun hBoth => hHere ⟨hBoth.1, hBoth.2.1⟩]

theorem Rebound.isSome_eq {value : Value} {heap' : Heap}
    (h : heap.Rebound holder name value heap') (hBinds : (heap.local? holder name).isSome = true)
    (f : FrameId) (key : String) : (heap'.local? f key).isSome = (heap.local? f key).isSome := by
  rw [h.bindings]
  split
  · rename_i hHere
    rw [hHere.1, hHere.2, hBinds]
    rfl
  · rfl

end Heap

namespace Eval

/- An assignment changes the binding in the frame it finds, or fails. -/
theorem assign_eq (name : Token) (find : Heap → Option FrameId) (value : Value) (w : World) :
    assign name find value w =
      match find w.heap with
      | some f => .done () { w with heap := w.heap.define f name.lexeme value }
      | none => .failed (.atToken name (.undefinedVariable name.lexeme)) w := by
  change Action.bind _ _ w = _
  unfold Action.bind require
  cases find w.heap <;> rfl

theorem missing_message (name : String) :
    (Cause.undefinedVariable name).message = "Undefined variable '" ++ name ++ "'." := by
  change "Undefined variable " ++ ("'" ++ name ++ "'") ++ "." = _
  rw [← String.toList_inj]
  simp

theorem assign_isSome {name : Token} {find : Heap → Option FrameId} {value : Value}
    {w w' : World} (h : assign name find value w = .done () w')
    (hFind : ∀ f, find w.heap = some f → (w.heap.local? f name.lexeme).isSome = true)
    (f : FrameId) (key : String) :
    (w'.heap.local? f key).isSome = (w.heap.local? f key).isSome := by
  rw [assign_eq] at h
  cases hFound : find w.heap with
  | none =>
    rw [hFound] at h
    cases h
  | some holder =>
    rw [hFound] at h
    cases h
    have hBinds := hFind holder hFound
    exact (Heap.define_rebound hBinds value).isSome_eq hBinds f key

/-
  Of frames that were made and changed in whatever way: where
  a name is bound on the way out, a search and the distance of
  the nearest binding lead to it alike, and an assignment
  changes just this binding.  Where it is not, all ways fail
  and leave the frames as they are.  No assignment binds a
  name in a frame that did not bind it.
-/
theorem distance_agrees_with_search (steps : List Heap.FrameStep) (host : Host)
    (frame : FrameId) (name : Token) :
    let w : World := ⟨Heap.built steps, host⟩
    let missing := Cause.undefinedVariable name.lexeme
    let get := require name missing (·.get? frame name.lexeme)
    let getAt d := require name missing (·.getAt? frame d name.lexeme)
    let set := assign name (·.holder? frame name.lexeme)
    let setAt d := assign name (·.holderAt? frame d name.lexeme)
    let undefined : Fault := .atToken name missing
    (∀ d holder, w.heap.Nearest frame name.lexeme d holder →
      (∃ value, w.heap.local? holder name.lexeme = some value ∧
        get w = .done value w ∧ getAt d w = .done value w) ∧
      ∀ value, ∃ heap', w.heap.Rebound holder name.lexeme value heap' ∧
        set value w = .done () ⟨heap', host⟩ ∧ setAt d value w = .done () ⟨heap', host⟩) ∧
    ((∀ d f, w.heap.ancestor? frame d = some f → w.heap.local? f name.lexeme = none) →
      get w = .failed undefined w ∧ (∀ d, getAt d w = .failed undefined w) ∧
      ∀ value, set value w = .failed undefined w ∧
        ∀ d, setAt d value w = .failed undefined w) ∧
    missing.message = "Undefined variable '" ++ name.lexeme ++ "'." ∧
    ∀ value w', (set value w = .done () w' ∨ ∃ d, setAt d value w = .done () w') →
      ∀ f key, (w'.heap.local? f key).isSome = (w.heap.local? f key).isSome := by
  intro w missing get getAt set setAt undefined
  have hNested : w.heap.Nested := Heap.built_nested steps
  refine ⟨fun d holder hNearest => ?_, fun hNone => ?_, ?_, fun value w' hDone f key => ?_⟩
  · have hHolder := hNearest.holder? hNested
    have hHolderAt := Heap.holderAt?_some.mpr ⟨hNearest.ancestor, hNearest.binds⟩
    rcases Option.isSome_iff_exists.mp hNearest.binds with ⟨old, hOld⟩
    refine ⟨⟨old, hOld, ?_, ?_⟩, fun value => ?_⟩
    · simp only [get, require, Heap.get?_eq_holder?, hHolder, Option.bind_some, hOld]
    · simp only [getAt, require, Heap.getAt?, hNearest.ancestor, Option.bind_some, hOld]
    · refine ⟨_, Heap.define_rebound hNearest.binds value, ?_, ?_⟩
      · simp only [set, assign_eq, hHolder, w]
      · simp only [setAt, assign_eq, hHolderAt, w]
  · have hHolder : w.heap.holder? frame name.lexeme = none := by
      rw [Option.eq_none_iff_forall_ne_some]
      intro holder hFound
      rcases Heap.binds_of_holder? hFound with ⟨hBinds, d, hAncestor⟩
      rw [hNone d holder hAncestor] at hBinds
      cases hBinds
    have hHolderAt (d : Nat) : w.heap.holderAt? frame d name.lexeme = none := by
      rw [Option.eq_none_iff_forall_ne_some]
      intro holder hFound
      rcases Heap.holderAt?_some.mp hFound with ⟨hAncestor, hBinds⟩
      rw [hNone d holder hAncestor] at hBinds
      cases hBinds
    have hGetAt (d : Nat) : w.heap.getAt? frame d name.lexeme = none :=
      Option.bind_eq_none_iff.mpr (hNone d)
    refine ⟨?_, fun d => ?_, fun value => ⟨?_, fun d => ?_⟩⟩
    · simp only [get, require, Heap.get?_eq_holder?, hHolder, Option.bind_none, undefined]
    · simp only [getAt, require, hGetAt, undefined]
    · simp only [set, assign_eq, hHolder, undefined, missing]
    · simp only [setAt, assign_eq, hHolderAt, undefined, missing]
  · exact missing_message name.lexeme
  · rcases hDone with hDone | ⟨d, hDone⟩
    · exact assign_isSome hDone (fun _ hFound => (Heap.binds_of_holder? hFound).1) f key
    · exact assign_isSome hDone (fun _ hFound => (Heap.holderAt?_some.mp hFound).2) f key

end Eval

end Scriptlet
