import Scriptlet.Heap.Lookup

/-
  What holds of the heap, whatever happens to it.

  Key declarations include:
    * `Heap.Grows`
    * `Heap.Settles`
    * `Heap.Extends`
    * `Heap.Sane`
    * `Heap.Step`
    * `Heap.Sane.chain`

  A heap only grows, and changes in few ways.  Each of them
  keeps what is there in shape, and whatever the heap refers
  to exists.  A frame keeps the frame around it and the names
  it binds.  Frames and classes refer to older ones only, so
  that every search along them comes to an end.
-/

namespace Scriptlet

namespace Bindings

variable {α : Type}

variable {name : String}

theorem isSome_get?_foldl (pairs : List (String × α)) {bindings : Bindings α}
    (h : (bindings.get? name).isSome = true ∨ name ∈ pairs.map Prod.fst) :
    ((pairs.foldl (fun bindings pair => bindings.insert pair.1 pair.2)
        bindings).get? name).isSome = true := by
  induction pairs generalizing bindings with
  | nil =>
    rcases h with h | h
    · exact h
    · cases h
  | cons pair others ih =>
    apply ih
    rw [get?_insert]
    by_cases hName : name = pair.1
    · simp [hName]
    · rw [if_neg hName]
      rcases h with h | h
      · exact .inl h
      · rcases List.mem_cons.mp h with h | h
        · exact absurd h hName
        · exact .inr h

/- Every name of the pairs is bound. -/
theorem isSome_get?_ofPairs {pairs : List (String × α)}
    (h : name ∈ pairs.map Prod.fst) : ((ofPairs pairs).get? name).isSome = true :=
  isSome_get?_foldl pairs (.inr h)

theorem mem_of_get?_foldl (pairs : List (String × α)) {bindings : Bindings α} {value : α}
    (h : (pairs.foldl (fun bindings pair => bindings.insert pair.1 pair.2)
        bindings).get? name = some value) : bindings.get? name = some value ∨
      (name, value) ∈ pairs := by
  induction pairs generalizing bindings with
  | nil => exact .inl h
  | cons pair others ih =>
    rcases ih h with h | h
    · rw [get?_insert] at h
      by_cases hName : name = pair.1
      · rw [if_pos hName] at h
        cases h
        subst hName
        exact .inr (List.mem_cons_self ..)
      · rw [if_neg hName] at h
        exact .inl h
    · exact .inr (List.mem_cons_of_mem _ h)

/- Nothing else is bound. -/
theorem mem_of_get?_ofPairs {pairs : List (String × α)}
    {value : α} (h : (ofPairs pairs).get? name = some value) : (name, value) ∈ pairs := by
  rcases mem_of_get?_foldl pairs h with h | h
  · cases h
  · exact h

end Bindings

namespace Heap

variable {heap : Heap}

theorem local?_define (heap : Heap) (frame other : FrameId) (name key : String)
    (value : Value) :
    (heap.define frame name value).local? other key =
      if other = frame ∧ key = name ∧ other < heap.frames.size then
        some value
      else heap.local? other key := by
  simp only [local?, define, Array.getElem?_modify]
  by_cases hFrame : frame = other
  · subst hFrame
    by_cases hSize : frame < heap.frames.size
    · simp only [Array.getElem?_eq_getElem hSize, if_true, Option.map_some, Option.bind_some,
        Bindings.get?_insert, true_and, hSize, and_true]
    · simp [hSize]
  · simp [hFrame, Ne.symm hFrame]

theorem parent?_define (heap : Heap) (frame other : FrameId) (name : String) (value : Value) :
    (heap.define frame name value).parent? other = heap.parent? other := by
  simp only [parent?, define, Array.getElem?_modify]
  split
  · rename_i hFrame
    subst hFrame
    cases heap.frames[frame]? <;> rfl
  · rfl

/- A frame that has a frame around it exists. -/
theorem lt_of_parent? {frame outer : FrameId}
    (h : heap.parent? frame = some outer) : frame < heap.frames.size := by
  rcases Option.bind_eq_some_iff.mp h with ⟨f, hGet, _⟩
  exact (Array.getElem?_eq_some_iff.mp hGet).1

section

variable (heap) (bindings : Bindings Value) (outer : Option FrameId)

theorem frames_addFrame {frame : FrameId} (h : frame < heap.frames.size) :
    (heap.addFrame bindings outer).2.frames[frame]? = heap.frames[frame]? := by
  simp only [addFrame]
  rw [Array.getElem?_push_lt h, Array.getElem?_eq_getElem h]

theorem frames_addFrame_new :
    (heap.addFrame bindings outer).2.frames[ heap.frames.size]? = some ⟨bindings, outer⟩ := by
  simp only [addFrame, Array.getElem?_push_size]

end

/- One frame further out, from the near side. -/
theorem ancestor?_succ (heap : Heap) (frame : FrameId) (distance : Nat) :
    heap.ancestor? frame (distance + 1) = (heap.parent? frame).bind fun outer =>
        heap.ancestor? outer distance := by
  induction distance with
  | zero =>
    simp only [ancestor?, Option.bind_some]
    cases heap.parent? frame <;> rfl
  | succ distance ih =>
    rw [ancestor?, ih]
    cases heap.parent? frame <;> rfl

/- What a search comes to binds the name. -/
theorem isSome_of_holder? {frame holder : FrameId} {name : String}
    (h : heap.holder? frame name = some holder) : (heap.local? holder name).isSome = true := by
  fun_induction Heap.holder? heap frame name with
  | case1 frame value hLocal =>
    cases h
    rw [hLocal]
    rfl
  | case2 _ _ _ _ _ ih => exact ih h
  | case3 => cases h

/- What a heap keeps of another one. -/
structure Grows (heap heap' : Heap) : Prop where
  size : heap.frames.size ≤ heap'.frames.size
  parent {frame : FrameId} : frame < heap.frames.size → heap'.parent? frame = heap.parent? frame
  bound {frame : FrameId} {name : String} : (heap.local? frame name).isSome = true →
      (heap'.local? frame name).isSome = true

/- The code is the same, and so are the frames and their names. -/
structure Settles (heap heap' : Heap) : Prop where
  size : heap'.frames.size = heap.frames.size
  parent (frame : FrameId) : heap'.parent? frame = heap.parent? frame
  bound (frame : FrameId) (name : String) :
    (heap'.local? frame name).isSome = (heap.local? frame name).isSome
  functions : heap'.functions = heap.functions
  classes : heap'.classes = heap.classes

namespace Grows

theorem of_frames {heap heap' : Heap} (h : heap'.frames = heap.frames) : heap.Grows heap' where
  size := Nat.le_of_eq (by rw [h])
  parent := by
    intro frame _
    simp only [parent?, h]
  bound := by
    intro frame name hBound
    simpa only [local?, h] using hBound

theorem refl (heap : Heap) : heap.Grows heap := .of_frames rfl

theorem trans {first second third : Heap} (h₁ : first.Grows second)
    (h₂ : second.Grows third) : first.Grows third where
  size := Nat.le_trans h₁.size h₂.size
  parent := by
    intro frame hFrame
    rw [h₂.parent (Nat.lt_of_lt_of_le hFrame h₁.size), h₁.parent hFrame]
  bound := fun hBound => h₂.bound (h₁.bound hBound)

end Grows

theorem grows_addFrame (heap : Heap) (bindings : Bindings Value)
    (outer : Option FrameId) : heap.Grows (heap.addFrame bindings outer).2 where
  size := by simp [addFrame]
  parent := by
    intro frame hFrame
    simp only [parent?, frames_addFrame _ _ _ hFrame]
  bound := by
    intro frame name hBound
    have hFrame : frame < heap.frames.size := by
      by_cases h : frame < heap.frames.size
      · exact h
      · simp [local?, Array.getElem?_eq_none (Nat.le_of_not_lt h)] at hBound
    simpa only [local?, frames_addFrame _ _ _ hFrame] using hBound

theorem grows_define (heap : Heap) (frame : FrameId) (name : String) (value : Value) :
    heap.Grows (heap.define frame name value) where
  size := by simp [define]
  parent := fun _ => parent?_define heap frame _ name value
  bound := by
    intro other key hBound
    rw [local?_define]
    split
    · rfl
    · exact hBound

namespace Settles

theorem of_same {heap heap' : Heap} (hFrames : heap'.frames = heap.frames)
    (hFunctions : heap'.functions = heap.functions)
    (hClasses : heap'.classes = heap.classes) : heap.Settles heap' where
  size := by rw [hFrames]
  parent := by simp only [parent?, hFrames, implies_true]
  bound := by simp only [local?, hFrames, implies_true]
  functions := hFunctions
  classes := hClasses

theorem trans {first second third : Heap} (h₁ : first.Settles second)
    (h₂ : second.Settles third) : first.Settles third where
  size := h₂.size.trans h₁.size
  parent frame := (h₂.parent frame).trans (h₁.parent frame)
  bound frame name := (h₂.bound frame name).trans (h₁.bound frame name)
  functions := h₂.functions.trans h₁.functions
  classes := h₂.classes.trans h₁.classes

theorem grows {heap heap' : Heap} (h : heap.Settles heap') : heap.Grows heap' where
  size := Nat.le_of_eq h.size.symm
  parent := fun _ => h.parent _
  bound := fun hBound => (h.bound _ _).trans hBound

/- A binding that is there is changed. -/
theorem define {frame : FrameId} {name : String} (h : (heap.local? frame name).isSome = true)
    (value : Value) : heap.Settles (heap.define frame name value) where
  size := by simp [Heap.define]
  parent other := parent?_define heap frame other name value
  bound other key := by
    rw [local?_define]
    split
    · rename_i hHere
      rw [hHere.1, hHere.2.1, h]
      rfl
    · rfl
  functions := rfl
  classes := rfl

end Settles

end Heap

------------------------------------------------------------
-- Sane Heaps
------------------------------------------------------------

namespace Bindings

variable {α : Type} {P : α → Prop}

/- Names that are bound stay bound. -/
def Stay (bindings bindings' : Bindings α) : Prop :=
  ∀ name, (bindings.get? name).isSome = true → (bindings'.get? name).isSome = true

/- What names are bound to satisfies `P`. -/
def All (P : α → Prop) (bindings : Bindings α) : Prop :=
  ∀ name value, bindings.get? name = some value → P value

variable {bindings : Bindings α}

theorem Stay.insert {bindings' : Bindings α}
    (h : bindings.Stay bindings') (name : String) (value : α) :
    bindings.Stay (bindings'.insert name value) := by
  intro other hBound
  rw [get?_insert]
  split
  · rfl
  · exact h other hBound

theorem All.nil : Bindings.All P [] := fun _ _ hGet => nomatch hGet

variable {value : α}

theorem All.insert (h : bindings.All P) (name : String) (hValue : P value) :
    (bindings.insert name value).All P := by
  intro other found hFound
  rw [get?_insert] at hFound
  split at hFound
  · cases hFound
    exact hValue
  · exact h other found hFound

theorem All.of_mem (h : ∀ pair ∈ bindings, P pair.2) : bindings.All P := by
  intro name value hGet
  rcases List.lookup_eq_some_iff.mp hGet with ⟨before, after, rfl, _⟩
  exact h _ (List.mem_append_right _ (List.mem_cons_self ..))

theorem All.ofPairs {pairs : List (String × α)} (h : ∀ pair ∈ pairs, P pair.2) :
    (Bindings.ofPairs pairs).All P := fun _ _ hGet => h _ (mem_of_get?_ofPairs hGet)

theorem All.single (name : String) (h : P value) :
    Bindings.All P [(name, value)] := All.nil.insert name h

end Bindings

namespace Heap

section

variable {α : Type} {xs ys zs : Array α}

/- Entries stay in their places, changed as `R` allows. -/
def Kept (R : α → α → Prop) (xs ys : Array α) : Prop :=
  ∀ (i : Nat) x, xs[i]? = some x → ∃ y, ys[i]? = some y ∧ R x y

/- Every entry satisfies `P` in its place. -/
def Each (P : Nat → α → Prop) (xs : Array α) : Prop := ∀ (i : Nat) x, xs[i]? = some x → P i x

variable {R : α → α → Prop}

theorem Kept.refl (hR : ∀ x, R x x) : Kept R xs xs := fun _ x hGet => ⟨x, hGet, hR x⟩

theorem Kept.trans (hR : ∀ {x y z}, R x y → R y z → R x z) (h : Kept R xs ys)
    (h' : Kept R ys zs) : Kept R xs zs := by
  intro i x hGet
  rcases h i x hGet with ⟨y, hGet, hFirst⟩
  rcases h' i y hGet with ⟨z, hGet, hSecond⟩
  exact ⟨z, hGet, hR hFirst hSecond⟩

theorem Kept.push (h : Kept R xs ys) (new : α) : Kept R xs (ys.push new) := by
  intro i x hGet
  rcases h i x hGet with ⟨y, hGet, hR⟩
  have hLt := (Array.getElem?_eq_some_iff.mp hGet).1
  refine ⟨y, ?_, hR⟩
  rw [Array.getElem?_push_lt hLt, ← Array.getElem?_eq_getElem hLt, hGet]

variable {change : α → α}

theorem Kept.modify (h : Kept R xs ys) (i : Nat)
    (hChange : ∀ {x y}, R x y → R x (change y)) : Kept R xs (ys.modify i change) := by
  intro j x hGet
  rcases h j x hGet with ⟨y, hGet, hR⟩
  rw [Array.getElem?_modify, hGet]
  split
  · exact ⟨change y, rfl, hChange hR⟩
  · exact ⟨y, rfl, hR⟩

theorem Kept.size_le (h : Kept R xs ys) : xs.size ≤ ys.size := by
  rcases Nat.eq_zero_or_pos xs.size with hZero | hPos
  · omega
  · have hLast : xs.size - 1 < xs.size := by omega
    rcases h _ _ (Array.getElem?_eq_getElem hLast) with ⟨y, hGet, _⟩
    have hLt := (Array.getElem?_eq_some_iff.mp hGet).1
    omega

variable {P Q : Nat → α → Prop}

theorem Each.mono (h : Each P xs) (hImp : ∀ {i x}, P i x → Q i x) : Each Q xs :=
  fun i x hGet => hImp (h i x hGet)

theorem Each.push (h : Each P xs) {new : α} (hNew : P xs.size new) : Each P (xs.push new) := by
  intro i x hGet
  rw [Array.getElem?_push] at hGet
  split at hGet
  · rename_i hLast
    cases hGet
    rw [hLast]
    exact hNew
  · exact h i x hGet

theorem Each.modify (h : Each P xs) (i : Nat)
    (hChange : ∀ {j x}, P j x → P j (change x)) : Each P (xs.modify i change) := by
  intro j x hGet
  rw [Array.getElem?_modify] at hGet
  split at hGet
  · rcases Option.map_eq_some_iff.mp hGet with ⟨old, hOld, rfl⟩
    exact hChange (h j old hOld)
  · exact h j x hGet

end

/-
  Frames and objects keep what they belong to and the names
  they bind, arrays their lengths, and code is what it was.
-/
structure Extends (heap heap' : Heap) : Prop where
  frames : Kept (fun f f' => f'.parent = f.parent ∧ f.bindings.Stay f'.bindings)
      heap.frames heap'.frames
  arrays : Kept (fun items items' => items'.size = items.size) heap.arrays heap'.arrays
  functions : Kept Eq heap.functions heap'.functions
  classes : Kept Eq heap.classes heap'.classes
  objects : Kept (fun o o' => o'.classId = o.classId ∧ o.fields.Stay o'.fields)
      heap.objects heap'.objects

variable {heap heap' heap'' : Heap}

theorem Extends.refl (heap : Heap) : heap.Extends heap where
  frames := .refl fun _ => ⟨rfl, fun _ => id⟩
  arrays := .refl fun _ => rfl
  functions := .refl fun _ => rfl
  classes := .refl fun _ => rfl
  objects := .refl fun _ => ⟨rfl, fun _ => id⟩

theorem Extends.trans (h : heap.Extends heap') (h' : heap'.Extends heap'') :
    heap.Extends heap'' where
  frames :=
    h.frames.trans
      (fun hFirst hSecond =>
        ⟨hSecond.1.trans hFirst.1, fun name hBound => hSecond.2 name (hFirst.2 name hBound)⟩)
      h'.frames
  arrays := h.arrays.trans (fun hFirst hSecond => hSecond.trans hFirst) h'.arrays
  functions := h.functions.trans .trans h'.functions
  classes := h.classes.trans .trans h'.classes
  objects :=
    h.objects.trans
      (fun hFirst hSecond =>
        ⟨hSecond.1.trans hFirst.1, fun name hBound => hSecond.2 name (hFirst.2 name hBound)⟩)
      h'.objects

/- What a value refers to exists. -/
def Has (heap : Heap) : Value → Prop
  | .array id => id < heap.arrays.size
  | .function id => id < heap.functions.size
  | .blueprint id => id < heap.classes.size
  | .object id => id < heap.objects.size
  | _ => True

theorem Has.later {value : Value} (h : heap.Has value)
    (hExtends : heap.Extends heap') : heap'.Has value := by
  cases value with
  | array => exact Nat.lt_of_lt_of_le h hExtends.arrays.size_le
  | function => exact Nat.lt_of_lt_of_le h hExtends.functions.size_le
  | blueprint => exact Nat.lt_of_lt_of_le h hExtends.classes.size_le
  | object => exact Nat.lt_of_lt_of_le h hExtends.objects.size_le
  | _ => trivial

/-
  What is in a heap refers to what exists in another one.
  All frames but that of the globals are inside older ones,
  and superclasses are older than their subclasses.
-/
structure Refers (heap whole : Heap) : Prop where
  globals : Heap.globals < heap.frames.size
  frames : Each
      (fun i f =>
        (f.parent = none ↔ i = Heap.globals) ∧ (∀ outer, f.parent = some outer → outer < i) ∧
            f.bindings.All whole.Has)
      heap.frames
  arrays : Each (fun _ items => ∀ value ∈ items, whole.Has value) heap.arrays
  functions : Each (fun _ closure => closure.frame < whole.frames.size) heap.functions
  classes : Each
      (fun i c =>
        (∀ parent, c.superclass = some parent → parent < i) ∧
          c.methods.All (·.frame < whole.frames.size))
      heap.classes
  objects : Each (fun _ o => o.classId < whole.classes.size ∧ o.fields.All whole.Has) heap.objects

/- Whatever a heap refers to exists in it. -/
def Sane (heap : Heap) : Prop := heap.Refers heap

theorem Refers.later (h : heap.Refers heap') (hExtends : heap'.Extends heap'') :
    heap.Refers heap'' where
  globals := h.globals
  frames :=
    h.frames.mono fun hFrame =>
      ⟨hFrame.1, hFrame.2.1, fun name value hGet => (hFrame.2.2 name value hGet).later hExtends⟩
  arrays := h.arrays.mono fun hItems value hMem => (hItems value hMem).later hExtends
  functions := h.functions.mono fun hFrame => Nat.lt_of_lt_of_le hFrame hExtends.frames.size_le
  classes :=
    h.classes.mono fun hClass =>
      ⟨hClass.1, fun name method hGet =>
        Nat.lt_of_lt_of_le (hClass.2 name method hGet) hExtends.frames.size_le⟩
  objects :=
    h.objects.mono fun hObject =>
      ⟨Nat.lt_of_lt_of_le hObject.1 hExtends.classes.size_le, fun name value hGet =>
          (hObject.2 name value hGet).later hExtends⟩

theorem initial_sane : Heap.initial.Sane where
  globals := Nat.zero_lt_one
  frames := by
    intro i f hGet
    cases i with
    | zero =>
      cases hGet
      refine ⟨⟨fun _ => rfl, fun _ => rfl⟩, ?_, ?_⟩
      · intro outer hOuter
        cases hOuter
      · exact .of_mem fun pair hMem => by
          rcases List.mem_map.mp hMem with ⟨native, _, rfl⟩
          trivial
    | succ => cases hGet
  arrays _ _ hGet := nomatch hGet
  functions _ _ hGet := nomatch hGet
  classes _ _ hGet := nomatch hGet
  objects _ _ hGet := nomatch hGet

/- The ways in which a heap changes. -/
inductive Step (heap : Heap) : Heap → Prop where
  | addFrame {bindings outer} : bindings.All heap.Has → outer < heap.frames.size →
      Step heap (heap.addFrame bindings (some outer)).2
  | addArray {items} : (∀ value ∈ items, heap.Has value) → Step heap (heap.addArray items).2
  | addFunction {closure} : closure.frame < heap.frames.size →
      Step heap (heap.addFunction closure).2
  | addClass {blueprint} :
      (∀ parent, blueprint.superclass = some parent → parent < heap.classes.size) →
      blueprint.methods.All (·.frame < heap.frames.size) → Step heap (heap.addClass blueprint).2
  | addObject {classId} : classId < heap.classes.size → Step heap (heap.addObject classId).2
  | define {value} (frame : FrameId) (name : String) : heap.Has value →
      Step heap (heap.define frame name value)
  | setElement {value} (id : ArrayId) (position : Nat) : heap.Has value →
      Step heap (heap.setElement id position value)
  | setField {value} (id : ObjectId) (name : String) : heap.Has value →
      Step heap (heap.setField id name value)

/- The heap only grows. -/
theorem Step.extends (h : heap.Step heap') : heap.Extends heap' := by
  have hSame := Extends.refl heap
  cases h with
  | addFrame => exact { hSame with frames := hSame.frames.push _ }
  | addArray => exact { hSame with arrays := hSame.arrays.push _ }
  | addFunction => exact { hSame with functions := hSame.functions.push _ }
  | addClass => exact { hSame with classes := hSame.classes.push _ }
  | addObject => exact { hSame with objects := hSame.objects.push _ }
  | define frame name =>
    exact { hSame with
      frames := hSame.frames.modify frame fun hFrame => ⟨hFrame.1, hFrame.2.insert name _⟩ }
  | setElement id =>
    exact { hSame with
      arrays := hSame.arrays.modify id fun hSize => Array.size_setIfInBounds.trans hSize }
  | setField object name =>
    exact { hSame with
      objects := hSame.objects.modify object fun hObject => ⟨hObject.1, hObject.2.insert name _⟩ }

/- What it refers to still exists. -/
theorem Step.sane (h : heap.Step heap') (hSane : heap.Sane) : heap'.Sane := by
  have hExtends := h.extends
  have hOld : heap.Refers heap' := hSane.later hExtends
  have hGlobals : Heap.globals < heap'.frames.size :=
    Nat.lt_of_lt_of_le hSane.globals hExtends.frames.size_le
  cases h with
  | @addFrame bindings outer hBindings hOuter =>
    refine { hOld with
      globals := hGlobals
      frames := hOld.frames.push ⟨⟨?_, ?_⟩, ?_, ?_⟩ }
    · exact fun hNone => nomatch hNone
    · exact fun hFirst => absurd hFirst (Nat.ne_of_gt hSane.globals)
    · exact fun _ hSame => Option.some.inj hSame ▸ hOuter
    · exact fun name value hGet => (hBindings name value hGet).later hExtends
  | addArray hItems =>
    exact { hOld with
      arrays := hOld.arrays.push fun value hMem => (hItems value hMem).later hExtends }
  | addFunction hFrame =>
    exact { hOld with
      functions := hOld.functions.push hFrame }
  | addClass hParent hMethods =>
    exact { hOld with
      classes := hOld.classes.push ⟨hParent, hMethods⟩ }
  | addObject hClass =>
    exact { hOld with
      objects := hOld.objects.push ⟨hClass, .nil⟩ }
  | define frame name hValue =>
    exact { hOld with
      globals := hGlobals
      frames := hOld.frames.modify frame fun hFrame =>
        ⟨hFrame.1, hFrame.2.1, hFrame.2.2.insert name (hValue.later hExtends)⟩ }
  | setElement id position hValue =>
    refine { hOld with
      arrays := hOld.arrays.modify id fun hItems value hMem => ?_ }
    rcases Array.mem_or_eq_of_mem_setIfInBounds hMem with hMem | rfl
    · exact hItems value hMem
    · exact hValue.later hExtends
  | setField object name hValue =>
    exact { hOld with
      objects := hOld.objects.modify object fun hObject =>
        ⟨hObject.1, hObject.2.insert name (hValue.later hExtends)⟩ }

/- Frames are inside older ones. -/
def Nested (heap : Heap) : Prop :=
  ∀ frame outer, heap.parent? frame = some outer → outer < frame

namespace Nested

variable (h : heap.Nested)
include h

theorem outer?_eq (frame : FrameId) :
    (heap.outer? frame).map Subtype.val = heap.parent? frame := by
  unfold outer?
  cases hParent : heap.parent? frame with
  | none => rfl
  | some outer =>
    dsimp only
    rw [dif_pos (h frame outer hParent)]
    rfl

/- A search goes on outward wherever there is a frame. -/
theorem get?_eq (frame : FrameId) (name : String) :
    heap.get? frame name = (heap.local? frame name).or
        ((heap.parent? frame).bind (heap.get? · name)) := by
  rw [get?, ← h.outer?_eq]
  cases heap.local? frame name <;>
    cases heap.outer? frame <;> rfl

theorem holder?_eq (frame : FrameId) (name : String) :
    heap.holder? frame name = ((heap.local? frame name).map fun _ => frame).or
        ((heap.parent? frame).bind (heap.holder? · name)) := by
  rw [holder?, ← h.outer?_eq]
  cases heap.local? frame name <;>
    cases heap.outer? frame <;> rfl

end Nested

namespace Sane

variable (h : heap.Sane)
include h

variable {frame : FrameId}

theorem nested : heap.Nested := by
  intro frame outer hParent
  rcases Option.bind_eq_some_iff.mp hParent with ⟨f, hFrame, hOuter⟩
  exact (h.frames frame f hFrame).2.1 outer hOuter

/- Every chain of frames ends in that of the globals. -/
theorem chain (hFrame : frame < heap.frames.size) :
    ∃ distance, heap.ancestor? frame distance = some Heap.globals := by
  induction frame using Nat.strongRecOn with
  | ind frame ih =>
    have hGet := Array.getElem?_eq_getElem hFrame
    have hParent : heap.parent? frame = heap.frames[frame].parent := by
      rw [parent?, hGet]
      rfl
    cases hOuter : heap.frames[frame].parent with
    | none =>
      refine ⟨0, ?_⟩
      rw [((h.frames frame _ hGet).1).mp hOuter]
      rfl
    | some outer =>
      rw [hOuter] at hParent
      have hLt := h.nested frame outer hParent
      rcases ih outer hLt (Nat.lt_trans hLt hFrame) with ⟨distance, hEnd⟩
      refine ⟨distance + 1, ?_⟩
      rw [ancestor?_succ, hParent, Option.bind_some, hEnd]

theorem parent?_globals : heap.parent? Heap.globals = none := by
  have hGet := Array.getElem?_eq_getElem h.globals
  rw [parent?, hGet]
  exact ((h.frames _ _ hGet).1).mpr rfl

theorem get?_eq (frame : FrameId) (name : String) :
    heap.get? frame name = (heap.local? frame name).or
        ((heap.parent? frame).bind (heap.get? · name)) := h.nested.get?_eq frame name

theorem holder?_eq (frame : FrameId) (name : String) :
    heap.holder? frame name = ((heap.local? frame name).map fun _ => frame).or
        ((heap.parent? frame).bind (heap.holder? · name)) := h.nested.holder?_eq frame name

theorem findMethod?_eq (classId : ClassId) (name : String) :
    heap.findMethod? classId name = heap.classes[classId]?.bind fun c =>
        (c.methods.get? name).or (c.superclass.bind (heap.findMethod? · name)) := by
  rw [findMethod?]
  cases hClass : heap.classes[classId]? with
  | none => rfl
  | some c =>
    dsimp only [Option.bind_some]
    cases c.methods.get? name with
    | some method => rfl
    | none =>
      cases hParent : c.superclass with
      | none => rfl
      | some parent => exact if_pos ((h.classes classId c hClass).1 parent hParent)

variable {name : String} {value : Value}

/- Whatever a search finds exists. -/
theorem local?_has (hFound : heap.local? frame name = some value) : heap.Has value := by
  rcases Option.bind_eq_some_iff.mp hFound with ⟨f, hFrame, hGet⟩
  exact (h.frames frame f hFrame).2.2 name value hGet

theorem get?_has (hFound : heap.get? frame name = some value) : heap.Has value := by
  fun_induction get? heap frame name with
  | case1 frame value hLocal =>
    cases hFound
    exact h.local?_has hLocal
  | case2 frame _ outer _ _ ih => exact ih hFound
  | case3 => cases hFound

theorem getAt?_has {distance : Nat} (hFound : heap.getAt? frame distance name = some value) :
    heap.Has value := by
  rcases Option.bind_eq_some_iff.mp hFound with ⟨f, _, hLocal⟩
  exact h.local?_has hLocal

theorem findMethod?_lt {classId : ClassId} {method : Closure}
    (hFound : heap.findMethod? classId name = some method) : method.frame < heap.frames.size := by
  fun_induction findMethod? heap classId name with
  | case1 => cases hFound
  | case2 classId c hClass _ hOwn =>
    cases hFound
    exact (h.classes classId c hClass).2 name _ hOwn
  | case3 _ _ _ _ _ _ _ ih => exact ih hFound
  | case4 => cases hFound
  | case5 => cases hFound

end Sane

end Heap

end Scriptlet
