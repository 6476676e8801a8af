import Mathlib.Data.List.Infix
import Mathlib.Logic.Relation
import Scriptlet.Heap.Unfold

/-
  The text of a value as a drawing of its unfolding.

  Key declarations include:
    * `Heap.Shows`
    * `Heap.at?`
    * `Heap.Repeats`
    * `Drawing`
    * `Heap.Draws`

  Texts and equality of values depend on arrays and objects,
  and on the texts of functions and classes.

  The unfolding of a value has the elements of an array
  wherever the array stands, and may go on without end.  A
  drawing of it is finite, as an array that stands inside of
  itself is cut.  The text of a value is that of its drawing:
    * `Heap.display_cuts_at_cycles`
-/

namespace Scriptlet

namespace Heap

section Arrays

variable {noted : List ArrayId} {a : ArrayId}

/- An array inside itself is cut short. -/
theorem displayInside_noted (heap : Heap) (hNoted : a ∈ noted) :
    heap.displayInside noted (.array a) = "[...]" := by
  rw [Heap.displayInside, dif_pos hNoted]

theorem displayInside_missing (heap : Heap) (hNoted : a ∉ noted)
    (hNone : heap.arrays[a]? = none) :
    heap.displayInside noted (.array a) = "[]" := by
  rw [Heap.displayInside, dif_neg hNoted]
  split
  · rfl
  · rename_i hSome
    rw [hNone] at hSome
    cases hSome

theorem displayInside_array (heap : Heap) (hNoted : a ∉ noted)
    {items : Array Value} (hItems : heap.arrays[a]? = some items) :
    heap.displayInside noted (.array a) = "[" ++ String.intercalate ", "
        (items.toList.map fun item =>
          heap.displayInside (a :: noted) item) ++ "]" := by
  rw [Heap.displayInside, dif_neg hNoted]
  split
  · rename_i hNone
    rw [hItems] at hNone
    cases hNone
  · rename_i found hFound
    obtain rfl : items = found := by simpa using hItems.symm.trans hFound
    rfl

variable {b : ArrayId} {pairs : List (ArrayId × ArrayId)}

theorem equalInside_arrays (heap : Heap) (hNe : ¬ a = b)
    (hPairs : (a, b) ∉ pairs) {xs ys : Array Value}
    (hXs : heap.arrays[a]? = some xs) (hYs : heap.arrays[b]? = some ys) :
    heap.equalInside pairs (.array a) (.array b) =
      (decide (xs.size = ys.size) && (xs.toList.zip ys.toList).all fun pair =>
          heap.equalInside ((a, b) :: pairs) pair.1 pair.2) := by
  rw [Heap.equalInside, if_neg hNe, dif_neg hPairs]
  split
  · rename_i xs' ys' hXs' hYs'
    obtain rfl : xs = xs' := by simpa using hXs.symm.trans hXs'
    obtain rfl : ys = ys' := by simpa using hYs.symm.trans hYs'
    rfl
  · rename_i hNone
    exact (hNone xs ys hXs hYs).elim

theorem equalInside_missing (heap : Heap) (hNe : ¬ a = b) (hPairs : (a, b) ∉ pairs)
    (hNone : ∀ xs ys, heap.arrays[a]? = some xs → heap.arrays[b]? = some ys → False) :
    heap.equalInside pairs (.array a) (.array b) = false := by
  rw [Heap.equalInside, if_neg hNe, dif_neg hPairs]
  split
  · rename_i xs ys hXs hYs
    exact (hNone xs ys hXs hYs).elim
  · rfl

end Arrays

/- The second heap shows what the first one shows. -/
structure Shows (heap heap' : Heap) : Prop where
  arrays : heap'.arrays = heap.arrays
  objects : heap'.objects = heap.objects
  functions (id : FunctionId) : heap'.functionText id = heap.functionText id
  classes (id : ClassId) : heap'.classText id = heap.classText id

namespace Shows

variable {heap heap' : Heap} (h : heap.Shows heap')
include h

theorem objectText (id : ObjectId) : heap'.objectText id = heap.objectText id := by
  simp only [Heap.objectText, h.objects, h.classes]

theorem displayInside (noted : List ArrayId) (value : Value) :
    heap'.displayInside noted value = heap.displayInside noted value := by
  induction noted, value using displayInside.induct heap with
  | case6 noted a hNoted => rw [displayInside_noted heap hNoted, displayInside_noted heap' hNoted]
  | case7 noted a hNoted hNone =>
    rw [displayInside_missing heap hNoted hNone,
      displayInside_missing heap' hNoted (h.arrays ▸ hNone)]
  | case8 noted a hNoted items hItems ih =>
    rw [displayInside_array heap hNoted hItems,
      displayInside_array heap' hNoted (h.arrays ▸ hItems)]
    simp only [ih]
  | _ => simp only [Heap.displayInside, h.functions, h.classes, h.objectText]

theorem display (value : Value) : heap'.display value = heap.display value :=
  h.displayInside [] value

theorem equalInside (noted : List (ArrayId × ArrayId)) (left right : Value) :
    heap'.equalInside noted left right = heap.equalInside noted left right := by
  induction noted, left, right using equalInside.induct heap with
  | case1 noted x y => simp only [Heap.equalInside]
  | case2 noted b => simp only [Heap.equalInside, if_true]
  | case3 noted a b hNe hNoted => simp only [Heap.equalInside, hNe, if_false, hNoted, dite_true]
  | case4 noted a b hNe hNoted xs ys hXs hYs ih =>
    rw [equalInside_arrays heap hNe hNoted hXs hYs,
      equalInside_arrays heap' hNe hNoted (h.arrays ▸ hXs) (h.arrays ▸ hYs)]
    simp only [ih]
  | case5 noted a b hNe hNoted hNone =>
    rw [equalInside_missing heap hNe hNoted hNone,
      equalInside_missing heap' hNe hNoted (h.arrays ▸ hNone)]
  | case6 noted left right hNumbers hArrays =>
    rw [Heap.equalInside.eq_3 heap _ _ _ hNumbers hArrays,
      Heap.equalInside.eq_3 heap' _ _ _ hNumbers hArrays]

theorem equal (left right : Value) : heap'.equal left right = heap.equal left right :=
  h.equalInside [] left right

end Shows

end Heap

/- A finite picture of an unfolding. -/
inductive Drawing where
  | plain (text : String)
  | cut
  | list (parts : List Drawing)

namespace Drawing

/- Parts stand in brackets, with commas between them. -/
def text : Drawing → String
  | .plain text => text
  | .cut => "[...]"
  | .list parts => "[" ++ String.intercalate ", " (parts.map fun part => part.text) ++ "]"

/- The part of a drawing at a place. -/
def at? : Drawing → List Nat → Option Drawing
  | drawing, [] => some drawing
  | .list parts, i :: path => parts[i]?.bind fun part => part.at? path
  | _, _ :: _ => none

/- What a drawing is from outside. -/
inductive Outside where
  | plain (text : String)
  | cut
  | list (size : Nat)
  deriving DecidableEq, Repr

def outside : Drawing → Outside
  | .plain text => .plain text
  | .cut => .cut
  | .list parts => .list parts.length

/- What is drawn at a place. -/
def outside? (drawing : Drawing) (path : List Nat) : Option Outside :=
  (drawing.at? path).map outside

@[simp] theorem outside?_nil (drawing : Drawing) :
    drawing.outside? [] = some drawing.outside := by
  cases drawing <;> rfl

theorem outside?_list (parts : List Drawing) (i : Nat) (path : List Nat) :
    (Drawing.list parts).outside? (i :: path) = parts[i]?.bind (·.outside? path) := by
  unfold outside?
  rw [at?]
  cases parts[i]? <;> rfl

/- A drawing is what is drawn at its places. -/
theorem eq_of_outside? :
    (drawing other : Drawing) →
      (∀ path, drawing.outside? path = other.outside? path) → drawing = other
  | .plain text, other, h => by
      have hRoot := h []
      cases other with
      | plain => cases hRoot; rfl
      | cut => cases hRoot
      | list => cases hRoot
  | .cut, other, h => by
      have hRoot := h []
      cases other with
      | plain => cases hRoot
      | cut => rfl
      | list => cases hRoot
  | .list parts, other, h => by
      have hRoot := h []
      cases other with
      | plain => cases hRoot
      | cut => cases hRoot
      | list parts' =>
        have hLength : parts.length = parts'.length := by simpa [outside] using hRoot
        congr 1
        apply List.ext_getElem hLength
        intro i hLt hLt'
        apply eq_of_outside? parts[i] parts'[i]
        intro path
        have hPart := h (i :: path)
        rwa [outside?_list, outside?_list, List.getElem?_eq_getElem hLt,
          List.getElem?_eq_getElem hLt'] at hPart
termination_by drawing => drawing
decreasing_by
  have hPart := List.sizeOf_lt_of_mem (List.getElem_mem hLt)
  simp only [Drawing.list.sizeOf_spec]
  omega

end Drawing

------------------------------------------------------------
-- Unfolding
------------------------------------------------------------

namespace Heap

open Drawing (Outside)

/-
  The value at a place of the unfolding.  Each number of the
  path leads to an element.
-/
def at? (heap : Heap) : Value → List Nat → Option Value
  | value, [] => some value
  | .array a, i :: path => (heap.element? a i).bind fun item => heap.at? item path
  | _, _ :: _ => none

/-
  The array at a place stands around it as well: further out
  in the unfolding, or among the arrays `around` the root.
-/
def Repeats (heap : Heap) (around : List ArrayId) (root : Value) (path : List Nat) : Prop :=
  ∃ a, heap.at? root path = some (.array a) ∧
    (a ∈ around ∨ ∃ outer, outer <+: path ∧ outer ≠ path ∧ heap.at? root outer = some (.array a))

/- No array around a place is repeated. -/
def Clear (heap : Heap) (around : List ArrayId) (root : Value) (path : List Nat) : Prop :=
  ∀ outer, outer <+: path → outer ≠ path → ¬ heap.Repeats around root outer

/- A value by itself; its elements are drawn on their own. -/
def outside (heap : Heap) : Value → Outside
  | .nil => .plain "nil"
  | .bool true => .plain "true"
  | .bool false => .plain "false"
  | .number x => .plain (Numeral.display x)
  | .string text => .plain text
  | .array a => .list (heap.length a)
  | .function id => .plain (heap.functionText id)
  | .native f => .plain ("<native fn " ++ f.name ++ ">")
  | .blueprint id => .plain (heap.classText id)
  | .object id => .plain (heap.objectText id)

/- What is drawn of a value, whether or not it is repeated. -/
inductive Drawn (heap : Heap) (repeated : Prop) (value : Value) : Outside → Prop where
  | cut : repeated → Drawn heap repeated value .cut
  | full : ¬ repeated → Drawn heap repeated value (heap.outside value)

/-
  A drawing shows the unfolding of a value.  A place is drawn
  if and only if no array around it is cut, and an array is
  cut if and only if it is among the arrays around it.
-/
def Draws (heap : Heap) (around : List ArrayId) (root : Value) (drawing : Drawing) : Prop :=
  ∀ path seen, drawing.outside? path = some seen ↔ heap.Clear around root path ∧
      ∃ value, heap.at? root path = some value ∧
        heap.Drawn (heap.Repeats around root path) value seen

/- An array is an element of another one. -/
def Contains (heap : Heap) (a b : ArrayId) : Prop := ∃ i, heap.element? a i = some (.array b)

variable {heap : Heap} {around : List ArrayId} {root value : Value} {a : ArrayId} {i : Nat}
variable {path : List Nat}

@[simp] theorem at?_nil (root : Value) : heap.at? root [] = some root := by
  cases root <;> rfl

theorem at?_array (heap : Heap) (a : ArrayId) (i : Nat) (path : List Nat) :
    heap.at? (.array a) (i :: path) = (heap.element? a i).bind (heap.at? · path) := by
  rw [at?]

theorem at?_append (heap : Heap) (root : Value) (outer path : List Nat) :
    heap.at? root (outer ++ path) = (heap.at? root outer).bind (heap.at? · path) := by
  induction outer generalizing root with
  | nil => simp
  | cons i outer ih =>
    cases root with
    | array a =>
      rw [List.cons_append, at?_array, at?_array]
      cases heap.element? a i with
      | none => rfl
      | some item => exact ih item
    | _ => rfl

theorem repeats_nil : heap.Repeats around (.array a) [] ↔ a ∈ around := by
  constructor
  · rintro ⟨b, hRoot, hAround | ⟨outer, hOuter, hNe, _⟩⟩
    · cases hRoot
      exact hAround
    · exact absurd (List.prefix_nil.mp hOuter) hNe
  · exact fun hAround => ⟨a, at?_nil _, .inl hAround⟩

/- Nothing of the unfolding stands around the root. -/
theorem clear_nil : heap.Clear around root [] :=
  fun _ hOuter hNe => absurd (List.prefix_nil.mp hOuter) hNe

/- Only arrays are repeated. -/
theorem not_repeats_nil (hRoot : ∀ a, root ≠ .array a) : ¬ heap.Repeats around root [] := by
  rintro ⟨a, hValue, _⟩
  rw [at?_nil] at hValue
  exact hRoot a (Option.some.inj hValue)

/- The root stands around the places of its elements. -/
theorem repeats_cons {item : Value} (hItem : heap.element? a i = some item) :
    heap.Repeats around (.array a) (i :: path) ↔ heap.Repeats (a :: around) item path := by
  have hInside (rest : List Nat) : heap.at? (.array a) (i :: rest) = heap.at? item rest := by
    rw [at?_array, hItem, Option.bind_some]
  unfold Repeats
  rw [hInside]
  apply exists_congr
  intro b
  apply and_congr_right
  intro _
  constructor
  · rintro (hAround | ⟨outer, hOuter, hNe, hFound⟩)
    · exact .inl (List.mem_cons_of_mem a hAround)
    · cases outer with
      | nil =>
        cases hFound
        exact .inl (List.mem_cons_self ..)
      | cons j outer =>
        rcases List.cons_prefix_cons.mp hOuter with ⟨rfl, hRest⟩
        rw [hInside] at hFound
        exact .inr ⟨outer, hRest, fun hSame => hNe (by rw [hSame]), hFound⟩
  · rintro (hAround | ⟨outer, hOuter, hNe, hFound⟩)
    · rcases List.mem_cons.mp hAround with rfl | hAround
      · exact .inr ⟨[], List.nil_prefix, by simp, at?_nil _⟩
      · exact .inl hAround
    · refine .inr ⟨i :: outer, ?_, ?_, ?_⟩
      · exact List.cons_prefix_cons.mpr ⟨rfl, hOuter⟩
      · exact fun hSame => hNe (List.cons.inj hSame).2
      · rw [hInside, hFound]

theorem clear_cons {item : Value} (hItem : heap.element? a i = some item) :
    heap.Clear around (.array a) (i :: path) ↔ a ∉ around ∧ heap.Clear (a :: around) item path := by
  constructor
  · intro hClear
    constructor
    · rw [← repeats_nil]
      exact hClear [] List.nil_prefix (by simp)
    · intro outer hOuter hNe
      rw [← repeats_cons hItem]
      exact hClear (i :: outer) (List.cons_prefix_cons.mpr ⟨rfl, hOuter⟩)
        fun hSame => hNe (List.cons.inj hSame).2
  · rintro ⟨hAround, hClear⟩ outer hOuter hNe
    cases outer with
    | nil => rwa [repeats_nil]
    | cons j outer =>
      rcases List.cons_prefix_cons.mp hOuter with ⟨rfl, hRest⟩
      rw [repeats_cons hItem]
      exact hClear outer hRest fun hSame => hNe (by rw [hSame])

/- A value that is no array has no places inside. -/
theorem Draws.plain {text : String} (hRoot : ∀ a, root ≠ .array a)
    (hText : heap.outside root = .plain text) : heap.Draws around root (.plain text) := by
  intro path seen
  cases path with
  | nil =>
    have hNot : ¬ heap.Repeats around root [] := not_repeats_nil hRoot
    rw [Drawing.outside?_nil, at?_nil]
    constructor
    · rintro ⟨⟩
      refine ⟨clear_nil, root, rfl, ?_⟩
      rw [Drawing.outside, ← hText]
      exact .full hNot
    · rintro ⟨_, value, hValue, hDrawn⟩
      cases hValue
      cases hDrawn with
      | cut hRepeats => exact absurd hRepeats hNot
      | full => rw [hText]; rfl
  | cons i path =>
    have hNone : heap.at? root (i :: path) = none := by
      cases root with
      | array a => exact absurd rfl (hRoot a)
      | _ => rfl
    rw [hNone]
    constructor
    · exact fun hSeen => nomatch hSeen
    · rintro ⟨_, value, hValue, _⟩
      cases hValue

/- Nothing is drawn inside of what is cut. -/
theorem Draws.cut (hAround : a ∈ around) : heap.Draws around (.array a) .cut := by
  have hRepeats : heap.Repeats around (.array a) [] := repeats_nil.mpr hAround
  intro path seen
  cases path with
  | nil =>
    rw [Drawing.outside?_nil, at?_nil]
    constructor
    · rintro ⟨⟩
      exact ⟨clear_nil, .array a, rfl, .cut hRepeats⟩
    · rintro ⟨_, value, _, hDrawn⟩
      cases hDrawn with
      | cut => rfl
      | full hNot => exact absurd hRepeats hNot
  | cons i path =>
    constructor
    · exact fun hSeen => nomatch hSeen
    · rintro ⟨hClear, _⟩
      exact absurd hRepeats (hClear [] List.nil_prefix (by simp))

/- All elements of an array are drawn, with it around them. -/
theorem Draws.list {parts : List Drawing} (hAround : a ∉ around)
    (hLength : parts.length = heap.length a)
    (hMissing : ∀ {i}, heap.element? a i = none → parts[i]? = none)
    (hParts : ∀ {i item}, heap.element? a i = some item →
        ∃ part, parts[i]? = some part ∧ heap.Draws (a :: around) item part) :
    heap.Draws around (.array a) (.list parts) := by
  have hNot : ¬ heap.Repeats around (.array a) [] :=
    fun hRepeats => hAround (repeats_nil.mp hRepeats)
  intro path seen
  cases path with
  | nil =>
    rw [Drawing.outside?_nil, at?_nil, Drawing.outside, hLength]
    constructor
    · rintro ⟨⟩
      exact ⟨clear_nil, .array a, rfl, .full hNot⟩
    · rintro ⟨_, value, hValue, hDrawn⟩
      cases hValue
      cases hDrawn with
      | cut hRepeats => exact absurd hRepeats hNot
      | full => rfl
  | cons i path =>
    rw [Drawing.outside?_list, at?_array]
    cases hItem : heap.element? a i with
    | none =>
      rw [hMissing hItem]
      constructor
      · exact fun hSeen => nomatch hSeen
      · rintro ⟨_, value, hValue, _⟩
        cases hValue
    | some item =>
      rcases hParts hItem with ⟨part, hPart, hDraws⟩
      rw [hPart, Option.bind_some, Option.bind_some, hDraws path seen, repeats_cons hItem,
        clear_cons hItem, and_iff_right hAround]

/- There is a single drawing of a value. -/
theorem Draws.unique {drawing other : Drawing}
    (h : heap.Draws around root drawing) (h' : heap.Draws around root other) : drawing = other := by
  apply Drawing.eq_of_outside?
  intro path
  apply Option.ext
  intro seen
  rw [h path seen, h' path seen]

theorem getElem?_toList_map {items : Array Value}
    (hItems : heap.arrays[a]? = some items) (draw : Value → Drawing) (i : Nat) :
    (items.toList.map draw)[i]? = (heap.element? a i).map draw := by
  rw [List.getElem?_map, Array.getElem?_toList, element?, hItems, Option.bind_some]

/- Printing draws. -/
theorem displayInside_draws (heap : Heap) (around : List ArrayId) (value : Value) :
    ∃ drawing, heap.Draws around value drawing ∧
        heap.displayInside around value = drawing.text := by
  induction around, value using displayInside.induct heap with
  | case6 around a hAround =>
    refine ⟨.cut, .cut hAround, ?_⟩
    rw [displayInside_noted heap hAround, Drawing.text]
  | case7 around a hAround hNone =>
    have hElement (i : Nat) : heap.element? a i = none := by rw [element?, hNone, Option.bind_none]
    refine ⟨.list [], .list hAround ?_ ?_ ?_, ?_⟩
    · rw [length, hNone]
      rfl
    · exact fun _ => rfl
    · intro i item hItem
      rw [hElement i] at hItem
      cases hItem
    · rw [displayInside_missing heap hAround hNone, Drawing.text]
      rfl
  | case8 around a hAround items hItems ih =>
    choose draw hDraws hText using ih
    have hParts := getElem?_toList_map hItems draw
    refine ⟨.list (items.toList.map draw), .list hAround ?_ ?_ ?_, ?_⟩
    · rw [length, hItems, List.length_map, Array.length_toList]
    · intro i hNone
      rw [hParts, hNone, Option.map_none]
    · intro i item hItem
      refine ⟨draw item, ?_, hDraws item⟩
      rw [hParts, hItem, Option.map_some]
    · rw [displayInside_array heap hAround hItems, Drawing.text, List.map_map]
      simp only [hText, Function.comp_def]
  | _ =>
    refine ⟨.plain _, .plain (by rintro _ ⟨⟩) rfl, ?_⟩
    simp only [displayInside, Drawing.text]

/-
  Arrays around a place that is drawn differ from each other,
  so it lies no deeper than there are arrays left.
-/
theorem length_le_of_drawn {around : List ArrayId} (hClear : heap.Clear around root path)
    (hValue : heap.at? root path = some value) : path.length ≤ unnoted heap.arrayIds around := by
  induction path generalizing root around with
  | nil => exact Nat.zero_le _
  | cons i path ih =>
    cases root with
    | array a =>
      rw [at?_array] at hValue
      rcases Option.bind_eq_some_iff.mp hValue with ⟨item, hItem, hRest⟩
      rcases (clear_cons hItem).mp hClear with ⟨hNew, hInside⟩
      rcases Option.bind_eq_some_iff.mp hItem with ⟨items, hItems, _⟩
      have hFewer : unnoted heap.arrayIds (a :: around) < unnoted heap.arrayIds around :=
        unnoted_note_lt (mem_arrayIds hItems) hNew
      have hLe := ih hInside hRest
      rw [List.length_cons]
      omega
    | _ => cases hValue

theorem unnoted_nil (members : List ArrayId) : unnoted members [] = members.length := by
  simp [unnoted]

/- A place inside of an array is reached through elements. -/
theorem transGen_of_at? {b : ArrayId} (hPath : path ≠ [])
    (h : heap.at? (.array a) path = some (.array b)) : Relation.TransGen heap.Contains a b := by
  induction path generalizing a with
  | nil => exact absurd rfl hPath
  | cons i path ih =>
    rw [at?_array] at h
    rcases Option.bind_eq_some_iff.mp h with ⟨item, hItem, hRest⟩
    cases path with
    | nil =>
      rw [at?_nil] at hRest
      cases hRest
      exact .single ⟨i, hItem⟩
    | cons j path =>
      cases item with
      | array c => exact .head ⟨i, hItem⟩ (ih (by simp) hRest)
      | _ => cases hRest

/- An array that is repeated contains itself. -/
theorem Repeats.contains_itself (h : heap.Repeats [] root path) :
    ∃ a, heap.at? root path = some (.array a) ∧ Relation.TransGen heap.Contains a a := by
  rcases h with ⟨a, hFound, hNone | ⟨outer, ⟨rest, rfl⟩, hNe, hOuter⟩⟩
  · cases hNone
  · refine ⟨a, hFound, ?_⟩
    rw [at?_append, hOuter, Option.bind_some] at hFound
    refine transGen_of_at? ?_ hFound
    rintro rfl
    exact hNe (List.append_nil outer).symm

/- Without cycles all of the unfolding is drawn. -/
theorem Draws.full {drawing : Drawing} (h : heap.Draws [] root drawing)
    (hCycles : ∀ path a, heap.at? root path = some (.array a) →
        ¬ Relation.TransGen heap.Contains a a) (path : List Nat) :
    drawing.outside? path = (heap.at? root path).map heap.outside := by
  have hNot (path : List Nat) : ¬ heap.Repeats [] root path := by
    intro hRepeats
    rcases hRepeats.contains_itself with ⟨a, hFound, hCycle⟩
    exact hCycles path a hFound hCycle
  apply Option.ext
  intro seen
  rw [h path seen, Option.map_eq_some_iff]
  constructor
  · rintro ⟨_, value, hValue, hDrawn⟩
    cases hDrawn with
    | cut hRepeats => exact absurd hRepeats (hNot path)
    | full => exact ⟨value, hValue, rfl⟩
  · rintro ⟨value, hValue, rfl⟩
    exact ⟨fun outer _ _ => hNot outer, value, hValue, .full (hNot path)⟩

/-
  Printing gives the text of the drawing of a value, and
  there is one such drawing.  It cuts an array if and only if
  the same array stands around it, so it goes no deeper than
  there are arrays.  If no array that contains itself is
  reached, all of the unfolding is drawn.
-/
theorem display_cuts_at_cycles (heap : Heap) (root : Value) :
    ∃ drawing,
      heap.Draws [] root drawing ∧
      (∀ other, heap.Draws [] root other → other = drawing) ∧
      heap.display root = drawing.text ∧
      (∀ path, (drawing.outside? path).isSome = true →
        path.length ≤ heap.arrays.size) ∧
      ((∀ path a, heap.at? root path = some (.array a) →
          ¬ Relation.TransGen heap.Contains a a) →
        ∀ path,
          drawing.outside? path =
            (heap.at? root path).map heap.outside) := by
  rcases heap.displayInside_draws [] root with
    ⟨drawing, hDraws, hText⟩
  refine ⟨drawing, hDraws, fun _ h => h.unique hDraws, hText,
    ?_, hDraws.full⟩
  intro path hSome
  rcases Option.isSome_iff_exists.mp hSome with ⟨seen, hSeen⟩
  rcases (hDraws path seen).mp hSeen with
    ⟨hClear, value, hValue, _⟩
  have hLe := length_le_of_drawn hClear hValue
  rwa [unnoted_nil, arrayIds, List.length_range] at hLe

/-
  An array of itself and of another array, which has a third
  one as both of its elements.
-/
def knot : Heap :=
  { empty with
    arrays :=
      #[#[.array 0, .array 1], #[.array 2, .array 2],
        #[.nil]] }

/- Only the first array is inside of itself. -/
theorem knot_contains {a b : ArrayId} (hFirst : a ≠ 0)
    (h : Relation.TransGen knot.Contains a b) : a < b := by
  have hStep {a b : ArrayId} (hFirst : a ≠ 0) (h : knot.Contains a b) : a < b := by
    rcases h with ⟨i, hItem⟩
    rcases a with _ | _ | _ | a
    · exact absurd rfl hFirst
    · rcases i with _ | _ | i <;> cases hItem <;> decide
    · rcases i with _ | i <;> cases hItem
    · cases hItem
  induction h with
  | single h => exact hStep hFirst h
  | tail _ h ih => exact Nat.lt_trans ih (hStep (Nat.ne_zero_of_lt ih) h)

/- The shared array is drawn twice, the first one is cut. -/
theorem knot_drawn :
    knot.display (.array 0) = "[[...], [[nil], [nil]]]" ∧
      Relation.TransGen knot.Contains 0 0 ∧
        ∃ drawing, knot.Draws [] (.array 1) drawing ∧
          drawing.text = "[[nil], [nil]]" ∧
            ∀ path,
              drawing.outside? path =
                (knot.at? (.array 1) path).map knot.outside := by
  have hCut :
      knot.display (.array 0) = "[[...], [[nil], [nil]]]" := by
    simp [display, displayInside, knot]
  have hFull : knot.display (.array 1) = "[[nil], [nil]]" := by
    simp [display, displayInside, knot]
  refine ⟨hCut, .single ⟨0, rfl⟩, ?_⟩
  rcases knot.display_cuts_at_cycles (.array 1) with
    ⟨drawing, hDraws, _, hText, _, hAll⟩
  refine ⟨drawing, hDraws, hText.symm.trans hFull, hAll ?_⟩
  intro path a hFound hCycle
  have hFirst : a ≠ 0 := by
    cases path with
    | nil =>
        cases hFound
        decide
    | cons i path =>
        exact Nat.ne_zero_of_lt
          (knot_contains (by decide)
            (transGen_of_at? (by simp) hFound))
  exact Nat.lt_irrefl a (knot_contains hFirst hCycle)

end Heap

end Scriptlet
