import Scriptlet.Heap.Basic
import Scriptlet.Numeral

/-
  Text and equality of values, through arrays that may
  contain themselves.

  Key declarations include:
    * `Heap.display`
    * `Heap.equal`

  Both follow arrays into their elements.  Writing notes the
  arrays it is inside of and cuts at these.  Comparing notes
  the pairs it is inside of and takes these as equal.  Each
  step inward notes something new, so both end.
-/

namespace Scriptlet

namespace Heap

/- The members of a list that are not noted yet. -/
def unnoted {α : Type} [BEq α] (members noted : List α) : Nat :=
  members.countP fun a => !noted.contains a

theorem unnoted_cons {α : Type} [BEq α] (a : α) (members noted : List α) :
    unnoted (a :: members) noted = unnoted members noted +
        if noted.contains a then 0 else 1 := by
  cases h : noted.contains a <;> simp [unnoted, h]

theorem unnoted_note_le {α : Type} [BEq α] (members noted : List α) (a : α) :
    unnoted members (a :: noted) ≤ unnoted members noted := by
  unfold unnoted
  apply List.countP_mono_left
  intro b _ hb
  simp only [List.contains_cons, Bool.not_or, Bool.and_eq_true] at hb
  exact hb.2

/- Noting a new member leaves fewer. -/
theorem unnoted_note_lt {α : Type} [BEq α] [LawfulBEq α] {members noted : List α} {a : α}
    (hMember : a ∈ members) (hNew : a ∉ noted) :
    unnoted members (a :: noted) < unnoted members noted := by
  induction members with
  | nil => simp at hMember
  | cons b others ih =>
      have hLe := unnoted_note_le others noted a
      rw [unnoted_cons, unnoted_cons]
      by_cases hb : b = a
      · subst hb
        have hOld : noted.contains b = false := by
          simpa using hNew
        simp only [List.contains_cons, BEq.rfl, Bool.true_or, hOld, if_true]
        simp only [Bool.false_eq_true, if_false]
        omega
      · have hOthers : a ∈ others := by
          cases hMember with
          | head => exact absurd rfl hb
          | tail _ h => exact h
        have hLt := ih hOthers
        have hBeq : (b == a) = false := beq_eq_false_iff_ne.2 hb
        simp only [List.contains_cons, hBeq, Bool.false_or]
        omega

/- The arrays of a heap. -/
def arrayIds (heap : Heap) : List ArrayId := List.range heap.arrays.size

/- The pairs of arrays of a heap. -/
def arrayPairs (heap : Heap) : List (ArrayId × ArrayId) :=
  heap.arrayIds.flatMap fun a =>
    heap.arrayIds.map fun b => (a, b)

theorem mem_arrayIds {heap : Heap} {a : ArrayId} {items : Array Value}
    (h : heap.arrays[a]? = some items) : a ∈ heap.arrayIds := by
  obtain ⟨hLt, _⟩ := Array.getElem?_eq_some_iff.1 h
  exact List.mem_range.2 hLt

theorem mem_arrayPairs {heap : Heap} {a b : ArrayId} (ha : a ∈ heap.arrayIds)
    (hb : b ∈ heap.arrayIds) : (a, b) ∈ heap.arrayPairs := by
  simp only [arrayPairs, List.mem_flatMap, List.mem_map]
  exact ⟨a, ha, b, hb, rfl⟩

def functionText (heap : Heap) (id : FunctionId) : String :=
  match heap.functions[id]? with
  | some closure => "<fn " ++ closure.function.label ++ ">"
  | none => "<fn anonymous>"

def classText (heap : Heap) (id : ClassId) : String :=
  match heap.classes[id]? with
  | some blueprint => blueprint.name
  | none => ""

def objectText (heap : Heap) (id : ObjectId) : String :=
  match heap.objects[id]? with
  | some object =>
      "<" ++ heap.classText object.classId ++ " instance>"
  | none => "< instance>"

/-
  The text of a value inside the `noted` arrays; one of
  these is cut short.
-/
def displayInside (heap : Heap) (noted : List ArrayId) (value : Value) : String :=
  match value with
  | .nil => "nil"
  | .bool true => "true"
  | .bool false => "false"
  | .number x => Numeral.display x
  | .string text => text
  | .array a =>
      if _ : a ∈ noted then "[...]"
      else
        match _ : heap.arrays[a]? with
        | none => "[]"
        | some items =>
            let parts :=
              items.toList.map fun item =>
                heap.displayInside (a :: noted) item
            "[" ++ String.intercalate ", " parts ++ "]"
  | .function id => heap.functionText id
  | .native f => "<native fn " ++ f.name ++ ">"
  | .blueprint id => heap.classText id
  | .object id => heap.objectText id
termination_by unnoted heap.arrayIds noted
decreasing_by
  exact unnoted_note_lt (mem_arrayIds (by assumption)) (by assumption)

/- The printed text of a value. -/
def display (heap : Heap) (value : Value) : String := heap.displayInside [] value

/-
  Equality of values when the `noted` pairs are taken as
  equal.  Numbers compare as floats, arrays by elements, all
  else by identity.
-/
def equalInside (heap : Heap) (noted : List (ArrayId × ArrayId)) (left right : Value) : Bool :=
  match left, right with
  | .number x, .number y => x == y
  | .array a, .array b =>
      if a = b then true
      else if _ : (a, b) ∈ noted then true
      else
        match _ : heap.arrays[a]?,
            _ : heap.arrays[b]? with
        | some xs, some ys =>
            decide (xs.size = ys.size) && (xs.toList.zip ys.toList).all fun pair =>
                heap.equalInside ((a, b) :: noted) pair.1 pair.2
        | _, _ => false
  | left, right => decide (left = right)
termination_by unnoted heap.arrayPairs noted
decreasing_by
  exact unnoted_note_lt
    (mem_arrayPairs (mem_arrayIds (by assumption)) (mem_arrayIds (by assumption))) (by assumption)

/- The equality that programs test. -/
def equal (heap : Heap) (left right : Value) : Bool := heap.equalInside [] left right

end Heap

end Scriptlet
