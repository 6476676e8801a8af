import Mathlib
import Scriptlet.Eval.Operator

/-
  Equality of values as bisimilarity.

  Key declarations include:
    * `Heap.Agree`
    * `Heap.agreement`
    * `Heap.Bisimilar`
    * `Heap.Assumed`

  Values are bisimilar if they agree at the outside, and at
  the inside again without end.  Comparison follows a single
  path at a time and takes the pairs on it as equal, which is
  enough to find out:
    * `Heap.equality_is_bisimilarity`
-/

namespace Scriptlet

namespace Heap

/- Relations between values. -/
abbrev Relation := Value → Value → Prop

/- The same number of elements, related by position. -/
def AgreeInside (R : Relation) (xs ys : Array Value) : Prop :=
  xs.size = ys.size ∧ ∀ (i : Nat) (x y : Value), xs[i]? = some x → ys[i]? = some y → R x y

/-
  Values that agree at the outside, when `R` tells which
  elements agree.
-/
inductive Agree (heap : Heap) (R : Relation) : Relation where
  | nil : Agree heap R .nil .nil
  | bool (b : Bool) : Agree heap R (.bool b) (.bool b)
  | number {x y : Float} : (x == y) = true → Agree heap R (.number x) (.number y)
  | string (s : String) : Agree heap R (.string s) (.string s)
  | sameArray (a : ArrayId) : Agree heap R (.array a) (.array a)
  | array {a b : ArrayId} {xs ys : Array Value} : heap.arrays[a]? = some xs →
      heap.arrays[b]? = some ys → AgreeInside R xs ys → Agree heap R (.array a) (.array b)
  | function (f : FunctionId) : Agree heap R (.function f) (.function f)
  | native (f : Native) : Agree heap R (.native f) (.native f)
  | blueprint (c : ClassId) : Agree heap R (.blueprint c) (.blueprint c)
  | object (o : ObjectId) : Agree heap R (.object o) (.object o)

variable {R S : Relation} {xs ys : Array Value} {left middle right : Value}

theorem AgreeInside.mono (hRS : R ≤ S) (h : AgreeInside R xs ys) :
    AgreeInside S xs ys := ⟨h.1, fun i x y hx hy => hRS x y (h.2 i x y hx hy)⟩

theorem Agree.mono {heap : Heap} (hRS : R ≤ S) (h : heap.Agree R left right) :
    heap.Agree S left right := by
  cases h with
  | number h => exact .number h
  | array hxs hys h => exact .array hxs hys (h.mono hRS)
  | _ => constructor

/- One look at the outside, as an operator on relations. -/
def agreement (heap : Heap) : Relation →o Relation where
  toFun := heap.Agree
  monotone' := fun _ _ hRS _ _ h => h.mono hRS

/- The largest relation between values that agree. -/
def Bisimilar (heap : Heap) : Relation := heap.agreement.gfp

section

variable {heap : Heap}

theorem bisimilar_iff {left right : Value} :
    heap.Bisimilar left right ↔ heap.Agree heap.Bisimilar left right := by
  have hFixed : heap.Agree heap.Bisimilar = heap.Bisimilar := heap.agreement.map_gfp
  rw [hFixed]

/- Values are bisimilar if some such relation has them. -/
theorem Bisimilar.of_relation (hR : ∀ left right, R left right → heap.Agree R left right)
    (h : R left right) : heap.Bisimilar left right := heap.agreement.le_gfp hR left right h

theorem bisimilar_isGreatest (heap : Heap) :
    IsGreatest {R : Relation | ∀ left right, R left right ↔ heap.Agree R left right}
      heap.Bisimilar := by
  refine ⟨fun _ _ => bisimilar_iff, ?_⟩
  intro R hR left right h
  exact .of_relation (fun left right => (hR left right).mp) h

end

section

variable {test : Value → Value → Bool} {noted : List (ArrayId × ArrayId)}

variable {heap : Heap}

theorem AgreeInside.all_zip (hTest : ∀ x y, R x y → test x y = true)
    (h : AgreeInside R xs ys) :
    (xs.toList.zip ys.toList).all (fun pair => test pair.1 pair.2) = true := by
  rw [List.all_eq_true]
  intro pair hPair
  obtain ⟨i, hGet⟩ := List.mem_iff_getElem?.mp hPair
  obtain ⟨hx, hy⟩ := List.getElem?_zip_eq_some.mp hGet
  rw [Array.getElem?_toList] at hx hy
  exact hTest _ _ (h.2 i _ _ hx hy)

theorem agreeInside_of_all_zip (hSize : xs.size = ys.size)
    (h : (xs.toList.zip ys.toList).all (fun pair => test pair.1 pair.2) = true) :
    AgreeInside (fun x y => test x y = true) xs ys := by
  refine ⟨hSize, ?_⟩
  intro i x y hx hy
  have hGet : (xs.toList.zip ys.toList)[i]? = some (x, y) := by
    rw [List.getElem?_zip_eq_some, Array.getElem?_toList, Array.getElem?_toList]
    exact ⟨hx, hy⟩
  exact List.all_eq_true.mp h (x, y) (List.mem_iff_getElem?.mpr ⟨i, hGet⟩)

/- Without arrays and numbers, to agree is to be the same. -/
theorem agree_iff_eq
    (hNumbers : ∀ x y,
      left = .number x → right = .number y → False)
    (hArrays : ∀ a b,
      left = .array a → right = .array b → False) :
    heap.Agree R left right ↔ left = right := by
  constructor
  · intro h
    cases h with
    | number => exact (hNumbers _ _ rfl rfl).elim
    | array => exact (hArrays _ _ rfl rfl).elim
    | _ => rfl
  · rintro rfl
    cases left with
    | number x => exact (hNumbers x x rfl rfl).elim
    | _ => constructor

/- Comparison never tells bisimilar values apart. -/
theorem Bisimilar.equalInside (h : heap.Bisimilar left right)
    (noted : List (ArrayId × ArrayId)) :
    heap.equalInside noted left right = true := by
  fun_induction heap.equalInside noted left right with
  | case1 noted x y =>
    cases bisimilar_iff.mp h with
    | number h => exact h
  | case2 noted b => rfl
  | case3 noted a b hNe hNoted => rfl
  | case4 noted a b hNe hNew xs ys hxs hys ih =>
    cases bisimilar_iff.mp h with
    | sameArray => exact absurd rfl hNe
    | array hxs' hys' h =>
      cases hxs.symm.trans hxs'
      cases hys.symm.trans hys'
      rw [Bool.and_eq_true, decide_eq_true_eq]
      exact ⟨h.1, h.all_zip fun x y hxy => ih (x, y) hxy⟩
  | case5 noted a b hNe hNew hMissing =>
    cases bisimilar_iff.mp h with
    | sameArray => exact absurd rfl hNe
    | array hxs hys => exact (hMissing _ _ hxs hys).elim
  | case6 noted left right hNumbers hArrays =>
    rw [decide_eq_true_eq]
    exact (agree_iff_eq hNumbers hArrays).mp (bisimilar_iff.mp h)

/- The noted pairs, as a relation. -/
def Noted (noted : List (ArrayId × ArrayId)) : Relation :=
  fun left right => ∃ a b, (a, b) ∈ noted ∧ left = .array a ∧ right = .array b

/-
  Values related by a relation whose pairs agree once the
  noted pairs are taken as related.
-/
def Assumed (heap : Heap) (noted : List (ArrayId × ArrayId)) : Relation :=
  fun left right =>
    ∃ R : Relation, (∀ x y, R x y → heap.Agree (R ⊔ Noted noted) x y) ∧ (R ⊔ Noted noted) left right

/- Values that agree whatever is inside of them. -/
theorem Assumed.of_agree (h : ∀ R, heap.Agree R left right) :
    heap.Assumed noted left right := by
  refine ⟨fun x y => x = left ∧ y = right, ?_, .inl ⟨rfl, rfl⟩⟩
  rintro x y ⟨rfl, rfl⟩
  exact h _

/-
  A pair of arrays need not be assumed if its elements are
  related once it is.
-/
theorem Assumed.of_inside {a b : ArrayId} (hxs : heap.arrays[a]? = some xs)
    (hys : heap.arrays[b]? = some ys) (h : AgreeInside (heap.Assumed ((a, b) :: noted)) xs ys) :
    heap.Assumed noted (.array a) (.array b) := by
  -- all relations that serve elements, and the pair itself
  let R : Relation := fun x y =>
    (x = .array a ∧ y = .array b) ∨ ∃ S : Relation, S x y ∧ ∀ x y, S x y →
          heap.Agree (S ⊔ Noted ((a, b) :: noted)) x y
  have hNoted : Noted ((a, b) :: noted) ≤ R ⊔ Noted noted := by
    rintro x y ⟨c, d, hMem, rfl, rfl⟩
    rcases List.mem_cons.mp hMem with hPair | hMem
    · cases hPair
      exact .inl (.inl ⟨rfl, rfl⟩)
    · exact .inr ⟨c, d, hMem, rfl, rfl⟩
  have hWithin {S : Relation} (hS : ∀ x y, S x y → heap.Agree (S ⊔ Noted ((a, b) :: noted)) x y) :
      S ⊔ Noted ((a, b) :: noted) ≤ R ⊔ Noted noted := by
    rintro x y (hxy | hxy)
    · exact .inl (.inr ⟨S, hxy, hS⟩)
    · exact hNoted x y hxy
  refine ⟨R, ?_, .inl (.inl ⟨rfl, rfl⟩)⟩
  rintro x y (⟨rfl, rfl⟩ | ⟨S, hxy, hS⟩)
  · refine .array hxs hys (h.mono ?_)
    rintro x y ⟨S, hS, hxy⟩
    exact hWithin hS x y hxy
  · exact (hS x y hxy).mono (hWithin hS)

/- What comparison finds equal is related, assuming the path. -/
theorem assumed_of_equalInside (h : heap.equalInside noted left right = true) :
    heap.Assumed noted left right := by
  fun_induction heap.equalInside noted left right with
  | case1 noted x y => exact .of_agree fun _ => .number h
  | case2 noted b => exact .of_agree fun _ => .sameArray b
  | case3 noted a b hNe hNoted => exact ⟨⊥, fun _ _ h => h.elim, .inr ⟨a, b, hNoted, rfl, rfl⟩⟩
  | case4 noted a b hNe hNew xs ys hxs hys ih =>
    rw [Bool.and_eq_true, decide_eq_true_eq] at h
    apply Assumed.of_inside hxs hys
    refine (agreeInside_of_all_zip h.1 h.2).mono ?_
    exact fun x y hxy => ih (x, y) hxy
  | case5 noted a b hNe hNew hMissing => cases h
  | case6 noted left right hNumbers hArrays =>
    rw [decide_eq_true_eq] at h
    exact .of_agree fun _ => (agree_iff_eq hNumbers hArrays).mpr h

theorem bisimilar_of_assumed (h : heap.Assumed [] left right) : heap.Bisimilar left right := by
  obtain ⟨R, hR, h⟩ := h
  have hNone : R ⊔ Noted [] = R := by
    refine sup_eq_left.mpr ?_
    rintro x y ⟨a, b, hMem, _⟩
    cases hMem
  rw [hNone] at hR h
  exact .of_relation hR h

/- Comparison decides bisimilarity. -/
theorem equal_eq_true_iff {left right : Value} :
    heap.equal left right = true ↔ heap.Bisimilar left right :=
  ⟨fun h => bisimilar_of_assumed (assumed_of_equalInside h), fun h => h.equalInside []⟩

end

section

variable {heap : Heap}

theorem Agree.symm (h : heap.Agree R left right) :
    heap.Agree (fun x y => R y x) right left := by
  cases h with
  | number h => exact .number (BEq.symm h)
  | array hxs hys h =>
    refine .array hys hxs ⟨h.1.symm, ?_⟩
    exact fun i y x hy hx => h.2 i x y hx hy
  | _ => constructor

theorem Bisimilar.symm (h : heap.Bisimilar left right) : heap.Bisimilar right left := by
  refine .of_relation (R := fun x y => heap.Bisimilar y x) ?_ h
  intro x y hxy
  exact (bisimilar_iff.mp hxy).symm

theorem AgreeInside.comp {xs ys zs : Array Value} (hR : AgreeInside R xs ys)
    (hS : AgreeInside S ys zs) : AgreeInside (Relation.Comp R S) xs zs := by
  refine ⟨hR.1.trans hS.1, ?_⟩
  intro i x z hx hz
  have hLt : i < ys.size := hR.1 ▸ (Array.getElem?_eq_some_iff.mp hx).1
  have hy : ys[i]? = some ys[i] := Array.getElem?_eq_getElem hLt
  exact ⟨ys[i], hR.2 i x _ hx hy, hS.2 i _ z hy hz⟩

/-
  Related values may pass through a third one.  An array that
  is its own middle needs no step at one of the sides.
-/
theorem Agree.comp (h₁ : heap.Agree R left middle) (h₂ : heap.Agree R middle right) :
    heap.Agree (R ⊔ Relation.Comp R R) left right := by
  cases h₁ with
  | number h₁ =>
    cases h₂ with
    | number h₂ => exact .number (BEq.trans h₁ h₂)
  | array hxs hys h₁ =>
    cases h₂ with
    | sameArray => exact .array hxs hys (h₁.mono le_sup_left)
    | array hys' hzs h₂ =>
      cases hys.symm.trans hys'
      exact .array hxs hzs ((h₁.comp h₂).mono le_sup_right)
  | _ => exact h₂.mono le_sup_left

theorem Bisimilar.trans (h₁ : heap.Bisimilar left middle)
    (h₂ : heap.Bisimilar middle right) : heap.Bisimilar left right := by
  refine .of_relation (R := heap.Bisimilar ⊔ Relation.Comp heap.Bisimilar heap.Bisimilar) ?_
    (.inr ⟨middle, h₁, h₂⟩)
  rintro x z (hxz | ⟨y, hxy, hyz⟩)
  · exact (bisimilar_iff.mp hxz).mono le_sup_left
  · exact (bisimilar_iff.mp hxy).comp (bisimilar_iff.mp hyz)

/- Only the number that is none differs from itself. -/
theorem bisimilar_self_iff {value : Value} :
    heap.Bisimilar value value ↔ value ≠ .number .nan := by
  rw [bisimilar_iff]
  cases value with
  | number x =>
    rw [ne_eq, Value.number.injEq, ← ne_eq, ← Float.beq_self_iff]
    constructor
    · intro h
      cases h with
      | number h => exact h
    · exact .number
  | _ =>
    refine iff_of_true ?_ nofun
    constructor

/-
  Equality is bisimilarity: the largest relation under which
  numbers are equal as numbers, arrays are the same or have
  related elements at the same positions, and all else is
  identical.  It is symmetric and transitive, and reflexive
  but for the number that is none.  The operators of programs
  test it and its negation, and never fail.
-/
theorem equality_is_bisimilarity (heap : Heap) :
    IsGreatest
      {R : Relation | ∀ left right,
        R left right ↔ heap.Agree R left right}
      (fun left right => heap.equal left right = true) ∧
    (∀ left right,
      heap.equal left right = heap.equal right left) ∧
    (∀ left middle right,
      heap.equal left middle = true →
        heap.equal middle right = true →
          heap.equal left right = true) ∧
    (∀ value,
      heap.equal value value = true ↔ value ≠ .number .nan) ∧
    ∀ (operator : Token) (left right : Value) (host : Host),
      Eval.operate (.symbol .equalEqual) operator left right
          ⟨heap, host⟩ =
        .done (.bool (heap.equal left right)) ⟨heap, host⟩ ∧
      Eval.operate (.symbol .bangEqual) operator left right
          ⟨heap, host⟩ =
        .done (.bool (!heap.equal left right)) ⟨heap, host⟩ := by
  have hEqual :
      (fun left right => heap.equal left right = true) =
        heap.Bisimilar := by
    funext left right
    exact propext equal_eq_true_iff
  refine ⟨hEqual ▸ heap.bisimilar_isGreatest, ?_, ?_, ?_, ?_⟩
  · intro left right
    rw [Bool.eq_iff_iff, equal_eq_true_iff, equal_eq_true_iff]
    exact ⟨Bisimilar.symm, Bisimilar.symm⟩
  · intro left middle right
    simp only [equal_eq_true_iff]
    exact Bisimilar.trans
  · intro value
    rw [equal_eq_true_iff, bisimilar_self_iff]
  · exact fun _ _ _ _ => ⟨rfl, rfl⟩

end

/-
  Three arrays of a number and an array: one contains itself,
  two contain each other.
-/
def rings : Heap :=
  { empty with
    arrays :=
      #[#[.number 1, .array 0], #[.number 1, .array 2],
        #[.number 1, .array 1]] }

/- A ring of one array equals a ring of two. -/
theorem rings_equal :
    rings.equal (.array 0) (.array 1) = true ∧
      rings.equal (.array 1) (.array 2) = true ∧
        rings.equal (.array 0) (.array 2) = true := by
  have hOne : (1 : Float) ≠ .nan := by decide
  have h₁ : rings.equal (.array 0) (.array 1) = true := by
    simp [equal, equalInside, rings, hOne]
  have h₂ : rings.equal (.array 1) (.array 2) = true := by
    simp [equal, equalInside, rings, hOne]
  exact ⟨h₁, h₂,
    (equality_is_bisimilarity rings).2.2.1 _ _ _ h₁ h₂⟩

end Heap

end Scriptlet
