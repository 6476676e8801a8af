import Mathlib.Tactic.MkIffOfInductiveProp
import Scriptlet.Proofs.Scan.Tiles
import Scriptlet.Tree.Outline

/-
  Layouts are told apart by their texts.

  Key declarations include:
    * `Layout.leaves`
    * `Layout.Legible`
    * `Layout.eq_of_text`

  Words without blanks and brackets end where a blank or a
  bracket comes.  So a text shows where the parts of a layout
  begin and end, and strings are taken for words only if
  they have the text of one.
-/

namespace Scriptlet

namespace Layout

open Piece (Fails takeWhile_append dropWhile_append)

mutual

/- Titles and leaves: are they strings, and what are their texts? -/
def leaves : Layout → List (Bool × String)
  | .leaf isString text => [(isString, text)]
  | .branch title parts => (if title = "" then [] else [(false, title)]) ++ leavesAll parts

def leavesAll : List Layout → List (Bool × String)
  | [] => []
  | first :: others => first.leaves ++ leavesAll others

end

/- Neither a blank nor a bracket. -/
def isBare (c : Char) : Bool := c ≠ ' ' && c ≠ '(' && c ≠ ')'

/- A text that stands as one word. -/
@[mk_iff]
structure Plain (text : List Char) : Prop where
  nonempty : text ≠ []
  bare : text.all isBare = true

/- Leaves that are no strings are words. -/
def Worded (known : List (Bool × String)) : Prop :=
  ∀ leaf ∈ known, leaf.1 = false → Plain leaf.2.toList

/- Strings are words as well, and no other leaf has the text of a string. -/
def Legible (known : List (Bool × String)) : Prop :=
  ∀ text, (true, text) ∈ known → Plain text.toList ∧ (false, text) ∉ known

section

variable (known known' : List (Bool × String))

@[simp]
theorem worded_nil : Worded [] := nofun

@[simp]
theorem worded_cons (leaf : Bool × String) : Worded (leaf :: known) ↔
    (leaf.1 = false → Plain leaf.2.toList) ∧ Worded known := List.forall_mem_cons

@[simp]
theorem worded_append : Worded (known ++ known') ↔ Worded known ∧ Worded known' :=
  List.forall_mem_append

@[simp]
theorem plain_cons (c : Char) (cs : List Char) :
    Plain (c :: cs) ↔ isBare c = true ∧ ∀ d ∈ cs, isBare d = true := by
  simp [plain_iff]

end

/- The word that a layout starts with, and what comes behind it. -/
def split : Layout → List Char × List Char
  | .leaf _ text => (text.toList, [])
  | .branch title parts => (title.toList, '(' :: (row parts).toList)

theorem text_eq (x : Layout) (rest : List Char) :
    x.text.toList ++ rest = x.split.1 ++ (x.split.2 ++ rest) := by
  cases x <;> simp [text, split]

/- A blank or the end of a bracket comes next, if anything. -/
def Ends (rest : List Char) : Prop := ∀ c ∈ rest.head?, c = ' ' ∨ c = ')'

theorem fails_split (x : Layout) {rest : List Char} (h : Ends rest) :
    Fails isBare (x.split.2 ++ rest) := by
  cases x with
  | leaf =>
    intro c hMem
    rcases h c hMem with rfl | rfl <;> rfl
  | branch => exact .cons rfl _

theorem ends_row (others : List Layout) (rest : List Char) :
    Ends ((if others.isEmpty then ")" else " " ++ row others).toList ++ rest) := by
  cases others <;> simp [Ends]

theorem eq_of_bare {cs ds rest rest' : List Char}
    (hBare : cs.all isBare = true) (hBare' : ds.all isBare = true) (hRest : Fails isBare rest)
    (hRest' : Fails isBare rest') (h : cs ++ rest = ds ++ rest') : cs = ds ∧ rest = rest' := by
  rw [List.all_eq_true] at hBare hBare'
  have hTake := congrArg (List.takeWhile isBare) h
  have hDrop := congrArg (List.dropWhile isBare) h
  rw [takeWhile_append hBare hRest, takeWhile_append hBare' hRest'] at hTake
  rw [dropWhile_append hBare hRest, dropWhile_append hBare' hRest'] at hDrop
  exact ⟨hTake, hDrop⟩

section

variable {known : List (Bool × String)} (hWords : Worded known) (hKnown : Legible known)
  {x y : Layout} {rest rest' : List Char}

include hWords hKnown

theorem plain_of_mem {isString : Bool} {text : String} (h : (isString, text) ∈ known) :
    Plain text.toList := by
  cases isString
  · exact hWords _ h rfl
  · exact (hKnown text h).1

theorem bare_split (hx : x.leaves ⊆ known) : x.split.1.all isBare = true := by
  match x with
  | .leaf isString text => exact (plain_of_mem hWords hKnown (hx List.mem_cons_self)).bare
  | .branch title _ =>
    by_cases hTitle : title = ""
    · simp [hTitle, split]
    · exact (hWords (false, title) (hx (by simp [leaves, hTitle])) rfl).bare

/- No part is at the end of a bracket. -/
theorem text_ne (hx : x.leaves ⊆ known) (hRest : Ends rest) :
    [] ++ ')' :: rest' ≠ x.text.toList ++ rest := by
  rw [text_eq]
  intro h
  obtain ⟨hWord, hBehind⟩ := eq_of_bare List.all_nil (bare_split hWords hKnown hx)
    (.cons rfl _) (x.fails_split hRest) h
  cases x with
  | leaf => exact (plain_of_mem hWords hKnown (hx List.mem_cons_self)).nonempty hWord.symm
  | branch => cases hBehind

/-
  By induction on layouts, with other text behind them.  They
  start with the same words, and the same comes next.
-/
theorem read_text :
    (∀ x : Layout, ∀ y rest rest', x.leaves ⊆ known → y.leaves ⊆ known → Ends rest → Ends rest' →
      x.text.toList ++ rest = y.text.toList ++ rest' → x = y ∧ rest = rest') ∧
    ∀ parts, ∀ parts' rest rest', leavesAll parts ⊆ known → leavesAll parts' ⊆ known →
      (row parts).toList ++ rest = (row parts').toList ++ rest' →
      parts = parts' ∧ rest = rest' := by
  have hSplit {x y : Layout} {rest rest'} (hx : x.leaves ⊆ known) (hy : y.leaves ⊆ known)
      (hRest : Ends rest) (hRest' : Ends rest')
      (h : x.text.toList ++ rest = y.text.toList ++ rest') :
      x.split.1 = y.split.1 ∧ x.split.2 ++ rest = y.split.2 ++ rest' := by
    rw [text_eq, text_eq] at h
    exact eq_of_bare (bare_split hWords hKnown hx) (bare_split hWords hKnown hy)
      (x.fails_split hRest) (y.fails_split hRest') h
  apply Layout.text.mutual_induct
  case case1 =>
    intro isString text y rest rest' hx hy hRest hRest' h
    obtain ⟨hWord, hBehind⟩ := hSplit hx hy hRest hRest' h
    cases y with
    | leaf isString' text' =>
      cases String.toList_inj.mp hWord
      have hx := hx List.mem_cons_self
      have hy := hy List.mem_cons_self
      cases isString <;> cases isString'
      · exact ⟨rfl, hBehind⟩
      · exact absurd hx (hKnown text hy).2
      · exact absurd hy (hKnown text hx).2
      · exact ⟨rfl, hBehind⟩
    | branch =>
      rw [show rest = _ from hBehind] at hRest
      rcases hRest '(' rfl with h | h <;> cases h
  case case2 =>
    intro title parts ih y rest rest' hx hy hRest hRest' h
    obtain ⟨hWord, hBehind⟩ := hSplit hx hy hRest hRest' h
    cases y with
    | leaf =>
      rw [show rest' = _ from hBehind.symm] at hRest'
      rcases hRest' '(' rfl with h | h <;> cases h
    | branch title' parts' =>
      cases String.toList_inj.mp hWord
      rw [leaves, List.append_subset] at hx hy
      obtain ⟨rfl, rfl⟩ := ih parts' rest rest' hx.2 hy.2 (List.cons.inj hBehind).2
      exact ⟨rfl, rfl⟩
  case case3 =>
    intro parts' rest rest' hx hy h
    cases parts' with
    | nil => exact ⟨rfl, (List.cons.inj h).2⟩
    | cons first others =>
      rw [leavesAll, List.append_subset] at hy
      rw [row, row, String.toList_append, List.append_assoc] at h
      exact absurd h (text_ne hWords hKnown hy.1 (ends_row _ _))
  case case4 =>
    intro first others ihFirst ihOthers parts' rest rest' hx hy h
    rw [leavesAll, List.append_subset] at hx
    cases parts' with
    | nil =>
      rw [row, row, String.toList_append, List.append_assoc] at h
      exact absurd h.symm (text_ne hWords hKnown hx.1 (ends_row _ _))
    | cons first' others' =>
      rw [leavesAll, List.append_subset] at hy
      rw [row, row, String.toList_append, String.toList_append, List.append_assoc,
        List.append_assoc] at h
      obtain ⟨rfl, hOthers⟩ := ihFirst first' _ _ hx.1 hy.1 (ends_row _ _) (ends_row _ _) h
      cases others <;> cases others' <;> simp at hOthers
      · exact ⟨rfl, hOthers⟩
      · obtain ⟨hSame, hRest⟩ := ihOthers _ _ _ hx.2 hy.2 hOthers
        exact ⟨congrArg _ hSame, hRest⟩

end

/- Of two layouts. -/
theorem eq_of_text {x y : Layout} (hWords : Worded (x.leaves ++ y.leaves))
    (hKnown : Legible (x.leaves ++ y.leaves)) (hText : x.text = y.text) : x = y :=
  ((read_text hWords hKnown).1 x y [] [] (List.subset_append_left ..)
    (List.subset_append_right ..) nofun nofun
    (by rw [hText])).1

end Layout

end Scriptlet
