/-
  Quoted text with backslash escapes.

  Key declarations include:
    * `Quoted.Atom`
    * `Quoted.Atom.value?`
    * `Quoted.split`
    * `Quoted.encode`

  The inside of a string literal is a sequence of atoms: a
  plain character, or a backslash with the character after
  it.  The first quote that is not escaped ends the literal.
-/

namespace Scriptlet

namespace Quoted

inductive Atom where
  | plain (c : Char)
  | escaped (c : Char)
  deriving DecidableEq, Repr

namespace Atom

/- The characters that spell an atom. -/
def text : Atom → List Char
  | .plain c => [c]
  | .escaped c => ['\\', c]

/- The character an escape letter stands for. -/
def decode? : Char → Option Char
  | 'n' => some '\n'
  | 't' => some '\t'
  | 'r' => some '\r'
  | '"' => some '"'
  | '\\' => some '\\'
  | '0' => some '\x00'
  | _ => none

/- The character an atom stands for, if its escape is known. -/
def value? : Atom → Option Char
  | .plain c => some c
  | .escaped c => decode? c

/- The escape letter that stands for nothing. -/
def unknown? : Atom → Option Char
  | .plain _ => none
  | .escaped c =>
      match decode? c with
      | some _ => none
      | none => some c

end Atom

/-
  The atoms before the closing quote, and what follows that
  quote.  Nothing if no quote closes the literal.
-/
def split : List Char → Option (List Atom × List Char)
  | [] => none
  | '"' :: rest => some ([], rest)
  | ['\\'] => none
  | '\\' :: c :: rest =>
      (split rest).map fun (atoms, after) =>
        (.escaped c :: atoms, after)
  | c :: rest =>
      (split rest).map fun (atoms, after) =>
        (.plain c :: atoms, after)

/- The characters that spell a sequence of atoms. -/
def spell (atoms : List Atom) : List Char := atoms.flatMap Atom.text

/- A closed literal is its spelled atoms, a quote, the rest. -/
theorem split_eq_some {cs : List Char} {atoms : List Atom} {after : List Char}
    (h : split cs = some (atoms, after)) :
    cs = spell atoms ++ '"' :: after := by
  fun_induction split cs generalizing atoms after with
  | case1 => simp at h
  | case2 rest =>
      simp only [Option.some.injEq, Prod.mk.injEq] at h
      simp [← h.1, ← h.2, spell]
  | case3 => simp at h
  | case4 c rest ih =>
      obtain ⟨⟨tail, after'⟩, hTail, hEq⟩ := Option.map_eq_some_iff.1 h
      simp only [Prod.mk.injEq] at hEq
      simp [← hEq.1, ← hEq.2, spell, Atom.text, ih hTail]
  | case5 c rest _ _ _ ih =>
      obtain ⟨⟨tail, after'⟩, hTail, hEq⟩ := Option.map_eq_some_iff.1 h
      simp only [Prod.mk.injEq] at hEq
      simp [← hEq.1, ← hEq.2, spell, Atom.text, ih hTail]

/- The atom that writes one character. -/
def atomOf (c : Char) : Atom :=
  match c with
  | '"' => .escaped '"'
  | '\\' => .escaped '\\'
  | '\n' => .escaped 'n'
  | '\t' => .escaped 't'
  | '\r' => .escaped 'r'
  | '\x00' => .escaped '0'
  | c => .plain c

/- A text as a literal, quotes included. -/
def encode (text : List Char) : List Char := '"' :: (spell (text.map atomOf) ++ ['"'])

end Quoted

end Scriptlet
