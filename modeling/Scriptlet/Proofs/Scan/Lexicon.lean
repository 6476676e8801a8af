import Scriptlet.Proofs.Scan.Written

/-
  The lexical grammar, and how pieces of text follow it.

  Key declarations include:
    * `Lexicon.Denotes`
    * `Lexicon.Lexeme`
    * `Lexicon.Comment`
    * `Lexicon.Starts`
    * `Lexicon.Faulty`

  The grammar says which texts are lexemes, comments and
  faults, without saying how they are found.  Every piece
  that is cut off is of the form that its reading tells, and
  it is the longest lexeme if any lexeme starts there:
    * `Piece.cut_told`
    * `Piece.cut_of_starts`
-/

namespace Scriptlet

namespace Lexicon

open Piece (isWordStart isWordPart)

def blanks : List Char := [' ', '\r', '\t', '\n']

/- The letters of escapes, with the characters they name. -/
def escapes : List (Char × Char) :=
  [('n', '\n'), ('t', '\t'), ('r', '\r'), ('"', '"'), ('\\', '\\'), ('0', '\x00')]

/- The inside of a string literal, and the text it denotes. -/
inductive Denotes : List Char → List Char → Prop where
  | nil : Denotes [] []
  | plain {c body value} :
      c ≠ '"' → c ≠ '\\' → Denotes body value →
        Denotes (c :: body) (c :: value)
  | escape {letter c body value} : (letter, c) ∈ escapes → Denotes body value →
        Denotes ('\\' :: letter :: body) (c :: value)

/- The inside of a literal, whatever its escapes. -/
inductive Inside : List Char → Prop where
  | nil : Inside []
  | plain {c body} : c ≠ '"' → c ≠ '\\' → Inside body → Inside (c :: body)
  | escape {body} (letter : Char) : Inside body → Inside ('\\' :: letter :: body)

/- The lexemes of each kind of token. -/
inductive Lexeme : Token.Kind → List Char → Prop where
  | symbol (s : Symbol) : Lexeme (.symbol s) s.chars
  | keyword (k : Keyword) : Lexeme (.keyword k) k.chars
  | identifier {c : Char} {tail : List Char} :
      isWordStart c = true → (∀ d ∈ tail, isWordPart d = true) →
        (∀ k : Keyword, k.chars ≠ c :: tail) → Lexeme .identifier (c :: tail)
  | whole {digits : List Char} : digits ≠ [] → (∀ d ∈ digits, d.isDigit = true) →
        Lexeme (.number (Numeral.ofDecimal digits [])) digits
  | fraction {digits others : List Char} : digits ≠ [] → (∀ d ∈ digits, d.isDigit = true) →
        others ≠ [] → (∀ d ∈ others, d.isDigit = true) →
          Lexeme (.number (Numeral.ofDecimal digits others)) (digits ++ '.' :: others)
  | string {body value : List Char} : Denotes body value →
        Lexeme (.string (String.ofList value)) ('"' :: (body ++ ['"']))

/- A comment that ends before the rest of the text. -/
inductive Comment : List Char → List Char → Prop where
  | line {body rest : List Char} : '\n' ∉ body → (∀ c ∈ rest.head?, c = '\n') →
        Comment ('/' :: '/' :: body) rest
  | block {body : List Char} (rest : List Char) : ¬ ['*', '/'] <:+: body ++ ['*'] →
        Comment ('/' :: '*' :: (body ++ ['*', '/'])) rest

/-
  A lexeme at the start of a text.  A slash before a slash or
  a star starts none.
-/
structure Starts (kind : Token.Kind) (lexeme text : List Char) : Prop where
  spelled : Lexeme kind lexeme
  leads : lexeme <+: text
  line : ¬ ['/', '/'] <+: text
  block : ¬ ['/', '*'] <+: text

/- The text of a fault, before the rest of the source. -/
inductive Faulty : Piece.Cause → List Char → List Char → Prop where
  | unexpected (c : Char) (rest : List Char) : Faulty (.unexpected c) [c] rest
  | unknownEscape {sound value others : List Char} {letter : Char} (rest : List Char) :
      Denotes sound value → letter ∉ escapes.map Prod.fst → Inside others →
        Faulty (.unknownEscape letter) ('"' :: (sound ++ '\\' :: letter :: (others ++ ['"']))) rest
  | unterminatedString {body : List Char} :
      (∀ inside after, Inside inside → body ≠ inside ++ '"' :: after) →
        Faulty .unterminatedString ('"' :: body) []
  | unterminatedComment {body : List Char} : ¬ ['*', '/'] <:+: body →
        Faulty .unterminatedComment ('/' :: '*' :: body) []

/- What a reading says of a text and of what follows it. -/
def Told (text rest : List Char) : Piece.Reading → Prop
  | .blank => ∃ c ∈ blanks, text = [c]
  | .comment => Comment text rest
  | .token kind => Starts kind text (text ++ rest)
  | .fault cause => Faulty cause text rest

end Lexicon

open Lexicon

namespace Quoted

variable {letter : Char}

theorem decode?_eq_some {c : Char} : Atom.decode? letter = some c ↔ (letter, c) ∈ escapes := by
  unfold Atom.decode?
  split <;> simp_all [escapes, eq_comm]

theorem decode?_eq_none : Atom.decode? letter = none ↔ letter ∉ escapes.map Prod.fst := by
  simp only [Option.eq_none_iff_forall_ne_some, ne_eq, decode?_eq_some,
    List.mem_map, Prod.exists, exists_and_right, exists_eq_right, not_exists]

variable {atoms : List Atom}

theorem inside_spell (h : ∀ atom ∈ atoms, atom.IsProper) : Inside (spell atoms) := by
  induction atoms with
  | nil => exact .nil
  | cons atom others ih =>
    rw [List.forall_mem_cons] at h
    cases atom with
    | plain c => exact .plain h.1.1 h.1.2 (ih h.2)
    | escaped letter => exact .escape letter (ih h.2)

/- Atoms of which all escapes are known. -/
theorem denotes_spell (h : ∀ atom ∈ atoms, atom.IsProper)
    (hKnown : atoms.findSome? Atom.unknown? = none) :
    Denotes (spell atoms) (atoms.filterMap Atom.value?) := by
  induction atoms with
  | nil => exact .nil
  | cons atom others ih =>
    rw [List.forall_mem_cons] at h
    rw [List.findSome?_cons] at hKnown
    cases atom with
    | plain c => exact .plain h.1.1 h.1.2 (ih h.2 hKnown)
    | escaped letter =>
      simp only [Atom.unknown?] at hKnown
      cases hLetter : Atom.decode? letter with
      | none => simp [hLetter] at hKnown
      | some c =>
        rw [hLetter] at hKnown
        simp only [List.filterMap_cons, Atom.value?, hLetter]
        exact .escape (decode?_eq_some.mp hLetter) (ih h.2 hKnown)

/- The first escape that is not known, and what is around it. -/
theorem split_unknown (h : ∀ atom ∈ atoms, atom.IsProper)
    (hUnknown : atoms.findSome? Atom.unknown? = some letter) :
    ∃ sound value others, Denotes sound value ∧ letter ∉ escapes.map Prod.fst ∧ Inside others ∧
        spell atoms = sound ++ '\\' :: letter :: others := by
  rcases List.findSome?_eq_some_iff.mp hUnknown with ⟨before, atom, after, rfl, hAtom, hBefore⟩
  rw [List.forall_mem_append, List.forall_mem_cons] at h
  cases atom with
  | plain c => cases hAtom
  | escaped other =>
    simp only [Atom.unknown?] at hAtom
    split at hAtom
    · cases hAtom
    · rename_i hLetter
      cases hAtom
      have hKnown : before.findSome? Atom.unknown? = none := List.findSome?_eq_none_iff.mpr hBefore
      exact ⟨_, _, _, denotes_spell h.1 hKnown, decode?_eq_none.mp hLetter,
        inside_spell h.2.2, by simp [spell, Atom.text]⟩

variable {body : List Char}

/- Every inside is spelled by atoms. -/
theorem exists_atoms_of_inside (h : Inside body) :
    ∃ atoms, (∀ atom ∈ atoms, atom.IsProper) ∧ spell atoms = body := by
  induction h with
  | nil => exact ⟨[], nofun, rfl⟩
  | @plain c _ hQuote hSlash _ ih =>
    rcases ih with ⟨atoms, hProper, rfl⟩
    exact ⟨.plain c :: atoms, List.forall_mem_cons.mpr ⟨⟨hQuote, hSlash⟩, hProper⟩, rfl⟩
  | escape letter _ ih =>
    rcases ih with ⟨atoms, hProper, rfl⟩
    exact ⟨.escaped letter :: atoms, List.forall_mem_cons.mpr ⟨trivial, hProper⟩, rfl⟩

theorem exists_atoms_of_denotes {value : List Char} (h : Denotes body value) :
    ∃ atoms, (∀ atom ∈ atoms, atom.IsProper) ∧ spell atoms = body ∧
      atoms.findSome? Atom.unknown? = none ∧ atoms.filterMap Atom.value? = value := by
  induction h with
  | nil => exact ⟨[], nofun, rfl, rfl, rfl⟩
  | @plain c _ _ hQuote hSlash _ ih =>
    rcases ih with ⟨atoms, hProper, rfl, hKnown, rfl⟩
    exact ⟨.plain c :: atoms,
      List.forall_mem_cons.mpr ⟨⟨hQuote, hSlash⟩, hProper⟩, rfl, hKnown, rfl⟩
  | @escape letter c _ _ hLetter _ ih =>
    rcases ih with ⟨atoms, hProper, rfl, hKnown, rfl⟩
    have hDecode := decode?_eq_some.mpr hLetter
    refine ⟨.escaped letter :: atoms, List.forall_mem_cons.mpr ⟨trivial, hProper⟩, rfl, ?_, ?_⟩
    · simp only [List.findSome?_cons, Atom.unknown?, hDecode, hKnown]
    · simp only [List.filterMap_cons, Atom.value?, hDecode]

/- A literal that is not closed has no inside before a quote. -/
theorem ne_of_split_none {cs : List Char} (h : split cs = none)
    (inside after : List Char) (hInside : Inside inside) :
    cs ≠ inside ++ '"' :: after := by
  rintro rfl
  rcases exists_atoms_of_inside hInside with ⟨atoms, hProper, rfl⟩
  rw [split_spell hProper] at h
  cases h

end Quoted

namespace Piece

variable {c : Char} {cs : List Char}

variable {text : List Char}

theorem infix_cons_iff :
    ['*', '/'] <:+: c :: text ↔ (∃ rest, c = '*' ∧ text = '/' :: rest) ∨ ['*', '/'] <:+: text := by
  rw [List.infix_cons_iff]
  apply or_congr_left
  constructor
  · rintro ⟨rest, hText⟩
    cases hText
    exact ⟨rest, rfl, rfl⟩
  · rintro ⟨rest, rfl, rfl⟩
    exact ⟨rest, rfl⟩

/- The first end of a comment. -/
theorem closeComment_some {inside after : List Char}
    (h : closeComment cs = some (inside, after)) :
    ∃ body, inside = body ++ ['*', '/'] ∧ ¬ ['*', '/'] <:+: body ++ ['*'] := by
  fun_induction closeComment cs generalizing inside after with
  | case1 => cases h
  | case2 rest =>
    cases h
    exact ⟨[], rfl, by decide⟩
  | case3 c rest hNot ih =>
    obtain ⟨⟨inside', after'⟩, hTail, hEq⟩ := Option.map_eq_some_iff.1 h
    cases hEq
    rcases ih hTail with ⟨body, rfl, hBody⟩
    refine ⟨c :: body, rfl, ?_⟩
    rw [List.cons_append, infix_cons_iff]
    rintro (⟨others, hStar, hText⟩ | hInfix)
    · have hRest := closeComment_eq_some hTail
      cases body with
      | nil => cases hText
      | cons d body =>
        cases hText
        exact hNot _ hStar hRest.symm
    · exact hBody hInfix

theorem closeComment_none (h : closeComment cs = none) : ¬ ['*', '/'] <:+: cs := by
  fun_induction closeComment cs with
  | case1 => decide
  | case2 => cases h
  | case3 c rest hNot ih =>
    rw [infix_cons_iff]
    rintro (⟨others, hStar, hText⟩ | hInfix)
    · exact hNot others hStar hText
    · exact ih (Option.map_eq_none_iff.mp h) hInfix

/- A text is closed where the end first occurs. -/
theorem closeComment_first {body : List Char} (rest : List Char)
    (h : ¬ ['*', '/'] <:+: body ++ ['*']) :
    closeComment (body ++ '*' :: '/' :: rest) = some (body ++ ['*', '/'], rest) := by
  induction body with
  | nil => rfl
  | cons c body ih =>
    rw [List.cons_append, infix_cons_iff, not_or] at h
    rw [List.cons_append, closeComment, ih h.2]
    · rfl
    · intro others hStar hText
      cases body with
      | nil => cases hText
      | cons d body =>
        cases hText
        exact h.1 ⟨_, hStar, rfl⟩

variable {kind : Token.Kind}

/- A token that does not begin with a slash. -/
theorem told_token {tail rest : List Char} (hSlash : c ≠ '/')
    (h : Lexeme kind (c :: tail)) : Told (c :: tail) rest (.token kind) where
  spelled := h
  leads := List.prefix_append _ _
  line hLine := hSlash (List.head_eq_of_cons_eq hLine.choose_spec).symm
  block hBlock := hSlash (List.head_eq_of_cons_eq hBlock.choose_spec).symm

theorem stringLiteral_told (cs : List Char) :
    Told ('"' :: (stringLiteral cs).tail) (stringLiteral cs).rest
      (stringLiteral cs).reading := by
  unfold stringLiteral
  cases hSplit : Quoted.split cs with
  | none => exact .unterminatedString (Quoted.ne_of_split_none hSplit)
  | some parts =>
    rcases parts with ⟨atoms, after⟩
    have hProper := Quoted.isProper_of_split hSplit
    dsimp only
    cases hUnknown : atoms.findSome? Quoted.Atom.unknown? with
    | none => exact told_token (by decide) (.string (Quoted.denotes_spell hProper hUnknown))
    | some letter =>
      rcases Quoted.split_unknown hProper hUnknown with
        ⟨sound, value, others, hSound, hLetter, hOthers, hText⟩
      have hFaulty := Faulty.unknownEscape after hSound hLetter hOthers
      simp only [hText, List.append_assoc, List.cons_append]
      exact hFaulty

/- Kinds other than strings have lexemes by how they are written. -/
theorem lexeme_of_written
    (hKind : ∀ value, kind ≠ .string value) (h : kind.Written text) : Lexeme kind text := by
  cases kind with
  | symbol s =>
    obtain rfl : text = s.chars := h
    exact .symbol s
  | keyword k =>
    obtain rfl : text = k.chars := h
    exact .keyword k
  | identifier =>
    cases text with
    | nil => cases h
    | cons c tail =>
      simp only [Token.Kind.Written, isName, Bool.and_eq_true,
        List.all_eq_true, Option.isNone_iff_eq_none] at h
      refine .identifier h.1.1 h.1.2 fun k hChars => ?_
      rw [← hChars] at h
      revert h
      cases k <;> simp [Keyword.ofChars?, Keyword.all, Keyword.chars]
  | string value => exact absurd rfl (hKind value)
  | number x =>
    rcases h with ⟨whole, fraction, hSpells, rfl⟩
    rcases hSpells with ⟨rfl, hWhole, hDigits⟩
    rw [List.forall_mem_append] at hDigits
    cases fraction with
    | nil => exact .whole hWhole hDigits.1
    | cons d others => exact .fraction hWhole hDigits.1 (List.cons_ne_nil _ _) hDigits.2
  | endOfFile => cases h

theorem numberLiteral_told (h : c.isDigit = true) (cs : List Char) :
    Told (c :: (numberLiteral c cs).tail) (numberLiteral c cs).rest
      (numberLiteral c cs).reading := by
  have hSlash : c ≠ '/' := by
    rintro rfl
    cases h
  rcases numberLiteral_forms c cs with ⟨whole, after, _, hForm | ⟨d, others, _, _, hForm⟩⟩ <;>
  · have hReading := congrArg Cut.reading hForm
    have hLexeme := lexeme_of_written (by simp) (written_numberLiteral h hReading)
    rw [hReading]
    exact told_token hSlash hLexeme

theorem word_told (h : isWordStart c = true) (cs : List Char) :
    Told (c :: (word c cs).tail) (word c cs).rest (word c cs).reading := by
  have hKind (value : String) : wordKind (c :: cs.takeWhile isWordPart) ≠ .string value := by
    unfold wordKind
    split <;> simp
  exact told_token (ne_of_isWordStart h rfl) (lexeme_of_written hKind (written_word h rfl))

end Piece

namespace Symbol

/- Symbols are of one or two characters. -/
theorem chars_forms (s : Symbol) : ∃ c, s.chars = [c] ∨ ∃ d, s.chars = [c, d] := by
  cases s <;> simp [chars]

end Symbol

namespace Piece

variable {c : Char} {cs : List Char}

theorem symbol_told (hLine : ¬ ['/', '/'] <+: c :: cs) (hBlock : ¬ ['/', '*'] <+: c :: cs) :
    Told (c :: (symbol c cs).tail) (symbol c cs).rest (symbol c cs).reading := by
  rcases symbol_forms c cs with ⟨s, hChars, hReading⟩ | ⟨hTail, hReading⟩
  · rw [hReading, ← hChars]
    have hText : s.chars ++ (symbol c cs).rest = c :: cs := by
      rw [hChars, List.cons_append, symbol_append]
    refine ⟨.symbol s, List.prefix_append _ _, ?_, ?_⟩ <;> rwa [hText]
  · rw [hReading, hTail]
    exact .unexpected c _

theorem blockComment_told (cs : List Char) :
    Told ('/' :: (blockComment cs).tail) (blockComment cs).rest (blockComment cs).reading := by
  unfold blockComment
  cases hClose : closeComment cs with
  | none => exact .unterminatedComment (closeComment_none hClose)
  | some parts =>
    rcases closeComment_some hClose with ⟨body, hInside, hBody⟩
    simp only [hInside]
    exact .block _ hBody

/- A slash that starts no comment. -/
theorem no_comment_of_fails (hSlash : Fails (· = '/') cs) (hStar : Fails (· = '*') cs) :
    ¬ ['/', '/'] <+: '/' :: cs ∧ ¬ ['/', '*'] <+: '/' :: cs := by
  constructor
  · rintro ⟨rest, hText⟩
    cases hText
    exact absurd (hSlash '/' rfl) (by decide)
  · rintro ⟨rest, hText⟩
    cases hText
    exact absurd (hStar '*' rfl) (by decide)

theorem slash_told (cs : List Char) :
    Told ('/' :: (slash cs).tail) (slash cs).rest (slash cs).reading := by
  rcases slash_forms cs with ⟨others, rfl⟩ | ⟨others, rfl⟩ | ⟨hSlash, hStar⟩
  · refine .line (fun hMem => ?_) fun c hMem => ?_
    · have hPart := mem_takeWhile hMem
      cases hPart
    · have hFails := fails_dropWhile others c hMem
      simpa using hFails
  · exact blockComment_told others
  · have hNone := no_comment_of_fails hSlash hStar
    rw [slash_eq_symbol hSlash hStar]
    exact symbol_told hNone.1 hNone.2

/- Every piece is what its reading tells. -/
theorem cut_told (c : Char) (cs : List Char) :
    Told (c :: (cut c cs).tail) (cut c cs).rest (cut c cs).reading := by
  unfold cut
  split
  · rename_i hBlank
    refine ⟨c, ?_, rfl⟩
    simpa [isBlank, blanks, or_assoc] using hBlank
  split
  · rename_i hSlash
    rw [hSlash]
    exact slash_told cs
  split
  · rename_i hQuote
    rw [hQuote]
    exact stringLiteral_told cs
  rename_i hSlash _
  split
  · rename_i hDigit
    exact numberLiteral_told hDigit cs
  split
  · rename_i hWord
    exact word_told hWord cs
  · refine symbol_told ?_ ?_ <;>
    · rintro ⟨rest, hText⟩
      cases hText
      exact hSlash rfl

------------------------------------------------------------
-- Longest Lexemes
------------------------------------------------------------

/-
  A token is cut off that is not shorter than the lexeme.  Of
  the same length, it is of the same kind.
-/
structure Outdoes (first : Cut) (kind : Token.Kind) (tail : List Char) : Prop where
  token : ∃ kind', first.reading = .token kind' ∧ (tail = first.tail → kind' = kind)
  longer : tail.length ≤ first.tail.length

theorem takeWhile_of_leads {p : Char → Bool} {xs ys : List Char}
    (hAll : ∀ x ∈ xs, p x = true) (h : xs <+: ys) : xs <+: ys.takeWhile p := by
  rcases h with ⟨rest, rfl⟩
  rw [List.takeWhile_append_of_pos hAll]
  exact List.prefix_append _ _

variable {tail : List Char}

variable {s : Symbol}

theorem symbol_outdoes (h : s.chars = c :: tail)
    (hLeads : tail <+: cs) : Outdoes (symbol c cs) (.symbol s) tail := by
  rcases s.chars_forms with ⟨first, hChars | ⟨second, hChars⟩⟩
  · rw [h] at hChars
    cases hChars
    refine ⟨?_, Nat.zero_le _⟩
    have hSingle (cs : List Char) : (singleSymbol c cs).reading = .token (.symbol s) := by
      simp only [singleSymbol, Symbol.single?_eq_some.mpr h]
    cases cs with
    | nil => exact ⟨_, hSingle [], fun _ => rfl⟩
    | cons d rest =>
      simp only [symbol]
      split
      · exact ⟨_, rfl, by rintro ⟨⟩⟩
      · exact ⟨_, hSingle _, fun _ => rfl⟩
  · rw [h] at hChars
    cases hChars
    rcases hLeads with ⟨rest, rfl⟩
    simp only [List.singleton_append, symbol, Symbol.pair?_eq_some.mpr h]
    exact ⟨⟨_, rfl, fun _ => rfl⟩, Nat.le_refl _⟩

variable {kind : Token.Kind}

theorem word_outdoes (hTail : ∀ d ∈ tail, isWordPart d = true)
    (hKind : wordKind (c :: tail) = kind) (hLeads : tail <+: cs) :
    Outdoes (word c cs) kind tail := by
  refine ⟨⟨_, rfl, ?_⟩, (takeWhile_of_leads hTail hLeads).length_le⟩
  rintro rfl
  exact hKind

variable {whole : List Char}

theorem whole_outdoes
    (hWhole : ∀ d ∈ whole, d.isDigit = true) (hLeads : whole <+: cs) :
    Outdoes (numberLiteral c cs) (.number (Numeral.ofDecimal (c :: whole) [])) whole := by
  have hTake := (takeWhile_of_leads hWhole hLeads).length_le
  unfold numberLiteral
  dsimp only
  split
  · rename_i d rest _
    split
    · refine ⟨⟨_, rfl, fun hTail => ?_⟩, ?_⟩
      · rw [hTail] at hWhole
        exact absurd (hWhole '.' (by simp)) (by decide)
      · rw [List.length_append]
        exact Nat.le_add_right_of_le hTake
    · exact ⟨⟨_, rfl, fun hTail => by rw [hTail]⟩, hTake⟩
  · exact ⟨⟨_, rfl, fun hTail => by rw [hTail]⟩, hTake⟩

theorem fraction_outdoes {others : List Char}
    (hWhole : ∀ d ∈ whole, d.isDigit = true) (hNonempty : others ≠ [])
    (hOthers : ∀ d ∈ others, d.isDigit = true) (hLeads : whole ++ '.' :: others <+: cs) :
    Outdoes (numberLiteral c cs) (.number (Numeral.ofDecimal (c :: whole) others))
      (whole ++ '.' :: others) := by
  rcases hLeads with ⟨rest, rfl⟩
  cases others with
  | nil => exact absurd rfl hNonempty
  | cons d others =>
    rw [List.forall_mem_cons] at hOthers
    have hTake := takeWhile_of_leads hOthers.2 (List.prefix_append others rest)
    have hDigits : ∀ e ∈ (others ++ rest).takeWhile Char.isDigit, e.isDigit = true :=
      fun _ => mem_takeWhile
    have hForm := numberLiteral_fraction (c := c) hWhole hOthers.1 hDigits
      (fails_dropWhile (others ++ rest))
    rw [List.takeWhile_append_dropWhile] at hForm
    simp only [List.append_assoc, List.cons_append]
    rw [hForm]
    refine ⟨⟨_, rfl, fun hTail => ?_⟩, ?_⟩
    · simp only [List.append_cancel_left_eq, List.cons.injEq, true_and] at hTail
      rw [← hTail]
    · have hLength := hTake.length_le
      simp only [List.length_append, List.length_cons]
      omega

theorem stringLiteral_outdoes {body value : List Char} (h : Denotes body value)
    (hLeads : body ++ ['"'] <+: cs) :
    Outdoes (stringLiteral cs) (.string (String.ofList value))
      (body ++ ['"']) := by
  rcases hLeads with ⟨rest, rfl⟩
  rcases Quoted.exists_atoms_of_denotes h with ⟨atoms, hProper, rfl, hKnown, rfl⟩
  have hSplit := Quoted.split_spell hProper rest
  simp only [List.append_assoc, List.singleton_append, stringLiteral, hSplit, hKnown]
  exact ⟨⟨_, rfl, fun _ => rfl⟩, Nat.le_refl _⟩

/- What is cut off where a symbol stands. -/
theorem cut_symbol (h : s.chars = c :: tail)
    (hLine : ¬ ['/', '/'] <+: c :: cs) (hBlock : ¬ ['/', '*'] <+: c :: cs) :
    cut c cs = symbol c cs := by
  by_cases hSlash : c = '/'
  · subst hSlash
    rcases slash_forms cs with ⟨others, rfl⟩ | ⟨others, rfl⟩ | ⟨hSlash, hStar⟩
    · exact absurd ⟨others, rfl⟩ hLine
    · exact absurd ⟨others, rfl⟩ hBlock
    · exact slash_eq_symbol hSlash hStar
  · cases s <;> cases h <;> first | rfl | exact absurd rfl hSlash

theorem keyword_word (k : Keyword) :
    ∃ c tail, k.chars = c :: tail ∧ isWordStart c = true ∧
      (∀ d ∈ tail, isWordPart d = true) ∧ wordKind k.chars = .keyword k := by
  cases k <;> refine ⟨_, _, rfl, ?_, List.all_eq_true.mp ?_, ?_⟩ <;> decide

/- Where a lexeme starts, the longest one is cut off. -/
theorem cut_of_starts {lexeme : List Char} (h : Starts kind lexeme (c :: cs)) :
    ∃ tail, lexeme = c :: tail ∧ Outdoes (cut c cs) kind tail := by
  rcases h with ⟨hLexeme, hLeads, hLine, hBlock⟩
  have hHead {d : Char} {tail : List Char} (hLeads : d :: tail <+: c :: cs) :
      d = c ∧ tail <+: cs := List.cons_prefix_cons.mp hLeads
  cases hLexeme with
  | symbol s =>
    rcases s.chars_forms with ⟨d, hChars | ⟨e, hChars⟩⟩ <;>
    · rw [hChars] at hLeads ⊢
      rcases hHead hLeads with ⟨rfl, hTail⟩
      refine ⟨_, rfl, ?_⟩
      rw [cut_symbol hChars hLine hBlock]
      exact symbol_outdoes hChars hTail
  | keyword k =>
    rcases keyword_word k with ⟨d, tail, hChars, hStart, hParts, hKind⟩
    rw [hChars] at hLeads hKind ⊢
    rcases hHead hLeads with ⟨rfl, hTail⟩
    refine ⟨tail, rfl, ?_⟩
    rw [cut_word hStart]
    exact word_outdoes hParts hKind hTail
  | @identifier d tail hStart hParts hOther =>
    rcases hHead hLeads with ⟨rfl, hTail⟩
    refine ⟨tail, rfl, ?_⟩
    have hKeyword : Keyword.ofChars? (d :: tail) = none := by simp [Keyword.ofChars?, hOther]
    rw [cut_word hStart]
    exact word_outdoes hParts (by rw [wordKind, hKeyword]) hTail
  | whole hNonempty hDigits =>
    cases lexeme with
    | nil => exact absurd rfl hNonempty
    | cons d whole =>
      rcases hHead hLeads with ⟨rfl, hTail⟩
      rw [List.forall_mem_cons] at hDigits
      refine ⟨whole, rfl, ?_⟩
      rw [cut_digit hDigits.1]
      exact whole_outdoes hDigits.2 hTail
  | @fraction digits others hNonempty hDigits hSome hOthers =>
    cases digits with
    | nil => exact absurd rfl hNonempty
    | cons d whole =>
      rcases hHead hLeads with ⟨rfl, hTail⟩
      rw [List.forall_mem_cons] at hDigits
      refine ⟨_, rfl, ?_⟩
      rw [cut_digit hDigits.1]
      exact fraction_outdoes hDigits.2 hSome hOthers hTail
  | string hDenotes =>
    rcases hHead hLeads with ⟨rfl, hTail⟩
    exact ⟨_, rfl, stringLiteral_outdoes hDenotes hTail⟩

theorem cut_of_blank (h : c ∈ blanks) (cs : List Char) : (cut c cs).reading = .blank := by
  have hBlank : isBlank c = true := by simpa [isBlank, blanks, or_assoc] using h
  simp only [cut, hBlank, if_true]

theorem cut_of_comment {comment rest : List Char} (h : Comment comment rest)
    (hText : comment ++ rest = c :: cs) : (cut c cs).reading = .comment := by
  cases h with
  | line =>
    cases hText
    rfl
  | @block body _ hBody =>
    cases hText
    change (blockComment (body ++ ['*', '/'] ++ rest)).reading = .comment
    rw [List.append_assoc, blockComment]
    simp only [List.cons_append, List.nil_append, closeComment_first rest hBody]

end Piece

end Scriptlet
