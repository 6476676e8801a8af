import Scriptlet.Proofs.Scan.Lines

/-
  Pieces of text that are put together again.

  Key declarations include:
    * `Piece.Stops`
    * `Piece.Tiles`
    * `Piece.Tiles.pieces_eq`

  A piece is cut off in the same way wherever the characters
  after it do not belong to it.  So pieces are cut off one by
  one from their text if each of them stops before the next.
-/

namespace Scriptlet

namespace Piece

/- The text does not go on with such a character. -/
def Fails (p : Char → Bool) (rest : List Char) : Prop := ∀ c ∈ rest.head?, p c = false

theorem Fails.nil (p : Char → Bool) : Fails p [] := fun _ h => nomatch h

section

variable {p : Char → Bool} {cs rest : List Char}

variable {c : Char}

theorem Fails.cons (h : p c = false) (rest : List Char) : Fails p (c :: rest) := by
  intro d hMem
  cases hMem
  exact h

theorem fails_dropWhile (cs : List Char) : Fails p (cs.dropWhile p) := by
  intro c hMem
  have hHead := List.head?_dropWhile_not p cs
  rw [Option.mem_def.mp hMem] at hHead
  simpa using hHead

theorem takeWhile_append (hAll : ∀ c ∈ cs, p c = true) (h : Fails p rest) :
    (cs ++ rest).takeWhile p = cs := by
  rw [List.takeWhile_append_of_pos hAll]
  cases rest with
  | nil => simp
  | cons c rest => simp [h c rfl]

theorem dropWhile_append (hAll : ∀ c ∈ cs, p c = true) (h : Fails p rest) :
    (cs ++ rest).dropWhile p = rest := by
  rw [List.dropWhile_append_of_pos hAll]
  cases rest with
  | nil => rfl
  | cons c rest => simp [h c rfl]

theorem mem_takeWhile (h : c ∈ cs.takeWhile p) : p c = true :=
  List.all_eq_true.mp List.all_takeWhile c h

end

variable {inside after : List Char}

theorem closeComment_ne_nil {cs : List Char}
    (h : closeComment cs = some (inside, after)) : inside ≠ [] := by
  rintro rfl
  fun_cases closeComment cs with
  | case1 => simp [closeComment] at h
  | case2 rest => simp [closeComment] at h
  | case3 c rest hNot =>
    rw [closeComment] at h
    · rcases Option.map_eq_some_iff.1 h with ⟨_, _, hEq⟩
      cases hEq
    · exact hNot

theorem closeComment_again {cs : List Char}
    (h : closeComment cs = some (inside, after)) (rest : List Char) :
    closeComment (inside ++ rest) = some (inside, rest) := by
  fun_induction closeComment cs generalizing inside after with
  | case1 => cases h
  | case2 others =>
    simp only [Option.some.injEq, Prod.mk.injEq] at h
    simp [closeComment, ← h.1]
  | case3 c others hNot ih =>
    obtain ⟨⟨inside', after'⟩, hTail, hEq⟩ := Option.map_eq_some_iff.1 h
    simp only [Prod.mk.injEq] at hEq
    have hText := closeComment_eq_some hTail
    rw [← hEq.1, List.cons_append, closeComment, ih hTail]
    · rfl
    · intro more hStar hSlash
      cases inside' with
      | nil => exact closeComment_ne_nil hTail rfl
      | cons d inside' =>
        cases hSlash
        exact hNot (inside' ++ after') hStar hText.symm

end Piece

namespace Quoted

/- A plain atom neither ends the literal nor escapes. -/
def Atom.IsProper : Atom → Prop
  | .plain c => c ≠ '"' ∧ c ≠ '\\'
  | .escaped _ => True

variable {atoms : List Atom}

theorem split_spell (h : ∀ atom ∈ atoms, atom.IsProper) (rest : List Char) :
    split (spell atoms ++ '"' :: rest) =
      some (atoms, rest) := by
  induction atoms with
  | nil => rfl
  | cons atom others ih =>
    rw [List.forall_mem_cons] at h
    cases atom with
    | escaped c =>
      simp only [spell, List.flatMap_cons, Atom.text,
        List.cons_append, List.nil_append, split] at ih ⊢
      rw [ih h.2]
      rfl
    | plain c =>
      simp only [spell, List.flatMap_cons, Atom.text, List.cons_append, List.nil_append] at ih ⊢
      rw [split, ih h.2]
      · rfl
      · exact h.1.1
      · exact fun hSlash _ => h.1.2 hSlash
      · exact fun _ _ hSlash _ => h.1.2 hSlash

/- Atoms that are split off are proper. -/
theorem isProper_of_split {cs : List Char}
    {after : List Char} (h : split cs = some (atoms, after)) : ∀ atom ∈ atoms, atom.IsProper := by
  fun_induction split cs generalizing atoms after with
  | case1 => cases h
  | case2 rest =>
    simp only [Option.some.injEq, Prod.mk.injEq] at h
    rw [← h.1]
    exact List.forall_mem_nil _
  | case3 => cases h
  | case4 c rest ih =>
    obtain ⟨⟨tail, after'⟩, hTail, hEq⟩ := Option.map_eq_some_iff.1 h
    simp only [Prod.mk.injEq] at hEq
    rw [← hEq.1]
    exact List.forall_mem_cons.mpr ⟨trivial, ih hTail⟩
  | case5 c rest hQuote hLone hEscape ih =>
    obtain ⟨⟨tail, after'⟩, hTail, hEq⟩ := Option.map_eq_some_iff.1 h
    simp only [Prod.mk.injEq] at hEq
    rw [← hEq.1]
    refine List.forall_mem_cons.mpr ⟨⟨hQuote, ?_⟩, ih hTail⟩
    rintro rfl
    cases rest with
    | nil => exact hLone rfl rfl
    | cons d rest => exact hEscape d rest rfl rfl

end Quoted

namespace Piece

/- A symbol that is not the first half of another one. -/
def symbolStops (c : Char) (tail rest : List Char) : Prop :=
  tail = [] → Fails (fun d => (Symbol.pair? c d).isSome) rest

/- No more digits, nor a point before digits. -/
def numberStops (tail rest : List Char) : Prop :=
  Fails Char.isDigit rest ∧ ('.' ∉ tail → ∀ d others, rest = '.' :: d :: others → d.isDigit = false)

/- A comment up to the end of its line, or no comment. -/
def slashStops (tail rest : List Char) : Prop :=
  match tail with
  | [] => Fails (· = '/') rest ∧ Fails (· = '*') rest ∧ symbolStops '/' [] rest
  | '/' :: _ => Fails (· ≠ '\n') rest
  | _ => True

/-
  A piece that starts with `c` and goes on with `tail` does
  not go on with `rest`.
-/
def Stops (c : Char) (tail rest : List Char) : Prop :=
  if isBlank c then True
  else if c = '/' then slashStops tail rest
  else if c = '"' then True
  else if c.isDigit then numberStops tail rest
  else if isWordStart c then Fails isWordPart rest
  else symbolStops c tail rest

theorem stops_nil (c : Char) (tail : List Char) : Stops c tail [] := by
  unfold Stops slashStops
  repeat' split
  all_goals simp [Fails, symbolStops, numberStops]

/- The same piece before another text. -/
def Cut.onto (first : Cut) (rest : List Char) : Cut := { first with rest := rest }

theorem singleSymbol_tail (c : Char) (cs : List Char) : (singleSymbol c cs).tail = [] := by
  unfold singleSymbol
  split <;> rfl

theorem singleSymbol_rest (c : Char) (cs : List Char) : (singleSymbol c cs).rest = cs := by
  unfold singleSymbol
  split <;> rfl

theorem symbol_stops (c : Char) (cs : List Char) :
    symbolStops c (symbol c cs).tail (symbol c cs).rest := by
  intro hTail
  cases cs with
  | nil =>
    simp only [symbol, singleSymbol_rest]
    exact .nil _
  | cons d others =>
    cases hPair : Symbol.pair? c d with
    | some s => simp [symbol, hPair] at hTail
    | none =>
      simp only [symbol, hPair, singleSymbol_rest]
      exact .cons (by rw [hPair]; rfl) others

variable {c : Char}

variable {cs rest : List Char}

theorem symbol_again (h : symbolStops c (symbol c cs).tail rest) :
    symbol c ((symbol c cs).tail ++ rest) = (symbol c cs).onto rest := by
  have hSingle : ∀ more, Fails (fun d => (Symbol.pair? c d).isSome) rest →
        symbol c rest = (singleSymbol c more).onto rest := by
    intro more hFails
    cases rest with
    | nil =>
      simp only [symbol, singleSymbol, Cut.onto]
      split <;> rfl
    | cons d others =>
      have hPair := hFails d rfl
      simp only [Option.isSome_eq_false_iff, Option.isNone_iff_eq_none] at hPair
      simp only [symbol, hPair, singleSymbol, Cut.onto]
      split <;> rfl
  cases cs with
  | nil =>
    have hTail : (symbol c []).tail = [] := singleSymbol_tail c []
    rw [hTail, List.nil_append]
    exact hSingle [] (h hTail)
  | cons d others =>
    cases hPair : Symbol.pair? c d with
    | some s => simp [symbol, hPair, Cut.onto]
    | none =>
      have hSymbol : symbol c (d :: others) = singleSymbol c (d :: others) := by
        simp only [symbol, hPair]
      rw [hSymbol] at h ⊢
      rw [singleSymbol_tail, List.nil_append]
      exact hSingle _ (h (singleSymbol_tail ..))

------------------------------------------------------------
-- Pieces Cut Again
------------------------------------------------------------

theorem numberLiteral_stops (c : Char) (cs : List Char) :
    numberStops (numberLiteral c cs).tail (numberLiteral c cs).rest := by
  unfold numberLiteral
  dsimp only
  split
  · rename_i d others hAfter
    split
    · rename_i hDigit
      exact ⟨fails_dropWhile others, fun hPoint =>
        absurd (List.mem_append_right _ (List.mem_cons_self ..)) hPoint⟩
    · rename_i hDigit
      refine ⟨fails_dropWhile cs, fun _ e more hRest => ?_⟩
      rw [hAfter] at hRest
      cases hRest
      simpa using hDigit
  · rename_i hAfter
    refine ⟨fails_dropWhile cs, fun _ d more hRest => ?_⟩
    exact absurd hRest (hAfter d more)

variable {whole : List Char}

/- A number without a fraction. -/
theorem numberLiteral_whole
    (hWhole : ∀ d ∈ whole, d.isDigit = true) (h : numberStops whole rest) :
    numberLiteral c (whole ++ rest) =
      ⟨.token (.number (Numeral.ofDecimal (c :: whole) [])), whole, rest⟩ := by
  have hPoint : '.' ∉ whole := by
    intro hMem
    exact absurd (hWhole '.' hMem) (by decide)
  unfold numberLiteral
  rw [takeWhile_append hWhole h.1, dropWhile_append hWhole h.1]
  dsimp only
  by_cases hRest : ∃ d others, rest = '.' :: d :: others
  · rcases hRest with ⟨d, others, rfl⟩
    have hDigit := h.2 hPoint d others rfl
    simp only [hDigit, Bool.false_eq_true, if_false]
  · split
    · exact absurd ⟨_, _, rfl⟩ hRest
    · rfl

/- A number with a fraction. -/
theorem numberLiteral_fraction {d : Char} {others : List Char}
    (hWhole : ∀ d ∈ whole, d.isDigit = true) (hFirst : d.isDigit = true)
    (hOthers : ∀ d ∈ others, d.isDigit = true) (h : Fails Char.isDigit rest) :
    numberLiteral c (whole ++ '.' :: d :: (others ++ rest)) = ⟨.token
          (.number (Numeral.ofDecimal (c :: whole) (d :: others))),
        whole ++ '.' :: d :: others, rest⟩ := by
  have hPoint : Fails Char.isDigit ('.' :: d :: (others ++ rest)) := .cons (by decide) _
  unfold numberLiteral
  rw [takeWhile_append hWhole hPoint, dropWhile_append hWhole hPoint]
  simp only [hFirst, if_true, takeWhile_append hOthers h, dropWhile_append hOthers h]

/- The two forms of numbers. -/
theorem numberLiteral_forms (c : Char) (cs : List Char) :
    ∃ whole rest, (∀ d ∈ whole, d.isDigit = true) ∧
      (numberLiteral c cs = ⟨.token (.number (Numeral.ofDecimal (c :: whole) [])), whole, rest⟩ ∨
        ∃ d others, d.isDigit = true ∧ (∀ d ∈ others, d.isDigit = true) ∧
            numberLiteral c cs = ⟨.token (.number (Numeral.ofDecimal (c :: whole) (d :: others))),
                whole ++ '.' :: d :: others, rest⟩) := by
  refine ⟨cs.takeWhile Char.isDigit, (numberLiteral c cs).rest,
    fun _ hMem => mem_takeWhile hMem, ?_⟩
  unfold numberLiteral
  dsimp only
  split
  · rename_i d others hAfter
    split
    · rename_i hDigit
      exact .inr ⟨d, others.takeWhile Char.isDigit, hDigit, fun _ hMem => mem_takeWhile hMem, rfl⟩
    · exact .inl rfl
  · exact .inl rfl

theorem numberLiteral_again (h : numberStops (numberLiteral c cs).tail rest) :
    numberLiteral c ((numberLiteral c cs).tail ++ rest) = (numberLiteral c cs).onto rest := by
  rcases numberLiteral_forms c cs with ⟨whole, after, hWhole,
      hForm | ⟨d, others, hFirst, hOthers, hForm⟩⟩
  · rw [hForm] at h ⊢
    exact numberLiteral_whole hWhole h
  · rw [hForm] at h ⊢
    simp only [List.append_assoc, List.cons_append]
    exact numberLiteral_fraction hWhole hFirst hOthers h.1

theorem stringLiteral_again
    (hClosed : (stringLiteral cs).reading.isClosed = true) (rest : List Char) :
    stringLiteral ((stringLiteral cs).tail ++ rest) = (stringLiteral cs).onto rest := by
  unfold stringLiteral at hClosed ⊢
  cases hSplit : Quoted.split cs with
  | none =>
    rw [hSplit] at hClosed
    cases hClosed
  | some parts =>
    rcases parts with ⟨atoms, after⟩
    have hAgain := Quoted.split_spell (Quoted.isProper_of_split hSplit) rest
    cases hUnknown : atoms.findSome? Quoted.Atom.unknown? <;>
      simp only [List.append_assoc, List.singleton_append, hAgain, hUnknown, Cut.onto]

theorem blockComment_again
    (hClosed : (blockComment cs).reading.isClosed = true) (rest : List Char) :
    ∃ inside, (blockComment cs).tail = '*' :: inside ∧
        blockComment (inside ++ rest) = (blockComment cs).onto rest := by
  unfold blockComment at hClosed ⊢
  cases hClose : closeComment cs with
  | none =>
    rw [hClose] at hClosed
    cases hClosed
  | some parts =>
    rcases parts with ⟨inside, after⟩
    refine ⟨inside, rfl, ?_⟩
    rw [closeComment_again hClose rest]
    rfl

theorem lineComment_again (h : Fails (· ≠ '\n') rest) :
    lineComment ((lineComment cs).tail ++ rest) = (lineComment cs).onto rest := by
  have hAll : ∀ c ∈ cs.takeWhile (· ≠ '\n'),
        decide (c ≠ '\n') = true :=
    fun _ hMem => mem_takeWhile hMem
  unfold lineComment
  simp only [takeWhile_append hAll h, dropWhile_append hAll h, Cut.onto]

theorem word_again (h : Fails isWordPart rest) :
    word c ((word c cs).tail ++ rest) = (word c cs).onto rest := by
  have hAll : ∀ c ∈ cs.takeWhile isWordPart, isWordPart c := fun _ hMem => mem_takeWhile hMem
  simp only [word, takeWhile_append hAll h, dropWhile_append hAll h, Cut.onto]

/- A slash that does not start a comment. -/
theorem slash_eq_symbol (hSlash : Fails (· = '/') rest)
    (hStar : Fails (· = '*') rest) : slash rest = symbol '/' rest := by
  unfold slash
  split
  · exact absurd (hSlash '/' rfl) (by decide)
  · exact absurd (hStar '*' rfl) (by decide)
  · rfl

theorem blockComment_tail (cs : List Char) :
    ∃ inside, (blockComment cs).tail = '*' :: inside := by
  unfold blockComment
  split <;> exact ⟨_, rfl⟩

/- What may follow a slash. -/
theorem slash_forms (cs : List Char) :
    (∃ others, cs = '/' :: others) ∨ (∃ others, cs = '*' :: others) ∨
        Fails (· = '/') cs ∧ Fails (· = '*') cs := by
  cases cs with
  | nil => exact .inr (.inr ⟨.nil _, .nil _⟩)
  | cons c others =>
    by_cases hSlash : c = '/'
    · exact .inl ⟨others, by rw [hSlash]⟩
    by_cases hStar : c = '*'
    · exact .inr (.inl ⟨others, by rw [hStar]⟩)
    · exact .inr (.inr ⟨.cons (decide_eq_false hSlash) _, .cons (decide_eq_false hStar) _⟩)

theorem slash_stops (cs : List Char) : slashStops (slash cs).tail (slash cs).rest := by
  rcases slash_forms cs with ⟨others, rfl⟩ | ⟨others, rfl⟩ | ⟨hSlash, hStar⟩
  · exact fails_dropWhile others
  · rcases blockComment_tail others with ⟨inside, hTail⟩
    simp only [slash, hTail]
    trivial
  · have hStops := symbol_stops '/' cs
    have hAppend := symbol_append '/' cs
    rw [slash_eq_symbol hSlash hStar]
    cases hTail : (symbol '/' cs).tail with
    | nil =>
      rw [hTail] at hStops hAppend
      rw [List.nil_append] at hAppend
      rw [hAppend] at hStops ⊢
      exact ⟨hSlash, hStar, hStops⟩
    | cons d others =>
      rw [hTail] at hAppend
      have hOther := hSlash d (by rw [← hAppend]; rfl)
      unfold slashStops
      split
      · trivial
      · rename_i hEq
        cases hEq
        cases hOther
      · trivial

theorem slash_again (hClosed : (slash cs).reading.isClosed = true)
    (h : slashStops (slash cs).tail rest) :
    slash ((slash cs).tail ++ rest) = (slash cs).onto rest := by
  rcases slash_forms cs with ⟨others, rfl⟩ | ⟨others, rfl⟩ | ⟨hSlash, hStar⟩
  · have hLine := @lineComment_again others rest h
    simp only [slash, List.cons_append, hLine]
    rfl
  · simp only [slash] at hClosed ⊢
    rcases blockComment_again hClosed rest with ⟨inside, hTail, hAgain⟩
    rw [hTail, List.cons_append]
    exact hAgain
  · have hAppend := symbol_append '/' cs
    rw [slash_eq_symbol hSlash hStar] at h ⊢
    cases hTail : (symbol '/' cs).tail with
    | nil =>
      rw [hTail] at h
      rcases h with ⟨hSlash', hStar', hStops⟩
      rw [List.nil_append, slash_eq_symbol hSlash' hStar']
      have hAgain := symbol_again (hTail ▸ hStops)
      rw [hTail] at hAgain
      exact hAgain
    | cons d others =>
      rw [hTail] at hAppend
      have hHead : d ∈ cs.head? := by
        rw [← hAppend]
        rfl
      rw [List.cons_append, slash_eq_symbol (.cons (hSlash d hHead) _)
          (.cons (hStar d hHead) _), ← List.cons_append, ← hTail]
      apply symbol_again
      intro hNil
      rw [hNil] at hTail
      cases hTail

/- A piece stops where it is cut off. -/
theorem cut_stops (c : Char) (cs : List Char) : Stops c (cut c cs).tail (cut c cs).rest := by
  unfold Stops cut
  split
  · trivial
  split
  · exact slash_stops cs
  split
  · trivial
  split
  · exact numberLiteral_stops c cs
  split
  · exact fails_dropWhile cs
  · exact symbol_stops c cs

/- A piece is cut off wherever it stops. -/
theorem cut_again (hClosed : (cut c cs).reading.isClosed = true)
    (h : Stops c (cut c cs).tail rest) :
    cut c ((cut c cs).tail ++ rest) = (cut c cs).onto rest := by
  unfold Stops cut at *
  by_cases hBlank : isBlank c = true
  · simp only [hBlank, if_true]
    rfl
  by_cases hSlash : c = '/'
  · simp only [hSlash, if_true] at h hClosed ⊢
    exact slash_again hClosed h
  by_cases hQuote : c = '"'
  · simp only [hQuote, if_true] at hClosed ⊢
    exact stringLiteral_again hClosed rest
  by_cases hDigit : c.isDigit = true
  · simp only [hBlank, hSlash, hQuote, hDigit, if_true] at h ⊢
    exact numberLiteral_again h
  by_cases hWord : isWordStart c = true
  · simp only [hBlank, hSlash, hQuote, hDigit, hWord, if_true] at h ⊢
    exact word_again h
  · simp only [hBlank, hSlash, hQuote, hDigit, hWord] at h ⊢
    exact symbol_again h

/- The text of pieces. -/
def textOf (ps : List Piece) : List Char := ps.flatMap Piece.text

/- A piece that is cut off somewhere. -/
def IsWhole (piece : Piece) : Prop :=
  ∃ c cs, piece = ⟨(cut c cs).reading, c :: (cut c cs).tail⟩

/- The piece ends before this text. -/
def StopsBefore (piece : Piece) (rest : List Char) : Prop :=
  ∀ c tail, piece.text = c :: tail → Stops c tail rest

/- Pieces of which each stops before the next. -/
inductive Tiles : List Piece → Prop where
  | nil : Tiles []
  | cons {piece ps} : piece.IsWhole → piece.reading.isClosed = true →
      piece.StopsBefore (textOf ps) → Tiles ps → Tiles (piece :: ps)

variable {ps : List Piece}

/- Pieces put together are cut apart again. -/
theorem Tiles.pieces_eq (h : Tiles ps) : pieces (textOf ps) = ps := by
  induction h with
  | nil => rw [textOf, List.flatMap_nil, pieces]
  | @cons piece ps hWhole hClosed hStops _ ih =>
    rcases hWhole with ⟨c, cs, rfl⟩
    have hCut := cut_again hClosed (hStops c _ rfl)
    rw [textOf, List.flatMap_cons, List.cons_append, pieces]
    simp only [textOf] at hCut ih
    rw [hCut]
    simp only [Cut.onto, ih]

theorem Tiles.isWhole (h : Tiles ps) : ∀ piece ∈ ps, piece.IsWhole := by
  induction h with
  | nil => exact fun _ hMem => nomatch hMem
  | cons hWhole _ _ _ ih => exact List.forall_mem_cons.mpr ⟨hWhole, ih⟩

/- The pieces of a text. -/
theorem tiles_pieces (s : List Char)
    (hClosed : ∀ piece ∈ pieces s, piece.reading.isClosed = true) :
    Tiles (pieces s) := by
  fun_induction pieces s with
  | case1 => exact .nil
  | case2 c cs first ih =>
    rw [List.forall_mem_cons] at hClosed
    refine .cons ⟨c, cs, rfl⟩ hClosed.1 ?_ (ih hClosed.2)
    rintro d tail hText
    cases hText
    rw [textOf, Token.pieces_text]
    exact cut_stops c cs

end Piece

end Scriptlet
