import Scriptlet.Proofs.Scan.Lexicon

/-
  A source text divided into what the scanner tells of it.

  Key declarations include:
    * `Lexicon.Part`
    * `Lexicon.Division`
    * `Lexicon.Accounted`
    * `Lexicon.Munched`

  The parts of a text follow each other without gaps.  Their
  items are the tokens and the faults, on the lines where
  they stand, and each token is the longest lexeme there:
    * `Lexicon.source_divided_into_items`
    * `Lexicon.longest_lexemes_scanned`
-/

namespace Scriptlet

namespace Lexicon

open Token (newlines)

/- A stretch of text, and the item that tells of it, if any. -/
structure Part where
  text : List Char
  item? : Option (Except Token.Fault Token)

def textOf (parts : List Part) : List Char := parts.flatMap Part.text

/-
  Parts of a source text, from its start to its end.  What is
  scanned are their items, in order, and then the end of the
  file.
-/
structure Division (source file : String) (parts : List Part) : Prop where
  text : textOf parts = source.toList
  nonempty : ∀ part ∈ parts, part.text ≠ []
  items : Token.scan source file = parts.filterMap Part.item? ++
        [.ok (Token.endOfFile (1 + newlines source.toList) file)]
  endOnce : ∀ token, .ok token ∈ parts.filterMap Part.item? → token.kind ≠ .endOfFile

/- What is told of a piece that starts on this line. -/
def itemOf (file : String) (line : Nat) (piece : Piece) : Option (Except Token.Fault Token) :=
  match piece.reading with
  | .blank => none
  | .comment => none
  | .token kind => some (.ok ⟨kind, String.ofList piece.text, line, file⟩)
  | .fault cause => some (.error ⟨cause, line + newlines piece.text, file⟩)

def partsOf (file : String) : Nat → List Piece → List Part
  | _, [] => []
  | line, piece :: others =>
    ⟨piece.text, itemOf file line piece⟩ :: partsOf file (line + newlines piece.text) others

section

variable (file : String) (line : Nat) (ps : List Piece)

theorem newlines_append (xs ys : List Char) :
    newlines (xs ++ ys) = newlines xs + newlines ys := List.count_append

theorem textOf_partsOf : textOf (partsOf file line ps) = Piece.textOf ps := by
  induction ps generalizing line with
  | nil => rfl
  | cons piece others ih => exact congrArg (piece.text ++ ·) (ih (line + newlines piece.text))

theorem items_eq_partsOf :
    Token.items file line ps = (partsOf file line ps).filterMap Part.item? ++
        [.ok (Token.endOfFile (line + newlines (Piece.textOf ps)) file)] := by
  induction ps generalizing line with
  | nil => rfl
  | cons piece others ih =>
    have hLine : line + newlines (Piece.textOf (piece :: others)) =
          line + newlines piece.text + newlines (Piece.textOf others) := by
      rw [Piece.textOf, List.flatMap_cons, newlines_append, Nat.add_assoc]
      rfl
    rw [hLine, Token.items, partsOf, List.filterMap_cons]
    cases hReading : piece.reading <;>
      simp only [itemOf, hReading, ih, List.cons_append]

variable {file line ps}

/- Where a part stands among parts, its piece stands. -/
theorem partsOf_split {before after : List Part} {part : Part}
    (h : partsOf file line ps = before ++ part :: after) :
    ∃ ps₁ piece ps₂, ps = ps₁ ++ piece :: ps₂ ∧ part =
        ⟨piece.text, itemOf file (line + newlines (textOf before)) piece⟩ ∧
      textOf after = Piece.textOf ps₂ := by
  induction before generalizing line ps with
  | nil =>
    cases ps with
    | nil => cases h
    | cons piece others =>
      cases h
      exact ⟨[], piece, others, rfl, rfl, textOf_partsOf ..⟩
  | cons first before ih =>
    cases ps with
    | nil => cases h
    | cons piece others =>
      rw [partsOf, List.cons_append, List.cons.injEq] at h
      rcases h with ⟨rfl, hRest⟩
      rcases ih hRest with ⟨ps₁, other, ps₂, rfl, rfl, hAfter⟩
      have hLine (first : Part) : newlines (textOf (first :: before)) =
            newlines first.text + newlines (textOf before) := newlines_append ..
      refine ⟨piece :: ps₁, other, ps₂, rfl, ?_, hAfter⟩
      rw [hLine, Nat.add_assoc]

end

/- A part that is cut off before the rest of the text. -/
def CutOff (file : String) (before : List Char) (part : Part) (after : List Char) : Prop :=
  ∃ c cs, after = (Piece.cut c cs).rest ∧ part = ⟨c :: (Piece.cut c cs).tail,
        itemOf file (1 + newlines before) ⟨(Piece.cut c cs).reading, c :: (Piece.cut c cs).tail⟩⟩

/- Every piece is cut off before the text of the others. -/
theorem pieces_split (s : List Char) {ps₂ : List Piece} {piece : Piece} :
    ∀ ps₁, Piece.pieces s = ps₁ ++ piece :: ps₂ → ∃ c cs, Piece.textOf ps₂ = (Piece.cut c cs).rest ∧
        piece = ⟨(Piece.cut c cs).reading, c :: (Piece.cut c cs).tail⟩ := by
  fun_induction Piece.pieces s with
  | case1 => simp
  | case2 c cs first ih =>
    intro ps₁ h
    cases ps₁ with
    | nil =>
      cases h
      exact ⟨c, cs, Token.pieces_text _, rfl⟩
    | cons other ps₁ => exact ih ps₁ (List.cons.inj h).2

variable (source file : String)

/- Every text is divided into the parts that are cut off. -/
theorem exists_division :
    ∃ parts, Division source file parts ∧ ∀ before part after, parts = before ++ part :: after →
        CutOff file (textOf before) part (textOf after) := by
  have hCut {before after : List Part} {part : Part}
      (h : partsOf file 1 (Piece.pieces source.toList) = before ++ part :: after) :
      CutOff file (textOf before) part (textOf after) := by
    rcases partsOf_split h with ⟨ps₁, piece, ps₂, hPieces, rfl, hAfter⟩
    rcases pieces_split _ ps₁ hPieces with ⟨c, cs, hRest, rfl⟩
    exact ⟨c, cs, hAfter.trans hRest, rfl⟩
  have hText : Piece.textOf (Piece.pieces source.toList) = source.toList := Token.pieces_text _
  refine ⟨partsOf file 1 (Piece.pieces source.toList), ⟨?_, ?_, ?_, ?_⟩, fun _ _ _ => hCut⟩
  · rw [textOf_partsOf, hText]
  · intro part hPart
    rcases List.append_of_mem hPart with ⟨before, after, hSplit⟩
    rcases hCut hSplit with ⟨c, cs, _, rfl⟩
    exact List.cons_ne_nil _ _
  · rw [Token.scan, items_eq_partsOf, hText]
  · intro token hToken
    rcases List.mem_filterMap.mp hToken with ⟨part, hPart, hItem⟩
    rcases List.append_of_mem hPart with ⟨before, after, hSplit⟩
    rcases hCut hSplit with ⟨c, cs, _, rfl⟩
    have hKind := Token.cut_kind c cs
    cases hReading : (Piece.cut c cs).reading <;>
      simp only [itemOf, hReading] at hItem
    all_goals cases hItem
    rintro rfl
    exact hKind hReading

/-
  A part is one blank, one comment, the lexeme of its token
  or the text of its fault.  A token stands on the line where
  its part starts, a fault on the line where its part ends.
-/
def Accounted (file : String) (before : List Char) (part : Part) (after : List Char) : Prop :=
  match part.item? with
  | none => (∃ c ∈ blanks, part.text = [c]) ∨ Comment part.text after
  | some (.ok token) =>
    token.lexeme.toList = part.text ∧ token.line = 1 + newlines before ∧ token.file = file
  | some (.error fault) =>
    Faulty fault.cause part.text after ∧
      fault.line = 1 + newlines (before ++ part.text) ∧ fault.file = file

variable {before after : List Char} {part : Part}

theorem CutOff.accounted {file : String} (h : CutOff file before part after) :
    Accounted file before part after := by
  rcases h with ⟨c, cs, rfl, rfl⟩
  have hTold := Piece.cut_told c cs
  cases hReading : (Piece.cut c cs).reading with
  | blank =>
    rw [hReading] at hTold
    exact .inl hTold
  | comment =>
    rw [hReading] at hTold
    exact .inr hTold
  | token kind =>
    simp only [Accounted, itemOf]
    exact ⟨String.toList_ofList, trivial, trivial⟩
  | fault cause =>
    rw [hReading] at hTold
    simp only [Accounted, itemOf, newlines_append, ← Nat.add_assoc]
    exact ⟨hTold, trivial, trivial⟩

/-
  Nothing of a source text is lost or told twice, every item
  is on its line, and the end of the file comes once and last.
-/
theorem source_divided_into_items :
    ∃ parts, Division source file parts ∧
      ∀ before part after, parts = before ++ part :: after →
        Accounted file (textOf before) part (textOf after) := by
  rcases exists_division source file with ⟨parts, hDivision, hCut⟩
  refine ⟨parts, hDivision, fun before part after hSplit => ?_⟩
  exact (hCut before part after hSplit).accounted

/- No token, blank or comment starts a text. -/
structure Barren (text : List Char) : Prop where
  token : ∀ kind lexeme, ¬ Starts kind lexeme text
  blank : ∀ c ∈ blanks, ¬ [c] <+: text
  comment : ∀ comment rest, Comment comment rest → text ≠ comment ++ rest

/-
  The token of a part is the longest one that starts there,
  and no other kind has its lexeme.  There is a fault just
  where nothing else starts.
-/
structure Munched (part : Part) (after : List Char) : Prop where
  token : ∀ token, part.item? = some (.ok token) → token.lexeme.toList = part.text ∧
        Starts token.kind part.text (part.text ++ after) ∧
          ∀ kind lexeme, Starts kind lexeme (part.text ++ after) →
            lexeme.length ≤ part.text.length ∧ (lexeme = part.text → kind = token.kind)
  fault : (∃ fault, part.item? = some (.error fault)) ↔ Barren (part.text ++ after)

theorem barren_of_fault {c : Char} {cs : List Char} {cause : Piece.Cause}
    (h : (Piece.cut c cs).reading = .fault cause) : Barren (c :: cs) where
  token kind lexeme hStarts := by
    rcases Piece.cut_of_starts hStarts with ⟨tail, rfl, ⟨other, hToken, _⟩, _⟩
    rw [h] at hToken
    cases hToken
  blank d hBlank hLeads := by
    obtain rfl : d = c := (List.cons_prefix_cons.mp hLeads).1
    rw [Piece.cut_of_blank hBlank] at h
    cases h
  comment comment rest hComment hText := by
    rw [Piece.cut_of_comment hComment hText.symm] at h
    cases h

theorem CutOff.munched {file : String} (h : CutOff file before part after) :
    Munched part after := by
  rcases h with ⟨c, cs, rfl, rfl⟩
  have hText : c :: (Piece.cut c cs).tail ++ (Piece.cut c cs).rest = c :: cs :=
    congrArg (c :: ·) (Piece.cut_append c cs)
  have hTold := Piece.cut_told c cs
  constructor
  · intro token hItem
    cases hReading : (Piece.cut c cs).reading <;>
      simp only [itemOf, hReading] at hItem
    all_goals cases hItem
    rename_i kind
    rw [hReading] at hTold
    refine ⟨String.toList_ofList, hTold, fun other lexeme hStarts => ?_⟩
    rw [hText] at hStarts
    rcases Piece.cut_of_starts hStarts with ⟨tail, rfl, ⟨kind', hToken, hKind⟩, hLonger⟩
    rw [hReading] at hToken
    cases hToken
    exact ⟨Nat.succ_le_succ hLonger, fun hSame => (hKind (List.cons.inj hSame).2).symm⟩
  · constructor
    · rintro ⟨fault, hItem⟩
      rw [hText]
      cases hReading : (Piece.cut c cs).reading <;>
        simp only [itemOf, hReading] at hItem
      all_goals cases hItem
      exact barren_of_fault hReading
    · intro hBarren
      cases hReading : (Piece.cut c cs).reading with
      | fault cause => exact ⟨_, rfl⟩
      | blank =>
        rw [hReading] at hTold
        rcases hTold with ⟨d, hBlank, hOne⟩
        refine absurd ?_ (hBarren.blank d hBlank)
        rw [hOne]
        exact List.prefix_append _ _
      | comment =>
        rw [hReading] at hTold
        exact absurd rfl (hBarren.comment _ _ hTold)
      | token kind =>
        rw [hReading] at hTold
        exact absurd hTold (hBarren.token _ _)

/-
  In one division every part is accounted for, every token
  is the longest lexeme at its place, and faults are told
  where nothing starts.
-/
theorem longest_lexemes_scanned :
    ∃ parts, Division source file parts ∧
      ∀ before part after, parts = before ++ part :: after →
        Accounted file (textOf before) part (textOf after) ∧
          Munched part (textOf after) := by
  rcases exists_division source file with ⟨parts, hDivision, hCut⟩
  refine ⟨parts, hDivision, fun before part after hSplit => ?_⟩
  have hPart := hCut before part after hSplit
  exact ⟨hPart.accounted, hPart.munched⟩

end Lexicon

end Scriptlet
