import Scriptlet.Proofs.Scan.Tiles

/-
  Texts in which some names are spelled in another way.

  Key declarations include:
    * `Piece.isName`
    * `Piece.respell`
    * `Token.placed`
    * `Token.body_respell`

  Names stand where names stood, so all other pieces are cut
  off as before, and all tokens are on the same lines.
-/

namespace Scriptlet

namespace Piece

/- A word that is no keyword. -/
def isName : List Char → Bool
  | [] => false
  | c :: tail => isWordStart c && tail.all isWordPart && (Keyword.ofChars? (c :: tail)).isNone

/-
  Pieces from a number on, with another text for those of
  marked numbers.
-/
def respell (marked : Nat → Bool) (text : List Char) : Nat → List Piece → List Piece
  | _, [] => []
  | place, piece :: others =>
    (if marked place then { piece with text := text }
      else piece) :: respell marked text (place + 1) others

end Piece

namespace Token

/- The tokens of pieces, with the numbers of their pieces. -/
def placed : Nat → List Piece → List Token
  | _, [] => []
  | place, piece :: others =>
    match piece.reading with
    | .token kind => ⟨kind, String.ofList piece.text, place, ""⟩ :: placed (place + 1) others
    | _ => placed (place + 1) others

end Token

namespace Piece

variable {c : Char}

section

variable (h : isWordStart c = true)

include h

theorem isWordPart_of_isWordStart : isWordPart c = true := by
  simp only [isWordStart, Bool.or_eq_true, decide_eq_true_eq] at h
  simp only [isWordPart, Char.isAlphanum, Bool.or_eq_true, decide_eq_true_eq]
  exact h.imp .inl id

theorem isDigit_of_isWordStart : c.isDigit = false := by
  simp only [isWordStart, Bool.or_eq_true, decide_eq_true_eq] at h
  rcases h with h | rfl
  · delta Char.isAlpha Char.isUpper Char.isLower at h
    simp only [Bool.or_eq_true, Bool.and_eq_true, decide_eq_true_eq, ge_iff_le,
      UInt32.le_iff_toNat_le] at h
    simp only [Char.isDigit, Bool.and_eq_false_iff,
      decide_eq_false_iff_not, ge_iff_le, UInt32.le_iff_toNat_le]
    simp at h ⊢
    omega
  · rfl

/- A word start is no character of another kind. -/
theorem ne_of_isWordStart {d : Char} (hOther : isWordStart d = false) : c ≠ d := by
  rintro rfl
  rw [h] at hOther
  cases hOther

theorem isBlank_of_isWordStart : isBlank c = false := by
  simp [isBlank, ne_of_isWordStart h (d := ' ') rfl,
    ne_of_isWordStart h (d := '\r') rfl, ne_of_isWordStart h (d := '\t') rfl,
    ne_of_isWordStart h (d := '\n') rfl]

theorem cut_word (cs : List Char) : cut c cs = word c cs := by
  simp only [cut, isBlank_of_isWordStart h, ne_of_isWordStart h (d := '/') rfl,
    ne_of_isWordStart h (d := '"') rfl,
    isDigit_of_isWordStart h, h, Bool.false_eq_true, if_false,
    if_true]

theorem stops_word (tail rest : List Char) : Stops c tail rest ↔ Fails isWordPart rest := by
  simp only [Stops, isBlank_of_isWordStart h, ne_of_isWordStart h (d := '/') rfl,
    ne_of_isWordStart h (d := '"') rfl,
    isDigit_of_isWordStart h, h, Bool.false_eq_true, if_false,
    if_true]

/- No symbol goes on with the start of a word. -/
theorem pair?_of_isWordStart (first : Char) : Symbol.pair? first c = none := by
  unfold Symbol.pair?
  split <;> first | rfl | cases h

end

/- A name stops where no word goes on. -/
theorem stopsBefore_name {piece : Piece} (h : isName piece.text = true)
    (rest : List Char) : piece.StopsBefore rest ↔ Fails isWordPart rest := by
  rcases piece with ⟨_, text⟩
  cases text with
  | nil => cases h
  | cons c tail =>
    simp only [isName, Bool.and_eq_true] at h
    rw [← stops_word h.1.1 tail rest]
    constructor
    · intro hStops
      exact hStops c tail rfl
    · rintro hStops _ _ hText
      cases hText
      exact hStops

/- A name is an identifier wherever it is cut off. -/
theorem isWhole_of_isName {text : List Char} (h : isName text = true) :
    IsWhole ⟨.token .identifier, text⟩ := by
  cases text with
  | nil => cases h
  | cons c tail =>
    simp only [isName, Bool.and_eq_true, List.all_eq_true, Option.isNone_iff_eq_none] at h
    rcases h with ⟨⟨hStart, hParts⟩, hKeyword⟩
    have hTail : tail.takeWhile isWordPart = tail := by
      have hAppend := takeWhile_append hParts (.nil _)
      rw [List.append_nil] at hAppend
      exact hAppend
    refine ⟨c, tail, ?_⟩
    rw [cut_word hStart, word, hTail]
    simp only [wordKind, hKeyword]

theorem singleSymbol_reading (c : Char) (cs : List Char) :
    (singleSymbol c cs).reading ≠ .token .identifier := by
  unfold singleSymbol
  split <;> simp

theorem symbol_reading (c : Char) (cs : List Char) :
    (symbol c cs).reading ≠ .token .identifier := by
  unfold symbol
  split
  · exact singleSymbol_reading c []
  · split
    · simp
    · exact singleSymbol_reading c _

/- An identifier starts like a word. -/
theorem isWordStart_of_cut {cs : List Char}
    (h : (cut c cs).reading = .token .identifier) : isWordStart c = true := by
  rw [← Bool.not_eq_false]
  intro hStart
  unfold cut at h
  split at h
  · cases h
  split at h
  · unfold slash at h
    split at h
    · cases h
    · unfold blockComment at h
      split at h <;> cases h
    · exact symbol_reading _ _ h
  split at h
  · unfold stringLiteral at h
    split at h
    · cases h
    · dsimp only at h
      split at h <;> cases h
  split at h
  · rcases numberLiteral_forms c cs with ⟨_, _, _, hForm | ⟨_, _, _, _, hForm⟩⟩ <;>
    · rw [hForm] at h
      cases h
  split at h
  · rename_i hWord
    rw [hStart] at hWord
    cases hWord
  · exact symbol_reading c cs h

theorem isName_of_isWhole {piece : Piece} (h : piece.IsWhole)
    (hReading : piece.reading = .token .identifier) : isName piece.text = true := by
  rcases h with ⟨c, cs, rfl⟩
  have hStart := isWordStart_of_cut hReading
  rw [cut_word hStart] at hReading ⊢
  simp only [word, wordKind] at hReading
  simp only [isName, word, hStart, Bool.true_and, Bool.and_eq_true, Option.isNone_iff_eq_none]
  refine ⟨List.all_takeWhile, ?_⟩
  split at hReading
  · cases hReading
  · rename_i hNone
    exact hNone

/- A name is nothing but an identifier. -/
theorem reading_of_isName {piece : Piece} (h : piece.IsWhole)
    (hName : isName piece.text = true) :
    piece.reading = .token .identifier := by
  rcases h with ⟨c, cs, rfl⟩
  simp only [isName, Bool.and_eq_true, Option.isNone_iff_eq_none] at hName
  rcases hName with ⟨⟨hStart, _⟩, hKeyword⟩
  rw [cut_word hStart] at hKeyword ⊢
  simp only [word] at hKeyword
  simp only [word, wordKind, hKeyword]

theorem newlines_of_isName {text : List Char} (h : isName text = true) :
    Token.newlines text = 0 := by
  cases text with
  | nil => rfl
  | cons c tail =>
    simp only [isName, Bool.and_eq_true, List.all_eq_true] at h
    rcases h with ⟨⟨hStart, hParts⟩, _⟩
    rw [Token.newlines, List.count_eq_zero]
    intro hMem
    rcases List.mem_cons.mp hMem with rfl | hMem
    · cases hStart
    · cases hParts _ hMem

------------------------------------------------------------
-- Texts That Start Alike
------------------------------------------------------------

/- Both texts start with the same character or with words. -/
def HeadsAlike (rest rest' : List Char) : Prop :=
  rest'.head? = rest.head? ∨ (∃ c ∈ rest.head?, isWordStart c = true) ∧
      ∃ c ∈ rest'.head?, isWordStart c = true

/- And so they do after a point. -/
structure StartAlike (rest rest' : List Char) : Prop where
  heads : HeadsAlike rest rest'
  point : ∀ others', rest' = '.' :: others' → ∃ others, rest = '.' :: others ∧
        HeadsAlike others others'

section

variable {rest rest' tail : List Char}

/- A run of characters that has no word starts, or all. -/
theorem HeadsAlike.fails (h : HeadsAlike rest rest') {p : Char → Bool}
    {b : Bool} (hWords : ∀ c, isWordStart c = true → p c = b)
    (hFails : Fails p rest) : Fails p rest' := by
  intro c hMem
  rcases h with hSame | ⟨⟨d, hHead, hStart⟩, e, hHead', hStart'⟩
  · rw [hSame] at hMem
    exact hFails c hMem
  · have hValue := hFails d hHead
    rw [hWords d hStart] at hValue
    rw [Option.mem_unique hMem hHead', hWords e hStart', hValue]

theorem HeadsAlike.symbolStops (h : HeadsAlike rest rest')
    (hStops : symbolStops c tail rest) : symbolStops c tail rest' := by
  intro hTail
  apply h.fails (b := false) _ (hStops hTail)
  intro d hStart
  rw [pair?_of_isWordStart hStart]
  rfl

theorem HeadsAlike.slashStops (h : HeadsAlike rest rest')
    (hStops : slashStops tail rest) : slashStops tail rest' := by
  have hOther : ∀ {d : Char}, isWordStart d = false → Fails (· = d) rest → Fails (· = d) rest' := by
    intro d hNot
    apply h.fails
    intro c hStart
    exact decide_eq_false (ne_of_isWordStart hStart hNot)
  unfold Piece.slashStops at hStops ⊢
  split at hStops
  · exact ⟨hOther rfl hStops.1, hOther rfl hStops.2.1, h.symbolStops hStops.2.2⟩
  · apply h.fails (b := true) _ hStops
    intro d hStart
    exact decide_eq_true (ne_of_isWordStart hStart rfl)
  · trivial

theorem StartAlike.numberStops (h : StartAlike rest rest')
    (hStops : numberStops tail rest) : numberStops tail rest' := by
  have hDigits : ∀ {rest rest'}, HeadsAlike rest rest' →
        Fails Char.isDigit rest → Fails Char.isDigit rest' :=
    fun h => h.fails fun _ => isDigit_of_isWordStart
  refine ⟨hDigits h.heads hStops.1, ?_⟩
  rintro hPoint d others' hRest'
  rcases h.point _ hRest' with ⟨others, hRest, hHeads⟩
  have hFails : Fails Char.isDigit others := by
    intro e hMem
    cases others with
    | nil => cases hMem
    | cons f more =>
      cases hMem
      exact hStops.2 hPoint _ more hRest
  exact hDigits hHeads hFails d rfl

/- A piece that stops before one stops before the other. -/
theorem StartAlike.stops (h : StartAlike rest rest')
    (hStops : Stops c tail rest) : Stops c tail rest' := by
  unfold Stops at hStops ⊢
  by_cases hBlank : isBlank c = true
  · simp only [hBlank, if_true]
  by_cases hSlash : c = '/'
  · simp only [hSlash, if_true] at hStops ⊢
    exact h.heads.slashStops hStops
  by_cases hQuote : c = '"'
  · simp only [hQuote, if_true] at hStops ⊢
    exact hStops
  by_cases hDigit : c.isDigit = true
  · simp only [hBlank, hSlash, hQuote, hDigit, if_true] at hStops ⊢
    exact h.numberStops hStops
  by_cases hWord : isWordStart c = true
  · simp only [hBlank, hSlash, hQuote, hDigit, hWord, if_true] at hStops ⊢
    exact h.heads.fails (fun _ => isWordPart_of_isWordStart) hStops
  · simp only [hBlank, hSlash, hQuote, hDigit, hWord] at hStops ⊢
    exact h.heads.symbolStops hStops

end

/- The pieces of marked numbers are names. -/
def NamesAt (marked : Nat → Bool) (place : Nat) (ps : List Piece) : Prop :=
  ∀ i piece, ps[i]? = some piece → marked (place + i) = true → piece.reading = .token .identifier

section

variable {marked : Nat → Bool} {text : List Char} {place : Nat} {piece : Piece} {ps : List Piece}

theorem NamesAt.head (h : NamesAt marked place (piece :: ps))
    (hMarked : marked place = true) : piece.reading = .token .identifier := h 0 piece rfl hMarked

theorem NamesAt.tail (h : NamesAt marked place (piece :: ps)) :
    NamesAt marked (place + 1) ps := by
  intro i other hPiece hMarked
  apply h (i + 1) other hPiece
  rw [← Nat.add_assoc, Nat.add_right_comm]
  exact hMarked

/- What the pieces are read as does not change. -/
theorem respell_reading (marked : Nat → Bool) (text : List Char) (place : Nat)
    (ps : List Piece) :
    (respell marked text place ps).map Piece.reading = ps.map Piece.reading := by
  induction ps generalizing place with
  | nil => rfl
  | cons piece ps ih =>
    rw [respell, List.map_cons, List.map_cons, ih]
    split <;> rfl

theorem exists_head_of_isName (h : isName text = true) (rest : List Char) :
    ∃ c ∈ (text ++ rest).head?, isWordStart c = true := by
  cases text with
  | nil => cases h
  | cons c tail =>
    simp only [isName, Bool.and_eq_true] at h
    exact ⟨c, rfl, h.1.1⟩

theorem respell_headsAlike (h : Tiles ps) (hNames : NamesAt marked place ps)
    (hText : isName text = true) :
    HeadsAlike (textOf ps) (textOf (respell marked text place ps)) := by
  cases h with
  | nil => exact .inl rfl
  | @cons piece ps hWhole hClosed hStops hRest =>
    simp only [respell, textOf, List.flatMap_cons]
    by_cases hMarked : marked place = true
    · have hName := isName_of_isWhole hWhole (hNames.head hMarked)
      simp only [hMarked, if_true]
      exact .inr ⟨exists_head_of_isName hName _, exists_head_of_isName hText _⟩
    · rcases hWhole with ⟨c, cs, rfl⟩
      simp only [hMarked]
      exact .inl rfl

/- A piece that starts with a point is just the point. -/
theorem tail_of_point (h : piece.IsWhole) {tail : List Char}
    (hText : piece.text = '.' :: tail) : tail = [] := by
  rcases h with ⟨c, cs, rfl⟩
  cases hText
  cases cs <;> rfl

theorem respell_startAlike (h : Tiles ps) (hNames : NamesAt marked place ps)
    (hText : isName text = true) :
    StartAlike (textOf ps) (textOf (respell marked text place ps)) := by
  refine ⟨respell_headsAlike h hNames hText, ?_⟩
  intro others' hRest'
  cases h with
  | nil => cases hRest'
  | @cons piece ps hWhole hClosed hStops hRest =>
    simp only [respell, textOf, List.flatMap_cons] at hRest'
    by_cases hMarked : marked place = true
    · simp only [hMarked, if_true] at hRest'
      rcases exists_head_of_isName hText
          ((respell marked text (place + 1) ps).flatMap Piece.text) with
        ⟨c, hHead, hStart⟩
      rw [hRest'] at hHead
      cases hHead
      cases hStart
    · simp only [hMarked] at hRest'
      have hPiece : piece.text = ['.'] := by
        rcases hWhole with ⟨c, cs, rfl⟩
        obtain rfl : c = '.' := (List.cons.inj hRest').1
        have hTail := tail_of_point ⟨_, cs, rfl⟩ rfl
        rw [hTail]
      refine ⟨textOf ps, ?_, ?_⟩
      · rw [textOf, List.flatMap_cons, hPiece]
        rfl
      · simp only [Bool.false_eq_true, if_false, hPiece, List.singleton_append] at hRest'
        rw [← List.cons.inj hRest' |>.2]
        exact respell_headsAlike hRest hNames.tail hText

/- Respelled pieces are pieces of the respelled text. -/
theorem Tiles.respell (h : Tiles ps) (hNames : NamesAt marked place ps)
    (hText : isName text = true) : Tiles (respell marked text place ps) := by
  induction h generalizing place with
  | nil => exact .nil
  | @cons piece ps hWhole hClosed hStops hRest ih =>
    have hAlike := respell_startAlike hRest hNames.tail hText
    rw [Piece.respell]
    by_cases hMarked : marked place = true
    · have hReading := hNames.head hMarked
      have hName := isName_of_isWhole hWhole hReading
      simp only [hMarked, if_true, hReading]
      refine .cons (isWhole_of_isName hText) rfl ?_ (ih hNames.tail)
      rw [stopsBefore_name hName] at hStops
      rw [stopsBefore_name hText]
      exact hAlike.heads.fails (fun _ => isWordPart_of_isWordStart) hStops
    · simp only [hMarked]
      refine .cons hWhole hClosed ?_ (ih hNames.tail)
      intro c tail hPiece
      exact hAlike.stops (hStops c tail hPiece)

theorem newlines_respell (h : Tiles ps) (hNames : NamesAt marked place ps)
    (hText : isName text = true) (k : Nat) :
    Token.newlines (textOf ((respell marked text place ps).take k)) =
      Token.newlines (textOf (ps.take k)) := by
  induction h generalizing place k with
  | nil => rfl
  | @cons piece ps hWhole _ _ _ ih =>
    cases k with
    | zero => rfl
    | succ k =>
      have hRest := ih hNames.tail k
      simp only [Token.newlines, textOf] at hRest
      simp only [Token.newlines, respell, textOf,
        List.take_succ_cons, List.flatMap_cons, List.count_append, hRest]
      split
      · rename_i hMarked
        have hName := isName_of_isWhole hWhole (hNames.head hMarked)
        have hNone := newlines_of_isName hName
        have hNone' := newlines_of_isName hText
        rw [Token.newlines] at hNone hNone'
        rw [hNone, hNone']
      · rfl

end

end Piece

namespace Token

/- A token of pieces, on its line of a file. -/
def located (file : String) (line place : Nat) (ps : List Piece) (token : Token) : Token :=
  { token with
    line :=
      line + newlines (Piece.textOf (ps.take (token.line - place)))
    file := file }

/- A token with its new text. -/
def respelled (marked : Nat → Bool) (text : List Char) (token : Token) : Token :=
  if marked token.line then
    { token with lexeme := String.ofList text }
  else token

variable {place : Nat} {ps : List Piece} {token : Token}

/- The piece of a token. -/
theorem exists_piece_of_mem_placed (h : token ∈ placed place ps) :
    ∃ i piece, ps[i]? = some piece ∧ piece.reading = .token token.kind ∧
        token.lexeme = String.ofList piece.text ∧ token.line = place + i := by
  induction ps generalizing place with
  | nil => cases h
  | cons piece ps ih =>
    have hLater : token ∈ placed (place + 1) ps → ∃ i other, (piece :: ps)[i]? = some other ∧
            other.reading = .token token.kind ∧ token.lexeme = String.ofList other.text ∧
                token.line = place + i := by
      intro hMem
      rcases ih hMem with ⟨i, other, hOther, hReading, hText, hLine⟩
      exact ⟨i + 1, other, hOther, hReading, hText, by omega⟩
    rw [placed] at h
    split at h
    · rename_i kind hReading
      rcases List.mem_cons.mp h with rfl | hMem
      · exact ⟨0, piece, rfl, hReading, rfl, rfl⟩
      · exact hLater hMem
    · exact hLater h

theorem le_of_mem_placed (h : token ∈ placed place ps) : place ≤ token.line := by
  rcases exists_piece_of_mem_placed h with ⟨i, _, _, _, _, hLine⟩
  omega

/- No two tokens have the same place. -/
theorem placed_nodup (place : Nat) (ps : List Piece) :
    ((placed place ps).map Token.line).Nodup := by
  induction ps generalizing place with
  | nil => exact .nil
  | cons piece ps ih =>
    rw [placed]
    split
    · rw [List.map_cons, List.nodup_cons]
      refine ⟨?_, ih (place + 1)⟩
      intro hMem
      rcases List.mem_map.mp hMem with ⟨token, hToken, hLine⟩
      have hLater := le_of_mem_placed hToken
      simp only at hLine
      omega
    · exact ih (place + 1)

theorem placed_respell (marked : Nat → Bool) (text : List Char) (place : Nat)
    (ps : List Piece) :
    placed place (Piece.respell marked text place ps) =
      (placed place ps).map (respelled marked text) := by
  induction ps generalizing place with
  | nil => rfl
  | cons piece ps ih =>
    rw [Piece.respell, placed, placed]
    have hReading :
        (if marked place then { piece with text := text }
          else piece).reading = piece.reading := by
      split <;> rfl
    rw [hReading]
    split
    · rw [List.map_cons, ih, respelled]
      split <;> rfl
    · exact ih (place + 1)

/- The tokens on their lines. -/
theorem tokens_items (file : String) (line place : Nat) (ps : List Piece) :
    tokens (items file line ps).dropLast = (placed place ps).map (located file line place ps) := by
  induction ps generalizing line place with
  | nil => rfl
  | cons piece ps ih =>
    have hRest : (placed (place + 1) ps).map (located file line place (piece :: ps)) =
          (placed (place + 1) ps).map
            (located file (line + newlines piece.text) (place + 1) ps) := by
      apply List.map_congr_left
      intro token hMem
      have hLater := le_of_mem_placed hMem
      obtain ⟨k, hPlace⟩ := Nat.exists_eq_add_of_le hLater
      have hFrom : token.line - place = k + 1 := by omega
      have hFrom' : token.line - (place + 1) = k := by omega
      simp only [located, hFrom, hFrom', List.take_succ_cons,
        Piece.textOf, List.flatMap_cons, newlines, List.count_append, Nat.add_assoc]
    rw [items, placed]
    cases hReading : piece.reading with
    | blank
    | comment =>
      simp only [hRest]
      exact ih _ _
    | fault cause =>
      simp only [hRest, dropLast_cons_items]
      exact ih _ _
    | token kind =>
      simp only [hRest, dropLast_cons_items, List.map_cons,
        ← ih, located, Nat.sub_self, List.take_zero]
      rfl

/- There are no faults where no piece is one. -/
theorem faults_items (file : String) (line : Nat) (ps : List Piece) :
    faults (items file line ps) = [] ↔ ∀ cause, .fault cause ∉ ps.map Piece.reading := by
  constructor
  · intro hNone cause hMem
    rcases List.mem_map.mp hMem with ⟨piece, hPiece, hReading⟩
    rcases fault_of_piece hPiece hReading with ⟨fault, hFault, _⟩
    rw [hNone] at hFault
    cases hFault
  · intro hNone
    induction ps generalizing line with
    | nil => rfl
    | cons piece ps ih =>
      simp only [List.map_cons, List.mem_cons, not_or] at hNone
      have hRest := ih (line + newlines piece.text) fun cause => (hNone cause).2
      rw [items]
      cases hReading : piece.reading with
      | blank => exact hRest
      | comment => exact hRest
      | token kind => exact hRest
      | fault cause => exact absurd hReading.symm (hNone cause).1

/- A source text with another text for marked pieces. -/
def respellText (marked : Nat → Bool) (text source : String) : String :=
  String.ofList (Piece.textOf (Piece.respell marked text.toList 0 (Piece.pieces source.toList)))

section

variable {marked : Nat → Bool} {text source file : String}

theorem pieces_respellText (hScans : faults (scan source file) = [])
    (hNames : Piece.NamesAt marked 0 (Piece.pieces source.toList))
    (hText : Piece.isName text.toList = true) :
    Piece.pieces (respellText marked text source).toList =
      Piece.respell marked text.toList 0 (Piece.pieces source.toList) := by
  have hTiles := Piece.tiles_pieces source.toList (closed_of_sound hScans)
  rw [respellText, String.toList_ofList]
  exact (hTiles.respell hNames hText).pieces_eq

theorem faults_respell (hScans : faults (scan source file) = [])
    (hNames : Piece.NamesAt marked 0 (Piece.pieces source.toList))
    (hText : Piece.isName text.toList = true) :
    faults (scan (respellText marked text source) file) = [] := by
  rw [scan, faults_items] at hScans
  rw [scan, pieces_respellText ((faults_items file 1 _).mpr hScans)
    hNames hText, faults_items, Piece.respell_reading]
  exact hScans

theorem body_eq (source file : String) :
    body source file = (placed 0 (Piece.pieces source.toList)).map
        (located file 1 0 (Piece.pieces source.toList)) :=
  tokens_items file 1 0 (Piece.pieces source.toList)

/- The same tokens on the same lines, some respelled. -/
theorem body_respell (hScans : faults (scan source file) = [])
    (hNames : Piece.NamesAt marked 0 (Piece.pieces source.toList))
    (hText : Piece.isName text.toList = true) :
    body (respellText marked text source) file =
      (placed 0 (Piece.pieces source.toList)).map fun token =>
          located file 1 0 (Piece.pieces source.toList) (token.respelled marked text.toList) := by
  have hTiles := Piece.tiles_pieces source.toList (closed_of_sound hScans)
  rw [body_eq, pieces_respellText hScans hNames hText, placed_respell, List.map_map]
  apply List.map_congr_left
  intro token _
  simp only [Function.comp_apply, located, Piece.newlines_respell hTiles hNames hText]

end

end Token

end Scriptlet
