import Mathlib.Tactic.MkIffOfInductiveProp
import Scriptlet.Proofs.Decimal.Digits
import Scriptlet.Proofs.Scan.Respell

/-
  Tokens and the texts that write them.

  Key declarations include:
    * `Token.Kind.Written`
    * `Token.written_body`
    * `Piece.Apart`
    * `Token.Language`
    * `Token.Prints`

  Every scanned token is written in the way of its kind.
  Conversely the text of a kind is cut off as one piece if
  what follows is set apart from it.

  A text prints a language if it is cut into tokens of that
  language, whatever is set apart from it behind it.  Texts
  are put together from the right, so that every piece is
  compared with all the text behind it.
-/

namespace Scriptlet

/- A text in which a kind of token is written. -/
def Token.Kind.Written : Token.Kind → List Char → Prop
  | .symbol s, text => text = s.chars
  | .keyword k, text => text = k.chars
  | .identifier, text => Piece.isName text = true
  | .string _, _ => True
  | .number x, text =>
    ∃ whole fraction, Numeral.Spells whole fraction x ∧ text = Numeral.decimalText whole fraction
  | .endOfFile, _ => False

/- A token that has such a text. -/
def Token.Written (token : Token) : Prop := token.kind.Written token.lexeme.toList

/- A name as it is written. -/
@[mk_iff]
structure Token.IsName (token : Token) : Prop where
  written : token.Written
  kind : token.kind = .identifier

namespace Symbol

variable {c d : Char} {s : Symbol}

theorem single?_eq_some : single? c = some s ↔ s.chars = [c] := by
  constructor
  · intro h
    unfold single? at h
    split at h <;> cases h <;> rfl
  · cases s <;> rintro ⟨⟩ <;> rfl

theorem pair?_eq_some : pair? c d = some s ↔ s.chars = [c, d] := by
  constructor
  · intro h
    unfold pair? at h
    split at h <;> cases h <;> rfl
  · cases s <;> rintro ⟨⟩ <;> rfl

end Symbol

namespace Piece

variable {c : Char} {cs : List Char} {kind : Token.Kind}

theorem symbol_forms (c : Char) (cs : List Char) :
    (∃ s : Symbol, s.chars = c :: (symbol c cs).tail ∧ (symbol c cs).reading = .token (.symbol s)) ∨
      (symbol c cs).tail = [] ∧ (symbol c cs).reading = .fault (.unexpected c) := by
  have hSingle (cs : List Char) :
      (∃ s : Symbol, s.chars = c :: (singleSymbol c cs).tail ∧
          (singleSymbol c cs).reading = .token (.symbol s)) ∨ (singleSymbol c cs).tail = [] ∧
          (singleSymbol c cs).reading = .fault (.unexpected c) := by
    unfold singleSymbol
    split
    · rename_i s hSymbol
      exact .inl ⟨s, Symbol.single?_eq_some.mp hSymbol, rfl⟩
    · exact .inr ⟨rfl, rfl⟩
  unfold symbol
  split
  · exact hSingle []
  · split
    · rename_i d rest s hPair
      exact .inl ⟨s, Symbol.pair?_eq_some.mp hPair, rfl⟩
    · exact hSingle _

theorem written_symbol (h : (symbol c cs).reading = .token kind) :
    kind.Written (c :: (symbol c cs).tail) := by
  rcases symbol_forms c cs with ⟨s, hChars, hReading⟩ | ⟨_, hReading⟩
  · cases hReading.symm.trans h
    exact hChars.symm
  · cases hReading.symm.trans h

theorem written_slash (h : (slash cs).reading = .token kind) :
    kind.Written ('/' :: (slash cs).tail) := by
  rcases slash_forms cs with ⟨others, rfl⟩ | ⟨others, rfl⟩ | ⟨hSlash, hStar⟩
  · cases h
  · simp only [slash, blockComment] at h
    split at h <;> cases h
  · rw [slash_eq_symbol hSlash hStar] at h ⊢
    exact written_symbol h

theorem written_stringLiteral (h : (stringLiteral cs).reading = .token kind)
    (text : List Char) : kind.Written text := by
  unfold stringLiteral at h
  split at h
  · cases h
  · dsimp only at h
    split at h
    · cases h
    · cases Reading.token.inj h
      trivial

theorem written_numberLiteral (hDigit : c.isDigit = true)
    (h : (numberLiteral c cs).reading = .token kind) :
    kind.Written (c :: (numberLiteral c cs).tail) := by
  rcases numberLiteral_forms c cs with ⟨whole, after, hWhole,
      hForm | ⟨d, others, hFirst, hOthers, hForm⟩⟩
  · rw [hForm] at h ⊢
    cases Reading.token.inj h
    refine ⟨c :: whole, [], ⟨rfl, List.cons_ne_nil _ _, ?_⟩,
      rfl⟩
    rw [List.append_nil]
    exact List.forall_mem_cons.mpr ⟨hDigit, hWhole⟩
  · rw [hForm] at h ⊢
    cases Reading.token.inj h
    refine ⟨c :: whole, d :: others, ⟨rfl, List.cons_ne_nil _ _, ?_⟩, rfl⟩
    exact List.forall_mem_append.mpr ⟨List.forall_mem_cons.mpr ⟨hDigit, hWhole⟩,
        List.forall_mem_cons.mpr ⟨hFirst, hOthers⟩⟩

theorem chars_of_ofChars? {text : List Char} {k : Keyword}
    (h : Keyword.ofChars? text = some k) : text = k.chars := by
  have hChars := List.find?_some h
  simp only [decide_eq_true_eq] at hChars
  exact hChars.symm

theorem written_word (hStart : isWordStart c = true) (h : (word c cs).reading = .token kind) :
    kind.Written (c :: (word c cs).tail) := by
  cases Reading.token.inj h
  simp only [word, wordKind]
  cases hKeyword : Keyword.ofChars? (c :: cs.takeWhile isWordPart) with
  | some k => exact chars_of_ofChars? hKeyword
  | none =>
    simp only [Token.Kind.Written, isName, hStart, List.all_takeWhile, hKeyword]
    rfl

/- A token is cut off with a text of its kind. -/
theorem written_cut (h : (cut c cs).reading = .token kind) :
    kind.Written (c :: (cut c cs).tail) := by
  unfold cut at *
  by_cases hBlank : isBlank c = true
  · simp only [hBlank, if_true] at h
    cases h
  by_cases hSlash : c = '/'
  · subst hSlash
    exact written_slash h
  by_cases hQuote : c = '"'
  · subst hQuote
    exact written_stringLiteral h _
  by_cases hDigit : c.isDigit = true
  · simp only [hBlank, hSlash, hQuote, hDigit, if_true] at h ⊢
    exact written_numberLiteral hDigit h
  by_cases hWord : isWordStart c = true
  · simp only [hBlank, hSlash, hQuote, hDigit, hWord, if_true] at h ⊢
    exact written_word hWord h
  · simp only [hBlank, hSlash, hQuote, hDigit, hWord] at h ⊢
    exact written_symbol h

theorem written_pieces (s : List Char) :
    ∀ piece ∈ pieces s, ∀ kind, piece.reading = .token kind → kind.Written piece.text := by
  fun_induction pieces s with
  | case1 => exact List.forall_mem_nil _
  | case2 c cs first ih =>
    exact List.forall_mem_cons.mpr ⟨fun _ hReading => written_cut hReading, ih⟩

end Piece

/- Every scanned token is written in the way of its kind. -/
theorem Token.written_body (source file : String) :
    ∀ token ∈ body source file, token.Written := by
  intro token hToken
  rw [body_eq] at hToken
  rcases List.mem_map.mp hToken with ⟨placedToken, hPlaced, rfl⟩
  rcases exists_piece_of_mem_placed hPlaced with ⟨i, piece, hPiece, hReading, hText, _⟩
  have hWritten := Piece.written_pieces _ piece (List.mem_of_getElem? hPiece) _ hReading
  simp only [Token.Written, located, hText, String.toList_ofList]
  exact hWritten

namespace Piece

variable {c : Char} {text rest : List Char}

/-
  Neither a word nor a number goes on with this text.
-/
structure Apart (rest : List Char) : Prop where
  word : Fails isWordPart rest
  point : ∀ d others, rest = '.' :: d :: others → d.isDigit = false

theorem Apart.nil : Apart [] := ⟨.nil _, fun _ _ h => nomatch h⟩

theorem Apart.cons (hWord : isWordPart c = false) (hPoint : c ≠ '.')
    (rest : List Char) : Apart (c :: rest) :=
  ⟨.cons hWord rest, fun _ _ h => absurd (List.cons.inj h).1 hPoint⟩

/- A text that is set apart wherever its end is. -/
def Parts (text : List Char) : Prop := ∀ rest, Apart rest → Apart (text ++ rest)

theorem Parts.nil : Parts [] := fun _ h => h

theorem Parts.cons (hWord : isWordPart c = false) (hPoint : c ≠ '.')
    (text : List Char) : Parts (c :: text) := fun rest _ => .cons hWord hPoint (text ++ rest)

theorem Parts.blank (text : List Char) : Parts (' ' :: text) := .cons rfl (by decide) text

/- A point before a word. -/
theorem Parts.point (hStart : isWordStart c = true) (text : List Char) :
    Parts ('.' :: c :: text) := by
  intro rest _
  refine ⟨.cons (by decide) _, ?_⟩
  rintro d others hEq
  cases hEq
  exact isDigit_of_isWordStart hStart

theorem fails_digit_of_apart (h : Apart rest) : Fails Char.isDigit rest := by
  intro d hMem
  have hPart := h.word d hMem
  simp only [isWordPart, Char.isAlphanum, Bool.or_eq_false_iff] at hPart
  exact hPart.1.2

------------------------------------------------------------
-- Whole Pieces
------------------------------------------------------------

theorem isWhole_symbol (s : Symbol) : IsWhole ⟨.token (.symbol s), s.chars⟩ := by
  refine ⟨s.chars.head?.getD ' ', s.chars.tail, ?_⟩
  cases s <;> rfl

theorem isWhole_keyword (k : Keyword) : IsWhole ⟨.token (.keyword k), k.chars⟩ := by
  refine ⟨k.chars.head?.getD ' ', k.chars.tail, ?_⟩
  cases k <;> rfl

theorem isWhole_blank (h : isBlank c = true) : IsWhole ⟨.blank, [c]⟩ := by
  refine ⟨c, [], ?_⟩
  simp only [cut, h, if_true]

theorem isWhole_string (text : List Char) :
    IsWhole ⟨.token (.string (String.ofList text)), Quoted.encode text⟩ := by
  have hAtom : ∀ c, (Quoted.atomOf c).IsProper ∧ (Quoted.atomOf c).unknown? = none ∧
          (Quoted.atomOf c).value? = some c := by
    intro c
    unfold Quoted.atomOf
    split
    all_goals first
      | exact ⟨trivial, rfl, rfl⟩
      | skip
    rename_i hQuote hSlash _ _ _ _
    exact ⟨⟨hQuote, hSlash⟩, rfl, rfl⟩
  have hProper : ∀ atom ∈ text.map Quoted.atomOf, atom.IsProper := by
    simpa using fun c _ => (hAtom c).1
  have hSplit := Quoted.split_spell hProper []
  have hUnknown : (text.map Quoted.atomOf).findSome? Quoted.Atom.unknown? = none := by
    simpa using fun c _ => (hAtom c).2.1
  have hValue : (text.map Quoted.atomOf).filterMap Quoted.Atom.value? =
        text := by
    rw [List.filterMap_map]
    have hSome : Quoted.Atom.value? ∘ Quoted.atomOf = some :=
      funext fun c => (hAtom c).2.2
    rw [hSome, List.filterMap_some]
  refine ⟨'"', Quoted.spell (text.map Quoted.atomOf) ++ ['"'], ?_⟩
  have hCut :
      ∀ cs, cut '"' cs = stringLiteral cs := fun _ => rfl
  simp only [hCut, stringLiteral, hSplit, hUnknown, hValue]
  rfl

/- A digit is no character of another kind. -/
theorem ne_of_isDigit (h : c.isDigit = true) {d : Char} (hOther : d.isDigit = false) :
    c ≠ d := by
  rintro rfl
  rw [h] at hOther
  cases hOther

theorem isBlank_of_isDigit (h : c.isDigit = true) : isBlank c = false := by
  simp [isBlank, ne_of_isDigit h (d := ' ') rfl,
    ne_of_isDigit h (d := '\r') rfl, ne_of_isDigit h (d := '\t') rfl,
    ne_of_isDigit h (d := '\n') rfl]

theorem cut_digit (h : c.isDigit = true) (cs : List Char) : cut c cs = numberLiteral c cs := by
  simp only [cut, isBlank_of_isDigit h, ne_of_isDigit h (d := '/') rfl,
    ne_of_isDigit h (d := '"') rfl, h, Bool.false_eq_true,
    if_false, if_true]

theorem stops_digit (h : c.isDigit = true) (tail rest : List Char) :
    Stops c tail rest ↔ numberStops tail rest := by
  simp only [Stops, isBlank_of_isDigit h, ne_of_isDigit h (d := '/') rfl,
    ne_of_isDigit h (d := '"') rfl, h, Bool.false_eq_true,
    if_false, if_true]

variable {whole fraction : List Char} {x : Float}

theorem isWhole_number
    (h : Numeral.Spells whole fraction x) :
    IsWhole ⟨.token (.number x), Numeral.decimalText whole fraction⟩ := by
  rcases h with ⟨rfl, hNonempty, hDigits⟩
  rw [List.forall_mem_append] at hDigits
  cases whole with
  | nil => exact absurd rfl hNonempty
  | cons c whole =>
    rw [List.forall_mem_cons] at hDigits
    rcases hDigits with ⟨⟨hDigit, hWhole⟩, hFraction⟩
    cases fraction with
    | nil =>
      have hLiteral := @numberLiteral_whole c [] whole hWhole ⟨.nil _, fun _ _ _ h => nomatch h⟩
      rw [List.append_nil] at hLiteral
      refine ⟨c, whole, ?_⟩
      rw [cut_digit hDigit, hLiteral]
      rfl
    | cons d others =>
      rw [List.forall_mem_cons] at hFraction
      have hLiteral :=
        @numberLiteral_fraction c [] whole d others hWhole hFraction.1 hFraction.2 (.nil _)
      rw [List.append_nil] at hLiteral
      refine ⟨c, whole ++ '.' :: d :: others, ?_⟩
      rw [cut_digit hDigit, hLiteral]
      rfl

/- A symbol that no other symbol goes on from. -/
def isClosed (s : Symbol) : Bool :=
  match s.chars with
  | [c] => c ∈ ['(', ')', '\x7b', '\x7d', '[', ']', ',', '.', ';']
  | _ => true

variable {s : Symbol}

theorem stops_closed (h : isClosed s = true) (rest : List Char) :
    StopsBefore ⟨.token (.symbol s), s.chars⟩ rest := by
  rintro c tail hText
  cases s <;> cases hText <;> first
    | exact trivial
    | exact fun _ _ _ => rfl
    | exact absurd h (by decide)
    | exact fun hTail => absurd hTail (List.cons_ne_nil _ _)

theorem stops_blank (s : Symbol) (rest : List Char) :
    StopsBefore ⟨.token (.symbol s), s.chars⟩ (' ' :: rest) := by
  rintro c tail hText
  cases s <;> cases hText <;> first
    | exact trivial
    | exact fun hTail => absurd hTail (List.cons_ne_nil _ _)
    | exact fun _ => .cons rfl rest
    | exact ⟨.cons rfl rest, .cons rfl rest, fun _ => .cons rfl rest⟩

/- Signs that do not become another symbol. -/
theorem stops_sign (hSign : s = .bang ∨ s = .minus)
    (hRest : Fails (· ∈ ['=', '>', '-']) rest) :
    StopsBefore ⟨.token (.symbol s), s.chars⟩ rest := by
  have hPair : ∀ c, c = '!' ∨ c = '-' → Fails (fun d => (Symbol.pair? c d).isSome) rest := by
    intro c hChar d hMem
    have hNot := hRest d hMem
    dsimp only [Symbol.pair?]
    split <;> first | rfl | simp at hNot hChar
  rintro c tail hText
  rcases hSign with rfl | rfl <;> cases hText
  · exact fun _ => hPair '!' (.inl rfl)
  · exact fun _ => hPair '-' (.inr rfl)

theorem stops_keyword (k : Keyword) (h : Apart rest) :
    StopsBefore ⟨.token (.keyword k), k.chars⟩ rest := by
  rintro c tail hText
  cases k <;> cases hText <;> exact h.word

theorem stops_string (text rest : List Char) :
    StopsBefore ⟨.token (.string (String.ofList text)), Quoted.encode text⟩ rest := by
  rintro c tail hText
  cases hText
  exact trivial

theorem stops_number
    (hSpells : Numeral.Spells whole fraction x) (h : Apart rest) :
    StopsBefore ⟨.token (.number x), Numeral.decimalText whole fraction⟩ rest := by
  rintro c tail hText
  have hDigit : c.isDigit = true := by
    cases hWhole : whole with
    | nil => exact absurd hWhole hSpells.nonempty
    | cons d others =>
      have hFirst := hSpells.digits d (by simp [hWhole])
      simp only [Numeral.decimalText, hWhole] at hText
      split at hText <;> cases hText <;> exact hFirst
  rw [stops_digit hDigit]
  exact ⟨fails_digit_of_apart h, fun _ => h.point⟩

end Piece

/- The kind and the text of a piece that is a token. -/
def Piece.label? (piece : Piece) : Option (Token.Kind × List Char) :=
  match piece.reading with
  | .token kind => some (kind, piece.text)
  | _ => none

namespace Token

def label (token : Token) : Kind × List Char := (token.kind, token.lexeme.toList)

/- Tokens of the kinds and texts of these pieces. -/
def Spells (ts : List Token) (ps : List Piece) : Prop :=
  ts.map label = ps.filterMap Piece.label?

theorem spells_append {ts : List Token} {ps qs : List Piece} (h : Spells ts (ps ++ qs)) :
    ∃ us vs, ts = us ++ vs ∧ Spells us ps ∧ Spells vs qs := by
  rw [Spells, List.filterMap_append] at h
  rcases List.map_eq_append_iff.mp h with ⟨us, vs, hEq, hUs, hVs⟩
  exact ⟨us, vs, hEq, hUs, hVs⟩

theorem spells_placed (place : Nat) (ps : List Piece) : Spells (placed place ps) ps := by
  induction ps generalizing place with
  | nil => rfl
  | cons piece ps ih =>
    have hRest := ih (place + 1)
    rw [Spells] at hRest ⊢
    rw [placed, List.filterMap_cons]
    cases hReading : piece.reading <;>
      simp [Piece.label?, hReading, hRest, label]

/- The tokens of a text spell its pieces. -/
theorem spells_body (source file : String) :
    Spells (body source file) (Piece.pieces source.toList) := by
  have hPlaced := spells_placed 0 (Piece.pieces source.toList)
  rw [Spells] at hPlaced ⊢
  rw [body_eq, List.map_map, ← hPlaced]
  exact List.map_congr_left fun _ _ => rfl

end Token

namespace Piece

/-
  Pieces without a fault that stay apart from each other, and
  from what is set apart behind them.
-/
structure Runs (ps : List Piece) : Prop where
  sound : ∀ cause, .fault cause ∉ ps.map Piece.reading
  tiles : ∀ rest, Tiles rest → Apart (textOf rest) → Tiles (ps ++ rest)

theorem textOf_append (ps qs : List Piece) :
    textOf (ps ++ qs) = textOf ps ++ textOf qs := List.flatMap_append

theorem Runs.nil : Runs [] where
  sound := fun _ => List.not_mem_nil
  tiles := fun _ hTiles _ => hTiles

variable {ps : List Piece}

theorem Runs.cons {piece : Piece}
    (hSound : ∀ cause, piece.reading ≠ .fault cause) (hWhole : piece.IsWhole)
    (hStops : ∀ rest, Apart rest → piece.StopsBefore (textOf ps ++ rest))
    (h : Runs ps) : Runs (piece :: ps) := by
  refine ⟨fun cause hMem => ?_, fun rest hTiles hApart => ?_⟩
  · rcases List.mem_cons.mp hMem with hFirst | hLater
    · exact hSound cause hFirst.symm
    · exact h.sound cause hLater
  · rw [List.cons_append]
    refine .cons hWhole ?_ ?_ (h.tiles rest hTiles hApart)
    · unfold Reading.isClosed
      split <;> simp_all
    · rw [textOf_append]
      exact hStops _ hApart

theorem Runs.append {qs : List Piece} (h : Runs ps) (h' : Runs qs)
    (hParts : Parts (textOf qs)) : Runs (ps ++ qs) := by
  refine ⟨fun cause hMem => ?_, fun rest hTiles hApart => ?_⟩
  · rw [List.map_append, List.mem_append] at hMem
    exact hMem.elim (h.sound cause) (h'.sound cause)
  · rw [List.append_assoc]
    apply h.tiles _ (h'.tiles rest hTiles hApart)
    rw [textOf_append]
    exact hParts _ hApart

end Piece

namespace Token

/- What lists of tokens may be. -/
abbrev Language : Type := List Token → Prop

namespace Language

def done : Language := fun ts => ts = []

/- One language and then another. -/
def andThen (first second : Language) : Language :=
  fun ts => ∃ us vs, ts = us ++ vs ∧ first us ∧ second vs

/- A token and then a language. -/
def after (kind : Kind) (text : List Char) (language : Language) : Language :=
  fun ts =>
    ∃ token us, ts = token :: us ∧ token.kind = kind ∧ token.lexeme.toList = text ∧ language us

end Language

/- A text whose tokens are of a language. -/
def Prints (text : List Char) (language : Language) : Prop :=
  ∃ ps, Piece.textOf ps = text ∧ Piece.Runs ps ∧ ∀ ts, Spells ts ps → language ts

namespace Prints

open Piece

variable {c : Char} {text rest : List Char} {language second : Language}

theorem mono (h : Prints text language)
    (hLanguage : ∀ ts, language ts → second ts) : Prints text second := by
  rcases h with ⟨ps, hText, hRuns, hReads⟩
  exact ⟨ps, hText, hRuns, fun ts hSpells => hLanguage ts (hReads ts hSpells)⟩

theorem of_text (hText : text = rest) (h : Prints rest language)
    (hLanguage : ∀ ts, language ts → second ts) : Prints text second := by
  rw [hText]
  exact h.mono hLanguage

theorem nil : Prints [] .done := by
  refine ⟨[], rfl, .nil, fun ts hSpells => ?_⟩
  exact List.map_eq_nil_iff.mp hSpells

theorem append (h : Prints text language) (h' : Prints rest second) (hParts : Parts rest) :
    Prints (text ++ rest) (language.andThen second) := by
  rcases h with ⟨ps, rfl, hRuns, hReads⟩
  rcases h' with ⟨qs, rfl, hRuns', hReads'⟩
  refine ⟨ps ++ qs, textOf_append ps qs, hRuns.append hRuns' hParts, fun ts hSpells => ?_⟩
  rcases spells_append hSpells with ⟨us, vs, rfl, hUs, hVs⟩
  exact ⟨us, vs, rfl, hReads us hUs, hReads' vs hVs⟩

variable (h : Prints rest language)
include h

theorem blank (hBlank : isBlank c = true) : Prints (c :: rest) language := by
  rcases h with ⟨ps, rfl, hRuns, hReads⟩
  refine ⟨⟨.blank, [c]⟩ :: ps, rfl, ?_, hReads⟩
  refine .cons nofun (isWhole_blank hBlank) ?_ hRuns
  rintro _ _ d tail hText
  cases hText
  simp only [Stops, hBlank, if_true]

theorem token {kind : Kind} (hWhole : IsWhole ⟨.token kind, text⟩)
    (hStops : ∀ after, Apart after → StopsBefore ⟨.token kind, text⟩ (rest ++ after)) :
    Prints (text ++ rest) (language.after kind text) := by
  rcases h with ⟨ps, rfl, hRuns, hReads⟩
  refine ⟨⟨.token kind, text⟩ :: ps, rfl, .cons nofun hWhole hStops hRuns, ?_⟩
  intro ts hSpells
  rcases List.map_eq_cons_iff.mp hSpells with ⟨token, us, rfl, hToken, hUs⟩
  cases hToken
  exact ⟨token, us, rfl, rfl, rfl, hReads us hUs⟩

/- A symbol that ends wherever it is written. -/
theorem closed (s : Symbol) (hClosed : isClosed s = true) :
    Prints (s.chars ++ rest) (language.after (.symbol s) s.chars) :=
  h.token (isWhole_symbol s) fun _ _ => stops_closed hClosed _

/- A symbol before a blank. -/
theorem symbol (s : Symbol) :
    Prints (s.chars ++ ' ' :: rest) (language.after (.symbol s) s.chars) :=
  (h.blank rfl).token (isWhole_symbol s) fun _ _ => stops_blank s _

/- A sign before an operand that does not go on with it. -/
theorem sign {s : Symbol} (hSign : s = .bang ∨ s = .minus)
    (hRest : ∃ d ∈ rest.head?, d ∉ ['=', '>', '-']) :
    Prints (s.chars ++ rest) (language.after (.symbol s) s.chars) := by
  refine h.token (isWhole_symbol s) fun after _ => ?_
  apply stops_sign hSign
  rcases hRest with ⟨d, hHead, hNot⟩
  intro e hMem
  cases rest with
  | nil => cases hHead
  | cons first others =>
    cases hHead
    cases hMem
    exact decide_eq_false hNot

theorem keyword (k : Keyword) (hParts : Parts rest) :
    Prints (k.chars ++ rest) (language.after (.keyword k) k.chars) :=
  h.token (isWhole_keyword k) fun _ hApart => stops_keyword k (hParts _ hApart)

theorem name (hName : isName text = true) (hParts : Parts rest) :
    Prints (text ++ rest) (language.after .identifier text) :=
  h.token (isWhole_of_isName hName) fun _ hApart =>
    (stopsBefore_name hName _).mpr (hParts _ hApart).word

theorem string (text : List Char) :
    Prints (Quoted.encode text ++ rest)
      (language.after (.string (String.ofList text)) (Quoted.encode text)) :=
  h.token (isWhole_string text) fun _ _ => stops_string text _

theorem number {whole fraction : List Char} {x : Float}
    (hSpells : Numeral.Spells whole fraction x) (hParts : Parts rest) :
    Prints (Numeral.decimalText whole fraction ++ rest)
      (language.after (.number x) (Numeral.decimalText whole fraction)) :=
  h.token (isWhole_number hSpells) fun _ hApart => stops_number hSpells (hParts _ hApart)

end Prints

/- A printed text is scanned to its language. -/
theorem Prints.scan {text : String} {language : Language}
    (h : Prints text.toList language) (file : String) :
    faults (scan text file) = [] ∧ language (body text file) := by
  rcases h with ⟨ps, hText, hRuns, hReads⟩
  have hPieces : Piece.pieces text.toList = ps := by
    have hTiles := hRuns.tiles [] .nil .nil
    rw [List.append_nil] at hTiles
    rw [← hText]
    exact hTiles.pieces_eq
  have hSpells := spells_body text file
  rw [hPieces] at hSpells
  refine ⟨?_, hReads _ hSpells⟩
  rw [Token.scan, hPieces, faults_items]
  exact hRuns.sound

end Token

end Scriptlet
