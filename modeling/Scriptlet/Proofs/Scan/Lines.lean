import Scriptlet.Token.Scan

/-
  Scanning line by line.

  Key declarations include:
    * `Piece.Reading.isClosed`
    * `Token.shift`
    * `Token.shiftItem`

  No piece but an unclosed string or comment reaches across
  the end of a line, so a text and a text on the lines after
  it are scanned apart:
    * `Piece.pieces_append_newline`
    * `Token.scan_append_newline`
-/

namespace Scriptlet

namespace Piece

section

variable {α : Type} {p : α → Bool} {a : α}

/- A run of characters ends before one that fails. -/
theorem takeWhile_append_cons (h : p a = false) (xs ys : List α) :
    (xs ++ a :: ys).takeWhile p = xs.takeWhile p := by
  induction xs with
  | nil => simp [h]
  | cons x xs ih =>
    simp only [List.cons_append, List.takeWhile_cons]
    split
    · rw [ih]
    · rfl

theorem dropWhile_append_cons (h : p a = false) (xs ys : List α) :
    (xs ++ a :: ys).dropWhile p = xs.dropWhile p ++ a :: ys := by
  induction xs with
  | nil => simp [h]
  | cons x xs ih =>
    simp only [List.cons_append, List.dropWhile_cons]
    split
    · exact ih
    · rfl

end

/- Not a string or comment that lacks its end. -/
def Reading.isClosed : Reading → Bool
  | .fault .unterminatedString => false
  | .fault .unterminatedComment => false
  | _ => true

/- More text behind a cut. -/
def Cut.before (c : Cut) (more : List Char) : Cut := { c with rest := c.rest ++ more }

variable {cs : List Char}

theorem closeComment_append {inside after : List Char}
    (h : closeComment cs = some (inside, after)) (more : List Char) :
    closeComment (cs ++ more) = some (inside, after ++ more) := by
  fun_induction closeComment cs generalizing inside after with
  | case1 => cases h
  | case2 rest =>
    simp only [Option.some.injEq, Prod.mk.injEq] at h
    simp [closeComment, ← h.1, ← h.2]
  | case3 c rest hNot ih =>
    obtain ⟨⟨inside', after'⟩, hTail, hEq⟩ := Option.map_eq_some_iff.1 h
    simp only [Prod.mk.injEq] at hEq
    cases rest with
    | nil => cases hTail
    | cons d rest =>
      rw [List.cons_append, List.cons_append, closeComment, ← List.cons_append, ih hTail]
      · simp [← hEq.1, ← hEq.2]
      · intro others hStar hSlash
        cases hSlash
        exact hNot rest hStar rfl

theorem blockComment_append_closed
    (h : (blockComment cs).reading.isClosed = true) (more : List Char) :
    blockComment (cs ++ more) = (blockComment cs).before more := by
  unfold blockComment at h ⊢
  cases hClose : closeComment cs with
  | none =>
    rw [hClose] at h
    cases h
  | some split =>
    rw [closeComment_append hClose more]
    rfl

theorem quotedSplit_append {atoms : List Quoted.Atom}
    {after : List Char} (h : Quoted.split cs = some (atoms, after)) (more : List Char) :
    Quoted.split (cs ++ more) = some (atoms, after ++ more) := by
  fun_induction Quoted.split cs generalizing atoms after with
  | case1 => cases h
  | case2 rest =>
    simp only [Option.some.injEq, Prod.mk.injEq] at h
    simp [Quoted.split, ← h.1, ← h.2]
  | case3 => cases h
  | case4 c rest ih =>
    obtain ⟨⟨tail, after'⟩, hTail, hEq⟩ := Option.map_eq_some_iff.1 h
    simp only [Prod.mk.injEq] at hEq
    simp [Quoted.split, ih hTail, ← hEq.1, ← hEq.2]
  | case5 c rest hQuote hLone hEscape ih =>
    obtain ⟨⟨tail, after'⟩, hTail, hEq⟩ := Option.map_eq_some_iff.1 h
    simp only [Prod.mk.injEq] at hEq
    have hSlash : c ≠ '\\' := by
      rintro rfl
      cases rest with
      | nil => exact hLone rfl rfl
      | cons d rest => exact hEscape d rest rfl rfl
    rw [List.cons_append, Quoted.split, ih hTail]
    · simp [← hEq.1, ← hEq.2]
    · exact hQuote
    · exact fun hC _ => hSlash hC
    · exact fun _ _ hC _ => hSlash hC

theorem stringLiteral_append_closed
    (h : (stringLiteral cs).reading.isClosed = true) (more : List Char) :
    stringLiteral (cs ++ more) = (stringLiteral cs).before more := by
  unfold stringLiteral at h ⊢
  cases hSplit : Quoted.split cs with
  | none =>
    rw [hSplit] at h
    cases h
  | some split =>
    rw [quotedSplit_append hSplit more]
    dsimp only
    split <;> rfl

theorem numberLiteral_newline (c : Char) (cs more : List Char) :
    numberLiteral c (cs ++ '\n' :: more) = (numberLiteral c cs).before ('\n' :: more) := by
  have hDigit : Char.isDigit '\n' = false := rfl
  unfold numberLiteral
  rw [takeWhile_append_cons hDigit, dropWhile_append_cons hDigit]
  generalize cs.dropWhile Char.isDigit = after
  match after with
  | [] => rfl
  | [d] =>
    by_cases hPoint : d = '.'
    · subst hPoint
      rfl
    · dsimp only [List.cons_append, List.nil_append]
      split <;> simp_all [Cut.before]
  | d :: e :: rest =>
    by_cases hPoint : d = '.'
    · subst hPoint
      simp only [List.cons_append]
      rw [takeWhile_append_cons hDigit, dropWhile_append_cons hDigit]
      split <;> rfl
    · dsimp only [List.cons_append]
      split <;> simp_all [Cut.before]

theorem symbol_newline (c : Char) (cs more : List Char) :
    symbol c (cs ++ '\n' :: more) = (symbol c cs).before ('\n' :: more) := by
  cases cs with
  | nil =>
    have hPair : Symbol.pair? c '\n' = none := by
      unfold Symbol.pair?
      split <;> simp_all
    simp only [List.nil_append, symbol, hPair]
    unfold singleSymbol
    split <;> rfl
  | cons d rest =>
    simp only [List.cons_append, symbol]
    split
    · rfl
    · unfold singleSymbol
      split <;> rfl

theorem lineComment_newline (cs more : List Char) :
    lineComment (cs ++ '\n' :: more) = (lineComment cs).before ('\n' :: more) := by
  let p := fun c : Char => decide (c ≠ '\n')
  have hLine : p '\n' = false := rfl
  have hTake := takeWhile_append_cons hLine cs more
  have hDrop := dropWhile_append_cons hLine cs more
  unfold lineComment
  rw [hTake, hDrop]
  rfl

theorem slash_newline (h : (slash cs).reading.isClosed = true) (more : List Char) :
    slash (cs ++ '\n' :: more) = (slash cs).before ('\n' :: more) := by
  cases cs with
  | nil => exact symbol_newline '/' [] more
  | cons d rest =>
    by_cases hSlash : d = '/'
    · subst hSlash
      simp only [List.cons_append, slash, lineComment_newline]
      rfl
    · by_cases hStar : d = '*'
      · subst hStar
        exact blockComment_append_closed h _
      · have hSymbol : ∀ cs, slash (d :: cs) = symbol '/' (d :: cs) := by
          intro cs
          unfold slash
          split <;> simp_all
        rw [List.cons_append, hSymbol, hSymbol, ← List.cons_append]
        exact symbol_newline '/' (d :: rest) more

/- No closed piece reaches across the end of a line. -/
theorem cut_newline {c : Char} (h : (cut c cs).reading.isClosed = true) (more : List Char) :
    cut c (cs ++ '\n' :: more) = (cut c cs).before ('\n' :: more) := by
  unfold cut at h ⊢
  split at h
  · rename_i hBlank
    rw [if_pos hBlank, if_pos hBlank]
    rfl
  rename_i hBlank
  rw [if_neg hBlank, if_neg hBlank]
  split at h
  · rename_i hSlash
    rw [if_pos hSlash, if_pos hSlash]
    exact slash_newline h more
  rename_i hSlash
  rw [if_neg hSlash, if_neg hSlash]
  split at h
  · rename_i hQuote
    rw [if_pos hQuote, if_pos hQuote]
    exact stringLiteral_append_closed h _
  rename_i hQuote
  rw [if_neg hQuote, if_neg hQuote]
  split
  · exact numberLiteral_newline c cs more
  split
  · have hPart : isWordPart '\n' = false := rfl
    unfold word
    rw [takeWhile_append_cons hPart, dropWhile_append_cons hPart]
    rfl
  · exact symbol_newline c cs more

/- The end of a line. -/
def newline : Piece := ⟨.blank, ['\n']⟩

/- Texts on lines of their own are cut apart. -/
theorem pieces_append_newline (s t : List Char)
    (h : ∀ piece ∈ pieces s, piece.reading.isClosed = true) :
    pieces (s ++ '\n' :: t) = pieces s ++ newline :: pieces t := by
  fun_induction pieces s with
  | case1 =>
    rw [List.nil_append, pieces]
    rfl
  | case2 c cs first ih =>
    have hFirst := cut_newline (h _ (List.mem_cons_self ..)) t
    have hRest := ih fun piece hPiece => h piece (List.mem_cons_of_mem _ hPiece)
    rw [List.cons_append, pieces, hFirst]
    simp only [Cut.before, List.cons_append]
    rw [hRest]

end Piece

------------------------------------------------------------
-- Line Numbers
------------------------------------------------------------

namespace Token

/- A token some lines further down. -/
def shift (lines : Nat) (token : Token) : Token := { token with line := token.line + lines }

/- A fault some lines further down. -/
def Fault.shift (lines : Nat) (fault : Fault) : Fault :=
  { fault with line := fault.line + lines }

/- A scanned item some lines further down. -/
def shiftItem (lines : Nat) :
    Except Fault Token → Except Fault Token
  | .ok token => .ok (token.shift lines)
  | .error fault => .error (fault.shift lines)

/- The text of pieces. -/
theorem pieces_text (s : List Char) : (Piece.pieces s).flatMap Piece.text = s := by
  fun_induction Piece.pieces s with
  | case1 => rfl
  | case2 c cs first ih => rw [List.flatMap_cons, ih, List.cons_append, Piece.cut_append]

theorem items_ne_nil (file : String) (line : Nat) (ps : List Piece) :
    items file line ps ≠ [] := by
  fun_induction items file line ps <;> simp_all

theorem dropLast_cons_items (item : Except Fault Token) (file : String)
    (line : Nat) (ps : List Piece) :
    (item :: items file line ps).dropLast = item :: (items file line ps).dropLast :=
  List.dropLast_cons_of_ne_nil (items_ne_nil file line ps)

/- Items come in the order of their pieces. -/
theorem items_append (file : String) (line : Nat) (ps qs : List Piece) :
    items file line (ps ++ qs) = (items file line ps).dropLast ++ items file
          (line + newlines (ps.flatMap Piece.text)) qs := by
  induction ps generalizing line with
  | nil => simp [items, newlines]
  | cons p ps ih =>
    have hLine : line + newlines p.text + newlines (ps.flatMap Piece.text) =
          line + newlines ((p :: ps).flatMap Piece.text) := by
      simp [newlines]
      omega
    rw [List.cons_append, items, items]
    cases p.reading with
    | blank => simp only [ih, hLine]
    | comment => simp only [ih, hLine]
    | token kind
    | fault cause => simp only [ih, hLine, dropLast_cons_items, List.cons_append]

/- Items of pieces that start further down. -/
theorem items_shift (file : String) (line lines : Nat) (ps : List Piece) :
    items file (line + lines) ps = (items file line ps).map (shiftItem lines) := by
  induction ps generalizing line with
  | nil => rfl
  | cons p ps ih =>
    have hLine : line + lines + newlines p.text = line + newlines p.text + lines := by omega
    rw [items, items]
    cases p.reading with
    | blank => simp only [hLine, ih]
    | comment => simp only [hLine, ih]
    | token kind => simp only [hLine, ih, List.map_cons, shiftItem, shift]
    | fault cause => simp only [hLine, ih, List.map_cons, shiftItem, Fault.shift]

/-
  A text and a text on the lines after it are scanned apart,
  unless a string or comment of the first lacks its end.
-/
theorem scan_append_newline (s t file : String)
    (h : ∀ piece ∈ Piece.pieces s.toList, piece.reading.isClosed = true) :
    scan (s ++ "\n" ++ t) file = (scan s file).dropLast ++ (scan t file).map
          (shiftItem (newlines s.toList + 1)) := by
  have hText : (s ++ "\n" ++ t).toList = s.toList ++ '\n' :: t.toList := by simp
  have hLine : 1 + newlines s.toList + newlines Piece.newline.text =
        1 + (newlines s.toList + 1) := by
    rw [Nat.add_assoc]
    rfl
  rw [scan, hText, Piece.pieces_append_newline _ _ h, items_append, pieces_text, items]
  rw [hLine, items_shift]
  rfl

/- The fault of a piece is reported. -/
theorem fault_of_piece {file : String} {line : Nat} {ps : List Piece}
    {piece : Piece} {cause : Piece.Cause} (hPiece : piece ∈ ps)
    (hReading : piece.reading = .fault cause) :
    ∃ fault ∈ faults (items file line ps), fault.cause = cause := by
  induction ps generalizing line with
  | nil => cases hPiece
  | cons p ps ih =>
    rw [items]
    cases hPiece with
    | head =>
      rw [hReading]
      exact ⟨_, List.mem_cons_self .., rfl⟩
    | tail _ hTail =>
      rcases @ih (line + newlines p.text) hTail with ⟨fault, hFault, hCause⟩
      refine ⟨fault, ?_, hCause⟩
      cases p.reading with
      | blank => exact hFault
      | comment => exact hFault
      | token kind => exact hFault
      | fault other => exact List.mem_cons_of_mem _ hFault

/- Where no fault tells of a missing end, none is missing. -/
theorem closed_of_faults {s file : String}
    (h : ∀ fault ∈ faults (scan s file), (Piece.Reading.fault fault.cause).isClosed = true) :
    ∀ piece ∈ Piece.pieces s.toList, piece.reading.isClosed = true := by
  intro piece hPiece
  cases hReading : piece.reading with
  | blank => rfl
  | comment => rfl
  | token kind => rfl
  | fault cause =>
    have hFault : ∃ fault ∈ faults (scan s file), fault.cause = cause :=
      fault_of_piece hPiece hReading
    rcases hFault with ⟨fault, hMem, rfl⟩
    exact h fault hMem

theorem items_concat (file : String) (line : Nat) (ps : List Piece) :
    items file line ps = (items file line ps).dropLast ++
        [.ok (endOfFile (line + newlines (ps.flatMap Piece.text)) file)] := by
  have hAppend := items_append file line ps []
  rw [List.append_nil, items] at hAppend
  exact hAppend

/-
  A text on the lines after another one is scanned as if it
  stood alone, only further down.
-/
theorem lines_scanned_apart (s t file : String)
    (h :
      ∀ fault ∈ faults (scan s file),
        fault.cause ≠ .unterminatedString ∧
          fault.cause ≠ .unterminatedComment) :
    ∃ own,
      scan s file =
          own ++ [.ok (endOfFile (1 + newlines s.toList) file)] ∧
        scan (s ++ "\n" ++ t) file =
          own ++ (scan t file).map (shiftItem (newlines s.toList + 1)) := by
  have hClosed :
      ∀ fault ∈ faults (scan s file),
        (Piece.Reading.fault fault.cause).isClosed = true := by
    intro fault hFault
    have hCause := h fault hFault
    unfold Piece.Reading.isClosed
    split <;> simp_all
  refine ⟨(scan s file).dropLast, ?_, ?_⟩
  · have hConcat := items_concat file 1 (Piece.pieces s.toList)
    rw [pieces_text] at hConcat
    exact hConcat
  · exact scan_append_newline s t file (closed_of_faults hClosed)

/- A number before a point, two faults and an open comment. -/
theorem faulty_line_scanned_apart :
    let s := "1. @ \"\\q\" // x"
    let t := "* / 2"
    (∀ fault ∈ faults (scan s "lines"),
        fault.cause ≠ .unterminatedString ∧
          fault.cause ≠ .unterminatedComment) ∧
      ∃ own,
        scan s "lines" = own ++ [.ok (endOfFile 1 "lines")] ∧
          scan (s ++ "\n" ++ t) "lines" =
            own ++ (scan t "lines").map (shiftItem 1) :=
  ⟨by decide +kernel, lines_scanned_apart _ _ _ (by decide +kernel)⟩

theorem closed_of_sound {s file : String} (h : faults (scan s file) = []) :
    ∀ piece ∈ Piece.pieces s.toList, piece.reading.isClosed = true := by
  have hNone : ∀ fault ∈ faults (scan s file), (Piece.Reading.fault fault.cause).isClosed =
          true := by
    simp [h]
  exact closed_of_faults hNone

/- The tokens of a text, without the one at its end. -/
def body (s file : String) : List Token := tokens (scan s file).dropLast

theorem tokens_scan (s file : String) :
    tokens (scan s file) = body s file ++ [endOfFile (1 + newlines s.toList) file] := by
  rw [body, scan, items_concat]
  simp [tokens, pieces_text]

theorem tokens_shift (lines : Nat) (scanned : List (Except Fault Token)) :
    tokens (scanned.map (shiftItem lines)) = (tokens scanned).map (shift lines) := by
  unfold tokens
  induction scanned with
  | nil => rfl
  | cons item others ih =>
    cases item <;> simp [shiftItem, ih]

theorem faults_shift (lines : Nat) (scanned : List (Except Fault Token)) :
    faults (scanned.map (shiftItem lines)) = (faults scanned).map (Fault.shift lines) := by
  unfold faults
  induction scanned with
  | nil => rfl
  | cons item others ih =>
    cases item <;> simp [shiftItem, ih]

section

variable {s t file : String}

theorem body_append_newline (h : faults (scan s file) = []) :
    body (s ++ "\n" ++ t) file = body s file ++ (body t file).map
          (shift (newlines s.toList + 1)) := by
  have hClosed := closed_of_sound h
  have hMap : (scan t file).map (shiftItem (newlines s.toList + 1)) ≠ [] := by
    simp [scan, items_ne_nil]
  rw [body, scan_append_newline s t file hClosed,
    List.dropLast_append_of_ne_nil hMap, ← List.map_dropLast, tokens, List.filterMap_append]
  exact congrArg _ (tokens_shift _ _)

/- Sound texts on lines of their own are sound together. -/
theorem faults_append_newline (hs : faults (scan s file) = [])
    (ht : faults (scan t file) = []) :
    faults (scan (s ++ "\n" ++ t) file) = [] := by
  have hClosed := closed_of_sound hs
  have hInit : faults (scan s file).dropLast = [] := by
    have hConcat : scan s file = (scan s file).dropLast ++ [_] :=
      items_concat file 1 (Piece.pieces s.toList)
    rw [hConcat, faults, List.filterMap_append, List.append_eq_nil_iff] at hs
    exact hs.1
  have hLater := faults_shift (newlines s.toList + 1) (scan t file)
  rw [ht] at hLater
  rw [scan_append_newline s t file hClosed, faults, List.filterMap_append]
  exact List.append_eq_nil_iff.mpr ⟨hInit, hLater⟩

end

/- No piece of text is the end of the file. -/
theorem cut_kind (c : Char) (cs : List Char) :
    (Piece.cut c cs).reading ≠ .token .endOfFile := by
  have hSingle : ∀ c cs, (Piece.singleSymbol c cs).reading ≠ .token .endOfFile := by
    intro c cs
    unfold Piece.singleSymbol
    split <;> simp
  have hSymbol : ∀ c cs, (Piece.symbol c cs).reading ≠ .token .endOfFile := by
    intro c cs
    unfold Piece.symbol
    split
    · exact hSingle c []
    · split
      · simp
      · exact hSingle c _
  unfold Piece.cut
  split
  · simp
  split
  · unfold Piece.slash
    split
    · simp [Piece.lineComment]
    · unfold Piece.blockComment
      split <;> simp
    · exact hSymbol _ _
  split
  · unfold Piece.stringLiteral
    split
    · simp
    · dsimp only
      split <;> simp
  split
  · unfold Piece.numberLiteral
    dsimp only
    split
    · split <;> simp
    · simp
  split
  · unfold Piece.word Piece.wordKind
    dsimp only
    split <;> simp
  · exact hSymbol c cs

theorem pieces_kind (s : List Char) :
    ∀ piece ∈ Piece.pieces s, piece.reading ≠ .token .endOfFile := by
  fun_induction Piece.pieces s with
  | case1 => simp
  | case2 c cs first ih =>
    intro piece hPiece
    cases hPiece with
    | head => exact cut_kind c cs
    | tail _ hTail => exact ih piece hTail

/- The end of a file is its last token only. -/
theorem kind_body (s file : String) : ∀ token ∈ body s file, token.kind ≠ .endOfFile := by
  have hItems : ∀ (ps : List Piece) (line : Nat),
        (∀ piece ∈ ps, piece.reading ≠ .token .endOfFile) →
        ∀ token ∈ tokens (items file line ps).dropLast, token.kind ≠ .endOfFile := by
    intro ps
    induction ps with
    | nil => simp [items, tokens]
    | cons p ps ih =>
      intro line hKinds
      have hTail :=
        ih (line + newlines p.text) fun piece hPiece => hKinds piece (List.mem_cons_of_mem _ hPiece)
      have hFirst := hKinds p (List.mem_cons_self ..)
      rw [items]
      cases hReading : p.reading with
      | blank => exact hTail
      | comment => exact hTail
      | fault cause =>
        simp only [dropLast_cons_items]
        exact hTail
      | token kind =>
        rw [hReading] at hFirst
        simp only [dropLast_cons_items]
        intro token hToken
        cases hToken with
        | head =>
          intro hKind
          exact hFirst (congrArg _ hKind)
        | tail _ hMem => exact hTail token hMem
  exact hItems _ 1 (pieces_kind s.toList)

end Token

end Scriptlet
