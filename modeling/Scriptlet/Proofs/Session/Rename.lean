import Scriptlet.Proofs.Grammar.Occurrences
import Scriptlet.Proofs.Scope.Rename
import Scriptlet.Proofs.Session.Lines
import Scriptlet.Proofs.Session.Scopes

/-
  Renaming a local variable in a source text.

  Key declarations include:
    * `Session.occurrences`
    * `Session.renameLocal`
    * `Session.Renamed`

  A text in which one local variable has another name, which
  is new to the text, is accepted with the same distances and
  does the same wherever it is run:
    * `Session.renameLocal_invariant`
-/

namespace Scriptlet

open Grammar (parseProgram Derives)
open Scope (resolveProgram)

namespace Session

/- The tokens of a text, numbered by their pieces. -/
def placed (source : String) : List Token := Token.placed 0 (Piece.pieces source.toList)

/- The tree of these tokens. -/
def tree (source : String) : List Stmt :=
  (parseProgram (placed source ++ [.endOfFile 0 ""]) 0).value

/- What each token of a text stands for. -/
def occurrences (source : String) : List Occurrence := stmtsOccurrences [] (tree source)

/-
  Is there, at the second place, the variable declared at
  the first one?
-/
def belongs (source : String) (declaration place : Nat) : Bool :=
  (occurrences source).any fun occurrence =>
    occurrence.token.line = place && occurrence.follows declaration

/- Another name for the variable declared at a place. -/
def renameLocal (declaration : Nat) (new source : String) : String :=
  Token.respellText (belongs source declaration) new source

/-
  A local variable of a sound text, and a name that occurs
  nowhere in the text.
-/
structure Renamable (source file : String) (declared : Occurrence) (new : String) : Prop where
  sound : Sound source file
  occurs : declared ∈ occurrences source
  isLocal : declared.use = .variable
  isName : Piece.isName new.toList = true
  fresh : ∀ token ∈ Token.body source file, token.lexeme ≠ new

/- The token on its line of the file. -/
def located (source file : String) : Token → Token :=
  Token.located file 1 0 (Piece.pieces source.toList)

section

variable {source file : String}

theorem located_mem {token : Token} (h : token ∈ placed source) :
    located source file token ∈ Token.body source file := by
  rw [Token.body_eq]
  exact List.mem_map_of_mem h

theorem kind_placed : ∀ token ∈ placed source, token.kind ≠ .endOfFile :=
  fun token h => Token.kind_body source "" (located source "" token) (located_mem h)

theorem written_placed : ∀ token ∈ placed source, token.Written :=
  fun token h => Token.written_body source "" (located source "" token) (located_mem h)

theorem Sound.tree_derives (h : Sound source file) :
    ∃ m, Derives False .declarations 0 (placed source) (tree source) m := by
  rcases h.derives file 0 with ⟨_, body, n', hBody, _⟩
  rw [Token.body_eq] at hBody
  have hFaults : (parseProgram (placed source ++ [.endOfFile 0 ""]) 0).faults = [] :=
    hBody.faults_of_map (g := located source file) (fun _ => rfl) kind_placed
  have hDerives : Derives _ .declarations 0 (placed source) (tree source)
        _ := Grammar.parseProgram_derives rfl kind_placed 0
  exact ⟨_, hDerives.mono (by simp [hFaults])⟩

/- The tree on other lines and with numbers from `n` on. -/
theorem derives_map {g : Token → Token} (hKind : ∀ token, (g token).kind = token.kind)
    {m : Nat}
    (h : Derives False .declarations 0 (placed source) (tree source) m) (n : Nat) :
    Derives False .declarations n ((placed source).map g) (stmtsMap g n (tree source)) (m + n) := by
  have hMap := h.map hKind kind_placed n
  rw [Nat.zero_add] at hMap
  exact hMap

theorem Sound.resolves_located (h : Sound source file) (n : Nat) :
    (resolveProgram (stmtsMap (located source file) n (tree source))).faults = [] := by
  rcases h.tree_derives with ⟨m, hTree⟩
  rcases h.derives file n with ⟨_, body, n', hBody, hFaults⟩
  have hLocated : Derives False .declarations n (Token.body source file)
        (stmtsMap (located source file) n (tree source)) (m + n) := by
    rw [Token.body_eq]
    exact derives_map (g := located source file) (fun _ => rfl) hTree n
  have hKinds := Token.kind_body source file
  rw [(hBody.program_unique hKinds hLocated).1]
  exact hFaults

end

/- Keywords are no names. -/
theorem ne_of_isName {name keyword : String} (h : Piece.isName name.toList = true)
    (hKeyword : Piece.isName keyword.toList = false) : name ≠ keyword := by
  rintro rfl
  rw [h] at hKeyword
  cases hKeyword

/- The token of a name is an identifier. -/
theorem Sound.isName_placed {source file : String} (h : Sound source file)
    {token : Token} (hMem : token ∈ placed source) :
    Piece.isName token.lexeme.toList = true ↔ token.kind = .identifier := by
  rcases Token.exists_piece_of_mem_placed hMem with ⟨i, piece, hPiece, hReading, hText, _⟩
  have hTiles := Piece.tiles_pieces source.toList (Token.closed_of_sound h.scans)
  have hWhole := hTiles.isWhole piece (List.mem_of_getElem? hPiece)
  rw [hText, String.toList_ofList]
  constructor
  · intro hName
    rw [Piece.reading_of_isName hWhole hName] at hReading
    exact (Piece.Reading.token.inj hReading).symm
  · intro hKind
    rw [hKind] at hReading
    exact Piece.isName_of_isWhole hWhole hReading

theorem Sound.covers {source file : String} (h : Sound source file) :
    Grammar.Covers (placed source) (occurrences source) := by
  rcases h.tree_derives with ⟨m, hTree⟩
  exact hTree.covers []

namespace Renamable

variable {source file new : String} {declared : Occurrence} (h : Renamable source file declared new)
include h

theorem isName_old : Piece.isName declared.token.lexeme.toList = true := by
  have hCovers := h.sound.covers
  have hMem := hCovers.mem h.occurs
  rw [h.sound.isName_placed hMem]
  exact hCovers.names declared h.occurs h.isLocal

variable {occurrence : Occurrence}

/- At the place of the declaration is nothing else. -/
theorem declares (hMem : occurrence ∈ occurrences source) :
    occurrence.Declares declared.token.line declared.token.lexeme := by
  intro hSame
  obtain rfl : occurrence = declared :=
    h.sound.covers.unique (Token.placed_nodup 0 _) hMem h.occurs hSame
  exact ⟨h.isLocal, rfl⟩

/- What follows the declaration has its name. -/
theorem lexeme_of_follows (hMem : occurrence ∈ occurrences source)
    (hFollows : occurrence.follows declared.token.line = true) :
    occurrence.token.lexeme = declared.token.lexeme := by
  rcases h.sound.tree_derives with ⟨m, hTree⟩
  have hStart : Scope.Binders.Named declared.token.line
        declared.token.lexeme [] := fun _ hScope => nomatch hScope
  exact trees_named.2.2.1 (tree source) hStart (hTree.sensible written_placed)
    (fun _ hOther => h.declares hOther) occurrence hMem hFollows

/- Only identifiers are respelled. -/
theorem namesAt :
    Piece.NamesAt (belongs source declared.token.line) 0 (Piece.pieces source.toList) := by
  intro i piece hPiece hBelongs
  rcases List.any_eq_true.mp hBelongs with ⟨occurrence, hMem, hHere⟩
  simp only [Bool.and_eq_true, decide_eq_true_eq] at hHere
  rcases hHere with ⟨hPlace, hFollows⟩
  have hToken := h.sound.covers.mem hMem
  have hKind : occurrence.token.kind = .identifier := by
    rw [← h.sound.isName_placed hToken, h.lexeme_of_follows hMem hFollows]
    exact h.isName_old
  rcases Token.exists_piece_of_mem_placed hToken with ⟨j, other, hOther, hReading, _, hLine⟩
  obtain rfl : j = i := by omega
  rw [hOther] at hPiece
  cases hPiece
  rw [hReading, hKind]

theorem scans_renameLocal :
    Token.faults (Token.scan (renameLocal declared.token.line new source) file) = [] :=
  Token.faults_respell h.sound.scans h.namesAt h.isName

/- The tokens before and after. -/
def respelling : Respelling where
  old := declared.token.lexeme
  new := new
  old_ne_this := ne_of_isName h.isName_old (by decide)
  new_ne_this := ne_of_isName h.isName (by decide)
  new_ne_super := ne_of_isName h.isName (by decide)
  declaration := declared.token.line
  marked := belongs source declared.token.line
  before := located source file
  after token :=
    located source file (token.respelled (belongs source declared.token.line) new.toList)
  lexeme_before _ := rfl
  after_of_marked := by
    intro token hMarked
    simp only [Token.respelled, hMarked, if_true, String.ofList_toList]
    rfl
  after_of_unmarked := by
    intro token hMarked
    simp only [Token.respelled, hMarked, Bool.false_eq_true, if_false]

theorem fits : ∀ occurrence ∈ occurrences source, h.respelling.Fits occurrence := by
  intro occurrence hMem
  have hToken := h.sound.covers.mem hMem
  refine ⟨?_, ?_, h.declares hMem⟩
  · apply Bool.eq_iff_iff.mpr
    simp only [respelling, belongs, List.any_eq_true, Bool.and_eq_true, decide_eq_true_eq]
    constructor
    · rintro ⟨other, hOther, hSame, hFollows⟩
      rw [← h.sound.covers.unique (Token.placed_nodup 0 _) hOther hMem hSame]
      exact hFollows
    · intro hFollows
      exact ⟨occurrence, hMem, rfl, hFollows⟩
  · have hBody : located source file occurrence.token ∈ Token.body source file := by
      rw [Token.body_eq]
      exact List.mem_map_of_mem hToken
    exact h.fresh (located source file occurrence.token) hBody

/- The statements of the text, and after renaming. -/
def body (n : Nat) : List Stmt := stmtsMap h.respelling.before n (tree source)

def renamedBody (n : Nat) : List Stmt := stmtsMap h.respelling.after n (tree source)

/- Names are resolved as before. -/
theorem resolves {table : Scope.Distances} {n : Nat}
    (hSites : ∀ site ∈ Scope.programSites (h.body n), table.Has site) :
    stmtsGuised (h.respelling.guise table) (marksOf []) (h.body n) (h.renamedBody n) ∧
      (resolveProgram (h.renamedBody n)).found = (resolveProgram (h.body n)).found ∧
        (resolveProgram (h.renamedBody n)).faults = [] := by
  rcases h.sound.tree_derives with ⟨m, hTree⟩
  exact Scope.resolveProgram_respelled (hTree.sensible written_placed)
    (h.sound.resolves_located n) hSites h.fits

/-
  The text after renaming is accepted, with the same
  distances.
-/
theorem judges (n : Nat) :
    let found := (resolveProgram (h.body n)).found
    ∃ m, judge false n source file = ⟨[], m, some (h.body n, found)⟩ ∧
        judge false n (renameLocal declared.token.line new source) file =
          ⟨[], m, some (h.renamedBody n, found)⟩ := by
  intro found
  rcases h.sound.tree_derives with ⟨m, hTree⟩
  have hFaults : (resolveProgram (h.body n)).faults = [] := h.sound.resolves_located n
  have hBody : Derives False .declarations n (Token.body source file) (h.body n) (m + n) := by
    rw [Token.body_eq]
    exact derives_map (g := h.respelling.before) (fun _ => rfl) hTree n
  have hKind : ∀ token, (h.respelling.after token).kind = token.kind := by
    intro token
    simp only [respelling, Token.respelled]
    split <;> rfl
  have hRenamed : Derives False .declarations n
        (Token.body (renameLocal declared.token.line new source) file)
        (h.renamedBody n) (m + n) := by
    rw [renameLocal, Token.body_respell h.sound.scans h.namesAt h.isName]
    exact derives_map hKind hTree n
  -- any table with the distances of all sites will do
  have hSites : ∀ site ∈ Scope.programSites (h.body n),
        (Scope.Distances.extend {} found).Has site := by
    have hNumbered := hBody.numbered
    have hDistinct := hNumbered.distinct
    rw [← Scope.programSites_references, List.map_map] at hDistinct
    intro site hSite
    have hRecords := Scope.resolveProgram_found hFaults
    rw [Scope.Distances.Has, show found = _ from hRecords]
    exact Scope.Distances.extend_sites hDistinct (fun _ _ => rfl) hSite
  rcases h.resolves hSites with ⟨_, hFound, hNone⟩
  refine ⟨m + n, judge_of_derives h.sound.scans hBody hFaults, ?_⟩
  have hJudge := judge_of_derives h.scans_renameLocal hRenamed hNone
  rw [hFound] at hJudge
  exact hJudge

end Renamable

end Session

/- No frame is renamed yet. -/
def Marking.plain (heap : Heap) : Marking Bool := ⟨fun _ => false, heap⟩

theorem Marking.plain_marks {m : Eval.Moment} {kinds : List Scope.Kind}
    {scopes : List Scope.Names} {frame : FrameId} (h : Eval.Fits m kinds scopes frame) :
    ∃ marks, Plain marks ∧ (Marking.plain m.heap).Marks marks frame := by
  induction h with
  | globals hSize hParent => exact ⟨_, fun _ => rfl, .globals hSize hParent rfl⟩
  | inside _ hParent _ _ ih =>
    rcases ih with ⟨marks, hPlain, hMarks⟩
    exact ⟨_, hPlain.push, .inside hParent hMarks⟩

section

variable (r : Renaming) (table : Scope.Distances)

variable {m : Eval.Moment}

theorem Closure.guised_plain {kinds : List Scope.Kind}
    {scopes : List Scope.Names} {closure : Closure} (h : Eval.Fits m kinds scopes closure.frame)
    {around : (Nat → Bool) → Nat → Bool} (hAround : ∀ {marks}, Plain marks → Plain (around marks)) :
    Closure.GuisedIn (r.guise table) (.plain m.heap) around closure closure := by
  rcases Marking.plain_marks h with ⟨marks, hPlain, hMarks⟩
  exact ⟨rfl, rfl, marks, hMarks, trees_guised_refl.2.1 _ _ (hAround hPlain)⟩

/- A heap is itself with nothing respelled. -/
theorem Marking.plain_guised {known : Scope.Site → Prop}
    (h : Eval.Sound known m) : (Marking.plain m.heap).Guised (r.guise table) m.heap where
  size := rfl
  frames := by
    intro frame
    simp only [Marking.plain]
    cases m.heap.frames[frame]? with
    | none => exact .none
    | some found =>
      refine .some ⟨?_, rfl⟩
      exact (List.map_id found.bindings).symm
  arrays := rfl
  objects := rfl
  functions := by
    refine List.forall₂_same.mpr fun closure hMem => ?_
    rcases h.functions closure (Array.mem_toList_iff.mp hMem) with ⟨kinds, scopes, hFits, _⟩
    exact closure.guised_plain r table hFits fun h => h
  classes := by
    refine List.forall₂_same.mpr fun blueprint hMem => ?_
    refine ⟨rfl, rfl, fun name => ?_⟩
    have hMethods := h.methods blueprint (Array.mem_toList_iff.mp hMem) name
    cases hMethod : blueprint.methods.get? name with
    | none => exact .none
    | some method =>
      rcases hMethods method hMethod with ⟨kinds, scopes, hFits, _⟩
      exact .some (method.guised_plain r table hFits Plain.push)

end

section

variable (old new : String)

/-
  The same diagnostic, or one at the same place that names
  an undefined variable by its old and by its new name.
-/
inductive Diagnostic.Renamed : Diagnostic → Diagnostic → Prop
  | same (d : Diagnostic) : Diagnostic.Renamed d d
  | undefined (line : Nat) (file : String) : Diagnostic.Renamed
        (.runtime line file (Eval.Cause.undefinedVariable old).message)
        (.runtime line file (Eval.Cause.undefinedVariable new).message)

/- Reports that tell the same but for the name. -/
structure Report.Renamed (report report' : Report) : Prop where
  pending : List.Forall₂ (Diagnostic.Renamed old new) report.pending report'.pending
  hadError : report'.hadError = report.hadError
  hadRuntimeError : report'.hadRuntimeError = report.hadRuntimeError
  latest : report'.latest = report.latest ∨
      ∃ d d', Diagnostic.Renamed old new d d' ∧ report.latest = some d.text ∧
          report'.latest = some d'.text

variable {old new}

theorem Report.Renamed.refl (report : Report) : Report.Renamed old new report report :=
  ⟨List.forall₂_same.mpr fun d _ => .same d, rfl, rfl, .inl rfl⟩

theorem Report.Renamed.add {report report' : Report}
    (h : Report.Renamed old new report report') {d d' : Diagnostic}
    (hNew : Diagnostic.Renamed old new d d') :
    Report.Renamed old new (report.add d) (report'.add d') := by
  have hRuntime : d'.isRuntime = d.isRuntime := by
    cases hNew <;> rfl
  refine ⟨List.rel_append h.pending (.cons hNew .nil), ?_, ?_, .inr ⟨d, d', hNew, rfl, rfl⟩⟩
  · simp only [Report.add, h.hadError, hRuntime]
  · simp only [Report.add, h.hadRuntimeError, hRuntime]

theorem Eval.Fault.Guised.diagnostic {r : Renaming} {table : Scope.Distances}
    {fault fault' : Eval.Fault} (h : Eval.Fault.Guised (r.guise table) fault fault') :
    Diagnostic.Renamed r.old r.new fault.diagnostic fault'.diagnostic := by
  cases h with
  | atToken cause hToken =>
    cases hToken
    exact .same _
  | atName cause hName =>
    rcases hName with ⟨rfl, _⟩
    exact .same _
  | undefined hName =>
    rcases hName with ⟨rfl, hFresh⟩
    rcases r.spell_cases _ hFresh with hSame | ⟨hOld, hNew⟩
    · rw [Token.spelled, hSame]
      exact .same _
    · rw [Token.spelled, hNew, hOld]
      exact .undefined _ _

end

------------------------------------------------------------
-- Runs
------------------------------------------------------------

namespace Session

/-
  Sessions that have printed the same and read the same
  input, with the same table of distances, and with reports
  that tell the same but for the name.
-/
structure Renamed (old new : String) (session session' : Session) : Prop where
  host : session'.world.host = session.world.host
  distances : session'.distances = session.distances
  report : Report.Renamed old new session.report session'.report
  nextId : session'.nextId = session.nextId
  policy : session'.policy = session.policy

theorem Renamed.refl (old new : String) (session : Session) :
    Renamed old new session session := ⟨rfl, rfl, .refl _, rfl, rfl⟩

/- Both texts are run, and end in the same way. -/
def RunsRenamed (old new : String) :
    Except Eval.Stop (Status × Session) → Except Eval.Stop (Status × Session) → Prop :=
  Eval.Agree fun result result' => result'.1 = result.1 ∧ Renamed old new result.2 result'.2

namespace Renamable

variable {source file new : String} {declared : Occurrence} (h : Renamable source file declared new)
include h

/- The renamed tokens are those of the variable. -/
theorem body_renameLocal :
    Token.body (renameLocal declared.token.line new source) file = (placed source).map fun token =>
        if belongs source declared.token.line token.line then
          { located source file token with lexeme := new }
        else located source file token := by
  rw [renameLocal, Token.body_respell h.sound.scans h.namesAt h.isName]
  apply List.map_congr_left
  intro token _
  simp only [Token.respelled, String.ofList_toList]
  split <;> rfl

variable {session : Session}

/- Nothing is run where a fault is pending. -/
theorem run_pending (hError : session.report.hadError = true) (fuel : Nat) :
    RunsRenamed declared.token.lexeme new (session.run fuel source file)
      (session.run fuel (renameLocal declared.token.line new source) file) := by
  have hRejected : ∀ text, Token.faults (Token.scan text file) = [] →
        judge true session.nextId text file = rejected [] session.nextId := by
    intro text hNone
    simp only [judge, lexical, hNone, List.map_nil]
  rw [run_eq, run_eq, hError, hRejected source h.sound.scans, hRejected _ h.scans_renameLocal]
  exact .ok ⟨rfl, .refl _ _ _⟩

/- A session that was reached runs both texts the same. -/
theorem run_renamed {steps : List Step} (hReached : Reached steps session)
    (hError : session.report.hadError = false) (fuel : Nat) :
    RunsRenamed declared.token.lexeme new (session.run fuel source file)
      (session.run fuel (renameLocal declared.token.line new source) file) := by
  rcases h.judges session.nextId with ⟨m, hJudge, hJudge'⟩
  rcases hReached.logged with ⟨seen, history, hLogged⟩
  rw [run_of_judge hError hJudge, run_of_judge hError hJudge']
  generalize hFound : (resolveProgram (h.body session.nextId)).found = found at hJudge hJudge'
  have hAccepted : (judge session.report.hadError session.nextId source file).accepted =
          some (h.body session.nextId, found) := by
    rw [hError, hJudge]
  rcases hLogged.scoped.accept (judge_accepted hAccepted) with ⟨hScoped, _⟩
  rw [hError, hJudge] at hScoped
  have hReady : Scoped _ history (session.ready found m) := hScoped
  have hSites : ∀ site ∈ Scope.programSites (h.body session.nextId),
        (session.ready found m).distances.Has site :=
    fun site hSite => hReady.table site (List.mem_append_right seen hSite)
  rcases h.resolves hSites with ⟨hBody, _⟩
  have hGlobals : (Marking.plain session.world.heap).Marks (marksOf []) Heap.globals := by
    cases hReady.globals with
    | globals hSize hParent => exact .globals hSize hParent rfl
  have hContext : Eval.Context.Guised (h.respelling.guise (session.ready found m).distances)
        (.plain session.world.heap) (marksOf []) (session.ready found m).context
        (session.ready found m).context := by
    refine ⟨rfl, rfl, ?_, fun _ _ => rfl, hGlobals, hGlobals⟩
    rintro id _ rfl
    rfl
  have hAgree :=
    Eval.interpret_guised (fun hReport hFault => hReport.add hFault.diagnostic)
      fuel session.policy hContext hBody ⟨rfl, Marking.plain_guised _ _ hReady.sound, rfl⟩
      (Report.Renamed.refl session.report)
  rcases hAgree.ends with ⟨⟨w, report⟩, ⟨w', report'⟩, hOk, hOk', ⟨_, _, hWorld⟩, hReport⟩ |
    ⟨reason, hStop, hStop'⟩
  · rw [interpret_of_ok hOk, interpret_of_ok hOk']
    have hFailed : report'.hadRuntimeError = report.hadRuntimeError := hReport.hadRuntimeError
    refine .ok ⟨?_, hWorld.host, rfl, hReport, rfl, rfl⟩
    simp only [runStatus, hFailed]
  · rw [interpret_of_error hStop, interpret_of_error hStop']
    exact .error reason

end Renamable

/-
  Scoping is static: a local variable of a sound text, that
  is one that a `let` inside a block or a function declares,
  or a parameter, may be given any name that occurs nowhere
  in the text.  The tokens renamed are the declaration and
  the references that belong to it.  The text is accepted
  again, with the same table of distances.  From every
  session that was reached it runs like the text itself: it
  prints the same, ends with the same status, and reports
  the same faults at the same places, but for the name of
  the variable where it is not defined.
-/
theorem renameLocal_invariant
    {source file new : String}
    {declared : Occurrence}
    (h : Renamable source file declared new) :
    let declaration := declared.token.line
    let renamed := renameLocal declaration new source
    (Token.body source file =
        (placed source).map (located source file) ∧
      Token.body renamed file =
        (placed source).map fun token =>
          if belongs source declaration token.line then
            { located source file token with lexeme := new }
          else located source file token) ∧
    (∀ n, ∃ body body' m found,
      judge false n source file =
          ⟨[], m, some (body, found)⟩ ∧
        judge false n renamed file =
          ⟨[], m, some (body', found)⟩) ∧
    ∀ steps session, Reached steps session → ∀ fuel,
      RunsRenamed declared.token.lexeme new
        (session.run fuel source file)
        (session.run fuel renamed file) := by
  intro declaration renamed
  refine ⟨⟨Token.body_eq source file, h.body_renameLocal⟩,
    fun n => ?_, fun steps session hReached fuel => ?_⟩
  · rcases h.judges n with ⟨m, hJudge, hJudge'⟩
    exact ⟨_, _, m, _, hJudge, hJudge'⟩
  · cases hError : session.report.hadError with
    | true => exact h.run_pending hError fuel
    | false => exact h.run_renamed hReached hError fuel

/- A variable that is used before it is defined. -/
theorem renameLocal_before_definition :
    let source :=
      "let h = true; { let h = fn () { return h; }(); } print h;"
    let renamed :=
      "let h = true; { let k = fn () { return k; }(); } print h;"
    let declared : Occurrence :=
      ⟨⟨.identifier, "h", 13, ""⟩, .variable⟩
    let session := Session.start {} .proceed
    Renamable source "script" declared "k" ∧
      renameLocal 13 "k" source = renamed ∧
        Reached [] session ∧
          RunsRenamed "h" "k"
            (session.run 20 source "script")
            (session.run 20 renamed "script") := by
  intro source renamed declared session
  have hRenamable :
      Renamable source "script" declared "k" :=
    ⟨⟨by decide +kernel, by decide +kernel, by decide +kernel⟩,
      by decide +kernel, rfl, by decide, by decide +kernel⟩
  have hText : renameLocal 13 "k" source = renamed := by
    decide +kernel
  have hReached : Reached [] session := .start {} .proceed
  have hRuns :=
    (renameLocal_invariant hRenamable).2.2 [] session hReached
      20
  rw [show declared.token.line = 13 from rfl, hText] at hRuns
  exact ⟨hRenamable, hText, hReached, hRuns⟩

end Session

end Scriptlet
