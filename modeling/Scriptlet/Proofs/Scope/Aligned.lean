import Mathlib.Data.List.Nodup
import Scriptlet.Proofs.Scope.Position

/-
  Name resolution in a program and in the respelled one.

  Key declarations include:
    * `Respelling`
    * `Respelling.Fits`
    * `Respelling.Goes`

  One declaration and the references that belong to it are
  respelled.  The two programs are resolved side by side: in
  the scope of the declaration the names differ in the old
  and the new one, in all other scopes they are the same.
-/

namespace Scriptlet

open Scope

/- The table has the distance of a site. -/
def Scope.Distances.Has (table : Distances) (site : Site) : Prop :=
  table[site.reference.id]? = site.distance?

/- Names that do not become the new one stay apart. -/
theorem Renaming.eq_of_spell_eq (r : Renaming) {first second : Bool}
    {name other : String} (hName : name ≠ r.new) (hOther : other ≠ r.new)
    (h : r.spell first name = r.spell second other) : name = other := by
  rcases r.spell_cases first fun _ => hName with
    hFirst | ⟨hOld, hFirst⟩ <;>
  rcases r.spell_cases second fun _ => hOther with
    hSecond | ⟨hOld', hSecond⟩ <;>
  rw [hFirst, hSecond] at h
  · exact h
  · exact absurd h hName
  · exact absurd h.symm hOther
  · exact hOld.trans hOld'.symm

/-
  The tokens of a program and of the respelled one, from
  tokens that are numbered through.
-/
structure Respelling extends Renaming where
  new_ne_super : new ≠ "super"
  declaration : Nat
  marked : Nat → Bool
  before : Token → Token
  after : Token → Token
  lexeme_before : ∀ token, (before token).lexeme = token.lexeme
  after_of_marked : ∀ token, marked token.line = true →
      after token = { before token with lexeme := new }
  after_of_unmarked : ∀ token, marked token.line = false → after token = before token

namespace Respelling

variable (R : Respelling)

/-
  Just the declaration and its references are marked, and no
  other token stands at its place.
-/
structure Fits (occurrence : Occurrence) : Prop where
  marked : R.marked occurrence.token.line = occurrence.follows R.declaration
  fresh : occurrence.token.lexeme ≠ R.new
  declared : occurrence.Declares R.declaration R.old

/- The spelling of a name that is declared by a token. -/
def respell (place : Option Nat) (name : String) : String :=
  if place = some R.declaration then R.new else name

/-
  In the innermost scope the name of this token is spelled
  as it is to be.
-/
def Hosts (renamed : Bool) (name : Token) : Prop :=
  R.spell renamed name.lexeme = R.respell (some name.line) name.lexeme

/- The names of a scope can be told apart by a flag. -/
theorem exists_hosts {names : List Token} (hDistinct : (names.map Token.lexeme).Nodup)
    (hFresh : ∀ name ∈ names, name.lexeme ≠ R.new)
    (hDeclared : ∀ name ∈ names, name.line = R.declaration → name.lexeme = R.old) :
    ∃ renamed, ∀ name ∈ names, R.Hosts renamed name := by
  by_cases hHere : ∃ name ∈ names, name.line = R.declaration
  · rcases hHere with ⟨declared, hMem, hPlace⟩
    refine ⟨true, fun name hName => ?_⟩
    have hOld := hDeclared declared hMem hPlace
    by_cases hSame : name.line = R.declaration
    · simp only [Hosts, respell, hSame, if_true, hDeclared name hName hSame]
      exact Equiv.swap_apply_left _ _
    · have hOther : name.lexeme ≠ R.old := by
        intro hLexeme
        have hToken : name = declared :=
          List.inj_on_of_nodup_map hDistinct hName hMem (hLexeme.trans hOld.symm)
        exact hSame (hToken ▸ hPlace)
      simp only [Hosts, respell, Option.some.injEq, hSame, if_false]
      exact Equiv.swap_apply_of_ne_of_ne hOther (hFresh name hName)
  · refine ⟨false, fun name hName => ?_⟩
    have hOther : name.line ≠ R.declaration := fun hPlace => hHere ⟨name, hName, hPlace⟩
    simp only [Hosts, respell, Option.some.injEq, hOther, if_false]
    rfl

section

variable {R} {renamed : Bool} {name : Token} {binders : Binders}

theorem before_lexeme : { R.before name with lexeme := name.lexeme } = R.before name := by
  rw [← R.lexeme_before]

theorem Fits.after_other (h : R.Fits name.other) :
    R.after name = R.before name := R.after_of_unmarked name h.marked

theorem Fits.token (h : R.Fits name.other) (table : Distances) :
    (R.guise table).token (R.before name) (R.after name) := h.after_other

theorem Fits.after_refer (h : R.Fits (name.refer binders)) :
    R.after name =
      { R.before name with
        lexeme :=
          R.respell (binders.find? name.lexeme) name.lexeme } := by
  have hMarked := h.marked
  simp only [Token.refer, Occurrence.follows] at hMarked
  by_cases hFound : binders.find? name.lexeme = some R.declaration
  · rw [R.after_of_marked name (by simpa [hFound] using hMarked)]
    simp only [respell, hFound, if_true]
  · rw [R.after_of_unmarked name (by simpa [hFound] using hMarked)]
    simp only [respell, hFound, if_false, before_lexeme]

/- Where the name of a declaration is respelled. -/
theorem Hosts.lexeme (h : R.Hosts renamed name) (hOther : name.line ≠ R.declaration) :
    R.spell renamed name.lexeme = name.lexeme := by
  rw [h, respell, if_neg (by simpa using hOther)]

theorem Hosts.before_spelled (h : R.Hosts renamed name) (hOther : name.line ≠ R.declaration) :
    (R.before name).spelled R.toRenaming renamed = R.before name := by
  unfold Token.spelled
  rw [R.lexeme_before, h.lexeme hOther, before_lexeme]

/- A name that can be declared in a scope. -/
structure Binds (R : Respelling) (renamed : Bool) (name : Token) : Prop where
  host : R.Hosts renamed name
  fresh : name.lexeme ≠ R.new
  after : R.after name = (R.before name).spelled R.toRenaming renamed

theorem Fits.binds (h : R.Fits (name.bind binders)) (hHost : R.Hosts renamed name) :
    R.Binds renamed name := by
  refine ⟨hHost, h.fresh, ?_⟩
  have hMarked := h.marked
  by_cases hPlace : name.line = R.declaration
  · have hUse := (h.declared hPlace).1
    simp only [Token.bind] at hUse
    simp only [Token.bind, Occurrence.follows, hUse, hPlace, decide_true] at hMarked
    rw [R.after_of_marked name (by rw [hPlace]; exact hMarked)]
    unfold Token.spelled
    rw [R.lexeme_before, hHost, respell, if_pos]
    rw [hPlace]
  · have hNone : (name.bind binders).follows R.declaration = false := by
      cases binders <;>
        simp [Occurrence.follows, Token.bind, hPlace]
    rw [R.after_of_unmarked name (hMarked.trans hNone), hHost.before_spelled hPlace]

theorem Fits.binds_other (h : R.Fits name.other) (hHost : R.Hosts renamed name) :
    R.Binds renamed name := by
  refine ⟨hHost, h.fresh, ?_⟩
  rw [h.after_other, hHost.before_spelled (h.declared.ne_of_use rfl)]

theorem Binds.guised (h : R.Binds renamed name) (table : Distances) :
    (R.guise table).name renamed (R.before name) (R.after name) := by
  refine ⟨h.after, fun _ => ?_⟩
  rw [R.lexeme_before]
  exact h.fresh

theorem Binds.lexeme_after (h : R.Binds renamed name) :
    (R.after name).lexeme = R.spell renamed name.lexeme := by
  rw [h.after, Token.spelled, R.lexeme_before]

end

/- The names of a scope in other spellings. -/
def spellNames (renamed : Bool) (names : Names) : Names :=
  names.map fun entry => (R.spell renamed entry.1, entry.2)

/- A scope of the program and of the respelled one. -/
structure AlignedScope (renamed : Bool) (places : List (String × Nat))
    (names names' : Names) : Prop where
  spelled : names' = R.spellNames renamed names
  declares : ∀ name, names.declares name = (places.lookup name).isSome
  hosts : ∀ name place, places.lookup name = some place → name ≠ R.new ∧
        R.spell renamed name = R.respell (some place) name

/- Open scopes, side by side. -/
inductive AlignedScopes : List Bool → Binders → List Names → List Names → Prop where
  | nil : AlignedScopes [] [] [] []
  | cons {renamed places names names'} {flags binders scopes scopes'} :
      R.AlignedScope renamed places names names' → AlignedScopes flags binders scopes scopes' →
      AlignedScopes (renamed :: flags) (places :: binders) (names :: scopes) (names' :: scopes')

variable {R}

variable {scopes scopes' : List Names}

theorem AlignedScopes.tail
    {renamed : Bool} {flags : List Bool} {binders : Binders}
    (h : R.AlignedScopes (renamed :: flags) binders scopes scopes') :
    R.AlignedScopes flags binders.tail scopes.tail scopes'.tail := by
  cases h with
  | cons _ hOuter => exact hOuter

namespace AlignedScope

/- A scope without names. -/
theorem empty (renamed : Bool) : R.AlignedScope renamed [] [] [] :=
  ⟨rfl, fun _ => rfl, fun _ _ hPlace => nomatch hPlace⟩

/- The scope of a word that a class declares. -/
theorem word {word : String} (hFresh : word ≠ R.new)
    {place : Nat} (hPlace : place ≠ R.declaration) :
    R.AlignedScope false [(word, place)] [(word, true)] [(word, true)] := by
  refine ⟨rfl, fun name => ?_, fun name other hOther => ?_⟩
  · by_cases hName : word = name
    · simp [Names.declares, hName]
    · simp [Names.declares, hName, Ne.symm hName]
  · simp only [List.lookup_cons, List.lookup_nil] at hOther
    by_cases hName : name = word
    · subst hName
      simp only [beq_self_eq_true, Option.some.injEq] at hOther
      subst hOther
      refine ⟨hFresh, ?_⟩
      rw [respell, if_neg (by simpa using hPlace)]
      rfl
    · simp only [beq_eq_false_iff_ne.mpr hName] at hOther
      cases hOther

variable {renamed : Bool} {places : List (String × Nat)} {names names' : Names}

variable (h : R.AlignedScope renamed places names names')

include h

variable {name : String}

theorem fresh (hName : names.declares name = true) : name ≠ R.new := by
  rw [h.declares] at hName
  rcases Option.isSome_iff_exists.mp hName with ⟨place, hPlace⟩
  exact (h.hosts name place hPlace).1

/- The same names are declared, in other spellings. -/
theorem declares_spelled {other : Bool} (hFresh : name ≠ R.new)
    (hName : names'.declares (R.spell other name) = true) : names.declares name = true := by
  rw [h.spelled] at hName
  simp only [Names.declares, spellNames, List.any_map,
    List.any_eq_true, Function.comp_apply, decide_eq_true_eq] at hName
  rcases hName with ⟨entry, hMem, hSame⟩
  have hEntry : names.declares entry.1 = true := by
    simp only [Names.declares, List.any_eq_true, decide_eq_true_eq]
    exact ⟨entry, hMem, rfl⟩
  have hEq := R.eq_of_spell_eq (h.fresh hEntry) hFresh hSame
  rw [← hEq]
  exact hEntry

theorem declares_here (name : String) :
    names'.declares (R.spell renamed name) = names.declares name := by
  rw [h.spelled]
  simp only [Names.declares, spellNames, List.any_map]
  congr 1
  funext entry
  simp only [Function.comp_apply, R.spell_inj]

theorem lookup_here (name : String) :
    List.lookup (R.spell renamed name) names' = List.lookup name names := by
  rw [h.spelled]
  clear h
  induction names with
  | nil => rfl
  | cons entry others ih =>
    rcases entry with ⟨key, isReady⟩
    simp only [spellNames, List.map_cons, List.lookup_cons,
      (R.spell renamed).injective.beq_eq] at ih ⊢
    rw [ih]

/- Declare a name. -/
theorem declare {name : Token} (hHost : R.Hosts renamed name) (hFresh : name.lexeme ≠ R.new) :
    R.AlignedScope renamed ((name.lexeme, name.line) :: places) ((name.lexeme, false) :: names)
      ((R.spell renamed name.lexeme, false) :: names') := by
  constructor
  · rw [h.spelled]
    rfl
  · intro other
    have hOthers := h.declares other
    simp only [Names.declares, List.any_cons, List.lookup_cons] at hOthers ⊢
    by_cases hSame : name.lexeme = other
    · simp [hSame]
    · simp [hSame, beq_eq_false_iff_ne.mpr (Ne.symm hSame), hOthers]
  · intro other place hPlace
    simp only [List.lookup_cons] at hPlace
    by_cases hSame : other = name.lexeme
    · subst hSame
      simp only [beq_self_eq_true, Option.some.injEq] at hPlace
      rw [← hPlace]
      exact ⟨hFresh, hHost⟩
    · simp only [beq_eq_false_iff_ne.mpr hSame] at hPlace
      exact h.hosts other place hPlace

/- Mark a name ready. -/
theorem ready (hDeclared : (places.lookup name).isSome = true) :
    R.AlignedScope renamed places (names.ready name) (names'.ready (R.spell renamed name)) := by
  constructor
  · rw [h.spelled]
    clear h hDeclared
    induction names with
    | nil => rfl
    | cons entry others ih =>
      simp only [spellNames, List.map_cons, Names.ready, R.spell_inj] at ih ⊢
      split
      · rfl
      · rw [List.map_cons, ih]
  · intro other
    rw [← h.declares other, Bool.eq_iff_iff, Names.declares_ready_iff]
    constructor
    · rintro (rfl | hOther)
      · rw [h.declares]
        exact hDeclared
      · exact hOther
    · exact .inr
  · exact h.hosts

end AlignedScope

/-
  A reference is spelled as in the scope it belongs to, and
  finds it at the same distance.
-/
theorem AlignedScopes.find {flags : List Bool} {binders : Binders}
    (h : R.AlignedScopes flags binders scopes scopes') {name : String} (hFresh : name ≠ R.new) :
    let distance? := scopes.findIdx? (·.declares name)
    let renamed := distance?.elim false (marksOf flags)
    let name' := R.respell (binders.find? name) name
    R.spell renamed name = name' ∧ scopes'.findIdx? (·.declares name') = distance? := by
  induction h with
  | nil => exact ⟨rfl, rfl⟩
  | @cons flag places names names' flags binders scopes scopes' hScope hScopes ih =>
    intro distance? renamed name'
    have hDeclares := hScope.declares name
    cases hLookup : places.lookup name with
    | some place =>
      rw [hLookup] at hDeclares
      have hFind : Binders.find? (places :: binders) name =
            some place := by
        simp only [Binders.find?, List.findSome?_cons, hLookup]
      have hSpell := (hScope.hosts name place hLookup).2
      have hDistance : distance? = some 0 := by
        simp only [distance?, List.findIdx?_cons, hDeclares, Option.isSome_some, if_true]
      simp only [name', renamed, hDistance, hFind]
      refine ⟨hSpell, ?_⟩
      rw [← hSpell, List.findIdx?_cons, hScope.declares_here, hDeclares]
      rfl
    | none =>
      rw [hLookup] at hDeclares
      have hFind : Binders.find? (places :: binders) name = Binders.find? binders name := by
        simp only [Binders.find?, List.findSome?_cons, hLookup]
      have hDistance : distance? = (scopes.findIdx? (·.declares name)).map (· + 1) := by
        simp [distance?, List.findIdx?_cons, hDeclares]
      have hRenamed : renamed = (scopes.findIdx? (·.declares name)).elim false (marksOf flags) := by
        simp only [renamed, hDistance]
        cases scopes.findIdx? (·.declares name) <;> rfl
      have hOther : names'.declares name' = false := by
        rw [Bool.eq_false_iff]
        intro hName
        simp only [name', hFind, ← ih.1] at hName
        rw [hScope.declares_spelled hFresh hName] at hDeclares
        cases hDeclares
      rw [hRenamed]
      simp only [name', hFind] at hOther ⊢
      refine ⟨ih.1, ?_⟩
      rw [List.findIdx?_cons, hOther, ih.2, hDistance]
      rfl

/- A name that is not declared awaits nothing. -/
theorem awaits_eq_false {names : Names} {name : String}
    (h : names.declares name = false) : names.awaits name = false := by
  have hNone : List.lookup name names = none := by
    rw [List.lookup_eq_none_iff]
    intro entry hMem
    simp only [Names.declares, List.any_eq_false, decide_eq_true_eq] at h
    exact bne_iff_ne.mpr (Ne.symm (h entry hMem))
  simp [Names.awaits, hNone]

/- The innermost scope awaits the same names. -/
theorem AlignedScopes.awaits {flags : List Bool} {binders : Binders}
    {names names' : Names} {outer outer' : List Names}
    (h : R.AlignedScopes flags binders (names :: outer) (names' :: outer'))
    {name : String} (hFresh : name ≠ R.new) :
    names'.awaits (R.respell (binders.find? name) name) = names.awaits name := by
  have hFind := (h.find hFresh).1
  rw [← hFind]
  cases h with
  | @cons renamed _ _ _ _ _ _ _ hScope _ =>
    cases hName : names.declares name with
    | true =>
      simp only [List.findIdx?_cons, hName, if_true, Option.elim_some, marksOf, pushMark,
        Names.awaits, hScope.lookup_here]
    | false =>
      rw [awaits_eq_false hName]
      apply awaits_eq_false
      rw [Bool.eq_false_iff]
      intro hOther
      rw [hScope.declares_spelled hFresh hOther] at hName
      cases hName

------------------------------------------------------------
-- Walks
------------------------------------------------------------

/- Walks over both programs, side by side. -/
structure Aligned (R : Respelling) (flags : List Bool) (binders : Binders)
    (walk walk' : Walk) : Prop where
  scopes : R.AlignedScopes flags binders walk.scopes walk'.scopes
  found : walk'.found = walk.found
  faults : walk'.faults = walk.faults

namespace Aligned

variable {flags : List Bool} {binders : Binders} {walk walk' : Walk} {name : Token}

variable (h : R.Aligned flags binders walk walk')

include h

/- A variable is read early in both programs or in none. -/
theorem readsEarly (hFits : R.Fits (name.refer binders)) (ctx : Context) :
    ctx.readsEarly walk' (R.after name).lexeme = ctx.readsEarly walk (R.before name).lexeme := by
  have hFresh : name.lexeme ≠ R.new := hFits.fresh
  have hScopes := h.scopes
  rw [hFits.after_refer, R.lexeme_before]
  unfold Context.readsEarly
  generalize walk.scopes = scopes at hScopes
  generalize walk'.scopes = scopes' at hScopes
  cases hScopes with
  | nil => rfl
  | cons hScope hOuter => exact AlignedScopes.awaits (.cons hScope hOuter) hFresh

/- The initializers of a variable have the same context. -/
theorem initializer (hBinds : R.Binds (marksOf flags 0) name) (ctx : Context) :
    ctx.initializer walk' (R.after name) = ctx.initializer walk (R.before name) := by
  have hScopes := h.scopes
  have hLexeme := hBinds.lexeme_after
  unfold Context.initializer
  generalize walk.scopes = scopes at hScopes
  generalize walk'.scopes = scopes' at hScopes
  cases hScopes with
  | nil =>
    simp only [hLexeme, R.lexeme_before]
    rfl
  | cons _ _ => rfl

end Aligned

/-
  Both walks go on.  If the first one finds no fault and the
  table has its sites, what the walks pass is respelled and
  they are side by side again.
-/
structure Goes (R : Respelling) (table : Distances) (flags : List Bool)
    (binders binders' : Binders) (walk walk' next next' : Walk) (sites : List Site)
    (respelled : Prop) : Prop where
  records : ∃ nodes, Records walk next sites nodes
  aligned : R.Aligned flags binders walk walk' → Clear table.Has walk next sites →
      respelled ∧ R.Aligned flags binders' next next'

namespace Goes

variable {table : Distances} {flags : List Bool} {binders binders' last : Binders}
variable {walk walk' middle middle' next next' : Walk} {sites sites' : List Site}
variable {respelled others : Prop}

theorem here (h : respelled) :
    R.Goes table flags binders binders walk walk' walk walk' [] respelled :=
  ⟨⟨_, .refl walk⟩, fun hWalks _ => ⟨h, hWalks⟩⟩

theorem trans
    (h : R.Goes table flags binders binders' walk walk' middle middle' sites respelled)
    (h' : R.Goes table flags binders' last middle middle' next next' sites' others) :
    R.Goes table flags binders last walk walk' next next' (sites ++ sites')
      (respelled ∧ others) := by
  rcases h.records with ⟨_, hRecords⟩
  rcases h'.records with ⟨_, hRecords'⟩
  refine ⟨⟨_, hRecords.trans hRecords'⟩, fun hWalks hClear => ?_⟩
  rcases hClear.split hRecords hRecords' with ⟨hFirst, hSecond⟩
  rcases h.aligned hWalks hFirst with ⟨hRespelled, hMiddle⟩
  rcases h'.aligned hMiddle hSecond with ⟨hOthers, hNext⟩
  exact ⟨⟨hRespelled, hOthers⟩, hNext⟩

theorem imp (h : R.Goes table flags binders binders' walk walk' next next' sites respelled)
    (hOthers : respelled → others) :
    R.Goes table flags binders binders' walk walk' next next' sites others :=
  ⟨h.records, fun hWalks hClear => (h.aligned hWalks hClear).imp_left hOthers⟩

/- First the walks go on over no site. -/
theorem after
    (hFirst : R.Goes table flags binders binders' walk walk' middle middle' [] others)
    (h : R.Goes table flags binders' last middle middle' next next' sites respelled) :
    R.Goes table flags binders last walk walk' next next' sites respelled :=
  (hFirst.trans h).imp And.right

/- At last the walks go on over no site. -/
theorem before
    (h : R.Goes table flags binders binders' walk walk' middle middle' sites respelled)
    (hLast : R.Goes table flags binders' last middle middle' next next' [] others) :
    R.Goes table flags binders last walk walk' next next' sites respelled := by
  have hBoth := (h.trans hLast).imp And.left
  rw [List.append_nil] at hBoth
  exact hBoth

/- What happens may depend on the walks. -/
theorem given {nodes : List Reference} (hRecords : Records walk next sites nodes)
    (h : R.Aligned flags binders walk walk' → Clean walk next →
      R.Goes table flags binders binders' walk walk' next next' sites respelled) :
    R.Goes table flags binders binders' walk walk' next next' sites respelled :=
  ⟨⟨nodes, hRecords⟩, fun hWalks hClear => (h hWalks hClear.faults).aligned hWalks hClear⟩

/- Enter a scope, go on inside and leave it. -/
theorem inScope {renamed : Bool} {places : List (String × Nat)} {names names' : Names}
    (hScope : R.AlignedScope renamed places names names')
    (h : R.Goes table (renamed :: flags) (places :: binders) last
      (walk.enter names) (walk'.enter names') next next' sites respelled)
    (hLast : last.tail = binders) :
    R.Goes table flags binders binders walk walk' next.leave next'.leave sites respelled := by
  rcases h.records with ⟨nodes, hRecords⟩
  have hLeave := hRecords.before (Walk.leave_records _)
  refine ⟨⟨nodes, (walk.enter_records names).after hLeave⟩, fun hWalks hClear => ?_⟩
  have hEntered : R.Aligned (renamed :: flags) (places :: binders)
      (walk.enter names) (walk'.enter names') :=
    ⟨.cons hScope hWalks.scopes, hWalks.found, hWalks.faults⟩
  rcases h.aligned hEntered ⟨hClear.faults, hClear.sites⟩ with ⟨hRespelled, hNext⟩
  rw [← hLast]
  exact ⟨hRespelled, hNext.scopes.tail, hNext.found, hNext.faults⟩

variable {name : Token} {id : Nat} {ctx : Context} {kinds : List Kind}

section

variable (hFits : R.Fits (name.refer binders))

include hFits

/- A reference node is spelled and found as it is to be. -/
theorem reference {role : Role} :
    R.Goes table flags binders binders walk walk' (walk.reference id (R.before name))
      (walk'.reference id (R.after name)) [walk.site kinds ⟨role, id, R.before name⟩]
      ((R.guise table).Refers (marksOf flags) id id (R.before name) (R.after name)) := by
  refine ⟨⟨_, walk.reference_records ..⟩, fun h hClear => ?_⟩
  rcases h.scopes.find hFits.fresh with ⟨hSpell, hDistance⟩
  have hSite : table[id]? = walk.distance? name.lexeme := by
    have hSite := hClear.sites _ (List.mem_singleton.mpr rfl)
    simp only [Distances.Has, Site.distance?, Walk.site, R.lexeme_before] at hSite
    exact hSite
  have hRenamed : table.mark false (marksOf flags) id =
        (walk.distance? name.lexeme).elim false (marksOf flags) := by
    unfold Distances.mark
    rw [hSite]
    cases walk.distance? name.lexeme <;> rfl
  refine ⟨⟨rfl, ?_, fun _ => ?_⟩, ?_⟩
  · change _ = Token.spelled R.toRenaming (table.mark false (marksOf flags) id) _
    rw [hFits.after_refer, Token.spelled, hRenamed, R.lexeme_before]
    exact congrArg (fun lexeme => { R.before name with lexeme }) hSpell.symm
  · rw [R.lexeme_before]
    exact hFits.fresh
  · have hFound : walk'.distance? (R.after name).lexeme =
          walk.distance? (R.before name).lexeme := by
      rw [hFits.after_refer, R.lexeme_before]
      exact hDistance
    unfold Walk.reference
    rw [hFound]
    cases walk.distance? (R.before name).lexeme with
    | none => exact h
    | some distance => exact ⟨h.scopes, congrArg (· ++ [(id, distance)]) h.found, h.faults⟩

theorem read :
    R.Goes table flags binders binders walk walk' (walk.read ctx id (R.before name))
      (walk'.read ctx id (R.after name)) [walk.site kinds ⟨.name, id, R.before name⟩]
      ((R.guise table).Refers (marksOf flags) id id (R.before name) (R.after name)) := by
  refine .given (walk.read_records ..) fun hWalks hClean => ?_
  have hEarly := hWalks.readsEarly hFits ctx
  unfold Walk.read at hClean ⊢
  cases hRead : ctx.readsEarly walk (R.before name).lexeme with
  | false =>
    rw [hRead] at hEarly
    simp only [hEarly]
    exact .reference hFits
  | true =>
    simp only [hRead, if_true] at hClean
    have hReference :=
      ((walk.fault (R.before name)
        .ownInitializer).reference_records (R.before name) [] .name id).faults
    exact absurd (hClean.split (walk.fault_records _ _).faults hReference).1
      (walk.fault_unclean _ _)

theorem self :
    R.Goes table flags binders binders walk walk' (walk.self ctx id (R.before name))
      (walk'.self ctx id (R.after name)) [walk.site kinds ⟨.self, id, R.before name⟩]
      ((R.guise table).Refers (marksOf flags) id id (R.before name) (R.after name)) := by
  refine .given (walk.self_records ..) fun _ hClean => ?_
  unfold Walk.self at hClean ⊢
  cases hClass : ctx.classContext with
  | none =>
    rw [hClass] at hClean
    exact absurd hClean (walk.fault_unclean _ _)
  | root => exact .reference hFits
  | derived => exact .reference hFits

theorem superMethod :
    R.Goes table flags binders binders walk walk' (walk.superMethod ctx id (R.before name))
      (walk'.superMethod ctx id (R.after name)) [walk.site kinds ⟨.superMethod, id, R.before name⟩]
      ((R.guise table).Refers (marksOf flags) id id (R.before name) (R.after name)) := by
  refine .given (walk.superMethod_records ..) fun _ hClean => ?_
  unfold Walk.superMethod at hClean ⊢
  cases hClass : ctx.classContext with
  | none
  | root =>
    rw [hClass] at hClean
    exact absurd hClean (walk.fault_unclean _ _)
  | derived => exact .reference hFits

end

/- A superclass that is not the class itself. -/
theorem checkSuperclass {parent : Token} (hName : R.Fits name.other)
    (hParent : R.Fits (parent.refer binders)) :
    R.Goes table flags binders binders walk walk'
      (walk.checkSuperclass (R.before name) (.name id (R.before parent)))
      (walk'.checkSuperclass (R.after name) (.name id (R.after parent))) [] True := by
  refine .given (walk.checkSuperclass_records ..) fun hWalks hClean => ?_
  have hOther : parent.lexeme ≠ name.lexeme := by
    intro hSame
    simp only [Walk.checkSuperclass, R.lexeme_before, hSame, if_true] at hClean
    exact walk.fault_unclean _ _ hClean
  have hSpell := (hWalks.scopes.find hParent.fresh).1
  have hOther' : (R.after parent).lexeme ≠ (R.after name).lexeme := by
    rw [hParent.after_refer, hName.after_other, R.lexeme_before]
    intro hSame
    have hBoth := hSpell.trans hSame
    rw [← R.spell_false name.lexeme] at hBoth
    exact hOther (R.eq_of_spell_eq hParent.fresh hName.fresh hBoth)
  simp only [Walk.checkSuperclass, R.lexeme_before, hOther, hOther', if_false]
  exact .here trivial

/- A word that is in place. -/
theorem unlessFault {inside : Bool} {token : Token} {cause : Cause} (h : respelled) :
    R.Goes table flags binders binders walk walk' (if inside then walk else walk.fault token cause)
      (if inside then walk' else walk'.fault token cause) [] respelled := by
  cases inside with
  | true => exact .here h
  | false =>
    exact .given (walk.fault_records _ _) fun _ hClean => absurd hClean (walk.fault_unclean _ _)

/- Declare a name that is not declared yet. -/
theorem declare (hBinds : R.Binds (marksOf flags 0) name) :
    R.Goes table flags binders (binders.declare name) walk walk'
      (walk.declare (R.before name)) (walk'.declare (R.after name)) [] True := by
  refine ⟨⟨_, walk.declare_records _⟩, fun h hClear => ⟨trivial, ?_⟩⟩
  have hClean := hClear.faults
  rcases walk with ⟨scopes, found, faults⟩
  rcases walk' with ⟨scopes', found', faults'⟩
  rcases h with ⟨hScopes, hFound, hFaults⟩
  simp only at hScopes hFound hFaults
  cases hScopes with
  | nil => exact ⟨.nil, hFound, hFaults⟩
  | @cons renamed places names names' _ _ _ _ hScope hOuter =>
    have hNew : names.declares name.lexeme = false := by
      rw [Bool.eq_false_iff]
      intro hDeclared
      simp only [Walk.declare, R.lexeme_before, hDeclared, if_true] at hClean
      exact Walk.fault_unclean _ _ _ hClean
    have hNew' : names'.declares (R.spell renamed name.lexeme) =
          false := by
      rw [hScope.declares_here]
      exact hNew
    have hLexeme := hBinds.lexeme_after
    simp only [marksOf, pushMark] at hLexeme
    simp only [Walk.declare, R.lexeme_before, hLexeme, hNew, hNew']
    exact ⟨.cons (hScope.declare hBinds.host hBinds.fresh) hOuter, hFound, hFaults⟩

/- Mark a name ready that is declared. -/
theorem define (hBinds : R.Binds (marksOf flags 0) name) :
    R.Goes table flags (binders.declare name) (binders.declare name) walk walk'
      (walk.define (R.before name)) (walk'.define (R.after name)) [] True := by
  refine ⟨⟨_, walk.define_records _⟩, fun h _ => ⟨trivial, ?_⟩⟩
  rcases walk with ⟨scopes, found, faults⟩
  rcases walk' with ⟨scopes', found', faults'⟩
  rcases h with ⟨hScopes, hFound, hFaults⟩
  simp only at hScopes hFound hFaults
  generalize hHere : binders.declare name = here at hScopes
  cases hScopes with
  | nil => exact ⟨.nil, hFound, hFaults⟩
  | @cons renamed places names names' _ outer _ _ hScope hOuter =>
    have hDeclared : (places.lookup name.lexeme).isSome = true := by
      cases binders with
      | nil => cases hHere
      | cons first others =>
        simp only [Binders.declare, List.modifyHead_cons, List.cons.injEq] at hHere
        rw [← hHere.1]
        simp
    have hLexeme := hBinds.lexeme_after
    simp only [Walk.define, R.lexeme_before, hLexeme]
    exact ⟨.cons (hScope.ready hDeclared) hOuter, hFound, hFaults⟩

/- Declare a name that is ready. -/
theorem settle (hBinds : R.Binds (marksOf flags 0) name) :
    R.Goes table flags binders (binders.declare name) walk walk'
      ((walk.declare (R.before name)).define (R.before name))
      ((walk'.declare (R.after name)).define (R.after name)) [] True :=
  (declare hBinds).after (define hBinds)

/- Declare parameters in order. -/
theorem parameters {params : List Token}
    (hBinds : ∀ param ∈ params, R.Binds (marksOf flags 0) param) :
    R.Goes table flags binders (params.foldl Binders.declare binders) walk walk'
      (walk.parameters (params.map R.before)) (walk'.parameters (params.map R.after)) [] True := by
  induction params generalizing binders walk walk' with
  | nil => exact .here trivial
  | cons param others ih =>
    rw [List.forall_mem_cons] at hBinds
    exact (settle hBinds.1).after (ih hBinds.2)

end Goes

end Respelling

end Scriptlet
