import Scriptlet.Proofs.Eval.Holds
import Scriptlet.Proofs.Scope.Position

/-
  What the walk of name resolution finds, position by position.

  Key declarations include:
    * `Scope.Agrees`
    * `Scope.Judges`
    * `Stmt.judged`
    * `Scope.resolveStmts_judged`

  The flags and scopes that a walk carries are those of the
  position that it comes to.  So its faults are misuses, and
  a walk without faults passes no misuse.
-/

namespace Scriptlet

open Scope

section

variable {stmt : Stmt} {scopes : List Names}

variable {name : Token}

theorem Stmt.after_of_declared (h : stmt.declared? = some name) :
    stmt.after scopes = scopes.modifyHead (·.settle name.lexeme) := by
  cases stmt with
  | functionDecl f =>
    have hName : f.name = some name := h
    simp only [Stmt.after, hName]
  | letDecl
  | classDecl =>
    cases h
    rfl
  | _ => cases h

theorem Stmt.ordinary (hTree : stmt.Sensible) (h : stmt.declared? = some name) :
    Ordinary name.lexeme := by
  cases stmt with
  | functionDecl f => exact hTree.2.name h
  | letDecl _ value =>
    cases h
    cases value with
    | none => exact hTree.ordinary
    | some value => exact hTree.1.ordinary
  | classDecl _ parent =>
    cases h
    cases parent <;> exact hTree.1.ordinary
  | _ => cases h

theorem Stmt.after_of_undeclared (h : stmt.declared? = none) : stmt.after scopes = scopes := by
  cases stmt with
  | functionDecl f =>
    have hName : f.name = none := h
    simp only [Stmt.after, hName]
  | letDecl
  | classDecl => cases h
  | _ => rfl

end

namespace Scope

/- A scope of a walk has the names that its position says. -/
def Lists (names : Names) (declared : List String) : Prop :=
  ∀ name, names.declares name = true ↔ name ∈ declared

theorem Lists.nil : Lists [] [] := by
  intro name
  simp [Names.declares]

theorem Lists.word (word : String) : Lists [(word, true)] [word] := by
  intro name
  simp [Names.declares, eq_comm]

theorem Lists.settle {names : Names} {declared : List Token}
    (h : Lists names (declared.map Token.lexeme)) (name : Token) :
    Lists (names.settle name.lexeme) ((declared ++ [name]).map Token.lexeme) := by
  intro other
  rw [Names.declares_settle, h other, List.map_append, List.mem_append, List.map_singleton,
    List.mem_singleton, or_comm]

theorem Lists.findIdx?_eq {scopes : List Names} {all : List (List String)}
    (h : List.Forall₂ Lists scopes all) (name : String) :
    all.findIdx? (name ∈ ·) = scopes.findIdx? (·.declares name) := by
  induction h with
  | nil => rfl
  | cons hLists _ ih =>
    rw [List.findIdx?_cons, List.findIdx?_cons, ih,
      Bool.eq_iff_iff.mpr (decide_eq_true_iff.trans (hLists name).symm)]

/- The innermost scope has the name already. -/
def Walk.clashes (walk : Walk) (name : Token) : Bool :=
  walk.scopes.head?.any (·.declares name.lexeme)

/-
  Which names are incomplete: none but the one whose
  initializer is around, and where `exact` holds that one is.
-/
def Awaiting (exact : Prop) (reads : String → Bool) : Option Token → Prop
  | none => ∀ name, reads name = false
  | some own => (∀ name, reads name = true → own.lexeme = name) ∧ (exact → reads own.lexeme = true)

/- A walk comes to a position. -/
structure Agrees (exact : Prop) (around : List Layer) (ctx : Context) (kinds : List Kind)
    (scopes : List Names) : Prop where
  flags : ctx.inLoop = inLoop around ∧ ctx.inFunction = inFunction around ∧
    ctx.classContext = classAround around
  lists : List.Forall₂ Lists scopes (scopesAround around)
  awaiting : Awaiting exact (ctx.readsEarly ⟨scopes, [], []⟩) (pending? around)
  surrounds : Surrounds ctx.classContext kinds scopes

namespace Agrees

variable {exact : Prop} {around : List Layer} {ctx : Context} {kinds : List Kind}
variable {scopes outer : List Names} {first : Names} {name : Token} {walk : Walk}
variable {ofFunction : Bool} {names : List Token}

theorem top : Agrees exact [] {} [] [] where
  flags := ⟨rfl, rfl, rfl⟩
  lists := .nil
  awaiting _ := rfl
  surrounds := .top

section

variable (h : Agrees exact around ctx kinds scopes)

include h

/- Branches and bodies declare nothing around them. -/
theorem branch {stmt : Stmt}
    (hDeclares : stmt.declares = false) : Agrees exact around ctx kinds (stmt.after scopes) := by
  rw [Stmt.after_of_declares hDeclares]
  exact h

theorem loopBody (hPlain : pending? around = none) :
    Agrees exact (.loop :: around) { ctx with inLoop := true } kinds scopes where
  flags := ⟨rfl, h.flags.2⟩
  lists := h.lists
  awaiting := by
    have hReady := h.awaiting
    rw [hPlain] at hReady
    exact hReady
  surrounds := h.surrounds

theorem block :
    Agrees exact (.scope false [] :: around) ctx (.block :: kinds) ([] :: scopes) where
  flags := h.flags
  lists := .cons .nil h.lists
  awaiting _ := rfl
  surrounds := h.surrounds.enter ⟨rfl, rfl⟩ (by decide) (by decide)

theorem rootClass :
    Agrees exact (.methods false :: around) { ctx with classContext := .root } (.self :: kinds)
      ([("this", true)] :: scopes) where
  flags := ⟨h.flags.1, h.flags.2.1, rfl⟩
  lists := .cons (.word "this") h.lists
  awaiting := Names.awaits_word "this"
  surrounds := h.surrounds.rootClass

theorem derivedClass :
    Agrees exact (.methods true :: around) { ctx with classContext := .derived }
      (.self :: .superclass :: kinds) ([("this", true)] :: [("super", true)] :: scopes) where
  flags := ⟨h.flags.1, h.flags.2.1, rfl⟩
  lists := .cons (.word "this") (.cons (.word "super") h.lists)
  awaiting := Names.awaits_word "this"
  surrounds := h.surrounds.derivedClass

end

/- A name is declared in the innermost scope. -/
theorem declare (h : Agrees exact (.scope ofFunction names :: around) ctx kinds scopes)
    (hName : Ordinary name.lexeme) :
    Agrees exact (.scope ofFunction (names ++ [name]) :: around) ctx kinds
      (scopes.modifyHead (·.settle name.lexeme)) where
  flags := by
    cases ofFunction <;> exact h.flags
  lists := by
    cases h.lists with
    | cons hNames hOuter => exact .cons (hNames.settle name) hOuter
  awaiting := by
    have hReady := h.awaiting
    cases h.lists with
    | @cons names' =>
      intro other
      change (names'.settle name.lexeme).awaits other = false
      by_cases hSame : other = name.lexeme
      · rw [hSame, Names.awaits_settle_self]
      · rw [Names.awaits_settle _ hSame]
        exact hReady other
  surrounds := h.surrounds.settle hName

theorem after (h : Agrees exact (.scope ofFunction names :: around) ctx kinds scopes)
    {stmt : Stmt}
    (hTree : stmt.Sensible) :
    Agrees exact (.scope ofFunction (names ++ stmt.declared?.toList) :: around) ctx kinds
      (stmt.after scopes) := by
  cases hName : stmt.declared? with
  | some name =>
    rw [Stmt.after_of_declared hName]
    exact h.declare (Stmt.ordinary hTree hName)
  | none =>
    rw [Stmt.after_of_undeclared hName, Option.toList_none, List.append_nil]
    exact h

variable {params : List Token}

/- The parameters of a function, then its body. -/
theorem parameters
    (h : Agrees exact (.scope ofFunction names :: around) ctx kinds (first :: outer))
    (hParams : ∀ param ∈ params, Ordinary param.lexeme) :
    Agrees exact (.scope ofFunction (names ++ params) :: around) ctx kinds
      (params.foldl (fun names param => names.settle param.lexeme) first :: outer) := by
  induction params generalizing names first with
  | nil =>
    rw [List.append_nil]
    exact h
  | cons param others ih =>
    rcases List.forall_mem_cons.mp hParams with ⟨hParam, hOthers⟩
    rw [List.append_cons]
    exact ih (h.declare hParam) hOthers

theorem functionBody (h : Agrees exact around ctx kinds scopes)
    (hParams : ∀ param ∈ params, Ordinary param.lexeme) :
    Agrees exact (.scope true params :: around) ctx.body (.function :: kinds)
      (Names.ofParams params :: scopes) := by
  have hEntered : Agrees exact (.scope true [] :: around) ctx.body (.function :: kinds)
      ([] :: scopes) := {
    flags := ⟨rfl, rfl, h.flags.2.2⟩
    lists := .cons .nil h.lists
    awaiting _ := rfl
    surrounds := h.surrounds.enter ⟨rfl, rfl⟩ (by decide) (by decide) }
  exact hEntered.parameters hParams

/-
  The initializer of a name is known to be incomplete unless
  the name was declared before.
-/
theorem initializer (h : Agrees exact around ctx kinds (walk.scopes.modifyHead
      (·.settle name.lexeme))) (hPlain : pending? around = none) :
    Agrees (walk.clashes name = false) (.initializer name :: around)
      (ctx.initializer (walk.declare name) name) kinds
      (walk.scopes.modifyHead (·.await name.lexeme)) := by
  rcases h with ⟨hFlags, hLists, hReady, hSurrounds⟩
  rw [hPlain] at hReady
  rw [Context.initializer, walk.declare_scopes]
  cases hScopes : walk.scopes with
  | nil =>
    rw [hScopes] at hLists hSurrounds
    refine ⟨hFlags, hLists, ⟨fun other hEarly => ?_, fun _ => decide_eq_true rfl⟩, hSurrounds⟩
    exact Option.some.inj (of_decide_eq_true hEarly)
  | cons names outer =>
    rw [hScopes] at hLists hReady hSurrounds
    rcases List.forall₂_cons_left_iff.mp hLists with ⟨declared, _, hNames, hOuter, hAll⟩
    have hSame (other : String) : (names.await name.lexeme).declares other =
        (names.settle name.lexeme).declares other := by
      rw [Bool.eq_iff_iff, Names.declares_await, Names.declares_settle]
    refine ⟨hFlags, ?_, ⟨fun other hEarly => ?_, fun hNew => ?_⟩, hSurrounds.redeclare hSame⟩
    · have hAwait : Lists (names.await name.lexeme) declared := by
        intro other
        rw [← hNames other, hSame]
      exact hAll ▸ .cons hAwait hOuter
    · by_contra hOther
      have hAwaits : (names.await name.lexeme).awaits other = true := hEarly
      have hSettled : (names.settle name.lexeme).awaits other = false := hReady other
      rw [Names.awaits_await _ (Ne.symm hOther)] at hAwaits
      rw [Names.awaits_settle _ (Ne.symm hOther), hAwaits] at hSettled
      cases hSettled
    · have hFresh : names.declares name.lexeme = false := by
        simpa [Walk.clashes, hScopes] using hNew
      change (names.await name.lexeme).awaits name.lexeme = true
      simp [Names.await, hFresh, Names.awaits]

theorem clashes_iff
    (h : Agrees exact (.scope ofFunction names :: around) ctx kinds walk.scopes)
    (name : Token) : walk.clashes name = true ↔
      Redeclared (.scope ofFunction (names ++ [name]) :: around) name := by
  rcases List.forall₂_cons_right_iff.mp h.lists with ⟨first, outer, hFirst, _, hScopes⟩
  simp only [Walk.clashes, hScopes, List.head?_cons, Option.any_some, hFirst name.lexeme]
  constructor
  · intro hMem
    exact ⟨ofFunction, names, around, rfl, hMem⟩
  · rintro ⟨_, before, _, hAround, hMem⟩
    simp only [List.cons.injEq, Layer.scope.injEq] at hAround
    rw [List.append_cancel_right hAround.1.2]
    exact hMem

end Agrees

------------------------------------------------------------
-- Judgements
------------------------------------------------------------

/- A reference, and how far outward its scope is. -/
def Position.use? (p : Position) : Option (Reference × Option Nat) :=
  p.node.reference?.map fun reference =>
    (reference, (scopesAround p.around).findIdx? (reference.token.lexeme ∈ ·))

def Site.use (site : Site) : Reference × Option Nat := (site.reference, site.distance?)

/-
  A walk goes over positions and sites.  Every new fault is
  a misuse, and if there is none nothing is misused.  The
  sites are those of the references.  Without a fault, and
  with all sites in `P`, the sites are known and control words
  are contained.
-/
structure Judges (P : Site → Prop) (exact : Prop) (within : Position → Prop) (sites : List Site)
    (faults faults' : List Fault) (known contained : Prop) : Prop where
  sound : ∃ new, faults' = faults ++ new ∧ ∀ fault ∈ new, ∃ p, within p ∧ Misused p fault
  complete : exact → faults' = faults → ∀ p, within p → ∀ fault, ¬ Misused p fault
  uses : ∀ use, (∃ p, within p ∧ p.use? = some use) ↔ ∃ site ∈ sites, site.use = use
  accepted : faults' = faults → (∀ site ∈ sites, P site) → known ∧ contained

namespace Judges

variable {P : Site → Prop} {exact exact' : Prop} {within within' : Position → Prop}
variable {sites sites' : List Site} {faults faults' faults'' new : List Fault}
variable {p : Position} {others : List Position} {known known' contained contained' : Prop}

section

variable (h : Judges P exact within sites faults faults' known contained)

include h

/-
  One walk after the other.  The second may rely on what is
  found in the first.
-/
theorem or (hExact : exact → (∀ p, within p → ∀ fault, ¬ Misused p fault) → exact')
    (h' : Judges P exact' within' sites' faults' faults'' known' contained') :
    Judges P exact (fun p => within p ∨ within' p) (sites ++ sites') faults faults''
      (known ∧ known') (contained ∧ contained') := by
  rcases h.sound with ⟨new, rfl, hNew⟩
  rcases h'.sound with ⟨new', rfl, hNew'⟩
  have hParts (hClean : faults ++ new ++ new' = faults) : new = [] ∧ new' = [] := by
    simpa [List.append_assoc] using hClean
  constructor
  case sound =>
    refine ⟨new ++ new', List.append_assoc .., ?_⟩
    intro fault hMem
    rcases List.mem_append.mp hMem with hMem | hMem
    · rcases hNew fault hMem with ⟨p, hIn, hMisused⟩
      exact ⟨p, .inl hIn, hMisused⟩
    · rcases hNew' fault hMem with ⟨p, hIn, hMisused⟩
      exact ⟨p, .inr hIn, hMisused⟩
  case complete =>
    intro hExactly hClean
    rcases hParts hClean with ⟨rfl, rfl⟩
    have hFirst := h.complete hExactly (List.append_nil _)
    have hSecond := h'.complete (hExact hExactly hFirst) (List.append_nil _)
    rintro p (hIn | hIn)
    · exact hFirst p hIn
    · exact hSecond p hIn
  case uses =>
    intro use
    simp only [or_and_right, exists_or, h.uses, h'.uses, List.mem_append]
  case accepted =>
    intro hClean hSites
    rcases hParts hClean with ⟨rfl, rfl⟩
    rcases List.forall_mem_append.mp hSites with ⟨hFirst, hSecond⟩
    rcases h.accepted (List.append_nil _) hFirst with ⟨hKnown, hContained⟩
    rcases h'.accepted (List.append_nil _) hSecond with ⟨hKnown', hContained'⟩
    exact ⟨⟨hKnown, hKnown'⟩, hContained, hContained'⟩

theorem congr (hSame : ∀ p, within' p ↔ within p) :
    Judges P exact within' sites faults faults' known contained := by
  rw [funext fun p => propext (hSame p)]
  exact h

theorem imp (hKnown : known → known') (hContained : contained → contained') :
    Judges P exact within sites faults faults' known' contained' :=
  { h with accepted := fun hClean hSites => (h.accepted hClean hSites).imp hKnown hContained }

end

theorem nil : Judges P exact (Inside []) [] faults faults True True where
  sound := ⟨[], (List.append_nil _).symm, fun _ hMem => nomatch hMem⟩
  complete _ _ _ hIn := (not_inside_nil hIn).elim
  uses _ := ⟨fun ⟨_, hIn, _⟩ => (not_inside_nil hIn).elim, fun ⟨_, hMem, _⟩ => nomatch hMem⟩
  accepted _ _ := ⟨trivial, trivial⟩

theorem cons (h : Judges P exact (Inside [p]) sites faults faults' known contained)
    (h' : Judges P exact (Inside others) sites' faults' faults'' known' contained') :
    Judges P exact (Inside (p :: others)) (sites ++ sites') faults faults''
      (known ∧ known') (contained ∧ contained') :=
  (h.or (fun hExactly _ => hExactly) h').congr fun _ => inside_cons

/- A node itself, then its parts. -/
theorem node (h : Judges P exact (· = p) [] faults faults' known contained)
    (h' : Judges P exact (Inside p.parts) sites faults' faults'' known' contained') :
    Judges P exact (Inside [p]) sites faults faults'' (known ∧ known') (contained ∧ contained') :=
  (h.or (fun hExactly _ => hExactly) h').congr fun _ => inside_singleton

/- A node that declares a name, then its parts. -/
theorem after (h : Judges P exact (· = p) [] faults faults' True True)
    (h' : Judges P exact (Inside p.parts) sites faults' faults'' known contained) :
    Judges P exact (Inside [p]) sites faults faults'' known contained :=
  (h.node h').imp And.right And.right

theorem leaf (hParts : p.parts = [])
    (h : Judges P exact (· = p) sites faults faults' known contained) :
    Judges P exact (Inside [p]) sites faults faults' known contained := by
  refine h.congr fun q => ?_
  rw [inside_singleton, hParts]
  exact or_iff_left not_inside_nil

/- What is found at a node itself. -/
theorem own (site? : Option Site) (hUse : p.use? = site?.map Site.use)
    (hSound : ∀ fault ∈ new, Misused p fault)
    (hComplete : exact → new = [] → ∀ fault, ¬ Misused p fault)
    (hAccepted : new = [] → (∀ site ∈ site?, P site) → known ∧ contained) :
    Judges P exact (· = p) site?.toList faults (faults ++ new) known contained where
  sound := ⟨new, rfl, fun fault hMem => ⟨p, rfl, hSound fault hMem⟩⟩
  complete hExactly hClean q hSame := by
    rw [hSame]
    exact hComplete hExactly (List.append_right_eq_self.mp hClean)
  uses use := by
    rw [exists_eq_left, hUse]
    cases site? <;> simp
  accepted hClean hSites := by
    refine hAccepted (List.append_right_eq_self.mp hClean) fun site hMem => hSites site ?_
    exact Option.mem_toList.mpr hMem

theorem fault (site? : Option Site) (hUse : p.use? = site?.map Site.use) {fault : Fault}
    (h : Misused p fault) :
    Judges P exact (· = p) site?.toList faults (faults ++ [fault]) known contained := by
  refine .own site? hUse (fun other hMem => ?_) nofun
    fun hNone => nomatch hNone
  rw [List.mem_singleton.mp hMem]
  exact h

theorem fine (site? : Option Site) (hUse : p.use? = site?.map Site.use)
    (h : exact → ∀ fault, ¬ Misused p fault)
    (hAccepted : (∀ site ∈ site?, P site) → known ∧ contained) :
    Judges P exact (· = p) site?.toList faults faults known contained := by
  have hOwn : Judges P exact (· = p) _ faults (faults ++ []) known contained :=
    .own site? hUse nofun (fun hExactly _ => h hExactly) fun _ => hAccepted
  rw [List.append_nil] at hOwn
  exact hOwn

/- A node whose faults are its misuses. -/
theorem exactly (hUse : p.use? = none) (h : ∀ fault, fault ∈ new ↔ Misused p fault)
    (hAccepted : new = [] → known ∧ contained) :
    Judges P exact (· = p) [] faults (faults ++ new) known contained := by
  refine .own none hUse (fun fault => (h fault).mp) (fun _ hNone fault hMisused => ?_)
    fun hNone _ => hAccepted hNone
  have hMem := (h fault).mpr hMisused
  rw [hNone] at hMem
  cases hMem

theorem plain (hUse : p.use? = none) (hPlain : p.node.isPlain = true)
    (h : Judges P exact (Inside p.parts) sites faults faults' known contained) :
    Judges P exact (Inside [p]) sites faults faults' known contained :=
  .after (.fine none hUse (fun _ _ => not_misused hPlain) fun _ => ⟨trivial, trivial⟩) h

end Judges

namespace Walk

variable (walk : Walk) (name : Token)

theorem reference_faults (id : Nat) : (walk.reference id name).faults = walk.faults := by
  unfold Walk.reference
  split <;> rfl

theorem define_faults : (walk.define name).faults = walk.faults := by
  unfold Walk.define
  split <;> rfl

/- The fault of a name that is declared again. -/
def clash : List Fault := if walk.clashes name then [⟨.redeclared, name⟩] else []

theorem declare_faults : (walk.declare name).faults = walk.faults ++ walk.clash name := by
  cases hScopes : walk.scopes with
  | nil => simp [Walk.declare, clash, clashes, hScopes]
  | cons names outer =>
    cases hClash : names.declares name.lexeme <;>
      simp [Walk.declare, clash, clashes, Walk.fault, hScopes, hClash]

variable {walk} {name}

theorem mem_clash {fault : Fault} :
    fault ∈ walk.clash name ↔ walk.clashes name = true ∧ fault = ⟨.redeclared, name⟩ := by
  rw [clash, List.mem_ite_nil_right, List.mem_singleton]

/- Parameters that are declared twice. -/
theorem parameters_faults (params before : List Token) {names : Names}
    {outer : List Names} (hScopes : walk.scopes = names :: outer)
    (hNames : Lists names (before.map Token.lexeme)) :
    ∃ new, (walk.parameters params).faults = walk.faults ++ new ∧
      ∀ fault, fault ∈ new ↔ ∃ first name others, params = first ++ name :: others ∧
        name.lexeme ∈ (before ++ first).map Token.lexeme ∧ fault = ⟨.redeclared, name⟩ := by
  induction params generalizing walk before names with
  | nil => exact ⟨[], (List.append_nil _).symm, by simp⟩
  | cons param others ih =>
    have hDeclared := walk.declared_scopes param
    rw [hScopes] at hDeclared
    rcases ih (before ++ [param]) hDeclared (hNames.settle param) with ⟨new, hFaults, hNew⟩
    rw [define_faults, declare_faults, List.append_assoc] at hFaults
    refine ⟨_, hFaults, fun fault => ?_⟩
    have hClash : walk.clashes param = true ↔ param.lexeme ∈ before.map Token.lexeme := by
      simp only [clashes, hScopes, List.head?_cons, Option.any_some]
      exact hNames _
    rw [List.mem_append, mem_clash, hClash, hNew]
    constructor
    · rintro (⟨hMem, hFault⟩ | ⟨first, name, later, rfl, hMem, hFault⟩)
      · refine ⟨[], param, others, rfl, ?_, hFault⟩
        rw [List.append_nil]
        exact hMem
      · refine ⟨param :: first, name, later, rfl, ?_, hFault⟩
        rw [List.append_cons]
        exact hMem
    · rintro ⟨first, name, later, hParams, hMem, rfl⟩
      cases first with
      | nil =>
        cases hParams
        rw [List.append_nil] at hMem
        exact .inl ⟨hMem, rfl⟩
      | cons other first =>
        cases hParams
        rw [List.append_cons] at hMem
        exact .inr ⟨first, name, later, rfl, hMem, rfl⟩

end Walk

section

variable {P : Site → Prop} {exact : Prop} {around : List Layer} {ctx : Context}
variable {kinds : List Kind} {scopes : List Names} {walk : Walk}

/- A site that is known. -/
theorem Site.known {reference : Reference} (hScopes : walk.scopes = scopes)
    (hOwned : Site.Owned ⟨reference, kinds, scopes⟩)
    (hSite : ∀ site ∈ some (walk.site kinds reference), P site) :
    Site.OwnedIn P ⟨reference, kinds, scopes⟩ ∧ True := by
  rw [← hScopes] at hOwned ⊢
  exact ⟨⟨hSite _ rfl, hOwned⟩, trivial⟩

section

variable (h : Agrees exact around ctx kinds scopes) (hScopes : walk.scopes = scopes)
include h hScopes

/- A site is where the walk comes to a reference. -/
theorem Agrees.use?_eq {node : Node} {reference : Reference}
    (hNode : node.reference? = some reference) :
    Position.use? ⟨around, node⟩ = some (walk.site kinds reference).use := by
  simp only [Position.use?, hNode, Option.map_some, Lists.findIdx?_eq h.lists, ← hScopes]
  rfl

/- A variable that is read. -/
theorem Agrees.name (id : Nat) (name : Token) :
    Judges P exact (Inside [⟨around, .expr (.name id name)⟩]) [walk.site kinds ⟨.name, id, name⟩]
      walk.faults (walk.read ctx id name).faults
      (Site.OwnedIn P ⟨⟨.name, id, name⟩, kinds, scopes⟩) True := by
  have hUse : Position.use? ⟨around, .expr (.name id name)⟩ = _ := h.use?_eq hScopes rfl
  have hAwaiting := h.awaiting
  have hReads : ctx.readsEarly walk = ctx.readsEarly ⟨scopes, [], []⟩ := by
    rw [← hScopes]
    rfl
  refine .leaf rfl ?_
  simp only [Walk.read, hReads]
  split
  · rename_i hEarly
    rw [Walk.reference_faults]
    refine .fault (some _) hUse ?_
    unfold pending? at hAwaiting
    split at hAwaiting
    · exact .initializer (hAwaiting.1 _ hEarly)
    · cases (hAwaiting _).symm.trans hEarly
  · rename_i hReady
    rw [Walk.reference_faults]
    refine .fine (some _) hUse (fun hExact fault hMisused => ?_) (Site.known hScopes trivial)
    cases hMisused with
    | initializer hSame =>
      apply hReady
      rw [← hSame]
      exact hAwaiting.2 hExact

variable {keyword : Token}

theorem Agrees.self (id : Nat) (hWord : keyword.lexeme = "this") :
    Judges P exact (Inside [⟨around, .expr (.self id keyword)⟩])
      [walk.site kinds ⟨.self, id, keyword⟩] walk.faults (walk.self ctx id keyword).faults
      (Site.OwnedIn P ⟨⟨.self, id, keyword⟩, kinds, scopes⟩) True := by
  refine .leaf rfl ?_
  unfold Walk.self
  split
  · rename_i hClass
    exact .fault (some _) (h.use?_eq hScopes rfl) (.self (h.flags.2.2.symm.trans hClass))
  · rename_i hClass
    rw [Walk.reference_faults]
    refine .fine (some _) (h.use?_eq hScopes rfl) (fun _ fault hMisused => ?_)
      (Site.known hScopes (h.surrounds.owned_self hClass id hWord))
    cases hMisused with
    | self hNone => exact hClass (h.flags.2.2.trans hNone)

theorem Agrees.superMethod (id : Nat) (method : Token)
    (hWord : keyword.lexeme = "super") :
    Judges P exact (Inside [⟨around, .expr (.superMethod id keyword method)⟩])
      [walk.site kinds ⟨.superMethod, id, keyword⟩] walk.faults
      (walk.superMethod ctx id keyword).faults
      (Site.OwnedIn P ⟨⟨.superMethod, id, keyword⟩, kinds, scopes⟩) True := by
  have hUse : Position.use? ⟨around, .expr (.superMethod id keyword method)⟩ = _ :=
    h.use?_eq hScopes rfl
  have hSurrounds := h.surrounds
  refine .leaf rfl ?_
  unfold Walk.superMethod
  split
  · rename_i hClass
    exact .fault (some _) hUse (.superOutside (h.flags.2.2.symm.trans hClass))
  · rename_i hClass
    exact .fault (some _) hUse (.superRoot (h.flags.2.2.symm.trans hClass))
  · rename_i hClass
    rw [hClass] at hSurrounds
    rw [Walk.reference_faults]
    refine .fine (some _) hUse (fun _ fault hMisused => ?_)
      (Site.known hScopes (hSurrounds.owned_superMethod id hWord))
    cases hMisused with
    | superOutside hOther
    | superRoot hOther => cases hClass.symm.trans (h.flags.2.2.trans hOther)

end

/- A control word. -/
theorem Walk.control_judged {p : Position} {allowed : Bool} {token : Token} {cause : Cause}
    (hUse : p.use? = none)
    (h : ∀ fault, Misused p fault ↔ allowed = false ∧ fault = ⟨cause, token⟩) :
    Judges P exact (· = p) [] walk.faults (if allowed then walk else walk.fault token cause).faults
      True (allowed = true) := by
  cases allowed with
  | true =>
    exact .fine none hUse (fun _ fault hMisused => nomatch ((h fault).mp hMisused).1)
      fun _ => ⟨trivial, rfl⟩
  | false => exact .fault none hUse ((h _).mpr ⟨rfl, rfl⟩)

theorem Agrees.returned (h : Agrees exact around ctx kinds scopes) (keyword : Token)
    (value : Option Expr) :
    Judges P exact (· = ⟨around, .stmt (.returnValue keyword value)⟩) [] walk.faults
      (if ctx.inFunction then walk else walk.fault keyword .returnOutsideFunction).faults
      True (ctx.inFunction = true) := by
  refine Walk.control_judged rfl fun fault => ⟨fun hMisused => ?_, ?_⟩
  · cases hMisused with
    | returnValue hNone => exact ⟨h.flags.2.1.trans hNone, rfl⟩
    | declared hName => cases hName
  · rintro ⟨hNone, rfl⟩
    exact .returnValue (h.flags.2.1.symm.trans hNone)

variable {name : Token}

/- A declaration that is not a class with a superclass. -/
theorem Walk.declare_judged {stmt : Stmt} (hName : stmt.declared? = some name)
    (hNew : walk.clashes name = true ↔ Redeclared around name)
    (hOnly : ∀ fault, Misused ⟨around, .stmt stmt⟩ fault → fault.cause = .redeclared) :
    Judges P exact (· = ⟨around, .stmt stmt⟩) [] walk.faults (walk.declare name).faults
      True True := by
  rw [walk.declare_faults]
  refine .exactly rfl (fun fault => ?_) fun _ => ⟨trivial, trivial⟩
  rw [Walk.mem_clash, hNew]
  constructor
  · rintro ⟨hBefore, rfl⟩
    exact .declared hName hBefore
  · intro hMisused
    have hCause := hOnly fault hMisused
    cases hMisused with
    | declared hOther hBefore =>
      cases hName.symm.trans hOther
      exact ⟨hBefore, rfl⟩
    | _ => cases hCause

theorem Walk.derived_judged
    (hNew : walk.clashes name = true ↔ Redeclared around name)
    (id : Nat) (parent : Token) (methods : List Function) :
    Judges P exact (· = ⟨around, .stmt (.classDecl name (some (.name id parent)) methods)⟩) []
      walk.faults (((walk.declare name).define name).checkSuperclass name (.name id parent)).faults
      (parent.lexeme ≠ name.lexeme) True := by
  have hFaults : (((walk.declare name).define name).checkSuperclass name (.name id parent)).faults =
      walk.faults ++ (walk.clash name ++
        if parent.lexeme = name.lexeme then [⟨.ownSuperclass, parent⟩] else []) := by
    simp only [Walk.checkSuperclass]
    split <;> simp [Walk.fault, Walk.define_faults, walk.declare_faults]
  rw [hFaults]
  refine .exactly rfl (fun fault => ?_) fun hNone => ⟨fun hSame => ?_, trivial⟩
  · rw [List.mem_append, Walk.mem_clash, hNew, List.mem_ite_nil_right, List.mem_singleton]
    constructor
    · rintro (⟨hBefore, rfl⟩ | ⟨hSame, rfl⟩)
      · exact .declared rfl hBefore
      · exact .superclass hSame
    · intro hMisused
      cases hMisused with
      | declared hName hBefore =>
        cases hName
        exact .inl ⟨hBefore, rfl⟩
      | superclass hSame => exact .inr ⟨hSame, rfl⟩
  · simp [hSame] at hNone

end

end Scope

------------------------------------------------------------
-- Judged Trees
------------------------------------------------------------

section

variable {P : Site → Prop}

mutual

/-
  By induction on trees.  The walk comes to the parts of a
  node one after the other.
-/
theorem Expr.judged {exact : Prop} {ctx : Context} {walk : Walk} {around : List Layer}
    {kinds : List Kind} {scopes : List Names} (expr : Expr) (hTree : expr.Sensible)
    (hScopes : walk.scopes = scopes) (h : Agrees exact around ctx kinds scopes) :
    Judges P exact (Inside [⟨around, .expr expr⟩]) (expr.sites ctx kinds walk)
      walk.faults (expr.resolve ctx walk).faults
      (expr.Known (Site.OwnedIn P) kinds scopes) expr.Contained := by
  match expr with
  | .literal _ => exact .plain rfl rfl .nil
  | .name id name => exact h.name hScopes id name
  | .self id keyword => exact h.self hScopes id hTree
  | .superMethod id keyword method => exact h.superMethod hScopes id method hTree.1
  | .assign id name value =>
    have hValue := value.judged hTree.2 hScopes h
    have hPast := (value.resolve_scopes ctx walk).trans hScopes
    have hOwn : Judges P exact (· = ⟨around, .expr (.assign id name value)⟩)
        [(value.resolve ctx walk).site kinds ⟨.assign, id, name⟩]
        (value.resolve ctx walk).faults (value.resolve ctx walk).faults
        (Site.OwnedIn P ⟨⟨.assign, id, name⟩, kinds, scopes⟩) True :=
      .fine (some _) (h.use?_eq hPast rfl) (fun _ _ => not_misused rfl) (Site.known hPast trivial)
    simp only [Expr.resolve, Walk.reference_faults]
    refine ((hValue.or (fun hExact _ => hExact) hOwn).imp (fun h => h) And.left).congr fun q => ?_
    exact inside_singleton.trans or_comm
  | .compound left _ right
  | .binary left _ right
  | .logical left _ right
  | .set left _ right
  | .index left _ right =>
    have hParts : left.Sensible ∧ right.Sensible := by first | exact hTree | exact hTree.2
    have hLeft := left.judged hParts.1 hScopes h
    have hRight := right.judged hParts.2 ((left.resolve_scopes ctx walk).trans hScopes) h
    exact .plain rfl rfl (.cons hLeft hRight)
  | .increment operand _ _
  | .unary _ operand
  | .get operand _ => exact .plain rfl rfl (operand.judged hTree.2 hScopes h)
  | .group operand => exact .plain rfl rfl (operand.judged hTree hScopes h)
  | .call callee _ arguments =>
    have hCallee := callee.judged hTree.1 hScopes h
    have hArguments :=
      exprsJudged arguments hTree.2 ((callee.resolve_scopes ctx walk).trans hScopes) h
    exact .plain rfl rfl (.cons hCallee hArguments)
  | .indexSet object _ position value =>
    have hFirst := (object.resolve_scopes ctx walk).trans hScopes
    have hObject := object.judged hTree.1 hScopes h
    have hPosition := position.judged hTree.2.1 hFirst h
    have hValue := value.judged hTree.2.2 ((position.resolve_scopes ctx _).trans hFirst) h
    exact .plain rfl rfl (.cons hObject (.cons hPosition hValue))
  | .function f => exact .plain rfl rfl (f.judged hTree.2 hScopes h)
  | .array _ elements => exact .plain rfl rfl (exprsJudged elements hTree hScopes h)

theorem Stmt.judged {exact : Prop} {ctx : Context} {walk : Walk} {around : List Layer}
    {kinds : List Kind} {scopes : List Names} (stmt : Stmt) (hTree : stmt.Sensible)
    (hPlain : pending? around = none) (hScopes : walk.scopes = scopes)
    (h : Agrees exact around ctx kinds (stmt.after scopes))
    (hNew : ∀ name, stmt.declared? = some name →
      (walk.clashes name = true ↔ Redeclared around name)) :
    Judges P exact (Inside [⟨around, .stmt stmt⟩]) (stmt.sites ctx kinds walk)
      walk.faults (stmt.resolve ctx walk).faults
      (stmt.Known (Site.OwnedIn P) kinds scopes) (stmt.Contained ctx.inFunction ctx.inLoop) := by
  match stmt with
  | .expression expr
  | .print _ expr => exact .plain rfl rfl (expr.judged hTree hScopes h)
  | .letDecl name none =>
    have hOwn : Judges P exact (· = ⟨around, .stmt (.letDecl name none)⟩) [] _ _ True True :=
      walk.declare_judged rfl (hNew name rfl) fun _ h => by cases h; rfl
    simp only [Stmt.resolve, Walk.define_faults]
    exact .leaf rfl hOwn
  | .letDecl name (some value) =>
    have hOwn : Judges P exact (· = ⟨around, .stmt (.letDecl name (some value))⟩) [] _ _
        True True := walk.declare_judged rfl (hNew name rfl) fun _ h => by cases h; rfl
    subst hScopes
    have hValue := value.judged hTree.2 (walk.declare_scopes name) (h.initializer hPlain)
    simp only [Stmt.resolve, Walk.define_faults]
    refine ((hOwn.or (fun _ hFine => ?_) hValue).imp And.right And.right).congr
      fun _ => inside_singleton
    rw [Bool.eq_false_iff]
    intro hClash
    exact hFine _ rfl _ (.declared rfl ((hNew name rfl).mp hClash))
  | .functionDecl f =>
    have hName : f.name = some f.keyword := hTree.1
    have hOwn : Judges P exact (· = ⟨around, .stmt (.functionDecl f)⟩) [] _ _ True True :=
      walk.declare_judged hName (hNew _ hName) fun _ h => by cases h; rfl
    have hFaults : (walk.declareFunction f).faults = (walk.declare f.keyword).faults := by
      simp only [Walk.declareFunction, hName, Walk.define_faults]
    rw [← hFaults] at hOwn
    subst hScopes
    exact .after hOwn (f.judged hTree.2 (walk.declareFunction_scopes f) h)
  | .classDecl name none methods =>
    have hOwn : Judges P exact (· = ⟨around, .stmt (.classDecl name none methods)⟩) [] _ _
        True True := walk.declare_judged rfl (hNew name rfl) fun _ h => by cases h; rfl
    rw [← Walk.define_faults (walk.declare name) name] at hOwn
    subst hScopes
    have hInside := congrArg (List.cons [("this", true)]) (walk.declared_scopes name)
    exact .after hOwn (methodsJudged methods hTree.2 hInside h.rootClass)
  | .classDecl name (some parent) methods =>
    subst hScopes
    cases parent with
    | name id parent =>
      have hChecked := (Walk.checkSuperclass_scopes _ name (.name id parent)).trans
        (walk.declared_scopes name)
      let looked := (((walk.declare name).define name).checkSuperclass name (.name id parent)).read
        { ctx with classContext := .derived } id parent
      have hLooked : looked.scopes = _ := (Walk.read_scopes ..).trans hChecked
      have hInside : ((looked.enter [("super", true)]).enter [("this", true)]).scopes = _ :=
        congrArg (fun scopes => [("this", true)] :: [("super", true)] :: scopes) hLooked
      have hMethods := methodsJudged methods hTree.2.2 hInside h.derivedClass
      refine (Judges.node (walk.derived_judged (hNew name rfl) id parent methods)
        (.cons (h.name hChecked id parent) hMethods)).imp ?_ And.right
      rintro ⟨hOther, hName, hKnown⟩
      exact ⟨⟨id, parent, rfl, hOther, hName⟩, hKnown⟩
    | _ => cases hTree.2.1.1
  | .block body =>
    exact .plain rfl rfl (stmtsJudged body hTree (congrArg (List.cons []) hScopes) h.block)
  | .conditional condition thenBranch none =>
    have hTest := condition.judged hTree.1 hScopes h
    have hThen := thenBranch.judged hTree.2.1 hPlain
      ((condition.resolve_scopes ctx walk).trans hScopes) (h.branch hTree.2.2)
      fun _ => Stmt.not_declared hTree.2.2
    refine .plain rfl rfl ((Judges.cons hTest hThen).imp ?_ id)
    exact fun ⟨hKnown, hKnown'⟩ => ⟨hKnown, hKnown', hTree.2.2⟩
  | .conditional condition thenBranch (some elseBranch) =>
    rcases hTree with ⟨hTest, hThen, hElse⟩
    have hTested := (condition.resolve_scopes ctx walk).trans hScopes
    have hTried := thenBranch.resolve_after hThen.1 ctx (condition.resolve ctx walk)
    rw [Stmt.after_of_declares hThen.2, hTested] at hTried
    have hFirst := condition.judged hTest hScopes h
    have hSecond := thenBranch.judged hThen.1 hPlain hTested (h.branch hThen.2)
      fun _ => Stmt.not_declared hThen.2
    have hThird := elseBranch.judged hElse.1 hPlain hTried (h.branch hElse.2)
      fun _ => Stmt.not_declared hElse.2
    refine .plain rfl rfl ((Judges.cons hFirst (.cons hSecond hThird)).imp ?_ id)
    exact fun ⟨hKnown, hKnown', hKnown''⟩ => ⟨hKnown, ⟨hKnown', hThen.2⟩, hKnown'', hElse.2⟩
  | .whileLoop condition body =>
    have hTest := condition.judged hTree.1 hScopes h
    have hBody := body.judged hTree.2.1 rfl ((condition.resolve_scopes ctx walk).trans hScopes)
      ((h.loopBody hPlain).branch hTree.2.2) fun _ => Stmt.not_declared hTree.2.2
    refine .plain rfl rfl ((Judges.cons hTest hBody).imp ?_ id)
    exact fun ⟨hKnown, hKnown'⟩ => ⟨hKnown, hKnown', hTree.2.2⟩
  | .breakLoop keyword =>
    refine .leaf rfl (Walk.control_judged rfl fun fault => ⟨fun hMisused => ?_, ?_⟩)
    · cases hMisused with
      | breakLoop hNone => exact ⟨h.flags.1.trans hNone, rfl⟩
      | declared hName => cases hName
    · rintro ⟨hNone, rfl⟩
      exact .breakLoop (h.flags.1.symm.trans hNone)
  | .returnValue keyword none => exact .leaf rfl (h.returned keyword none)
  | .returnValue keyword (some value) =>
    refine (Judges.node (h.returned keyword (some value))
      (value.judged hTree ?_ h)).imp And.right id
    split <;> exact hScopes

theorem Function.judged {exact : Prop} {ctx : Context} {walk : Walk} {around : List Layer}
    {kinds : List Kind} {scopes : List Names} (f : Function) (hTree : f.Sensible)
    (hScopes : walk.scopes = scopes) (h : Agrees exact around ctx kinds scopes) :
    Judges P exact (Inside [⟨around, .function f⟩]) (f.sites ctx kinds walk)
      walk.faults (f.resolve ctx walk).faults
      (f.Known (Site.OwnedIn P) kinds scopes) f.Contained := by
  match f with
  | .mk name keyword params body =>
    have hEntered : (walk.enter []).scopes = [] :: scopes := congrArg (List.cons []) hScopes
    rcases Walk.parameters_faults params [] hEntered Lists.nil with ⟨new, hFaults, hNew⟩
    have hOwn : Judges P exact (· = ⟨around, .function (.mk name keyword params body)⟩) []
        (walk.enter []).faults ((walk.enter []).parameters params).faults True True := by
      rw [hFaults]
      refine .exactly rfl (fun fault => (hNew fault).trans ⟨?_, ?_⟩) fun _ => ⟨trivial, trivial⟩
      · rintro ⟨before, twice, after, hParams, hBefore, rfl⟩
        exact .parameter hParams hBefore
      · intro hMisused
        cases hMisused with
        | parameter hParams hBefore => exact ⟨_, _, _, hParams, hBefore, rfl⟩
    have hBound := Walk.parameters_scopes _ [] scopes params hEntered
    exact .after hOwn (stmtsJudged body hTree.2 hBound (h.functionBody fun _ hMem =>
      (hTree.1.2 _ hMem).ordinary))

theorem exprsJudged {exact : Prop} {ctx : Context} {walk : Walk} {around : List Layer}
    {kinds : List Kind} {scopes : List Names} (exprs : List Expr) (hTree : exprsSensible exprs)
    (hScopes : walk.scopes = scopes) (h : Agrees exact around ctx kinds scopes) :
    Judges P exact (Inside (exprs.map fun expr => ⟨around, .expr expr⟩))
      (exprsSites ctx kinds exprs walk) walk.faults (resolveExprs ctx exprs walk).faults
      (exprsKnown (Site.OwnedIn P) kinds exprs scopes) (exprsContained exprs) := by
  match exprs with
  | [] => exact .nil
  | first :: others =>
    have hFirst := first.judged hTree.1 hScopes h
    exact .cons hFirst
      (exprsJudged others hTree.2 ((first.resolve_scopes ctx walk).trans hScopes) h)

theorem stmtsJudged {exact : Prop} {ctx : Context} {walk : Walk} {around : List Layer}
    {kinds : List Kind} {scopes : List Names} {ofFunction : Bool} {names : List Token}
    (stmts : List Stmt) (hTree : stmtsSensible stmts) (hScopes : walk.scopes = scopes)
    (h : Agrees exact (.scope ofFunction names :: around) ctx kinds scopes) :
    Judges P exact (Inside (scopePositions ofFunction around names stmts))
      (stmtsSites ctx kinds stmts walk) walk.faults (resolveStmts ctx stmts walk).faults
      (stmtsKnown (Site.OwnedIn P) kinds stmts scopes)
      (stmtsContained ctx.inFunction ctx.inLoop stmts) := by
  match stmts with
  | [] => exact .nil
  | first :: others =>
    have hNext := h.after hTree.1
    have hFirst := first.judged hTree.1 rfl hScopes hNext fun name hName => by
      rw [hName]
      rw [← hScopes] at h
      exact h.clashes_iff name
    have hAfter := first.resolve_after hTree.1 ctx walk
    rw [hScopes] at hAfter
    exact .cons hFirst (stmtsJudged others hTree.2 hAfter hNext)

theorem methodsJudged {exact : Prop} {ctx : Context} {walk : Walk} {around : List Layer}
    {kinds : List Kind} {scopes : List Names} (methods : List Function)
    (hTree : functionsSensible methods) (hScopes : walk.scopes = scopes)
    (h : Agrees exact around ctx kinds scopes) :
    Judges P exact (Inside (methods.map fun f => ⟨around, .function f⟩))
      (methodsSites ctx kinds methods walk) walk.faults (resolveMethods ctx methods walk).faults
      (methodsKnown (Site.OwnedIn P) kinds methods scopes) (methodsContained methods) := by
  match methods with
  | [] => exact .nil
  | first :: others =>
    have hFirst := first.judged hTree.1.2 hScopes h
    exact .cons hFirst
      (methodsJudged others hTree.2 ((first.resolve_scopes ctx walk).trans hScopes) h)

end

namespace Scope

/- No scope is open at top level. -/
theorem resolveStmts_judged {walk : Walk} (hTop : walk.scopes = []) (stmts : List Stmt)
    (hTree : stmtsSensible stmts) :
    Judges P True (InProgram stmts) (stmtsSites {} [] stmts walk) walk.faults
      (resolveStmts {} stmts walk).faults (stmtsKnown (Site.OwnedIn P) [] stmts [])
      (stmtsContained false false stmts) := by
  induction stmts generalizing walk with
  | nil => exact .nil
  | cons first others ih =>
    have hNext : (first.resolve {} walk).scopes = [] := by
      rw [first.resolve_after hTree.1, hTop, first.after_nil]
    have hOthers := ih hNext hTree.2
    have hFirst : Judges P True (Inside [⟨[], .stmt first⟩]) (first.sites {} [] walk)
        walk.faults (first.resolve {} walk).faults (first.Known (Site.OwnedIn P) [] [])
        (first.Contained false false) := by
      refine first.judged hTree.1 rfl hTop ?_ fun name _ => ?_
      · rw [first.after_nil]
        exact .top
      · simp [Walk.clashes, hTop, Redeclared]
    refine (Judges.cons hFirst hOthers).imp ?_ id
    rw [stmtsKnown, first.after_nil]
    exact id

/- A program without faults, in no function and in no loop. -/
theorem accepted_of_resolved {body : List Stmt} (hTree : stmtsSensible body)
    (hFaults : (resolveProgram body).faults = []) (hSites : ∀ site ∈ programSites body, P site) :
    stmtsKnown (Site.OwnedIn P) [] body [] ∧ stmtsContained false false body :=
  (resolveStmts_judged rfl body hTree).accepted hFaults hSites

end Scope

theorem Expr.accepted_of_resolved {expr : Expr} (hTree : expr.Sensible)
    (hFaults : (resolveExpression expr).faults = [])
    (hSites : ∀ site ∈ expressionSites expr, P site) :
    expr.Known (Site.OwnedIn P) [] [] ∧ expr.Contained :=
  have hJudged : Judges P True _ _ _ _ _ _ := expr.judged hTree rfl .top
  hJudged.accepted hFaults hSites

end

end Scriptlet
