import Scriptlet.Proofs.Eval.Sound

/-
  References are visited in frames that fit their scopes.

  Key declarations include:
    * `Eval.Stands`
    * `Eval.KeepsAll`
    * `Eval.keepsAll`
    * `Eval.interpret_keeps`

  Known code that stands in frames that fit keeps moments
  sound, and a statement leaves frames that fit the scopes
  after it.
-/

namespace Scriptlet

namespace Eval

open Scope (Distances Kind Names Site)

variable {frame : FrameId} {f : Function} {methods : List Function}

variable {known : Site → Prop} {distances : Distances} {m m' : Moment} {ctx : Context}
variable {kinds : List Kind} {scopes : List Names}

/- The table has the distances of known sites. -/
def Tabled (known : Site → Prop) (distances : Distances) : Prop :=
  ∀ site, known site → distances[site.reference.id]? = site.distance?

/- Code in these scopes may run here. -/
structure Stands (distances : Distances) (m : Moment) (ctx : Context)
    (kinds : List Kind) (scopes : List Names) : Prop where
  table : ctx.distances = distances
  fits : Fits m kinds scopes ctx.frame

theorem Stands.later (h : Stands distances m ctx kinds scopes)
    (hLeads : m.Leads m') : Stands distances m' ctx kinds scopes := ⟨h.table, h.fits.later hLeads⟩

/- What is run next stands in the same place. -/
theorem Stands.bind {α β : Type} {known : Site → Prop} {traced : Traced α}
    {next : α → Traced β} {Q : α → Moment → Prop} {R : β → Moment → Prop}
    (h : Stands distances m ctx kinds scopes) (hTraced : Keeps known m traced Q)
    (hNext : ∀ {value m'}, Sound known m' → Stands distances m' ctx kinds scopes →
      Q value m' → Keeps known m' (next value) R) : Keeps known m (traced >>= next) R :=
  hTraced.bind fun hLeads hSound => hNext hSound (h.later hLeads)

/- A binding is missing only where it is not completed. -/
theorem Sound.bound_or_unfinished (h : Sound known m) {names : Names}
    {name : String} (hBinds : Binds m frame names name) :
    (m.heap.local? frame name).isSome = true ∨ Unfinished m.history frame names name := by
  rcases hBinds with hBound | ⟨hAwaits, hBegan⟩
  · exact .inl hBound
  · by_cases hDone : .completed frame name ∈ m.history
    · exact .inl (h.events _ hDone)
    · exact .inr ⟨hAwaits, hBegan, hDone⟩

theorem Sound.witnesses (h : Sound known m) (hTable : Tabled known distances)
    {site : Site} (hKnown : known site) (hStands : Stands distances m ctx site.kinds scopes)
    (hScopes : site.scopes.length = scopes.length)
    (hLocated : Located m site.kinds site.scopes ctx.frame site.reference.token.lexeme) :
    Witnesses known m site.reference ctx := by
  have hDistance : ctx.distances[site.reference.id]? = site.distance? := by
    rw [hStands.table]
    exact hTable site hKnown
  refine ⟨site, hKnown, rfl, ?_⟩
  constructor
  · exact hStands.fits.nested
  · exact hScopes.trans hStands.fits.length
  · exact hDistance
  · intro d hFound
    rw [hDistance] at hFound
    rcases hLocated d hFound with ⟨frame, names, hFrame, hKind, hNames, hDeclared, hBinds⟩
    exact ⟨frame, names, hFrame, hKind, hNames, hDeclared, h.bound_or_unfinished hBinds⟩

/- A node in scopes that the frames fit. -/
theorem Stands.witnesses (hStands : Stands distances m ctx kinds scopes)
    (h : Sound known m) (hTable : Tabled known distances)
    {reference : Reference} (hKnown : known ⟨reference, kinds, scopes⟩) :
    Witnesses known m reference ctx :=
  h.witnesses hTable hKnown hStands rfl (hStands.fits.located _)

/- A place that is a variable is a known site. -/
def Place.Known (known : Site → Prop) (kinds : List Kind) (scopes : List Names) : Place → Prop
  | .named id name => known ⟨⟨.name, id, name⟩, kinds, scopes⟩
  | _ => True

theorem Place.visit_keeps (h : Sound known m) (hTable : Tabled known distances)
    (hStands : Stands distances m ctx kinds scopes) {place : Place}
    (hPlace : place.Known known kinds scopes) : Keeps known m (place.visit ctx) anything := by
  cases place with
  | named id name => exact .visit h (hStands.witnesses h hTable hPlace)
  | property => exact .pure h trivial
  | element => exact .pure h trivial

theorem isSome_local?_define {heap : Heap} (h : frame < heap.frames.size)
    (name : String) (value : Value) :
    ((heap.define frame name value).local? frame name).isSome = true := by
  rw [Heap.local?_define, if_pos ⟨rfl, rfl, h⟩]
  rfl

theorem declare_keeps (h : Sound known m)
    (hFrame : ctx.frame < m.heap.frames.size) (name : String) (value : Value) :
    Keeps known m (plain (declare ctx name value))
      (fun _ m' =>
        (m'.heap.local? ctx.frame name).isSome = true) := by
  rcases h.sameCode (m.heap.grows_define ctx.frame name value) rfl rfl with ⟨hLeads, hSound⟩
  exact ⟨fun _ => .done hLeads hSound (isSome_local?_define hFrame name value)⟩

theorem evaluate_name_keeps (fuel : Nat) (h : Sound known m) {id : Nat}
    {name : Token} (hVisit : Witnesses known m ⟨.name, id, name⟩ ctx) :
    Keeps known m (Traced.evaluate fuel ctx (.name id name)) anything := by
  cases fuel with
  | zero => exact .exhausted h
  | succ fuel =>
    apply Keeps.bind (.visit h hVisit)
    intro _ m' _ hSound _
    exact .plain hSound (readVariable_stores ctx id name)

theorem inspect_keeps {α : Type} (h : Sound known m) (view : Heap → α) :
    Keeps known m (plain (inspect view)) (fun value m' => value = view m.heap ∧ m = m') :=
  ⟨fun _ => .done (.refl m) h ⟨rfl, rfl⟩⟩

theorem checkCall_keeps (h : Sound known m) (callee : Value) (paren : Token) (given : Nat) :
    Keeps known m (plain (checkCall callee paren given))
      (fun _ m' =>
        m = m' ∧ arity? m.heap callee = some given) := by
  constructor
  intro host
  unfold plain checkCall
  rw [bind_inspect]
  cases hArity : arity? m.heap callee with
  | none => exact .failed (.refl m) h
  | some expected =>
    dsimp only
    split
    · rename_i hGiven
      subst hGiven
      exact .done (.refl m) h ⟨rfl, rfl⟩
    · exact .failed (.refl m) h

/- Methods depend on classes only. -/
theorem findMethod?_congr {heap heap' : Heap} (h : heap'.classes = heap.classes)
    (classId : ClassId) (name : String) :
    heap'.findMethod? classId name = heap.findMethod? classId name := by
  fun_induction Heap.findMethod? heap classId name with
  | case1 classId hClass => rw [Heap.findMethod?, h, hClass]
  | case2 classId blueprint hClass method hOwn =>
    rw [Heap.findMethod?, h, hClass]
    simp only [hOwn]
  | case3 classId blueprint hClass hOwn parent hParent hLt ih =>
    rw [Heap.findMethod?, h, hClass]
    simp only [hOwn, hParent, hLt, if_true]
    exact ih
  | case4 classId blueprint hClass hOwn parent hParent hLt =>
    rw [Heap.findMethod?, h, hClass]
    simp only [hOwn, hParent, hLt, if_false]
  | case5 classId blueprint hClass hOwn hParent =>
    rw [Heap.findMethod?, h, hClass]
    simp only [hOwn, hParent]

theorem addObject_keeps (h : Sound known m) (classId : ClassId) :
    Keeps known m (plain (allocate fun heap => heap.addObject classId))
      (fun _ m' => m'.heap.initializer? classId = m.heap.initializer? classId) := by
  have hHeap : m.heap.Settles (m.heap.addObject classId).2 := .of_same rfl rfl rfl
  rcases h.settle hHeap with ⟨hLeads, hSound⟩
  have hSame : (m.heap.addObject classId).2.classes = m.heap.classes := rfl
  exact ⟨fun _ => .done hLeads hSound (findMethod?_congr hSame classId _)⟩

/- All parameters are bound in a call. -/
theorem parameters_bound {arguments : List Value}
    (hArity : arguments.length = f.arity) (name : String)
    (h : (Names.ofParams f.params).declares name = true) :
    ((parameters f arguments).get? name).isSome = true := by
  have hMem := Names.mem_of_declares_ofParams h
  apply Bindings.isSome_get?_ofPairs
  rw [List.map_fst_zip]
  · exact hMem
  · rw [List.length_map]
    exact Nat.le_of_eq hArity.symm

/- A scope for a block declares nothing at first. -/
theorem block_bound (name : String) (h : Names.declares [] name = true) :
    (Bindings.get? ([] : Bindings Value) name).isSome =
      true := by
  cases h

------------------------------------------------------------
-- Functions and Classes
------------------------------------------------------------

theorem Fits.declareFunction (h : Fits m kinds scopes frame)
    (hBound : (m.heap.local? frame f.label).isSome = true) :
    Fits m kinds (Stmt.after (.functionDecl f) scopes) frame := by
  cases hName : f.name with
  | none =>
    simp only [Stmt.after, hName]
    exact h
  | some name =>
    simp only [Stmt.after, hName]
    simp only [Function.label, hName] at hBound
    exact h.settle hBound

/-
  A function is created and bound.  Its body may refer to it,
  so its frame fits only once both is done.
-/
theorem functionDecl_keeps (h : Sound known m) (hStands : Stands distances m ctx kinds scopes)
    (hKnown : f.Known known kinds (Stmt.after (.functionDecl f) scopes)) :
    Keeps known m
      (do
        let value ← plain (makeFunction ctx f)
        plain (declare ctx f.label value)
        return Flow.normal)
      (fun _ m' =>
        Fits m' kinds (Stmt.after (.functionDecl f) scopes) ctx.frame) := by
  have hDefine := m.heap.grows_define ctx.frame f.label (.function m.heap.functions.size)
  rcases h.sameCode hDefine rfl rfl with ⟨hLeads, hSound⟩
  have hAfter :=
    (hStands.fits.later hLeads).declareFunction (isSome_local?_define hStands.fits.lt f.label _)
  rcases hSound.addFunction ⟨f, ctx.frame, false⟩ ⟨kinds, _, hAfter, hKnown⟩ with ⟨hLeads', hSound'⟩
  exact ⟨fun _ => .done (hLeads.trans hLeads') hSound' (hAfter.later hLeads')⟩

/- The kinds and the names around the methods of a class. -/
def classKinds (superclass : Option ClassId) (kinds : List Kind) : List Kind :=
  match superclass with
  | some _ => .superclass :: kinds
  | none => kinds

def classScopes (superclass : Option ClassId) (scopes : List Names) : List Names :=
  match superclass with
  | some _ => [("super", true)] :: scopes
  | none => scopes

/- A scope for `super` declares nothing else. -/
theorem super_bound (classId : ClassId) (name : String)
    (h : Names.declares [("super", true)] name = true) :
    (Bindings.get? [(superName, Value.blueprint classId)] name).isSome = true := by
  simp only [Names.declares, List.any_cons, List.any_nil, Bool.or_false, decide_eq_true_eq] at h
  subst h
  rfl

theorem classFrame_keeps (h : Sound known m)
    (hFits : Fits m kinds scopes ctx.frame) (superclass : Option ClassId) :
    Keeps known m (opening .superclass (classFrame ctx superclass))
      (fun frame m' =>
        Fits m' (classKinds superclass kinds) (classScopes superclass scopes) frame) := by
  cases superclass with
  | some classId => exact .openFrame h hFits .superclass (super_bound classId)
  | none =>
    constructor
    intro host
    rw [opening_eq]
    have hNone : (classFrame ctx none ⟨m.heap, host⟩).added ⟨m.heap, host⟩ = [] := by
      simp [classFrame, Outcome.added, Pure.pure, Action.pure]
    rw [hNone, List.map_nil, List.append_nil]
    exact .done (.refl m) h hFits

theorem known_of_mem_methods (h : methodsKnown known kinds methods scopes)
    (hMem : f ∈ methods) : f.Known known kinds scopes := by
  induction methods with
  | nil => cases hMem
  | cons first others ih =>
    rcases List.mem_cons.mp hMem with rfl | hMem
    · exact h.1
    · exact ih h.2 hMem

theorem addClass_keeps (h : Sound known m) (hFits : Fits m kinds scopes frame)
    (name : String) (superclass : Option ClassId)
    (hMethods : methodsKnown known (.self :: kinds) methods
        ([("this", true)] :: scopes)) : Keeps known m
      (plain (allocate fun heap => heap.addClass ⟨name, superclass, methodTable frame methods⟩))
      anything := by
  have hBindable : ∀ key method, (methodTable frame methods).get? key = some method →
        Bindable known m method := by
    intro key method hGet
    rcases List.mem_map.mp (Bindings.mem_of_get?_ofPairs hGet) with ⟨f, hMem, hSame⟩
    cases hSame
    exact ⟨kinds, scopes, hFits, known_of_mem_methods hMethods hMem⟩
  rcases h.addClass ⟨name, superclass, methodTable frame methods⟩ hBindable with ⟨hLeads, hSound⟩
  exact ⟨fun _ => .done hLeads hSound trivial⟩

theorem makeClass_keeps (h : Sound known m)
    (hStands : Stands distances m ctx kinds scopes) (name : Token) (superclass : Option ClassId)
    (hMethods :
      let declared := scopes.modifyHead (·.settle name.lexeme)
      methodsKnown known (.self :: classKinds superclass kinds) methods
        ([("this", true)] :: classScopes superclass declared)) :
    Keeps known m (Traced.makeClass ctx name superclass methods)
      (fun _ m' =>
        Fits m' kinds (scopes.modifyHead (·.settle name.lexeme)) ctx.frame) := by
  apply Keeps.bind (declare_keeps h hStands.fits.lt _ _)
  intro _ m₁ hLeads₁ hSound₁ hBound
  have hFits := (hStands.fits.later hLeads₁).settle hBound
  apply Keeps.bind (classFrame_keeps hSound₁ hFits superclass)
  intro frame m₂ hLeads₂ hSound₂ hFrame
  apply Keeps.bind (addClass_keeps hSound₂ hFrame name.lexeme superclass hMethods)
  intro id m₃ hLeads₃ hSound₃ _
  apply Keeps.mono (.plain hSound₃ (assign_stores name _ fun _ _ => Heap.isSome_of_holder?))
  intro _ m₄ hLeads₄ _
  exact hFits.later ((hLeads₂.trans hLeads₃).trans hLeads₄)

/- What is run with this fuel keeps moments sound. -/
structure KeepsAll (known : Site → Prop) (distances : Distances) (fuel : Nat) : Prop where
  evaluate {m ctx kinds scopes expr} : Sound known m →
    Stands distances m ctx kinds scopes → Expr.Known known kinds expr scopes →
    Keeps known m (Traced.evaluate fuel ctx expr) anything
  evaluateAll {m ctx kinds scopes exprs} : Sound known m →
    Stands distances m ctx kinds scopes → exprsKnown known kinds exprs scopes →
    Keeps known m (Traced.evaluateAll fuel ctx exprs) anything
  evaluatePlace {m ctx kinds scopes target} (operator : Token) : Sound known m →
    Stands distances m ctx kinds scopes → Expr.Known known kinds target scopes →
    Keeps known m (Traced.evaluatePlace fuel ctx target operator)
      (fun place _ => place.Known known kinds scopes)
  apply {m : Moment} {ctx : Context} (callee : Value) (paren : Token) (arguments : List Value) :
    Sound known m → ctx.distances = distances →
    Keeps known m (Traced.apply fuel ctx callee paren arguments) anything
  invoke {m : Moment} {ctx : Context} {closure : Closure} {arguments} (paren : Token) :
    Sound known m → ctx.distances = distances → Placed known m closure →
    arguments.length = closure.function.arity → Keeps known m
      (Traced.invoke fuel ctx closure paren arguments) anything
  execute {m ctx kinds scopes stmt} : Sound known m → Stands distances m ctx kinds scopes →
    Stmt.Known known kinds stmt scopes → Keeps known m (Traced.execute fuel ctx stmt)
      (fun _ m' => Fits m' kinds (stmt.after scopes) ctx.frame)
  executeAll {m ctx kinds scopes stmts} : Sound known m →
    Stands distances m ctx kinds scopes → stmtsKnown known kinds stmts scopes →
    Keeps known m (Traced.executeAll fuel ctx stmts) anything

section Step

variable {fuel : Nat} (ih : KeepsAll known distances fuel) (h : Sound known m)
include ih h

theorem apply_keeps (hCtx : ctx.distances = distances) (callee : Value)
    (paren : Token) (arguments : List Value) :
    Keeps known m (Traced.apply (fuel + 1) ctx callee paren arguments) anything := by
  apply Keeps.bind (checkCall_keeps h callee paren arguments.length)
  rintro _ _ - - ⟨rfl, hArity⟩
  cases callee with
  | native native => exact .plain h (callNative_within native paren arguments)
  | function id =>
    apply Keeps.bind (inspect_keeps h _)
    rintro _ _ - - ⟨rfl, rfl⟩
    cases hFound : m.heap.functions[id]? with
    | none => exact .failAt h ..
    | some closure =>
      have hPlaced := h.functions closure (Array.mem_of_getElem? hFound)
      simp only [arity?, hFound, Option.map_some, Option.some.injEq] at hArity
      exact ih.invoke paren h hCtx hPlaced hArity.symm
  | blueprint id =>
    apply Keeps.bind (addObject_keeps h id)
    intro object m₁ hLeads₁ h₁ hSame
    apply Keeps.bind (inspect_keeps h₁ _)
    rintro _ _ - - ⟨rfl, rfl⟩
    cases hFound : m₁.heap.initializer? id with
    | none => exact .pure h₁ trivial
    | some method =>
      have hLength : method.function.arity = arguments.length := by
        rw [hFound] at hSame
        simpa [arity?, Heap.classArity, ← hSame] using hArity
      apply Keeps.bind (.bindMethod h₁ (h₁.bindable hFound) object)
      rintro closure m₂ - h₂ ⟨hPlaced, hFunction⟩
      have hLength₂ : arguments.length = closure.function.arity := by
        rw [hFunction]
        exact hLength.symm
      exact .yield (ih.invoke paren h₂ hCtx hPlaced hLength₂)
  | _ => exact .failAt h ..

theorem invoke_keeps {closure : Closure} (hCtx : ctx.distances = distances)
    (paren : Token) {arguments : List Value} (hClosure : Placed known m closure)
    (hArity : arguments.length = closure.function.arity) :
    Keeps known m (Traced.invoke (fuel + 1) ctx closure paren arguments) anything := by
  simp only [Traced.invoke]
  split
  · exact .failAt h ..
  · rcases hClosure with ⟨kinds, scopes, hFits, hKnown⟩
    apply Keeps.bind (.openFrame h hFits .function (parameters_bound hArity))
    intro frame m₁ _ h₁ hInside
    have hBody : stmtsKnown known (.function :: kinds) closure.function.body
          (Names.ofParams closure.function.params :: scopes) := by
      generalize closure.function = f at hKnown
      cases f with
      | mk name keyword params body =>
        exact hKnown
    have hStands : Stands distances m₁ { ctx with frame := frame, depth := ctx.depth + 1 }
          _ _ := ⟨hCtx, hInside⟩
    apply Keeps.bind (ih.executeAll h₁ hStands hBody)
    intro flow m₂ _ h₂ _
    exact .plain h₂ (result_stores closure flow)

variable (hStands : Stands distances m ctx kinds scopes)
include hStands

theorem evaluate_keeps (hTable : Tabled known distances) {expr : Expr}
    (hExpr : expr.Known known kinds scopes) :
    Keeps known m (Traced.evaluate (fuel + 1) ctx expr) anything := by
  cases expr with
      try simp only [Expr.Known] at hExpr
  | literal value => exact .pure h trivial
  | name id name
  | self id name =>
    apply Keeps.bind (.visit h (hStands.witnesses h hTable hExpr))
    intro _ m₁ _ h₁ _
    exact .plain h₁ (readVariable_stores ctx id name)
  | assign id name value =>
    apply hStands.bind (ih.evaluate h hStands hExpr.1)
    intro value m₁ h₁ hStands₁ _
    apply Keeps.bind (.visit h₁ (hStands₁.witnesses h₁ hTable hExpr.2))
    intro _ m₂ _ h₂ _
    exact .yield (.plain h₂ (writeVariable_stores ctx id name value))
  | compound target operator value =>
    apply hStands.bind (ih.evaluatePlace operator h hStands hExpr.1)
    intro place m₁ h₁ hStands₁ hPlace
    apply hStands₁.bind (Place.visit_keeps h₁ hTable hStands₁ hPlace)
    intro _ m₂ h₂ hStands₂ _
    apply hStands₂.bind (.binding h₂ (Place.read_binding ctx place))
    intro old m₃ h₃ hStands₃ _
    apply hStands₃.bind (ih.evaluate h₃ hStands₃ hExpr.2)
    intro operand m₄ h₄ hStands₄ _
    apply hStands₄.bind (.plain h₄ (operate_stores ..))
    intro new m₅ h₅ hStands₅ _
    apply Keeps.bind (Place.visit_keeps h₅ hTable hStands₅ hPlace)
    intro _ m₆ _ h₆ _
    exact .yield (.plain h₆ (Place.write_stores ctx new place))
  | increment target operator before =>
    apply hStands.bind (ih.evaluatePlace operator h hStands hExpr)
    intro place m₁ h₁ hStands₁ hPlace
    apply hStands₁.bind (Place.visit_keeps h₁ hTable hStands₁ hPlace)
    intro _ m₂ h₂ hStands₂ _
    apply hStands₂.bind (.binding h₂ (Place.read_binding ctx place))
    intro old m₃ h₃ hStands₃ _
    cases old with
    | number old =>
      apply Keeps.bind (Place.visit_keeps h₃ hTable hStands₃ hPlace)
      intro _ m₄ _ h₄ _
      exact .yield (.plain h₄ (Place.write_stores ctx _ place))
    | _ => exact .failAt h₃ ..
  | unary operator operand =>
    apply Keeps.bind (ih.evaluate h hStands hExpr)
    intro operand m₁ _ h₁ _
    exact .plain h₁ (negate_stores operator operand)
  | binary left operator right =>
    apply hStands.bind (ih.evaluate h hStands hExpr.1)
    intro left m₁ h₁ hStands₁ _
    apply Keeps.bind (ih.evaluate h₁ hStands₁ hExpr.2)
    intro right m₂ _ h₂ _
    exact .plain h₂ (operate_stores ..)
  | logical left operator right =>
    apply Keeps.bind (ih.evaluate h hStands hExpr.1)
    intro left m₁ hLeads₁ h₁ _
    split
    · exact .pure h₁ trivial
    · exact ih.evaluate h₁ (hStands.later hLeads₁) hExpr.2
  | call callee paren arguments =>
    apply hStands.bind (ih.evaluate h hStands hExpr.1)
    intro callee m₁ h₁ hStands₁ _
    apply Keeps.bind (ih.evaluateAll h₁ hStands₁ hExpr.2)
    intro arguments m₂ _ h₂ _
    exact ih.apply callee paren arguments h₂ hStands.table
  | get object name =>
    apply Keeps.bind (ih.evaluate h hStands hExpr)
    intro object m₁ _ h₁ _
    exact .binding h₁ (getProperty_binding object name)
  | set object name value =>
    apply hStands.bind (ih.evaluate h hStands hExpr.1)
    intro object m₁ h₁ hStands₁ _
    apply Keeps.bind (ih.evaluate h₁ hStands₁ hExpr.2)
    intro value m₂ _ h₂ _
    exact .yield (.plain h₂ (setProperty_within object name value))
  | index object bracket position =>
    apply hStands.bind (ih.evaluate h hStands hExpr.1)
    intro object m₁ h₁ hStands₁ _
    apply Keeps.bind (ih.evaluate h₁ hStands₁ hExpr.2)
    intro index m₂ _ h₂ _
    exact .plain h₂ (getElement_within object index bracket)
  | indexSet object bracket position value =>
    rcases hExpr with ⟨hObject, hPosition, hValue⟩
    apply hStands.bind (ih.evaluate h hStands hObject)
    intro object m₁ h₁ hStands₁ _
    apply hStands₁.bind (ih.evaluate h₁ hStands₁ hPosition)
    intro index m₂ h₂ hStands₂ _
    apply Keeps.bind (ih.evaluate h₂ hStands₂ hValue)
    intro value m₃ _ h₃ _
    exact .yield (.plain h₃ (setElement_within object index bracket value))
  | superMethod id keyword method =>
    apply Keeps.bind (.visit h (hStands.witnesses h hTable hExpr))
    intro _ m₁ _ h₁ _
    exact .binding h₁ (superMethod_binding ctx id keyword method)
  | function f => exact .makeFunction h hStands.fits hExpr
  | group inner => exact ih.evaluate h hStands hExpr
  | array bracket elements =>
    apply Keeps.bind (ih.evaluateAll h hStands hExpr)
    intro items m₁ _ h₁ _
    exact .yield (.plain h₁ (.allocate fun _ => storing.same rfl rfl rfl rfl))

theorem evaluateAll_keeps {exprs : List Expr} (hExprs : exprsKnown known kinds exprs scopes) :
    Keeps known m (Traced.evaluateAll (fuel + 1) ctx exprs) anything := by
  cases exprs with
  | nil => exact .pure h trivial
  | cons first others =>
    apply hStands.bind (ih.evaluate h hStands hExprs.1)
    intro value m₁ h₁ hStands₁ _
    exact .yield (ih.evaluateAll h₁ hStands₁ hExprs.2)

theorem evaluatePlace_keeps {target : Expr} (operator : Token)
    (hTarget : target.Known known kinds scopes) :
    Keeps known m (Traced.evaluatePlace (fuel + 1) ctx target operator)
      (fun place _ => place.Known known kinds scopes) := by
  cases target with
      try simp only [Expr.Known] at hTarget
  | name id name => exact .pure h hTarget
  | get object name =>
    apply Keeps.bind (ih.evaluate h hStands hTarget)
    intro object m₁ _ h₁ _
    exact .pure h₁ trivial
  | index object bracket position =>
    apply hStands.bind (ih.evaluate h hStands hTarget.1)
    intro object m₁ h₁ hStands₁ _
    apply Keeps.bind (ih.evaluate h₁ hStands₁ hTarget.2)
    intro index m₂ _ h₂ _
    exact .pure h₂ trivial
  | _ => exact .failAt h ..

theorem execute_keeps (hTable : Tabled known distances) {stmt : Stmt}
    (hStmt : stmt.Known known kinds scopes) :
    Keeps known m (Traced.execute (fuel + 1) ctx stmt)
      (fun _ m' =>
        Fits m' kinds (stmt.after scopes) ctx.frame) := by
  have hFits := hStands.fits
  cases stmt with
      try simp only [Stmt.Known, Traced.execute] at hStmt ⊢
  | expression expr =>
    apply Keeps.bind (ih.evaluate h hStands hStmt)
    intro _ m₁ hLeads₁ h₁ _
    exact .pure h₁ (hFits.later hLeads₁)
  | print keyword value =>
    apply Keeps.bind (ih.evaluate h hStands hStmt)
    intro value m₁ hLeads₁ h₁ _
    apply Keeps.bind (.plain h₁ (printValue_within keyword value))
    intro _ m₂ hLeads₂ h₂ _
    exact .pure h₂ (hFits.later (hLeads₁.trans hLeads₂))
  | letDecl name value =>
    cases value with
        try simp only [Stmt.Known] at hStmt
    | none =>
      apply Keeps.bind (declare_keeps h hFits.lt _ _)
      intro _ m₁ hLeads₁ h₁ hBound
      exact .pure h₁ ((hFits.later hLeads₁).settle hBound)
    | some value =>
      have hAdmits : Admits known m (.began ctx.frame name.lexeme) :=
        trivial
      apply Keeps.bind (.tell h hAdmits)
      intro _ m₁ hLeads₁ h₁ hBegan
      have hFits₁ := hFits.later hLeads₁
      have hStands₁ : Stands distances m₁ ctx kinds _ := ⟨hStands.table, hFits₁.await hBegan⟩
      apply Keeps.bind (ih.evaluate h₁ hStands₁ hStmt)
      intro value m₂ hLeads₂ h₂ _
      have hFits₂ := hFits₁.later hLeads₂
      apply Keeps.bind (declare_keeps h₂ hFits₂.lt _ _)
      intro _ m₃ hLeads₃ h₃ hBound
      have hFits₃ := hFits₂.later hLeads₃
      have hAdmits₃ : Admits known m₃ (.completed ctx.frame name.lexeme) := hBound
      apply Keeps.bind (.tell h₃ hAdmits₃)
      intro _ m₄ hLeads₄ h₄ _
      exact .pure h₄ ((hFits₃.settle hBound).later hLeads₄)
  | functionDecl f => exact functionDecl_keeps h hStands hStmt
  | classDecl name parent methods =>
    cases parent with
        try simp only [Stmt.Known] at hStmt
    | none =>
      apply Keeps.bind (makeClass_keeps h hStands name none hStmt)
      intro _ m₁ _ h₁ hFits₁
      exact .pure h₁ hFits₁
    | some parent =>
      rcases hStmt with ⟨⟨id, token, rfl, hOther, hSite⟩, hMethods⟩
      have hVisit : Witnesses known m ⟨.name, id, token⟩ ctx :=
        h.witnesses hTable hSite hStands (List.length_modifyHead ..)
          ((hFits.located _).settle hOther)
      apply Keeps.bind (evaluate_name_keeps fuel h hVisit)
      intro value m₁ hLeads₁ h₁ _
      apply Keeps.bind (.plain h₁ (asSuperclass_within name _ value))
      intro classId m₂ hLeads₂ h₂ _
      have hStands₂ := hStands.later (hLeads₁.trans hLeads₂)
      apply Keeps.bind (makeClass_keeps h₂ hStands₂ name (some classId) hMethods)
      intro _ m₃ _ h₃ hFits₃
      exact .pure h₃ hFits₃
  | block body =>
    apply Keeps.bind (.openFrame h hFits .block block_bound)
    intro frame m₁ hLeads₁ h₁ hInside
    have hStands₁ : Stands distances m₁ { ctx with frame := frame }
          _ _ := ⟨hStands.table, hInside⟩
    apply Keeps.mono (ih.executeAll h₁ hStands₁ hStmt)
    intro _ m₂ hLeads₂ _
    exact hFits.later (hLeads₁.trans hLeads₂)
  | conditional condition thenBranch elseBranch =>
    cases elseBranch with
        try simp only [Stmt.Known] at hStmt
    | none =>
      rcases hStmt with ⟨hCondition, hThen, hPlain⟩
      apply hStands.bind (ih.evaluate h hStands hCondition)
      intro value m₁ h₁ hStands₁ _
      split
      · have hBranch := ih.execute h₁ hStands₁ hThen
        rw [Stmt.after_of_declares hPlain] at hBranch
        exact hBranch
      · exact .pure h₁ hStands₁.fits
    | some elseBranch =>
      rcases hStmt with ⟨hCondition, ⟨hThen, hPlain⟩, hElse, hPlain'⟩
      apply hStands.bind (ih.evaluate h hStands hCondition)
      intro value m₁ h₁ hStands₁ _
      split
      · have hBranch := ih.execute h₁ hStands₁ hThen
        rw [Stmt.after_of_declares hPlain] at hBranch
        exact hBranch
      · have hBranch := ih.execute h₁ hStands₁ hElse
        rw [Stmt.after_of_declares hPlain'] at hBranch
        exact hBranch
  | whileLoop condition body =>
    have hLoop := hStmt
    rcases hStmt with ⟨hCondition, hBody, hPlain⟩
    apply hStands.bind (ih.evaluate h hStands hCondition)
    intro value m₁ h₁ hStands₁ _
    split
    · apply Keeps.bind (ih.execute h₁ hStands₁ hBody)
      intro flow m₂ hLeads₂ h₂ _
      have hStands₂ := hStands₁.later hLeads₂
      cases flow with
      | normal => exact ih.execute h₂ hStands₂ hLoop
      | broke => exact .pure h₂ hStands₂.fits
      | returned value => exact .pure h₂ hStands₂.fits
    · exact .pure h₁ hStands₁.fits
  | breakLoop keyword => exact .pure h hFits
  | returnValue keyword value =>
    cases value with
        try simp only [Stmt.Known] at hStmt
    | none => exact .pure h hFits
    | some value =>
      apply Keeps.bind (ih.evaluate h hStands hStmt)
      intro value m₁ hLeads₁ h₁ _
      exact .pure h₁ (hFits.later hLeads₁)

theorem executeAll_keeps {stmts : List Stmt} (hStmts : stmtsKnown known kinds stmts scopes) :
    Keeps known m (Traced.executeAll (fuel + 1) ctx stmts) anything := by
  cases stmts with
  | nil => exact .pure h trivial
  | cons first others =>
    apply Keeps.bind (ih.execute h hStands hStmts.1)
    intro flow m₁ _ h₁ hFits₁
    cases flow with
    | normal => exact ih.executeAll h₁ ⟨hStands.table, hFits₁⟩ hStmts.2
    | broke => exact .pure h₁ trivial
    | returned value => exact .pure h₁ trivial

end Step

/- Known code keeps moments sound, whatever the fuel. -/
theorem keepsAll (hTable : Tabled known distances) (fuel : Nat) :
    KeepsAll known distances fuel := by
  induction fuel with
  | zero =>
    constructor <;> intros <;> apply Keeps.exhausted <;>
      assumption
  | succ fuel ih =>
    exact {
      evaluate := fun h hStands => evaluate_keeps ih h hStands hTable
      evaluateAll := fun h hStands => evaluateAll_keeps ih h hStands
      evaluatePlace := fun operator h hStands => evaluatePlace_keeps ih h hStands operator
      apply := fun callee paren arguments h hCtx => apply_keeps ih h hCtx callee paren arguments
      invoke := fun paren h hCtx => invoke_keeps ih h hCtx paren
      execute := fun h hStands => execute_keeps ih h hStands hTable
      executeAll := fun h hStands => executeAll_keeps ih h hStands }

/-
  Known statements at top level keep moments sound, whatever
  follows a statement that failed.
-/
theorem interpret_keeps (hTable : Tabled known distances) (fuel : Nat)
    (policy : Policy) {body : List Stmt} (h : Sound known m)
    (hStands : Stands distances m ctx [] [])
    (hBody : stmtsKnown known [] body []) (host : Host) (report : Report) :
    let ending := Traced.interpret fuel policy ctx body m.history ⟨m.heap, host⟩ report
    Witnessed known ending.1 ∧ ∀ world report', ending.2 = .ok (world, report') →
        m.Leads ⟨ending.1, world.heap⟩ ∧ Sound known ⟨ending.1, world.heap⟩ := by
  induction body generalizing m host report with
  | nil =>
    refine ⟨h.visits, ?_⟩
    intro world report' hEnd
    cases hEnd
    exact ⟨.refl m, h⟩
  | cons first others ih =>
    simp only [stmtsKnown, Stmt.after_nil] at hBody
    have hFirst := ((keepsAll hTable fuel).execute h hStands hBody.1).kept host
    unfold Traced.interpret
    generalize Traced.execute fuel ctx first m.history ⟨m.heap, host⟩ = ending at hFirst
    cases hFirst with
    | done hLeads h₁ _ =>
      rcases ih h₁ (hStands.later hLeads) hBody.2 _ report with ⟨hVisits, hEnd⟩
      refine ⟨hVisits, fun world report' hOk => ?_⟩
      rcases hEnd world report' hOk with ⟨hLeads', h₂⟩
      exact ⟨hLeads.trans hLeads', h₂⟩
    | @failed _ fault _ hLeads h₁ =>
      cases policy with
      | halt =>
        refine ⟨h₁.visits, fun world report' hOk => ?_⟩
        cases hOk
        exact ⟨hLeads, h₁⟩
      | proceed =>
        rcases ih h₁ (hStands.later hLeads) hBody.2 _ (report.add fault.diagnostic)
          with ⟨hVisits, hEnd⟩
        refine ⟨hVisits, fun world report' hOk => ?_⟩
        rcases hEnd world report' hOk with ⟨hLeads', h₂⟩
        exact ⟨hLeads.trans hLeads', h₂⟩
    | stopped hVisits => exact ⟨hVisits, fun _ _ hOk => by cases hOk⟩

end Eval

end Scriptlet
