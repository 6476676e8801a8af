import Scriptlet.Proofs.Session.Verdict

/-
  Names in the programs that are read from source texts.

  Key declarations include:
    * `Scope.resolve_rejects_misuse`
    * `Scope.distances_are_exact`
-/

namespace Scriptlet

namespace Scope

open Grammar (parseProgram)

section

variable (source file : String) (n : Nat)

theorem parsed_judged :
    let body := (parseProgram (Token.tokens (Token.scan source file)) n).value
    Judges (fun _ => True) True (InProgram body) (programSites body) [] (resolveProgram body).faults
      (stmtsKnown (Site.OwnedIn fun _ => True) [] body []) (stmtsContained false false body) := by
  have hDerives := Session.parseProgram_scan source file n
  exact resolveStmts_judged rfl _ (hDerives.sensible (Token.written_body source file))

/-
  Names are resolved without a fault just if nothing in the
  program is misused, and every fault is a misuse.
-/
theorem resolve_rejects_misuse :
    let body := (parseProgram (Token.tokens (Token.scan source file)) n).value
    let faults := (resolveProgram body).faults
    (faults = [] ↔ ∀ p, InProgram body p → ∀ fault, ¬ Misused p fault) ∧
      ∀ fault ∈ faults, ∃ p, InProgram body p ∧ Misused p fault := by
  intro body faults
  have hJudged := parsed_judged source file n
  rcases hJudged.sound with ⟨new, hNew, hSound⟩
  have hFaults : faults = new := hNew
  rw [hFaults]
  refine ⟨⟨fun hNone => hJudged.complete trivial (hNew.trans hNone), fun hFine => ?_⟩, hSound⟩
  rw [List.eq_nil_iff_forall_not_mem]
  intro fault hMem
  rcases hSound fault hMem with ⟨p, hIn, hMisused⟩
  exact hFine p hIn fault hMisused

end

theorem findIdx?_eq_some_iff {scopes : List (List String)} {name : String} {distance : Nat} :
    scopes.findIdx? (name ∈ ·) = some distance ↔ IsInnermost scopes name distance := by
  induction scopes generalizing distance with
  | nil => simp [IsInnermost]
  | cons names outer ih =>
    rw [List.findIdx?_cons]
    cases distance with
    | zero => by_cases hName : name ∈ names <;> simp [IsInnermost, hName]
    | succ distance =>
      by_cases hName : name ∈ names
      · simp [IsInnermost, hName]
      · simpa [IsInnermost, hName] using ih

section

variable {source file : String} {n : Nat}

/-
  In a program without faults the distance of a reference is
  that of the innermost scope around it that has its name.
-/
theorem distances_are_exact
    (h : (resolveProgram (parseProgram (Token.tokens (Token.scan source file)) n).value).faults =
      []) :
    let body := (parseProgram (Token.tokens (Token.scan source file)) n).value
    let table := Distances.extend {} (resolveProgram body).found
    (∀ p reference, InProgram body p → p.node.reference? = some reference →
      let scopes := scopesAround p.around
      let name := reference.token.lexeme
      (∀ distance, table[reference.id]? = some distance ↔ IsInnermost scopes name distance) ∧
        (table[reference.id]? = none ↔ ∀ names ∈ scopes, name ∉ names)) ∧
      ∀ id ∈ table, ∃ p reference, InProgram body p ∧
        p.node.reference? = some reference ∧ reference.id = id := by
  intro body table
  have hJudged := parsed_judged source file n
  have hDistinct : ((programSites body).map (·.reference.id)).Nodup := by
    have hNumbered := (Session.parseProgram_scan source file n).numbered.distinct
    rw [← programSites_references, List.map_map] at hNumbered
    exact hNumbered
  have hTable : table = Distances.extend {} ((programSites body).filterMap Site.record?) := by
    rw [← resolveProgram_found h]
  have hNone : ∀ site ∈ programSites body, ({} : Distances)[site.reference.id]? = none :=
    fun _ _ => Std.TreeMap.getElem?_emptyc
  rw [hTable]
  constructor
  · intro p reference hIn hReference scopes name
    have hUse : p.use? = some (reference, scopes.findIdx? (name ∈ ·)) := by
      rw [Position.use?, hReference]
      rfl
    rcases (hJudged.uses _).mp ⟨p, hIn, hUse⟩ with ⟨site, hSite, hSame⟩
    have hFound := Distances.extend_sites hDistinct hNone hSite
    rw [(Prod.mk.inj hSame).1, (Prod.mk.inj hSame).2] at hFound
    rw [hFound]
    refine ⟨fun distance => findIdx?_eq_some_iff, ?_⟩
    rw [List.findIdx?_eq_none_iff]
    simp
  · intro id hId
    by_contra hOther
    rw [Std.TreeMap.mem_iff_isSome_getElem?, Distances.extend_other,
      Std.TreeMap.getElem?_emptyc] at hId
    · cases hId
    · intro hMem
      rcases List.mem_map.mp hMem with ⟨site, hSite, hSame⟩
      rcases (hJudged.uses site.use).mpr ⟨site, hSite, rfl⟩ with ⟨p, hIn, hUse⟩
      rcases Option.map_eq_some_iff.mp hUse with ⟨reference, hReference, hBoth⟩
      refine hOther ⟨p, reference, hIn, hReference, ?_⟩
      rw [(Prod.mk.inj hBoth).1]
      exact hSame

end

/- A function in a block reads a variable of the block. -/
theorem distances_are_exact_in_block :
    let source := "{ let x; fn f(a) { return x; } }"
    let body := (parseProgram (Token.tokens (Token.scan source "")) 0).value
    (resolveProgram body).faults = [] ∧ ∃ p reference, InProgram body p ∧
      p.node.reference? = some reference ∧
        IsInnermost (scopesAround p.around) reference.token.lexeme 1 := by
  intro source body
  have hFaults : (resolveProgram body).faults = [] := by decide +kernel
  have hFound : (Distances.extend {} (resolveProgram body).found)[0]? = some 1 := by decide +kernel
  rcases distances_are_exact hFaults with ⟨hExact, hOnly⟩
  rcases hOnly 0 (Std.TreeMap.mem_iff_isSome_getElem?.mpr (hFound ▸ rfl)) with
    ⟨p, reference, hIn, hReference, hId⟩
  refine ⟨hFaults, p, reference, hIn, hReference, ?_⟩
  rw [← hId] at hFound
  exact ((hExact p reference hIn hReference).1 1).mp hFound

end Scope

end Scriptlet
