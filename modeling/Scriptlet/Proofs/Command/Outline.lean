import Mathlib
import Scriptlet.Command.Repl
import Scriptlet.Proofs.Session.Verdict

/-
  What the outline command says about faulty scripts.

  Key declarations include:
    * `Grammar.Derives.whole_of_noFunction`
    * `Command.findings`
    * `Command.Faithful`
    * `Command.Mended`

  An expression may be read although the body of a function
  in it has faults.  The command looks at the tree only, so
  it hides these faults, and no others:
    * `Command.outline_faithful_iff`
-/

namespace Scriptlet

namespace Grammar

/- Phrases that have statements in functions only. -/
def Phrase.isExpression : Phrase → Bool
  | .expression => true
  | .target => true
  | .binary _ => true
  | .operands _ _ => true
  | .unary => true
  | .operand => true
  | .call => true
  | .trailers => true
  | .primary => true
  | .arguments => true
  | .list => true
  | _ => false

variable {n : Nat}

/- Tokens are left out in the bodies of functions only. -/
theorem Derives.whole_of_noFunction {gaps : Prop} {phrase : Phrase} {n' : Nat}
    {ts : List Token} {tree : phrase.Tree} (h : Derives gaps phrase n ts tree n')
    (hPhrase : phrase.isExpression = true) (hWord : ∀ token ∈ ts, token.kind ≠ .keyword .fnWord) :
    Derives False phrase n ts tree n' := by
  induction h with
  | functionLiteral hFn => exact absurd hFn (hWord _ (List.mem_cons_self ..))
  | assign | setProperty | setElement | compound | unassigned
  | nameTarget | propertyTarget | elementTarget | tightest
  | chained | noOperand | moreOperands | sign | stepBefore
  | unsigned | stepAfter | unstepped | call | noTrailer
  | callTrailer | propertyTrailer | elementTrailer | literal
  | self | superMethod | name | group | array | noArgument
  | someArguments | lastItem | moreItems =>
    -- the parts are expressions without functions as well
    simp_all only [Phrase.isExpression, List.forall_mem_cons,
      List.forall_mem_append, not_false_eq_true, ne_eq, forall_const]
    constructor <;> assumption
  | _ => cases hPhrase

variable {ts : List Token} {last : Token}

/- An expression without a fault has a tree. -/
theorem parseExpression_isSome (hLast : last.kind = .endOfFile)
    (hTs : ∀ token ∈ ts, token.kind ≠ .endOfFile)
    (h : (parseExpression (ts ++ [last]) n).faults = []) :
    ∃ expr, (parseExpression (ts ++ [last]) n).value = some expr := by
  obtain ⟨expr, n', hDerives⟩ := parseExpression_derives hLast hTs n h
  rw [hDerives.parseExpression_eq hLast hTs]
  exact ⟨expr, rfl⟩

/- A tree with faults has a function in it. -/
theorem parseExpression_function (hLast : last.kind = .endOfFile)
    (hTs : ∀ token ∈ ts, token.kind ≠ .endOfFile) {expr : Expr}
    (hValue : (parseExpression (ts ++ [last]) n).value = some expr)
    (hFaults : (parseExpression (ts ++ [last]) n).faults ≠ []) :
    ∃ token ∈ ts, token.kind = .keyword .fnWord := by
  by_contra hNone
  push Not at hNone
  obtain ⟨gaps, hDerives⟩ := parseExpression_some hLast hTs hValue
  have hWhole := hDerives.whole_of_noFunction rfl hNone
  apply hFaults
  rw [hWhole.parseExpression_eq hLast hTs]

end Grammar

namespace Command

open Session (lexical grammatical)

/- A script read as one expression. -/
def parsed (script : Script) : Grammar.Parsed (Option Expr) :=
  Grammar.parseExpression (Token.tokens (Token.scan script.source script.fileName)) 0

/-
  All that is reported of a script: the faults of its text,
  and if there are none, those in the order of its tokens.
-/
def findings (script : Script) : List Diagnostic :=
  match lexical script.source script.fileName with
  | [] => grammatical (parsed script)
  | faults => faults

/-
  The output shows the outline of the script if nothing is
  reported, and otherwise all that is reported.
-/
structure Faithful (script : Script) (output : Output) : Prop where
  sound : findings script = [] → ∃ expr, (parsed script).value = some expr ∧
          output = { stdout := onLines [expr.outline] }
  faulty : findings script ≠ [] → output =
        { code := 65
          stderr := faultLines (findings script) }

/- A tree was read although faults were recorded. -/
structure Mended (script : Script) : Prop where
  scanned : lexical script.source script.fileName = []
  tree : (parsed script).value.isSome = true
  faults : (parsed script).faults ≠ []

section

variable {script : Script}

theorem findings_of_scanned (h : lexical script.source script.fileName = []) :
    findings script = grammatical (parsed script) := by
  rw [findings, h]

theorem findings_of_faulty (h : lexical script.source script.fileName ≠ []) :
    findings script = lexical script.source script.fileName := by
  unfold findings
  split
  · contradiction
  · rfl

theorem grammatical_eq_nil : grammatical (parsed script) = [] ↔ (parsed script).faults = [] :=
  List.map_eq_nil_iff

theorem lexical_eq_nil :
    lexical script.source script.fileName = [] ↔ Token.faults
        (Token.scan script.source script.fileName) = [] := List.map_eq_nil_iff

/- What is shown of a text with faults. -/
theorem outlineOutput_faulty (h : lexical script.source script.fileName ≠ []) :
    outlineOutput script =
      { code := faultyCode
        stderr := faultLines (findings script) } := by
  have hFaults : (Token.faults (Token.scan script.source script.fileName)).isEmpty = false := by
    rw [List.isEmpty_eq_false_iff]
    exact fun hNil => h (lexical_eq_nil.mpr hNil)
  rw [findings_of_faulty h]
  simp only [outlineOutput, hFaults]
  rfl

/- What is shown of a text without faults: the tree decides. -/
theorem outlineOutput_scanned (h : lexical script.source script.fileName = []) :
    outlineOutput script =
      match (parsed script).value with
      | some expr => { stdout := onLines [expr.outline] }
      | none =>
        { code := faultyCode
          stderr := faultLines (findings script) } := by
  have hFaults : (Token.faults (Token.scan script.source script.fileName)).isEmpty = true := by
    rw [List.isEmpty_iff]
    exact lexical_eq_nil.mp h
  rw [findings_of_scanned h]
  simp only [outlineOutput, hFaults, if_true]
  rfl

theorem parsed_isSome (h : (parsed script).faults = []) :
    ∃ expr, (parsed script).value = some expr := by
  unfold parsed at h ⊢
  rw [Token.tokens_scan] at h ⊢
  exact Grammar.parseExpression_isSome rfl (Token.kind_body _ _) h

/- Only in the body of a function faults are mended. -/
theorem Mended.function (h : Mended script) :
    ∃ token ∈ Token.body script.source script.fileName, token.kind = .keyword .fnWord := by
  obtain ⟨expr, hValue⟩ := Option.isSome_iff_exists.mp h.tree
  have hFaults := h.faults
  unfold parsed at hValue hFaults
  rw [Token.tokens_scan] at hValue hFaults
  exact Grammar.parseExpression_function rfl (Token.kind_body _ _) hValue hFaults

/- A mended script is shown as if it had no faults. -/
theorem Mended.hidden (h : Mended script) :
    findings script ≠ [] ∧ ∃ expr, (parsed script).value = some expr ∧
          outlineOutput script = { stdout := onLines [expr.outline] } := by
  obtain ⟨expr, hValue⟩ := Option.isSome_iff_exists.mp h.tree
  refine ⟨?_, expr, hValue, ?_⟩
  · rw [findings_of_scanned h.scanned, ne_eq, grammatical_eq_nil]
    exact h.faults
  · rw [outlineOutput_scanned h.scanned, hValue]

/- All other scripts are shown as they are. -/
theorem faithful_of_not_mended (h : ¬ Mended script) :
    Faithful script (outlineOutput script) := by
  by_cases hScanned : lexical script.source script.fileName = []
  · rw [outlineOutput_scanned hScanned]
    cases hValue : (parsed script).value with
    | none =>
      refine ⟨?_, fun _ => rfl⟩
      intro hNone
      rw [findings_of_scanned hScanned, grammatical_eq_nil] at hNone
      obtain ⟨expr, hExpr⟩ := parsed_isSome hNone
      rw [hValue] at hExpr
      cases hExpr
    | some expr =>
      refine ⟨fun _ => ⟨expr, hValue, rfl⟩, ?_⟩
      intro hFindings
      refine absurd ⟨hScanned, ?_, ?_⟩ h
      · rw [hValue]
        rfl
      · rwa [findings_of_scanned hScanned, ne_eq, grammatical_eq_nil] at hFindings
  · rw [outlineOutput_faulty hScanned]
    refine ⟨?_, fun _ => rfl⟩
    rw [findings_of_faulty hScanned]
    exact fun hNone => absurd hNone hScanned

end

/-
  The outline command on a file that can be read always has
  an output.  It shows the outline just if nothing is
  reported, and else all that is reported, unless faults were
  mended in the body of a function.  Then it shows the
  outline and hides all that is reported.
-/
theorem outline_faithful_iff
    (fuel : Nat)
    (folder : Folder)
    (stdin : List UInt8)
    (seconds : Float)
    (path : String)
    (script : Script)
    (hRead :
      Script.read path (folder.contents? path) = .ok script) :
    ∃ output,
      execute fuel folder stdin seconds (.parse path) =
        .ok output ∧
      (Faithful script output ↔ ¬ Mended script) ∧
      (Mended script →
        findings script ≠ [] ∧
        output.code = 0 ∧ output.stderr = "" ∧
        ∃ token ∈ Token.body script.source script.fileName,
          token.kind = .keyword .fnWord) := by
  refine ⟨outlineOutput script, ?_, ⟨?_, ?_⟩, ?_⟩
  · simp only [execute, hRead]
  · intro hFaithful hMended
    obtain ⟨hFindings, expr, _, hOutput⟩ := hMended.hidden
    have hCode := congrArg Output.code
      (hOutput.symm.trans (hFaithful.faulty hFindings))
    cases hCode
  · exact faithful_of_not_mended
  · intro hMended
    obtain ⟨hFindings, expr, _, hOutput⟩ := hMended.hidden
    rw [hOutput]
    exact ⟨hFindings, rfl, rfl, hMended.function⟩

/- A function in whose body a name is missing. -/
def namelessLet : Script where
  source := "fn () { let = 1; }"
  fileName := "a"

def namelessLetFolder : Folder := .ofFiles [("a", namelessLet.source.toUTF8.toList)]

theorem namelessLet_read :
    Script.read "a" (namelessLetFolder.contents? "a") = .ok namelessLet := by
  cbv

theorem namelessLet_mended : Mended namelessLet := by
  refine ⟨?_, ?_, ?_⟩ <;> decide +kernel

/- The missing name is reported, but not shown. -/
theorem namelessLet_hidden :
    Mended namelessLet ∧
      ∃ output,
        execute 0 namelessLetFolder [] 0 (.parse "a") =
          .ok output ∧
        findings namelessLet ≠ [] ∧
        output.code = 0 ∧ output.stderr = "" := by
  obtain ⟨output, hOutput, _, hHidden⟩ :=
    outline_faithful_iff 0 namelessLetFolder [] 0 "a"
      namelessLet namelessLet_read
  have h := hHidden namelessLet_mended
  exact ⟨namelessLet_mended, output, hOutput, h.1, h.2.1,
    h.2.2.1⟩

/-
  The command shows an outline where it should show that a
  name is missing.
-/
theorem namelessLet_not_faithful :
    Script.read "a"
        (namelessLetFolder.contents? "a") =
      .ok namelessLet ∧
    findings namelessLet =
      [.static .grammar 1 "at '=' a"
        "Expect variable name."] ∧
    execute 0 namelessLetFolder [] 0 (.parse "a") =
      .ok { stdout := "(fn () (block))\n" } ∧
    ¬ Faithful namelessLet
      { stdout := "(fn () (block))\n" } := by
  have hFindings :
      findings namelessLet =
        [.static .grammar 1 "at '=' a"
          "Expect variable name."] := by
    decide +kernel
  refine ⟨namelessLet_read, hFindings, ?_, ?_⟩
  · simp only [execute, namelessLet_read]
    exact congrArg Except.ok (by decide +kernel)
  · intro hFaithful
    have hCode := congrArg Output.code
      (hFaithful.faulty (by rw [hFindings]; nofun))
    cases hCode

end Command

end Scriptlet
