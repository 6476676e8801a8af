import Scriptlet.Proofs.Eval.Following
import Scriptlet.Proofs.Session.Lines
import Scriptlet.Proofs.Session.Stages

/-
  Evaluating an expression and printing it.

  Key declarations include:
    * `Session.printing`
    * `Session.Echoes`

  To print an expression is to evaluate it and then to print
  its value:
    * `Session.evaluation_echoed`
-/

namespace Scriptlet

namespace Token

open Piece (pieces)

/- A word and a blank in front of a text. -/
theorem pieces_print (rest : List Char) :
    pieces ("print ".toList ++ rest) = ⟨.token (.keyword .printWord), "print".toList⟩ ::
        ⟨.blank, [' ']⟩ :: pieces rest := by
  have hWord : Piece.cut 'p' ("rint ".toList ++ rest) =
        ⟨.token (.keyword .printWord), "rint".toList, ' ' :: rest⟩ := rfl
  change pieces ('p' :: ("rint ".toList ++ rest)) = _
  rw [pieces, hWord]
  rw [pieces]
  rfl

/- The first token of a text that prints. -/
def printToken (file : String) : Token where
  kind := .keyword .printWord
  lexeme := "print"
  line := 1
  file := file

theorem scan_print (source file : String) :
    scan ("print " ++ source) file = .ok (printToken file) :: scan source file := by
  unfold scan
  rw [String.toList_append, pieces_print]
  rfl

theorem scan_semicolon (file : String) :
    scan ";" file = [.ok ⟨.symbol .semicolon, ";", 1, file⟩, .ok (endOfFile 1 file)] := by
  have hPieces : pieces ";".toList = [⟨.token (.symbol .semicolon), ";".toList⟩] := by
    change pieces [';'] = _
    rw [pieces]
    change _ :: pieces [] = _
    rw [pieces]
    rfl
  rw [scan, hPieces]
  rfl

theorem body_print (source file : String) :
    body ("print " ++ source) file = printToken file :: body source file := by
  rw [body, scan_print, body, scan, dropLast_cons_items]
  rfl

end Token

namespace Session

open Grammar (Derives parseExpression parseExpression_derives)
open Scope (resolveProgram resolveExpression)

/- The text that prints an expression. -/
def printing (source : String) : String := "print " ++ source ++ "\n;"

/-
  A session with one more printed line, the text of a value.
-/
def echoed (session : Session) (value : Value) : Session :=
  let host := session.world.host
  let line := session.world.heap.display value
  session.withHost
    { host with printed := host.printed.push line }

/-
  How an evaluation and a run that prints end alike.  Both
  have a value, and the run has printed it; or both report
  the same fault; or both are broken off.
-/
inductive Echoes (session : Session) :
    Except Eval.Stop (Option Value × Session) → Except Eval.Stop (Status × Session) → Prop where
  | value {value next} : next.report = session.report →
      Echoes session (.ok (some value, next)) (.ok (.ok, next.echoed value))
  | fault {next} (fault : Eval.Fault) : next.report = session.report.add fault.diagnostic →
      Echoes session (.ok (none, next)) (.ok (.runtimeError, next))
  | stopped (reason : Eval.Stop) : Echoes session (.error reason) (.error reason)

variable {source file : String}

/- What stands in the text besides the expression. -/
theorem scan_printing (h : Token.faults (Token.scan source file) = []) :
    Token.faults (Token.scan (printing source) file) = [] ∧
      ∃ stop : Token, stop.kind = .symbol .semicolon ∧
        Token.body (printing source) file = Token.printToken file ::
            (Token.body source file ++ [stop]) := by
  have hText : printing source = "print " ++ (source ++ "\n" ++ ";") := by
    simp [printing, String.append_assoc]
  have hStop : Token.faults (Token.scan ";" file) = [] := by
    rw [Token.scan_semicolon]
    rfl
  constructor
  · rw [hText, Token.scan_print]
    exact Token.faults_append_newline h hStop
  · let stop : Token := .shift (Token.newlines source.toList + 1) ⟨.symbol .semicolon, ";", 1, file⟩
    refine ⟨stop, rfl, ?_⟩
    rw [hText, Token.body_print, Token.body_append_newline h]
    nth_rewrite 2 [Token.body]
    rw [Token.scan_semicolon]
    rfl

variable {expr : Expr}

/- The tree of the text. -/
theorem derives_printing {n n' : Nat} (hScans : Token.faults (Token.scan source file) = [])
    (h : Derives False .expression n (Token.body source file) expr n') :
    Derives False .declarations n (Token.body (printing source) file)
      [.print (Token.printToken file) expr] n' := by
  rcases (scan_printing hScans).2 with ⟨stop, hStop, hBody⟩
  have hWord : (Token.printToken file).kind = .keyword .printWord := rfl
  have hPrint := (Derives.printStatement hWord h hStop).plain
  have hProgram := hPrint.moreDeclarations .noDeclaration
  rw [List.append_nil] at hProgram
  rw [hBody]
  exact hProgram

/- Its names are those of the expression. -/
theorem resolve_printing (keyword : Token) (expr : Expr) :
    resolveProgram [.print keyword expr] =
      resolveExpression expr := by
  simp only [resolveProgram, resolveExpression, resolveStmts, Stmt.resolve]

theorem derives_of_parsed {session : Session}
    (hTree : (session.parsedExpression source file).value = some expr)
    (hParses : grammatical (session.parsedExpression source file) = []) :
    ∃ n', Derives False .expression session.nextId (Token.body source file) expr n' := by
  have hFaults := List.map_eq_nil_iff.mp hParses
  unfold parsedExpression at hTree hFaults
  rw [Token.tokens_scan] at hTree hFaults
  have hKinds := Token.kind_body source file
  rcases parseExpression_derives rfl hKinds session.nextId hFaults with ⟨other, n', hDerives⟩
  rw [hDerives.parseExpression_eq rfl hKinds] at hTree
  cases hTree
  exact ⟨n', hDerives⟩

/- All stages accept the expression. -/
theorem judgeExpression_of_derives {n n' : Nat}
    (hScans : Token.faults (Token.scan source file) = [])
    (hParses : Derives False .expression n (Token.body source file) expr n')
    (hResolves : (resolveExpression expr).faults = []) :
    judgeExpression false n source file = ⟨[], n',
        some (expr, (resolveExpression expr).found)⟩ := by
  have hParsed : parseExpression (Token.tokens (Token.scan source file)) n =
        ⟨some expr, n', []⟩ := by
    rw [Token.tokens_scan]
    exact hParses.parseExpression_eq rfl (Token.kind_body source file)
  simp only [judgeExpression, lexical, hScans, hParsed,
    grammatical, scoping, hResolves, List.map_nil, List.append_nil]

/- An accepted expression is evaluated. -/
theorem evaluate_of_judge {session : Session} {fuel n : Nat} {found : List (Nat × Nat)}
    (hError : session.report.hadError = false)
    (h : judgeExpression false session.nextId source file = ⟨[], n, some (expr, found)⟩) :
    session.evaluate fuel source file =
      match Eval.evaluate fuel (session.ready found n).context expr
        (session.ready found n).world with
      | .done value w => .ok (some value, { session.ready found n with world := w })
      | .failed fault w =>
        .ok (none, { (session.ready found n).reporting [fault.diagnostic] with world := w })
      | .stopped reason => .error reason := by
  rw [evaluate_eq, hError, h]
  rfl

/- A run that prints does what an evaluation does first. -/
theorem execute_print (fuel : Nat) (ctx : Eval.Context) (keyword : Token)
    (expr : Expr) {w : Eval.World} (hHost : w.host.printFailure = none) :
    Eval.execute (fuel + 1) ctx (.print keyword expr) w =
      match Eval.evaluate fuel ctx expr w with
      | .done value w' =>
        let text := w'.heap.display value
        .done .normal { w' with host := w'.host.print text }
      | .failed fault w' => .failed fault w'
      | .stopped reason => .stopped reason := by
  have hKept := (((Eval.follows_any ctx.distances fuel).evaluate ⟨ctx.frame, ctx.depth⟩ expr
    (expr.every_of fun _ => trivial)).fits w w.heap.holds_any).kept
  change Eval.Action.bind (Eval.evaluate fuel ctx expr) _ w = _
  change (Eval.keeping _ 0).Ends w (Eval.evaluate fuel ctx expr w) at hKept
  unfold Eval.Action.bind
  generalize Eval.evaluate fuel ctx expr w = outcome at hKept
  cases hKept with
  | @done value w' hKeeps =>
    have hSame := hKeeps.printer.trans hHost
    change Eval.Action.bind (Eval.printValue keyword value) _ w' = _
    simp only [Eval.Action.bind, Eval.printValue, hSame]
    rfl
  | failed => rfl
  | stopped => rfl

theorem interpret_print {ready : Session}
    (hHost : ready.world.host.printFailure = none) (fuel : Nat) (keyword : Token) (expr : Expr) :
    ready.interpret (fuel + 1) [.print keyword expr] =
      match Eval.evaluate fuel ready.context expr ready.world with
      | .done value w => .ok (({ ready with world := w } : Session).echoed value)
      | .failed fault w =>
        .ok
          { ready.reporting [fault.diagnostic] with
            world := w }
      | .stopped reason => .error reason := by
  simp only [Session.interpret, Eval.interpret, execute_print fuel ready.context keyword expr hHost]
  rcases ready with ⟨world, distances, report, nextId, policy⟩
  cases Eval.evaluate fuel _ expr world with
  | done value w => rfl
  | failed fault w => cases policy <;> rfl
  | stopped reason => rfl

/-
  Evaluating an expression agrees with printing it, from any
  session without faults whose host can print.  The run takes
  one more unit of fuel, for the statement.
-/
theorem evaluation_echoed
    {session : Session}
    {expr : Expr}
    (hError : session.report.hadError = false)
    (hRuntimeError : session.report.hadRuntimeError = false)
    (hHost : session.world.host.printFailure = none)
    (hScans : lexical source file = [])
    (hTree :
      (session.parsedExpression source file).value = some expr)
    (hParses :
      grammatical (session.parsedExpression source file) = [])
    (hResolves : scoping (resolveExpression expr) = [])
    (fuel : Nat) :
    Echoes session (session.evaluate fuel source file)
      (session.run (fuel + 1) (printing source) file) := by
  have hScans := List.map_eq_nil_iff.mp hScans
  have hResolves := List.map_eq_nil_iff.mp hResolves
  rcases derives_of_parsed hTree hParses with ⟨n', hDerives⟩
  have hJudge :=
    judgeExpression_of_derives hScans hDerives hResolves
  have hPrinting :=
    judge_of_derives (scan_printing hScans).1
      (derives_printing hScans hDerives)
      (by rw [resolve_printing]; exact hResolves)
  rw [resolve_printing] at hPrinting
  have hReady : (session.ready (resolveExpression expr).found
      n').world.host.printFailure = none := hHost
  rw [evaluate_of_judge hError hJudge,
    run_of_judge hError hPrinting, interpret_print hReady]
  generalize hNext :
    session.ready (resolveExpression expr).found n' = ready
  have hReport : ready.report = session.report := by
    rw [← hNext]
    rfl
  cases Eval.evaluate fuel ready.context expr ready.world with
  | done value w =>
      have hStatus :
          (({ ready with world := w } : Session).echoed
            value).runStatus = .ok := by
        simp [runStatus, echoed, withHost, hReport,
          hRuntimeError]
      dsimp only
      rw [hStatus]
      exact .value hReport
  | failed fault w =>
      have hStatus :
          ({ ready.reporting [fault.diagnostic] with
              world := w } : Session).runStatus =
            .runtimeError := by
        simp [runStatus, reporting, Report.addAll, Report.add,
          Eval.Fault.diagnostic, Diagnostic.isRuntime]
      dsimp only
      rw [hStatus]
      exact .fault fault (congrArg (Report.add · _) hReport)
  | stopped reason => exact .stopped reason

/- An expression of two lines that ends in a comment. -/
theorem evaluation_echoed_before_comment :
    let session := Session.start {} .halt
    let source := "[1,\n 2] // \"two\""
    ∃ expr,
      (session.parsedExpression source "lines").value =
          some expr ∧
        Echoes session (session.evaluate 9 source "lines")
          (session.run 10 (printing source) "lines") := by
  intro session source
  have hScans : lexical source "lines" = [] := by
    decide +kernel
  have hParses :
      grammatical (session.parsedExpression source "lines") =
        [] := by
    decide +kernel
  cases hTree :
      (session.parsedExpression source "lines").value with
  | none =>
      exact absurd hParses
        (session.parsedExpression_none source "lines" hTree)
  | some expr =>
      have hResolves :
          ((session.parsedExpression source "lines").value.map
            fun expr => scoping (resolveExpression expr)) =
              some [] := by
        decide +kernel
      rw [hTree] at hResolves
      exact ⟨expr, rfl,
        evaluation_echoed rfl rfl rfl hScans hTree hParses
          (Option.some.inj hResolves) 9⟩

end Session

end Scriptlet
