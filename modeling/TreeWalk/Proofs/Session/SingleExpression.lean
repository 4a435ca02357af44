import TreeWalk.Shell.Command
import TreeWalk.Proofs.Grammar.Printed
import TreeWalk.Proofs.Machine.LoneExpression
import TreeWalk.Proofs.Session.Joining
import TreeWalk.Proofs.Token.Rendering

/-!
Two ways to the value of an expression: a text that is one expression may be evaluated, or printed
by a unit of its own. Either both texts are read without a report or none is, and both ways end, in
the same text or in the same failure.
-/

namespace TreeWalk

/-! ## The text of the unit -/

namespace Scan

variable {cs ds : List Char}

/-- A line without quotes behind a text hides no fault of the text. -/
theorem faultless_of_join (hds : '"' ∉ ds) (h : Faultless (cs ++ '\n' :: ds)) : Faultless cs := by
  unfold Faultless
  fun_induction cuts cs with
  | case1 => simp
  | case2 c cs ih =>
    by_cases hopen : (cut c cs).piece = .fault .unterminated
    · obtain ⟨later, hleft, hlater⟩ := cut_unterminated.1 hopen
      obtain ⟨rfl, rfl⟩ := List.cons.inj hleft
      have hstill : (cut '"' (cs ++ '\n' :: ds)).piece = .fault .unterminated :=
        cut_unterminated.2 ⟨_, rfl, by simp [hlater, hds]⟩
      rw [Faultless, List.cons_append, cuts_cons] at h
      exact absurd hstill (h _ List.mem_cons_self _)
    · rw [Faultless, List.cons_append, cuts_cons, cut_join ds hopen] at h
      obtain ⟨hfirst, hmore⟩ := List.forall_mem_cons.1 h
      exact List.forall_mem_cons.2 ⟨hfirst, ih hmore⟩

/-- The text that prints the value of an expression, with the semicolon on a line of its own. -/
def printed (source : String) : String := "print " ++ source ++ "\n;"

theorem toList_printed (source : String) :
    (printed source).toList = "print".toList ++ ' ' :: (source.toList ++ '\n' :: [';']) := by
  simp [printed]

def printWord (line : Nat) : Token := ⟨.symbol (.keyword .printWord), "print", line⟩

theorem listed_printWord (line : Nat) (cs : List Char) :
    listed line (cuts ("print".toList ++ ' ' :: cs)) =
      .token (printWord line) :: listed line (cuts cs) := by
  have hblank : Apart (' ' :: cs) := by
    rintro _ ⟨⟩
    rfl
  have hword := listed_lexeme (Rule.keyword .printWord) hblank line
  rw [listed_blank (by decide)] at hword
  exact hword

theorem faultless_printWord : Faultless ("print".toList ++ ' ' :: cs) ↔ Faultless cs := by
  have hreports : ∀ ds, Faultless ds ↔ (listed 1 (cuts ds)).filterMap Item.report? = [] :=
    fun ds => reports_listed.symm
  rw [hreports, hreports, listed_printWord]
  rfl

theorem listed_semicolon (line : Nat) :
    listed line (cuts [';']) = [.token ⟨.symbol .semicolon, ";", line⟩] := by
  rw [cuts_cons, show (cut ';' []).rest = [] from rfl, cuts_nil]
  rfl

theorem faultless_printed {source : String} :
    Faultless (printed source).toList ↔ Faultless source.toList := by
  have hend : Faultless [';'] := reports_listed.1 (by rw [listed_semicolon 1]; rfl)
  rw [toList_printed, faultless_printWord]
  exact ⟨faultless_of_join (by decide), fun h => faultless_join h hend⟩

theorem written_semicolon (line : Nat) :
    written line [';'] = [⟨.symbol .semicolon, ";", line⟩] := by
  rw [written, listed_semicolon]
  rfl

theorem written_printed {source : String} (h : Faultless source.toList) :
    written 1 (printed source).toList =
      printWord 1 :: (written 1 source.toList ++
        [⟨.symbol .semicolon, ";", lineAfter 1 source.toList + 1⟩]) := by
  rw [toList_printed, written, listed_printWord, ← written_semicolon, ← written_join h]
  rfl

end Scan

open Run Scan

namespace Session

theorem ofSource_eq_iff {α : Type} {parse : List Token → Grammar.Parsed α} {source : String}
    {tree : α} : Reading.ofSource parse source = ⟨tree, []⟩ ↔
      Faultless source.toList ∧ parse (tokens source) = ⟨tree, []⟩ := by
  rw [← reports_eq_nil]
  rcases hparsed : parse (tokens source) with ⟨made, faults⟩
  simp only [Reading.ofSource, Reading.ofTokens, hparsed, Grammar.Parsed.reports,
    Reading.mk.injEq, Grammar.Parsed.mk.injEq, List.append_eq_nil_iff, List.map_eq_nil_iff]
  exact ⟨fun h => ⟨h.2.1, h.1, h.2.2⟩, fun h => ⟨h.2.1, h.1, h.2.2⟩⟩

/-- A unit of one statement prints the text's single expression, token by token the same. -/
theorem reading_printed_iff {source : String} {statement : Stmt} :
    Reading.program (printed source) = ⟨[statement], []⟩ ↔
      ∃ e, statement = .print e ∧ Reading.expression source = ⟨some e, []⟩ := by
  simp only [Reading.program, Reading.expression, ofSource_eq_iff, faultless_printed]
  by_cases hfaultless : Faultless source.toList
  · rw [tokens_eq, tokens_eq, written_printed hfaultless]
    simp only [hfaultless, true_and]
    exact Grammar.program_printed_iff (inner_written 1 source.toList)
      (.single (printWord 1) rfl)
      (.single ⟨.symbol .semicolon, ";", lineAfter 1 source.toList + 1⟩ rfl)
      (.single (.endOfInput (lineAfter 1 (printed source).toList)) rfl)
      (.single (.endOfInput (lineAfter 1 source.toList)) rfl)
  · simp [hfaultless]

/-! ## The run of the unit -/

/-- The state after a line of output that fits. -/
def afterLine (s : State) (text : String) : State :=
  { s with sink := s.sink.write (text ++ "\n").toUTF8 }

theorem finish_printLine {s : State} {text : String}
    (h : s.sink.fits (text ++ "\n").toUTF8 = true) :
    (printLine text).finish s = some ⟨.ok (), afterLine s text⟩ := by
  obtain ⟨heap, active, sink⟩ := s
  simp only [Run.finish, printLine, h]
  rfl

section

variable {e : Expr} {s : State} (hs : s.Unbound)
include hs

theorem executes_print {value : Value} (h : e.alone = .ok value)
    (hfits : s.sink.fits (value.text ++ "\n").toUTF8 = true) :
    Executes s [.print e] ⟨.ok .normal, afterLine s value.text⟩ := by
  refine .next ?_ .done
  rw [ends_succ rfl]
  refine (ends_bind (growing_evaluate e) ?_).2 (.inl ⟨value, s, h ▸ ends_alone hs e, 0, ?_⟩)
  · exact fun value => growing_const _
  · exact finish_bind.2 (.inl ⟨(), _, finish_printLine hfits, rfl⟩)

theorem executes_print_error {failure : Failure} (h : e.alone = .error failure) :
    Executes s [.print e] ⟨.error failure, s⟩ := by
  refine .stop ?_ (by simp)
  rw [ends_succ rfl]
  refine (ends_bind (growing_evaluate e) ?_).2 (.inr ⟨failure, s, h ▸ ends_alone hs e, rfl⟩)
  exact fun value => growing_const _

end

theorem ends_interpret_printed (e : Expr) :
    (∃ value, e.alone = .ok value ∧
      Ends (interpret · [.print e]) (.initial .unlimited)
        ⟨.ok (), afterLine (.initial .unlimited) value.text⟩) ∨
    ∃ fault line, e.alone = .error (.runtime fault line) ∧
      Ends (interpret · [.print e]) (.initial .unlimited)
        ⟨.error (.runtime fault line), .initial .unlimited⟩ := by
  have hs := State.unbound_initial .unlimited
  cases h : e.alone with
  | ok value =>
    have hfits : (State.initial .unlimited).sink.fits (value.text ++ "\n").toUTF8 = true := rfl
    have hflushed : flushed (afterLine (.initial .unlimited) value.text) =
        ⟨.ok (), afterLine (.initial .unlimited) value.text⟩ := if_neg Bool.false_ne_true
    exact .inl ⟨value, rfl,
      ends_interpret.2 (.inl ⟨_, _, executes_print hs h hfits, hflushed.symm⟩)⟩
  | error failure =>
    obtain ⟨fault, line, rfl⟩ := e.alone_isRuntime failure h
    exact .inr ⟨fault, line, rfl, ends_interpret.2 (.inr ⟨_, _, executes_print_error hs h, rfl⟩)⟩

/-- What the evaluation of a text comes to, if its expression comes to this. -/
theorem evaluate_accepted {source : String} {e : Expr}
    (h : Reading.expression source = ⟨some e, []⟩) {fuel : Nat} {result : Except Failure Value}
    {t : State}
    (hends : (TreeWalk.evaluate fuel e).finish (.initial .unlimited) = some ⟨result, t⟩) :
    Session.evaluate fuel source = some (result.mapError fun failure => [failure.report]) := by
  have haccepted : Diagnostics.hadSyntaxError [] = false := rfl
  unfold Session.evaluate
  rw [h]
  simp only [haccepted, hends]
  cases result <;> rfl

/-- With the fuel, the evaluation of the text and the run of the unit that prints its value both
end, and come to the same. -/
inductive SameAnswer (fuel : Nat) (source : String) : Prop
  | value (value : Value) (t : State) : Session.evaluate fuel source = some (.ok value) →
    run fuel (.initial .unlimited) (printed source) = some ([], t) →
    t.sink.written = (value.text ++ "\n").toUTF8 → SameAnswer fuel source
  | failure (fault : RuntimeFault) (line : Nat) (t : State) :
    Session.evaluate fuel source = some (.error [.runtime fault.message line]) →
    run fuel (.initial .unlimited) (printed source) = some ([.runtime fault.message line], t) →
    t.sink.written = .empty → SameAnswer fuel source

theorem sameAnswer_from {source : String} {e : Expr}
    (h : Reading.expression source = ⟨some e, []⟩) :
    ∃ few, ∀ fuel, few ≤ fuel → SameAnswer fuel source := by
  have hreading := reading_printed_iff.2 ⟨e, rfl, h⟩
  have haccepted : (Reading.program (printed source)).diagnostics = [] := by rw [hreading]
  have htree : (Reading.program (printed source)).tree = [.print e] := by rw [hreading]
  obtain ⟨few, hevaluated⟩ := (growing_evaluate e).ends_from
    (ends_alone (State.unbound_initial .unlimited) e)
  rcases ends_interpret_printed e with ⟨value, hvalue, hends⟩ | ⟨fault, line, hfault, hends⟩
  · obtain ⟨many, hinterpreted⟩ := (growing_interpret [.print e]).ends_from hends
    refine ⟨max few many, fun fuel hfuel =>
      .value value (afterLine (.initial .unlimited) value.text) ?_ ?_ ?_⟩
    · rw [evaluate_accepted h (hevaluated fuel (by omega)), hvalue]
      rfl
    · rw [run_accepted haccepted, htree, hinterpreted fuel (by omega)]
      rfl
    · exact ByteArray.empty_append
  · obtain ⟨many, hinterpreted⟩ := (growing_interpret [.print e]).ends_from hends
    refine ⟨max few many, fun fuel hfuel =>
      .failure fault line (.initial .unlimited) ?_ ?_ rfl⟩
    · rw [evaluate_accepted h (hevaluated fuel (by omega)), hfault]
      rfl
    · rw [run_accepted haccepted, htree, hinterpreted fuel (by omega)]
      rfl

open Shell in
/-- The commands write the same, and exit alike. -/
theorem SameAnswer.transcripts {fuel : Nat} {source : String} (h : SameAnswer fuel source) :
    ∃ transcript, evaluateFile fuel source = some transcript ∧
      runFile fuel (printed source) = some transcript := by
  unfold evaluateFile runFile
  cases h with
  | value value t hevaluated hrun hwritten =>
    have hlines : linesText [value.text] = t.sink.written := by
      simp [linesText, String.join, hwritten]
    rw [hevaluated, hrun]
    exact ⟨⟨0, linesText [value.text], ""⟩, rfl, by rw [hlines]; rfl⟩
  | failure fault line t hevaluated hrun hwritten =>
    rw [hevaluated, hrun]
    exact ⟨⟨70, .empty, reportText [.runtime fault.message line]⟩, rfl, by rw [← hwritten]; rfl⟩

open Shell in
/-- A text is a single expression if and only if the unit that prints it is a single statement, which
prints the same expression. Then both end, with the same text or the same failure. -/
theorem single_expression_printed :
    (∀ (source : String) (e : Expr), Reading.expression source = ⟨some e, []⟩ ↔
      Reading.program (printed source) = ⟨[.print e], []⟩) ∧
    (∀ (source : String) (statement : Stmt),
      Reading.program (printed source) = ⟨[statement], []⟩ → ∃ e, statement = .print e) ∧
    ∀ (source : String) (e : Expr), Reading.expression source = ⟨some e, []⟩ →
      ∃ few, ∀ fuel, few ≤ fuel → SameAnswer fuel source ∧
        ∃ transcript, evaluateFile fuel source = some transcript ∧
          runFile fuel (printed source) = some transcript := by
  refine ⟨?_, ?_, ?_⟩
  · intro source e
    rw [reading_printed_iff]
    constructor
    · exact fun h => ⟨e, rfl, h⟩
    · rintro ⟨_, ⟨⟩, h⟩
      exact h
  · intro source statement h
    obtain ⟨e, hprint, _⟩ := reading_printed_iff.1 h
    exact ⟨e, hprint⟩
  · intro source e h
    obtain ⟨few, hsame⟩ := sameAnswer_from h
    exact ⟨few, fun fuel hfuel => ⟨hsame fuel hfuel, (hsame fuel hfuel).transcripts⟩⟩

/-- An expression with a comment behind it that holds a quote. -/
def commented : String := "!nil//\""

theorem reading_commented : Reading.expression commented =
    ⟨some (.unary ⟨.symbol .bang, "!", 1⟩ (.literal .nil)), []⟩ := by
  have hchars : commented.toList = ['!', 'n', 'i', 'l', '/', '/', '"'] := by decide
  rw [Reading.expression, Reading.ofSource, Scan.tokens, Scan.reports, Scan.items, hchars]
  rfl

theorem commented_printed :
    Reading.program (printed commented) =
      ⟨[.print (.unary ⟨.symbol .bang, "!", 1⟩ (.literal .nil))], []⟩ ∧
    (∃ e, Stmt.print (.unary ⟨.symbol .bang, "!", 1⟩ (.literal .nil)) = .print e) ∧
    ∃ few, ∀ fuel, few ≤ fuel → SameAnswer fuel commented := by
  obtain ⟨hsame, hstatement, hends⟩ := single_expression_printed
  have hprogram := (hsame commented _).1 reading_commented
  obtain ⟨few, hfew⟩ := hends commented _ reading_commented
  exact ⟨hprogram, hstatement commented _ hprogram, few, fun fuel hfuel => (hfew fuel hfuel).1⟩

end Session

end TreeWalk
