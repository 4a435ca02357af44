import TreeWalk.Proofs.Grammar.Provenance
import TreeWalk.Proofs.Grammar.Termination
import TreeWalk.Proofs.Session.KnownOperators
import TreeWalk.Proofs.Session.Layout
import TreeWalk.Proofs.Token.LineNumbers

/-!
Reports stand where something was written. A report about a text is on a line of that text, at one
of its tokens or at its end; a runtime report is on the line of a token of the unit or of one
before it, whose functions it may have called. No report is on line 0, where no source has a token.
-/

namespace TreeWalk

/-! ## Lines of a source -/

namespace Scan

theorem item_of_mem_tokens {source : String} {t : Token} (h : t ∈ tokens source) :
    .token t ∈ items source := by
  obtain ⟨item, hitem, htoken⟩ := List.mem_filterMap.1 h
  cases item with
  | token u =>
    cases htoken
    exact hitem
  | fault fault line => cases htoken

/-- A line of the source, the first of which is 1. -/
def HasLine (source : String) (line : Nat) : Prop := 1 ≤ line ∧ line ≤ 1 + source.toList.count '\n'

theorem hasLine_of_mem {source : String} {item : Item} (h : item ∈ items source) :
    HasLine source item.line := (lines_ordered source).2 item h

theorem stopToken_tokens (source : String) :
    Grammar.stopToken (tokens source) = .endOfInput (lineAfter 1 source.toList) := by
  rw [tokens_eq]
  exact Grammar.stopToken_stop (inner_written 1 source.toList) rfl []

theorem getLast?_tokens (source : String) :
    (tokens source).getLast? = some (.endOfInput (lineAfter 1 source.toList)) := by
  rw [tokens_eq, List.getLast?_concat]

end Scan

namespace Session

open Scan

/-- The token is written in one of the sources. -/
def WrittenIn (sources : List String) (t : Token) : Prop :=
  ∃ source ∈ sources, t ∈ tokens source ∧ t.is .endOfInput = false

/-- A report of the unit `source`, where `sources` are the units up to that one, stands at
something that was written. Reports on the output stand nowhere. -/
inductive Genuine (sources : List String) (source : String) : Report → Prop
  | lexical {fault : LexicalFault} {line : Nat} : .fault fault line ∈ items source →
    HasLine source line → Genuine sources source (.lexical fault.message line)
  | atEnd {message : String} {line : Nat} : (tokens source).getLast? = some (.endOfInput line) →
    HasLine source line → Genuine sources source (.syntactic message " at end" line)
  | atToken {message : String} {t : Token} : t ∈ tokens source → t.is .endOfInput = false →
    HasLine source t.line →
    Genuine sources source (.syntactic message (" at '" ++ t.lexeme ++ "'") t.line)
  | runtime {message : String} {t : Token} : WrittenIn sources t →
    Genuine sources source (.runtime message t.line)
  | output (message : String) : Genuine sources source (.output message)

theorem WrittenIn.line_pos {sources : List String} {t : Token} (h : WrittenIn sources t) :
    1 ≤ t.line := by
  obtain ⟨source, _, ht, _⟩ := h
  exact (hasLine_of_mem (item_of_mem_tokens ht)).1

theorem Genuine.line_ne_zero {sources : List String} {source : String} {r : Report}
    (h : Genuine sources source r) : r.line? ≠ some 0 := by
  have hpos : ∀ {line : Nat}, 1 ≤ line → some line ≠ some 0 := by
    rintro _ h ⟨⟩
    cases h
  cases h with
  | lexical _ hline => exact hpos hline.1
  | atEnd _ hline => exact hpos hline.1
  | atToken _ _ hline => exact hpos hline.1
  | runtime hwritten => exact hpos hwritten.line_pos
  | output => nofun

/-! ## Reports about a text -/

variable {sources : List String} {source : String}

theorem writtenIn_beforeEnd (h : source ∈ sources) :
    ∀ t ∈ Grammar.beforeEnd (tokens source), WrittenIn sources t := by
  intro t ht
  refine ⟨source, h, (List.takeWhile_prefix _).subset ht, ?_⟩
  simpa using List.mem_takeWhile_imp ht

theorem scan_genuine : ∀ r ∈ reports source, Genuine sources source r := by
  intro r hr
  obtain ⟨item, hitem, hreport⟩ := List.mem_filterMap.1 hr
  cases item with
  | token t => cases hreport
  | fault fault line =>
    cases hreport
    exact .lexical hitem (hasLine_of_mem hitem)

theorem fault_genuine {f : Grammar.Fault} (h : f.On (WrittenIn [source])) :
    Genuine sources source (f.report (Grammar.stopToken (tokens source))) := by
  obtain ⟨place, problem⟩ := f
  cases place with
  | none =>
    rw [stopToken_tokens]
    have hend := getLast?_tokens source
    have hmem := item_of_mem_tokens (List.mem_of_getLast? hend)
    exact .atEnd hend (hasLine_of_mem hmem)
  | some t =>
    obtain ⟨_, hsource, ht, hinner⟩ := h t rfl
    obtain rfl := List.mem_singleton.1 hsource
    have hlocation : t.location = " at '" ++ t.lexeme ++ "'" := by
      rw [Token.location, hinner]
      rfl
    rw [Grammar.Fault.report, Report.syntacticAt, Option.getD_some, hlocation]
    exact .atToken ht hinner (hasLine_of_mem (item_of_mem_tokens ht))

theorem tree_ofSource {α : Type} (parse : List Token → Grammar.Parsed α) (source : String) :
    (Reading.ofSource parse source).tree = (parse (tokens source)).tree := rfl

/-- A reading is genuine if its parser leaves its faults where the tokens are. -/
theorem ofSource_genuine {α : Type} {parse : List Token → Grammar.Parsed α}
    (h : ∀ f ∈ (parse (tokens source)).faults, f.On (WrittenIn [source])) :
    ∀ r ∈ (Reading.ofSource parse source).diagnostics, Genuine sources source r := by
  intro r hr
  rcases List.mem_append.1 hr with hlexical | hsyntactic
  · exact scan_genuine r hlexical
  · obtain ⟨f, hf, rfl⟩ := List.mem_map.1 hsyntactic
    exact fault_genuine (h f hf)

theorem program_genuine : ∀ r ∈ (Reading.program source).diagnostics, Genuine sources source r :=
  ofSource_genuine ((madeOf_building _).program (writtenIn_beforeEnd (List.mem_singleton_self _))).2

theorem expression_genuine :
    ∀ r ∈ (Reading.expression source).diagnostics, Genuine sources source r :=
  ofSource_genuine
    ((madeOf_building _).soleExpression (writtenIn_beforeEnd (List.mem_singleton_self _))).2

/-! ## Units -/

theorem failure_genuine {failure : Failure}
    (h : ∀ fault line, failure = .runtime fault line → ∃ t, WrittenIn sources t ∧ t.line = line) :
    Genuine sources source failure.report := by
  cases failure with
  | runtime fault line =>
    obtain ⟨t, ht, rfl⟩ := h fault line rfl
    exact .runtime ht
  | sink fault => exact .output _

theorem program_madeOf (h : source ∈ sources) :
    ∀ statement ∈ (Reading.program source).tree, statement.MadeOf (WrittenIn sources) := by
  rw [Reading.program, tree_ofSource]
  exact ((madeOf_building _).program (writtenIn_beforeEnd h)).1

theorem expression_madeOf (h : source ∈ sources) :
    ∀ e ∈ (Reading.expression source).tree, e.MadeOf (WrittenIn sources) := by
  rw [Reading.expression, tree_ofSource]
  exact ((madeOf_building _).soleExpression (writtenIn_beforeEnd h)).1

/-- A unit keeps the functions made of tokens that were written, and its reports are genuine. -/
theorem Ran.genuine {s t : State} {ds : Diagnostics} (hran : Ran s source ds t)
    (h : source ∈ sources) (hs : s.heap.Every (Value.Runs (Stmt.MadeOf (WrittenIn sources)))) :
    t.heap.Every (Value.Runs (Stmt.MadeOf (WrittenIn sources))) ∧
      ∀ r ∈ ds, Genuine sources source r := by
  obtain ⟨fuel, hrun⟩ := hran
  obtain ⟨ht, hlines⟩ := run_inherits (madeOf_inherited _) (program_madeOf h) hs hrun
  refine ⟨ht, ?_⟩
  by_cases hreading : (Reading.program source).diagnostics = []
  · obtain ⟨result, rfl, _⟩ := (ran_accepted hreading).1 ⟨fuel, hrun⟩
    cases result with
    | ok _ => exact nofun
    | error failure =>
      rw [failures, List.forall_mem_singleton]
      refine failure_genuine fun fault line hfailure => ?_
      have hmem : .runtime fault.message line ∈ failures (.error failure) := by
        rw [hfailure]
        exact List.mem_singleton_self _
      obtain ⟨_, _, hwritten⟩ := hlines fault.message line hmem
      exact hwritten
  · obtain ⟨rfl, _⟩ := (ran_rejected hreading).1 ⟨fuel, hrun⟩
    exact program_genuine

/-- Up to any unit of a session, the functions in scope are made of tokens written so far. -/
theorem RanAll.genuine {s : State} {units : List (Diagnostics × State)} {given : List String}
    (h : RanAll s given units) {k : Nat} (hgiven : ∀ source ∈ given.take (k + 1), source ∈ sources)
    (hs : s.heap.Every (Value.Runs (Stmt.MadeOf (WrittenIn sources)))) {ds : Diagnostics}
    {t : State} (hunit : units[k]? = some (ds, t)) :
    ∃ source, given[k]? = some source ∧ ∀ r ∈ ds, Genuine sources source r := by
  -- The sources are those up to the unit from the start on, so that one property of the functions
  -- in scope serves for all units before it.
  induction h generalizing k with
  | stop => simp at hunit
  | @next s u source given ds' units hran _ ih =>
    rw [List.take_succ_cons, List.forall_mem_cons] at hgiven
    obtain ⟨hsource, hmore⟩ := hgiven
    obtain ⟨hu, hgenuine⟩ := hran.genuine hsource hs
    cases k with
    | zero =>
      cases hunit
      exact ⟨source, rfl, hgenuine⟩
    | succ k => exact ih hmore hu hunit

theorem evaluate_genuine {fuel : Nat} {ds : Diagnostics}
    (h : evaluate fuel source = some (.error ds)) : ∀ r ∈ ds, Genuine [source] source r := by
  have hmade := expression_madeOf (List.mem_singleton_self source)
  unfold evaluate at h
  dsimp only at h
  split at h
  · next e htree _ =>
    have hcarried := ((madeOf_inherited (WrittenIn [source])).runs fuel).evaluate e
      (hmade e htree) (.initial .unlimited) Heap.every_empty
    split at h
    · cases h
    · next failure t hfinish =>
      cases h
      have hallowed := (carried_finish hcarried hfinish).2 failure rfl
      rw [List.forall_mem_singleton]
      refine failure_genuine fun fault line hfailure => ?_
      rw [hfailure] at hallowed
      exact hallowed
    · cases h
  · cases h
    exact expression_genuine

/-- Reports of a session stand at something genuine: those about a text at a token or at the end
of that text, on one of its lines, and runtime reports on the line of a token of that unit or one
before it. So do those about a single expression. None is on line 0. -/
theorem reports_genuine :
    (∀ (sink : Sink) (given : List String) (units : List (Diagnostics × State)),
      RanAll (.initial sink) given units →
      ∀ (k : Nat) (ds : Diagnostics) (t : State), units[k]? = some (ds, t) →
        ∃ source, given[k]? = some source ∧
          ∀ r ∈ ds, Genuine (given.take (k + 1)) source r ∧ r.line? ≠ some 0) ∧
    ∀ (fuel : Nat) (source : String) (ds : Diagnostics), evaluate fuel source = some (.error ds) →
      ∀ r ∈ ds, Genuine [source] source r ∧ r.line? ≠ some 0 := by
  constructor
  · intro sink given units hran k ds t hunit
    obtain ⟨source, hsource, hgenuine⟩ := hran.genuine (fun _ h => h) Heap.every_empty hunit
    exact ⟨source, hsource, fun r hr => ⟨hgenuine r hr, (hgenuine r hr).line_ne_zero⟩⟩
  · intro fuel source ds h r hr
    have hgenuine := evaluate_genuine h r hr
    exact ⟨hgenuine, hgenuine.line_ne_zero⟩

/-- A negation on the second line. -/
def loweredNegation : String := "\nfun f(a)\x7breturn -a;\x7d"

theorem reading_loweredNegation : Reading.program loweredNegation =
    ⟨[.funDecl ⟨⟨.symbol .identifier, "f", 2⟩, [⟨.symbol .identifier, "a", 2⟩],
      [.returnValue ⟨.symbol (.keyword .returnWord), "return", 2⟩
        (some (.unary ⟨.symbol .minus, "-", 2⟩ (.reference ⟨.symbol .identifier, "a", 2⟩)))]⟩],
      []⟩ := by
  have hchars : loweredNegation.toList = ['\n', 'f', 'u', 'n', ' ', 'f', '(', 'a', ')', '{', 'r',
      'e', 't', 'u', 'r', 'n', ' ', '-', 'a', ';', '}'] := by decide
  rw [Reading.program, Reading.ofSource, Scan.tokens, Scan.reports, Scan.items, hchars]
  rfl

/-- A unit of one line that fails on line 2, where an earlier unit wrote the operator. -/
theorem negation_genuine :
    (∃ units : List (Diagnostics × State),
      RanAll (.initial .unlimited) [loweredNegation, stray, negatingNothing] units ∧
      units.map Prod.fst = [[], [.syntactic "Expected expression" " at ')'" 1],
        [.runtime "Operand must be a number." 2]] ∧
      Genuine [loweredNegation, stray, negatingNothing] negatingNothing
        (.runtime "Operand must be a number." 2)) ∧
    evaluate 0 stray = some (.error [.syntactic "Expected expression" " at ')'" 1]) ∧
    Genuine [stray] stray (.syntactic "Expected expression" " at ')'" 1) := by
  have hstray : ∀ s : State, Ran s stray [.syntactic "Expected expression" " at ')'" 1] s := by
    intro s
    refine ⟨0, ?_⟩
    rw [run, Reading.program, Reading.ofSource, Scan.tokens, Scan.reports, items_stray]
    rfl
  have hruns : ∃ s t, run 10 (.initial .unlimited) loweredNegation = some ([], s) ∧
      run 10 s negatingNothing = some ([.runtime "Operand must be a number." 2], t) := by
    simp only [run, reading_loweredNegation, reading_negatingNothing]
    exact ⟨_, _, rfl, rfl⟩
  obtain ⟨s, t, hdeclared, hcalled⟩ := hruns
  have hran : RanAll (.initial .unlimited) [loweredNegation, stray, negatingNothing] _ :=
    .next ⟨10, hdeclared⟩ (.next (hstray s) (.next ⟨10, hcalled⟩ .stop))
  obtain ⟨source, hsource, hgenuine⟩ := reports_genuine.1 _ _ _ hran 2 _ _ rfl
  cases hsource
  have hreading : Reading.expression stray =
      ⟨none, [.syntactic "Expected expression" " at ')'" 1]⟩ := by
    rw [Reading.expression, Reading.ofSource, Scan.tokens, Scan.reports, items_stray]
    rfl
  have hevaluated : evaluate 0 stray =
      some (.error [.syntactic "Expected expression" " at ')'" 1]) := by
    unfold Session.evaluate
    rw [hreading]
  exact ⟨⟨_, hran, rfl, (hgenuine _ (List.mem_singleton_self _)).1⟩, hevaluated,
    (reports_genuine.2 _ _ _ hevaluated _ (List.mem_singleton_self _)).1⟩

end Session

end TreeWalk
