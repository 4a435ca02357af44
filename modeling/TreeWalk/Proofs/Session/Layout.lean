import Mathlib.Data.List.Forall2
import TreeWalk.Proofs.Session.Joining

/-!
Layout does not matter. Units that scan to the same tokens on other lines are parsed, rejected and
run alike: a session over them prints the same bytes and makes the same reports, on other lines.
-/

namespace TreeWalk

/-! ## Reports without lines -/

theorem Token.bare_eq_iff {t u : Token} :
    t.bare = u.bare ↔ t.kind = u.kind ∧ t.lexeme = u.lexeme := by
  simp [Token.bare]

namespace Grammar

theorem Fault.report_bare (stop : Token) (f : Fault) :
    (f.bare.report stop.bare).bare = (f.report stop).bare := by
  obtain ⟨place, problem⟩ := f
  cases place <;> rfl

theorem stopToken_bare (ts : List Token) : stopToken (ts.map Token.bare) = (stopToken ts).bare := by
  have his : Token.is .endOfInput ∘ Token.bare = Token.is .endOfInput :=
    funext fun t => t.is_bare .endOfInput
  rw [stopToken, stopToken, List.find?_map, his]
  cases ts.find? (Token.is .endOfInput) <;> rfl

theorem reports_bare (ts : List Token) (parsed : Parsed (List Stmt)) :
    (parsed.bare.reports (ts.map Token.bare)).map Report.bare =
      (parsed.reports ts).map Report.bare := by
  simp only [Parsed.reports, Parsed.bare, List.map_map, stopToken_bare]
  exact List.map_congr_left fun f _ => f.report_bare (stopToken ts)

end Grammar

theorem Report.isSyntax_bare (r : Report) : r.bare.isSyntax = r.isSyntax := by
  cases r <;> rfl

theorem Diagnostics.outcome_bare (ds : Diagnostics) :
    outcome (ds.map Report.bare) = ds.outcome := by
  have hsyntax : hadSyntaxError (ds.map Report.bare) = ds.hadSyntaxError := by
    simp [hadSyntaxError, Function.comp_def, Report.isSyntax_bare]
  have hruntime : hadRuntimeError (ds.map Report.bare) = ds.hadRuntimeError := by
    simp [hadRuntimeError, Function.comp_def, Report.isSyntax_bare]
  rw [outcome, outcome, hsyntax, hruntime]

namespace Session

/-- Texts without lexical faults whose tokens differ in their lines at most. -/
structure SameTokens (source source' : String) : Prop where
  faultless : Scan.reports source = []
  faultless' : Scan.reports source' = []
  tokens : List.Forall₂ (fun t u => t.kind = u.kind ∧ t.lexeme = u.lexeme)
    (Scan.tokens source) (Scan.tokens source')

/-- Such texts have the same trees and the same reports up to lines. -/
theorem SameTokens.reading {p q : String} (h : SameTokens p q) :
    (Reading.program p).tree.map Stmt.bare = (Reading.program q).tree.map Stmt.bare ∧
      (Reading.program p).diagnostics.map Report.bare =
        (Reading.program q).diagnostics.map Report.bare := by
  have htokens : (Scan.tokens p).map Token.bare = (Scan.tokens q).map Token.bare := by
    rw [← List.forall₂_eq_eq_eq, List.forall₂_map_left_iff, List.forall₂_map_right_iff]
    exact h.tokens.imp fun _ _ => Token.bare_eq_iff.2
  have hparsed : (Grammar.program (Scan.tokens p)).bare =
      (Grammar.program (Scan.tokens q)).bare := by
    rw [← Grammar.program_bare, ← Grammar.program_bare, htokens]
  refine ⟨congrArg Grammar.Parsed.tree hparsed, ?_⟩
  simp only [Reading.program, Reading.ofSource, Reading.ofTokens, h.faultless, h.faultless',
    List.nil_append]
  rw [← Grammar.reports_bare (Scan.tokens p), ← Grammar.reports_bare (Scan.tokens q), hparsed,
    htokens]

/-- One unit, from states that are the same up to lines. -/
theorem SameTokens.ran {p q : String} (h : SameTokens p q) {s t u : State} {ds : Diagnostics}
    (hstates : s.bare = t.bare) (hran : Ran s p ds u) :
    ∃ ds' u', Ran t q ds' u' ∧ Alike ds ds' u u' := by
  obtain ⟨htree, hreports⟩ := h.reading
  by_cases hp : (Reading.program p).diagnostics = []
  · have hq : (Reading.program q).diagnostics = [] := by
      rw [hp] at hreports
      exact List.map_eq_nil_iff.1 hreports.symm
    obtain ⟨result, rfl, fuel, hfuel⟩ := (ran_accepted hp).1 hran
    obtain ⟨g, hg, hsame⟩ := finish_interpret_alike htree hstates hfuel
    exact ⟨_, g.state, (ran_accepted hq).2 ⟨g.result, rfl, fuel, hg⟩, alike_of_bare hsame.symm⟩
  · have hq : (Reading.program q).diagnostics ≠ [] := by
      intro hq
      rw [hq] at hreports
      exact hp (List.map_eq_nil_iff.1 hreports)
    have hsink : s.bare.sink = t.bare.sink := congrArg State.sink hstates
    obtain ⟨rfl, rfl⟩ := (ran_rejected hp).1 hran
    refine ⟨_, t, (ran_rejected hq).2 ⟨rfl, rfl⟩, hreports, ?_, hsink, hstates⟩
    rw [← Diagnostics.outcome_bare, hreports, Diagnostics.outcome_bare]

/-! ## Sessions -/

/-- The units of a session that came to an end, from the first on, with the diagnostics and the
state after each. -/
inductive RanAll : State → List String → List (Diagnostics × State) → Prop
  | stop {s : State} {sources : List String} : RanAll s sources []
  | next {s t : State} {source : String} {sources : List String} {ds : Diagnostics}
    {units : List (Diagnostics × State)} : Ran s source ds t → RanAll t sources units →
    RanAll s (source :: sources) ((ds, t) :: units)

theorem RanAll.unique {s : State} {sources : List String}
    {units units' : List (Diagnostics × State)} (h : RanAll s sources units)
    (h' : RanAll s sources units') (hlength : units'.length = units.length) : units' = units := by
  induction h generalizing units' with
  | stop => exact List.length_eq_zero_iff.1 hlength
  | next hran _ ih =>
    cases h' with
    | stop => cases hlength
    | next hran' hmore =>
      obtain ⟨rfl, rfl⟩ := hran.unique hran'
      rw [ih hmore (Nat.succ.inj hlength)]

/-- The units that came to an end are those that `runAll` gives for as many sources. -/
theorem ranAll_iff {s : State} {sources : List String} {units : List (Diagnostics × State)} :
    RanAll s sources units ↔ ∃ fuel, runAll fuel s (sources.take units.length) = some units := by
  constructor
  · intro h
    induction h with
    | stop => exact ⟨0, rfl⟩
    | @next s t source sources ds units hran _ ih =>
      obtain ⟨few, hfirst⟩ := hran
      obtain ⟨many, hmore⟩ := ih
      have hfirst' := run_mono (Nat.le_max_left few many) hfirst
      have hmore' := runAll_mono (Nat.le_max_right few many) hmore
      exact ⟨max few many, runAll_cons.2 ⟨ds, t, units, hfirst', hmore', rfl⟩⟩
  · rintro ⟨fuel, h⟩
    induction units generalizing s sources with
    | nil => exact .stop
    | cons unit units ih =>
      cases sources with
      | nil => cases h
      | cons source sources =>
        obtain ⟨ds, t, more, hfirst, hmore, hunits⟩ := runAll_cons.1 h
        cases hunits
        exact .next ⟨fuel, hfirst⟩ (ih hmore)

/-- What is seen of a unit, its diagnostics and the bytes it printed, is the same up to the lines
in the reports. -/
structure SeenAlike (unit unit' : Diagnostics × ByteArray) : Prop where
  printed : unit.2 = unit'.2
  outcome : unit.1.outcome = unit'.1.outcome
  reports : unit.1.map Report.bare = unit'.1.map Report.bare

theorem RanAll.alike {s t : State} {sources sources' : List String}
    {units : List (Diagnostics × State)} (h : List.Forall₂ SameTokens sources sources')
    (hstates : s.bare = t.bare) (hran : RanAll s sources units) :
    ∃ units', RanAll t sources' units' ∧ units'.length = units.length ∧
      List.Forall₂ SeenAlike (transcript s units) (transcript t units') := by
  induction hran generalizing t sources' with
  | stop => exact ⟨[], .stop, rfl, .nil⟩
  | @next s u source sources ds units hrun _ ih =>
    cases h with
    | cons hfirst hmore =>
      obtain ⟨ds', u', hrun', halike⟩ := hfirst.ran hstates hrun
      obtain ⟨units', hran', hlength, hseen⟩ := ih hmore halike.state
      have hsink : s.bare.sink = t.bare.sink := congrArg State.sink hstates
      have hprinted : u.sink.written.extract s.sink.written.size u.sink.written.size =
          u'.sink.written.extract t.sink.written.size u'.sink.written.size := by
        rw [show s.sink = t.sink from hsink, halike.printed]
      exact ⟨(ds', u') :: units', .next hrun' hran', congrArg (· + 1) hlength,
        .cons ⟨hprinted, halike.outcome, halike.reports⟩ hseen⟩

/-- Sessions over units with the same tokens run through equally many units, and what is seen of
each unit is the same. Only the lines in the reports may differ. -/
theorem layout_independence {sources sources' : List String}
    (h : List.Forall₂ SameTokens sources sources') (sink : Sink)
    {units : List (Diagnostics × State)} (hran : RanAll (.initial sink) sources units) :
    (∃ units', RanAll (.initial sink) sources' units' ∧ units'.length = units.length) ∧
    ∀ units', RanAll (.initial sink) sources' units' → units'.length = units.length →
      List.Forall₂ SeenAlike (transcript (.initial sink) units)
        (transcript (.initial sink) units') := by
  obtain ⟨units', hran', hlength, hseen⟩ := hran.alike h rfl
  refine ⟨⟨units', hran', hlength⟩, ?_⟩
  intro other hother hsame
  rwa [hran'.unique hother (hsame.trans hlength.symm)]

/-- The tokens of `calling`, each on a line of its own. -/
def spread : String := "nil\n(\n)\n;"

/-- A text that is no program. -/
def stray : String := ")"

def lowered : String := "\n)"

theorem items_calling : Scan.items calling =
    [.token ⟨.symbol (.keyword .nilWord), "nil", 1⟩, .token ⟨.symbol .leftParen, "(", 1⟩,
      .token ⟨.symbol .rightParen, ")", 1⟩, .token ⟨.symbol .semicolon, ";", 1⟩,
      .token (.endOfInput 1)] := by
  have hchars : calling.toList = ['n', 'i', 'l', '(', ')', ';'] := by decide
  rw [Scan.items, hchars]
  rfl

theorem items_spread : Scan.items spread =
    [.token ⟨.symbol (.keyword .nilWord), "nil", 1⟩, .token ⟨.symbol .leftParen, "(", 2⟩,
      .token ⟨.symbol .rightParen, ")", 3⟩, .token ⟨.symbol .semicolon, ";", 4⟩,
      .token (.endOfInput 4)] := by
  have hchars : spread.toList = ['n', 'i', 'l', '\n', '(', '\n', ')', '\n', ';'] := by decide
  rw [Scan.items, hchars]
  rfl

theorem items_stray : Scan.items stray =
    [.token ⟨.symbol .rightParen, ")", 1⟩, .token (.endOfInput 1)] := by
  have hchars : stray.toList = [')'] := by decide
  rw [Scan.items, hchars]
  rfl

theorem items_lowered : Scan.items lowered =
    [.token ⟨.symbol .rightParen, ")", 2⟩, .token (.endOfInput 2)] := by
  have hchars : lowered.toList = ['\n', ')'] := by decide
  rw [Scan.items, hchars]
  rfl

theorem calling_spread : SameTokens calling spread := by
  refine ⟨?_, ?_, ?_⟩
  · rw [Scan.reports, items_calling]
    rfl
  · rw [Scan.reports, items_spread]
    rfl
  · rw [Scan.tokens, Scan.tokens, items_calling, items_spread]
    repeat' constructor

theorem stray_lowered : SameTokens stray lowered := by
  refine ⟨?_, ?_, ?_⟩
  · rw [Scan.reports, items_stray]
    rfl
  · rw [Scan.reports, items_lowered]
    rfl
  · rw [Scan.tokens, Scan.tokens, items_stray, items_lowered]
    repeat' constructor

/-- A unit that fails and one that is rejected, on other lines. -/
theorem calling_stray_seen : ∃ units units' : List (Diagnostics × State),
    List.Forall₂ SameTokens [calling, stray] [spread, lowered] ∧
    RanAll (.initial .unlimited) [calling, stray] units ∧
    RanAll (.initial .unlimited) [spread, lowered] units' ∧
    units.map Prod.fst = [[.runtime "Can only call functions and classes." 1],
      [.syntactic "Expected expression" " at ')'" 1]] ∧
    units'.map Prod.fst = [[.runtime "Can only call functions and classes." 3],
      [.syntactic "Expected expression" " at ')'" 2]] ∧
    List.Forall₂ SeenAlike (transcript (.initial .unlimited) units)
      (transcript (.initial .unlimited) units') := by
  have hsame : List.Forall₂ SameTokens [calling, stray] [spread, lowered] :=
    .cons calling_spread (.cons stray_lowered .nil)
  have hcalling : Ran (.initial .unlimited) calling
      [.runtime "Can only call functions and classes." 1] (.initial .unlimited) := by
    refine ⟨10, ?_⟩
    simp only [run, reading_calling]
    rfl
  have hspread : Ran (.initial .unlimited) spread
      [.runtime "Can only call functions and classes." 3] (.initial .unlimited) := by
    refine ⟨10, ?_⟩
    rw [run, Reading.program, Reading.ofSource, Scan.tokens, Scan.reports, items_spread]
    rfl
  have hstray : Ran (.initial .unlimited) stray
      [.syntactic "Expected expression" " at ')'" 1] (.initial .unlimited) := by
    refine ⟨0, ?_⟩
    rw [run, Reading.program, Reading.ofSource, Scan.tokens, Scan.reports, items_stray]
    rfl
  have hlowered : Ran (.initial .unlimited) lowered
      [.syntactic "Expected expression" " at ')'" 2] (.initial .unlimited) := by
    refine ⟨0, ?_⟩
    rw [run, Reading.program, Reading.ofSource, Scan.tokens, Scan.reports, items_lowered]
    rfl
  have hran := RanAll.next hcalling (.next hstray (@RanAll.stop _ []))
  have hran' := RanAll.next hspread (.next hlowered (@RanAll.stop _ []))
  exact ⟨_, _, hsame, hran, hran', rfl, rfl,
    (layout_independence hsame .unlimited hran).2 _ hran' rfl⟩

end Session

end TreeWalk
