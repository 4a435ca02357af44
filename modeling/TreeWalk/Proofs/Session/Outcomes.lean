import TreeWalk.Proofs.Grammar.Soundness
import TreeWalk.Proofs.Machine.Returnless
import TreeWalk.Proofs.Machine.Sequence

/-!
What a unit of source comes to. A unit with a fault in its text is rejected and leaves no trace;
any other runs its statements in order, up to a failure if there is one. So the rejected units of
a session may be left out.
-/

namespace TreeWalk.Session

/-- With enough fuel the unit leaves the diagnostics `ds` and the state `t`. -/
def Ran (s : State) (source : String) (ds : Diagnostics) (t : State) : Prop :=
  ∃ fuel, run fuel s source = some (ds, t)

/-- Some reports about a text, the lexical ones first. -/
def AboutText (ds : Diagnostics) : Prop :=
  ∃ lexical syntactic : Diagnostics, ds = lexical ++ syntactic ∧
    (∀ r ∈ lexical, ∃ message line, r = .lexical message line) ∧
    ∀ r ∈ syntactic, ∃ message location line, r = .syntactic message location line

/-- The unit is not executed at all. -/
structure Rejected (source : String) (s t : State) (ds : Diagnostics) : Prop where
  diagnostics : ds = (Reading.program source).diagnostics
  nonempty : ds ≠ []
  about : AboutText ds
  outcome : ds.outcome = .syntaxError
  untouched : t = s

/-- One statement of the unit fails, after those before it, or the output is not flushed in the
end. Statements behind the one that fails are not executed. -/
structure Failed (source : String) (s t : State) (ds : Diagnostics) : Prop where
  reading : (Reading.program source).diagnostics = []
  outcome : ds.outcome = .runtimeError
  failure : ∃ failure : Failure, ds = [failure.report] ∧
    ((∃ before first after, ∃ u : State, (Reading.program source).tree = before ++ first :: after ∧
      Executes s before ⟨.ok .normal, u⟩ ∧ Run.Ends (execute · first) u ⟨.error failure, t⟩) ∨
    failure = .sink .flush ∧ Executes s (Reading.program source).tree ⟨.ok .normal, t⟩)

/-- All statements of the unit are executed. -/
structure Succeeded (source : String) (s t : State) (ds : Diagnostics) : Prop where
  reading : (Reading.program source).diagnostics = []
  outcome : ds.outcome = .success
  diagnostics : ds = []
  executed : Executes s (Reading.program source).tree ⟨.ok .normal, t⟩

/-! ## Reports about the text -/

theorem scan_lexical (source : String) :
    ∀ r ∈ Scan.reports source, ∃ message line, r = .lexical message line := by
  intro r hr
  obtain ⟨item, _, hitem⟩ := List.mem_filterMap.1 hr
  cases item with
  | token t => cases hitem
  | fault fault line =>
    cases hitem
    exact ⟨_, _, rfl⟩

theorem scan_aboutText (source : String) : AboutText (Scan.reports source) :=
  ⟨Scan.reports source, [], (List.append_nil _).symm, scan_lexical source, by simp⟩

theorem ofSource_aboutText {α : Type} (parse : List Token → Grammar.Parsed α) (source : String) :
    AboutText (Reading.ofSource parse source).diagnostics := by
  refine ⟨Scan.reports source, _, rfl, scan_lexical source, ?_⟩
  intro r hr
  obtain ⟨fault, _, rfl⟩ := List.mem_map.1 hr
  exact ⟨_, _, _, rfl⟩

theorem reading_aboutText (source : String) : AboutText (Reading.program source).diagnostics :=
  ofSource_aboutText Grammar.program source

theorem AboutText.isSyntax {ds : Diagnostics} (h : AboutText ds) : ∀ r ∈ ds, r.isSyntax := by
  obtain ⟨lexical, syntactic, rfl, hlexical, hsyntactic⟩ := h
  intro r hr
  rcases List.mem_append.1 hr with hr | hr
  · obtain ⟨_, _, rfl⟩ := hlexical r hr
    rfl
  · obtain ⟨_, _, _, rfl⟩ := hsyntactic r hr
    rfl

theorem AboutText.hadSyntaxError_iff {ds : Diagnostics} (h : AboutText ds) :
    ds.hadSyntaxError = true ↔ ds ≠ [] := by
  rw [Diagnostics.hadSyntaxError, List.any_eq_true]
  constructor
  · rintro ⟨r, hr, _⟩
    exact List.ne_nil_of_mem hr
  · intro hne
    obtain ⟨r, hr⟩ := List.exists_mem_of_ne_nil _ hne
    exact ⟨r, hr, h.isSyntax r hr⟩

theorem AboutText.outcome {ds : Diagnostics} (h : AboutText ds) (hne : ds ≠ []) :
    ds.outcome = .syntaxError := if_pos (h.hadSyntaxError_iff.2 hne)

/-- A text is accepted if nothing is reported about it. -/
theorem hadSyntaxError_reading (source : String) :
    (Reading.program source).diagnostics.hadSyntaxError = true ↔
      (Reading.program source).diagnostics ≠ [] := (reading_aboutText source).hadSyntaxError_iff

/-! ## The statements of a unit -/

theorem faults_of_reading {source : String} (h : (Reading.program source).diagnostics = []) :
    (Grammar.program (Scan.tokens source)).faults = [] :=
  List.map_eq_nil_iff.1 (List.append_eq_nil_iff.1 h).2

/-- The statements of an accepted text are those of a regular derivation. -/
theorem reading_derived {source : String} (h : (Reading.program source).diagnostics = []) :
    ∃ d : Grammar.Derivation.Declarations, d.yield = Grammar.beforeEnd (Scan.tokens source) ∧
      d.trees = (Reading.program source).tree ∧ d.Regular 0 :=
  Grammar.programFrom_sound _ _ (Nat.le_refl _) (faults_of_reading h)

/-- The statements of a program without faults have no `return` of their own. -/
theorem program_returnless {ts : List Token} (h : (Grammar.program ts).faults = []) :
    ∀ statement ∈ (Grammar.program ts).tree, statement.Returnless := by
  obtain ⟨d, _, htrees, hregular⟩ := Grammar.programFrom_sound _ _ (Nat.le_refl _) h
  exact htrees ▸ d.returnless hregular

theorem reading_returnless {source : String} (h : (Reading.program source).diagnostics = []) :
    ∀ statement ∈ (Reading.program source).tree, statement.Returnless :=
  program_returnless (faults_of_reading h)

theorem executes_normal {s t : State} {ss : List Stmt} {flow : Flow}
    (hss : ∀ statement ∈ ss, statement.Returnless) (h : Executes s ss ⟨.ok flow, t⟩) :
    flow = .normal := by
  obtain ⟨fuel, hfuel⟩ := ends_executeAll.2 h
  have hends := (returnless_ends fuel).2 hss
  unfold Run.finish at hfuel
  split at hfuel
  · next hrun =>
    cases hfuel
    exact hends _ _ _ hrun
  · cases hfuel
  · cases hfuel

/-! ## One unit -/

theorem run_rejected {source : String} (h : (Reading.program source).diagnostics ≠ [])
    (fuel : Nat) (s : State) :
    run fuel s source = some ((Reading.program source).diagnostics, s) := by
  rw [run, if_pos ((hadSyntaxError_reading source).2 h)]

/-- The reports of a finished program. -/
def failures : Except Failure Unit → Diagnostics
  | .ok () => []
  | .error failure => [failure.report]

theorem run_accepted {source : String} (h : (Reading.program source).diagnostics = [])
    (fuel : Nat) (s : State) :
    run fuel s source =
      ((interpret fuel (Reading.program source).tree).finish s).map fun f =>
        (failures f.result, f.state) := by
  have haccepted : ¬ (Reading.program source).diagnostics.hadSyntaxError = true := by
    simp [h, Diagnostics.hadSyntaxError]
  rw [run, if_neg haccepted, h]
  rcases (interpret fuel (Reading.program source).tree).finish s with _ | ⟨⟨⟩ | ⟨⟩, t⟩ <;> rfl

/-- With more fuel a unit that has ended ends in the same way. -/
theorem run_mono {few many : Nat} (h : few ≤ many) {s : State} {source : String}
    {unit : Diagnostics × State} (hrun : run few s source = some unit) :
    run many s source = some unit := by
  by_cases hreading : (Reading.program source).diagnostics = []
  · rw [run_accepted hreading, Option.map_eq_some_iff] at hrun ⊢
    obtain ⟨f, hf, rfl⟩ := hrun
    exact ⟨f, (Run.growing_interpret _ few many h).finish hf, rfl⟩
  · rwa [run_rejected hreading] at hrun ⊢

theorem ran_rejected {s t : State} {source : String} {ds : Diagnostics}
    (h : (Reading.program source).diagnostics ≠ []) :
    Ran s source ds t ↔ ds = (Reading.program source).diagnostics ∧ t = s := by
  simp only [Ran, run_rejected h, Option.some.injEq, Prod.mk.injEq, exists_const]
  exact and_congr eq_comm eq_comm

theorem ran_accepted {s t : State} {source : String} {ds : Diagnostics}
    (h : (Reading.program source).diagnostics = []) :
    Ran s source ds t ↔ ∃ result, ds = failures result ∧
      Run.Ends (interpret · (Reading.program source).tree) s ⟨result, t⟩ := by
  simp only [Ran, run_accepted h, Option.map_eq_some_iff, Prod.mk.injEq]
  constructor
  · rintro ⟨fuel, ⟨result, _⟩, hfuel, rfl, rfl⟩
    exact ⟨result, rfl, fuel, hfuel⟩
  · rintro ⟨result, rfl, fuel, hfuel⟩
    exact ⟨fuel, _, hfuel, rfl, rfl⟩

/-- A unit comes to one thing only. -/
theorem Ran.unique {s t t' : State} {source : String} {ds ds' : Diagnostics}
    (h : Ran s source ds t) (h' : Ran s source ds' t') : ds = ds' ∧ t = t' := by
  by_cases hreading : (Reading.program source).diagnostics = []
  · obtain ⟨result, rfl, hends⟩ := (ran_accepted hreading).1 h
    obtain ⟨result', rfl, hends'⟩ := (ran_accepted hreading).1 h'
    cases (Run.growing_interpret _).ends_unique hends hends'
    exact ⟨rfl, rfl⟩
  · obtain ⟨rfl, rfl⟩ := (ran_rejected hreading).1 h
    obtain ⟨rfl, rfl⟩ := (ran_rejected hreading).1 h'
    exact ⟨rfl, rfl⟩

theorem outcome_failure (failure : Failure) :
    Diagnostics.outcome [failure.report] = .runtimeError := by
  cases failure <;> rfl

theorem Ran.outcome {s t : State} {source : String} {ds : Diagnostics} (h : Ran s source ds t) :
    Rejected source s t ds ∨ Failed source s t ds ∨ Succeeded source s t ds := by
  by_cases hreading : (Reading.program source).diagnostics = []
  · right
    obtain ⟨result, rfl, hends⟩ := (ran_accepted hreading).1 h
    rcases ends_interpret.1 hends with ⟨flow, u, hexecuted, hflushed⟩ | ⟨failure, u, hfailed, hf⟩
    · obtain rfl := executes_normal (reading_returnless hreading) hexecuted
      unfold flushed at hflushed
      split at hflushed
      · cases hflushed
        exact .inl ⟨hreading, rfl, .sink .flush, rfl, .inr ⟨rfl, hexecuted⟩⟩
      · cases hflushed
        exact .inr ⟨hreading, rfl, rfl, hexecuted⟩
    · cases hf
      obtain ⟨before, first, after, v, hsplit, hbefore, hfirst⟩ := executes_error hfailed
      exact .inl ⟨hreading, outcome_failure failure, failure, rfl,
        .inl ⟨before, first, after, v, hsplit, hbefore, hfirst⟩⟩
  · left
    obtain ⟨rfl, rfl⟩ := (ran_rejected hreading).1 h
    have habout := reading_aboutText source
    exact ⟨rfl, hreading, habout, habout.outcome hreading, rfl⟩

/-! ## Sessions -/

/-- Whether the unit is executed. -/
def accepted (source : String) : Bool := !(Reading.program source).diagnostics.hadSyntaxError

/-- The diagnostics of units that ran one after another from `s`, and what each printed. -/
def transcript (s : State) : List (Diagnostics × State) → List (Diagnostics × ByteArray)
  | [] => []
  | (ds, t) :: more =>
    (ds, t.sink.written.extract s.sink.written.size t.sink.written.size) :: transcript t more

theorem runAll_cons {fuel : Nat} {s : State} {source : String} {sources : List String}
    {units : List (Diagnostics × State)} :
    runAll fuel s (source :: sources) = some units ↔
      ∃ ds t more, run fuel s source = some (ds, t) ∧ runAll fuel t sources = some more ∧
        units = (ds, t) :: more := by
  simp only [runAll, Option.bind_eq_bind, Option.bind_eq_some_iff, Option.pure_def]
  constructor
  · rintro ⟨⟨ds, t⟩, hfirst, more, hmore, ⟨⟩⟩
    exact ⟨ds, t, more, hfirst, hmore, rfl⟩
  · rintro ⟨ds, t, more, hfirst, hmore, rfl⟩
    exact ⟨(ds, t), hfirst, more, hmore, rfl⟩

theorem runAll_mono {few many : Nat} (h : few ≤ many) {s : State} {sources : List String}
    {units : List (Diagnostics × State)} (hrun : runAll few s sources = some units) :
    runAll many s sources = some units := by
  induction sources generalizing s units with
  | nil => exact hrun
  | cons source sources ih =>
    obtain ⟨ds, t, more, hfirst, hmore, rfl⟩ := runAll_cons.1 hrun
    exact runAll_cons.2 ⟨ds, t, more, run_mono h hfirst, ih hmore, rfl⟩

theorem accepted_iff {source : String} :
    accepted source = true ↔ (Reading.program source).diagnostics = [] := by
  rw [accepted, Bool.not_eq_true', ← Bool.not_eq_true, hadSyntaxError_reading, Decidable.not_not]

theorem outcome_failures (result : Except Failure Unit) :
    (failures result).outcome ≠ .syntaxError := by
  cases result with
  | error failure => simp [failures, outcome_failure]
  | ok done =>
    change Diagnostics.outcome [] ≠ .syntaxError
    decide

/-- Leaving out the units that are rejected changes nothing about the others. -/
theorem runAll_accepted (fuel : Nat) (s : State) (sources : List String) :
    (runAll fuel s (sources.filter accepted)).map (transcript s) =
      (runAll fuel s sources).map fun units =>
        (transcript s units).filter fun unit => unit.1.outcome ≠ .syntaxError := by
  induction sources generalizing s with
  | nil => rfl
  | cons source sources ih =>
    by_cases hreading : (Reading.program source).diagnostics = []
    · rw [List.filter_cons_of_pos (accepted_iff.2 hreading), runAll, runAll,
        run_accepted hreading]
      rcases (interpret fuel (Reading.program source).tree).finish s with _ | ⟨result, t⟩
      · rfl
      · have hmore := ih t
        have hkept := outcome_failures result
        simp only [Option.map_some, Option.bind_eq_bind, Option.bind_some]
        rcases hall : runAll fuel t sources with _ | all <;>
          rcases hfew : runAll fuel t (sources.filter accepted) with _ | few <;>
          rw [hall, hfew] at hmore
        · rfl
        · cases hmore
        · cases hmore
        · simp only [Option.map_some, Option.some.injEq] at hmore
          simp [transcript, hkept, hmore]
    · have hrejected : ¬ accepted source = true := fun h => hreading (accepted_iff.1 h)
      have houtcome := (reading_aboutText source).outcome hreading
      rw [List.filter_cons_of_neg hrejected, ih, runAll, run_rejected hreading]
      simp only [Option.bind_eq_bind, Option.bind_some]
      cases runAll fuel s sources with
      | none => rfl
      | some units => simp [transcript, houtcome]

/-- Every unit that ends is rejected, failed or succeeded, and its outcome says which; it never
has errors of both kinds. Rejected units may be left out of a session. -/
theorem unit_outcomes :
    (∀ (s t : State) (source : String) (ds : Diagnostics), Ran s source ds t →
      (Rejected source s t ds ∨ Failed source s t ds ∨ Succeeded source s t ds) ∧
        ¬ (ds.hadSyntaxError = true ∧ ds.hadRuntimeError = true)) ∧
    ∀ (fuel : Nat) (s : State) (sources : List String),
      (runAll fuel s (sources.filter accepted)).map (transcript s) =
        (runAll fuel s sources).map fun units =>
          (transcript s units).filter fun unit => unit.1.outcome ≠ .syntaxError := by
  refine ⟨?_, runAll_accepted⟩
  intro s t source ds h
  have houtcome := h.outcome
  refine ⟨houtcome, ?_⟩
  rintro ⟨hrejecting, hruntime⟩
  rcases houtcome with hrejected | hfailed | hsucceeded
  · obtain ⟨r, hr, hkind⟩ := List.any_eq_true.1 hruntime
    simp [hrejected.about.isSyntax r hr] at hkind
  · obtain ⟨failure, rfl, _⟩ := hfailed.failure
    cases failure <;> cases hrejecting
  · rw [hsucceeded.diagnostics] at hrejecting
    cases hrejecting

/-- A unit that prints, fails and would print again. -/
def failingBetween : String := "print nil;nil();print nil;"

theorem reading_failingBetween : Reading.program failingBetween =
    ⟨[.print (.literal .nil), .expression (.call (.literal .nil) ⟨.symbol .rightParen, ")", 1⟩ []),
      .print (.literal .nil)], []⟩ := by
  have hchars : failingBetween.toList = ['p', 'r', 'i', 'n', 't', ' ', 'n', 'i', 'l', ';', 'n',
      'i', 'l', '(', ')', ';', 'p', 'r', 'i', 'n', 't', ' ', 'n', 'i', 'l', ';'] := by decide
  rw [Reading.program, Reading.ofSource, Scan.tokens, Scan.reports, Scan.items, hchars]
  rfl

/-- A unit that would print if its end were no fault. -/
def faultyPrint : String := "print true;)"

theorem reading_faultyPrint : Reading.program faultyPrint =
    ⟨[.print (.literal (.bool true))], [.syntactic "Expected expression" " at ')'" 1]⟩ := by
  have hchars : faultyPrint.toList = ['p', 'r', 'i', 'n', 't', ' ', 't', 'r', 'u', 'e', ';',
      ')'] := by decide
  rw [Reading.program, Reading.ofSource, Scan.tokens, Scan.reports, Scan.items, hchars]
  rfl

theorem accepted_failingBetween :
    [failingBetween, faultyPrint, failingBetween].filter accepted =
      [failingBetween, failingBetween] := by
  simp only [List.filter, accepted, reading_failingBetween, reading_faultyPrint]
  rfl

theorem runAll_failingBetween :
    (runAll 10 (.initial .unlimited) [failingBetween, faultyPrint, failingBetween]).map
      (transcript (.initial .unlimited)) =
    some [([.runtime "Can only call functions and classes." 1], "nil\n".toUTF8),
      ([.syntactic "Expected expression" " at ')'" 1], .empty),
      ([.runtime "Can only call functions and classes." 1], "nil\n".toUTF8)] := by
  simp only [runAll, run, reading_failingBetween, reading_faultyPrint]
  rfl

/-- The failing unit prints up to its failure, and so it does on both sides of a unit that is
rejected and when that one is left out. -/
theorem failingBetween_outcome :
    (∃ t : State, Ran (.initial .unlimited) failingBetween
      [.runtime "Can only call functions and classes." 1] t ∧
      t.sink.written = "nil\n".toUTF8 ∧
      (Rejected failingBetween (.initial .unlimited) t
        [.runtime "Can only call functions and classes." 1] ∨
      Failed failingBetween (.initial .unlimited) t
        [.runtime "Can only call functions and classes." 1] ∨
      Succeeded failingBetween (.initial .unlimited) t
        [.runtime "Can only call functions and classes." 1])) ∧
    (runAll 10 (.initial .unlimited) [failingBetween, faultyPrint, failingBetween]).map
      (transcript (.initial .unlimited)) =
        some [([.runtime "Can only call functions and classes." 1], "nil\n".toUTF8),
          ([.syntactic "Expected expression" " at ')'" 1], .empty),
          ([.runtime "Can only call functions and classes." 1], "nil\n".toUTF8)] ∧
    (runAll 10 (.initial .unlimited) [failingBetween, failingBetween]).map
      (transcript (.initial .unlimited)) =
        some [([.runtime "Can only call functions and classes." 1], "nil\n".toUTF8),
          ([.runtime "Can only call functions and classes." 1], "nil\n".toUTF8)] := by
  have hrun : ∃ t, run 10 (.initial .unlimited) failingBetween =
      some ([.runtime "Can only call functions and classes." 1], t) ∧
        t.sink.written = "nil\n".toUTF8 := by
    simp only [run, reading_failingBetween]
    exact ⟨_, rfl, rfl⟩
  obtain ⟨t, hrun, hwritten⟩ := hrun
  have hran : Ran (.initial .unlimited) failingBetween _ t := ⟨10, hrun⟩
  refine ⟨⟨t, hran, hwritten, (unit_outcomes.1 _ _ _ _ hran).1⟩, runAll_failingBetween, ?_⟩
  have hisolated := unit_outcomes.2 10 (.initial .unlimited)
    [failingBetween, faultyPrint, failingBetween]
  obtain ⟨units, hunits, htranscript⟩ := Option.map_eq_some_iff.1 runAll_failingBetween
  rw [accepted_failingBetween, hunits, Option.map_some, htranscript] at hisolated
  exact hisolated

end TreeWalk.Session
