import TreeWalk.Proofs.Grammar.Completeness
import TreeWalk.Proofs.Lines.Execute
import TreeWalk.Proofs.Lines.Parse
import TreeWalk.Proofs.Lines.Scan
import TreeWalk.Proofs.Machine.Output
import TreeWalk.Proofs.Session.Outcomes

/-!
Two units run as one. If nothing is reported about either of two texts, nothing is about the two
joined by a line end, and the joined text runs as the first and then the second do. Only the lines
of the second text are others.
-/

namespace TreeWalk

/-! ## Joined derivations -/

namespace Grammar.Derivation.Declarations

def append : Declarations → Declarations → Declarations
  | .done, after => after
  | .next first more, after => .next first (more.append after)

theorem yield_append : ∀ d e : Declarations, (d.append e).yield = d.yield ++ e.yield
  | .done, e => rfl
  | .next first more, e => by
    rw [append, yield, yield, yield_append more e, List.append_assoc]

theorem trees_append : ∀ d e : Declarations, (d.append e).trees = d.trees ++ e.trees
  | .done, e => rfl
  | .next first more, e => by rw [append, trees, trees, trees_append more e, List.cons_append]

theorem regular_append {depth : Nat} : ∀ d e : Declarations, d.Regular depth → e.Regular depth →
    (d.append e).Regular depth
  | .done, _, _, he => he
  | .next _ more, e, hd, he => ⟨hd.1, regular_append more e hd.2 he⟩

end Grammar.Derivation.Declarations

/-! ## Joined texts -/

open Scan

theorem Scan.beforeEnd_written (line last : Nat) (cs : List Char) :
    Grammar.beforeEnd (written line cs ++ [.endOfInput last]) = written line cs :=
  Grammar.beforeEnd_append (inner_written line cs) (.single (.endOfInput last) rfl) []

/-- A text that is parsed without faults is so from every line on, to the same trees up to
lines. -/
theorem Scan.program_written {line last : Nat} {cs : List Char} (line' last' : Nat)
    (h : (Grammar.program (written line cs ++ [.endOfInput last])).faults = []) :
    (Grammar.program (written line' cs ++ [.endOfInput last'])).faults = [] ∧
      (Grammar.program (written line' cs ++ [.endOfInput last'])).tree.map Stmt.bare =
        (Grammar.program (written line cs ++ [.endOfInput last])).tree.map Stmt.bare := by
  have htokens : (written line' cs ++ [Token.endOfInput last']).map Token.bare =
      (written line cs ++ [Token.endOfInput last]).map Token.bare := by
    rw [List.map_append, List.map_append, written_bare line' line]
    rfl
  have hparsed := congrArg Grammar.program htokens
  rw [Grammar.program_bare, Grammar.program_bare] at hparsed
  simp only [Grammar.Parsed.bare, Grammar.Parsed.mk.injEq] at hparsed
  obtain ⟨htree, hfaults⟩ := hparsed
  rw [h] at hfaults
  exact ⟨List.map_eq_nil_iff.1 hfaults, htree⟩

namespace Session

theorem reading_accepted {source : String} :
    (Reading.program source).diagnostics = [] ↔
      Faultless source.toList ∧ (Grammar.program (tokens source)).faults = [] := by
  rw [← reports_eq_nil]
  exact List.append_eq_nil_iff.trans (and_congr Iff.rfl List.map_eq_nil_iff)

/-- The trees of joined texts are those of the first and those of the second, the latter up to
lines. -/
theorem reading_joined {p q : String} (hp : (Reading.program p).diagnostics = [])
    (hq : (Reading.program q).diagnostics = []) :
    (Reading.program (joined p q)).diagnostics = [] ∧
      ∃ shifted, (Reading.program (joined p q)).tree = (Reading.program p).tree ++ shifted ∧
        shifted.map Stmt.bare = (Reading.program q).tree.map Stmt.bare := by
  obtain ⟨d, hd, htrees, hregular⟩ := reading_derived hp
  obtain ⟨hpieces, _⟩ := reading_accepted.1 hp
  obtain ⟨hpieces', hfaults⟩ := reading_accepted.1 hq
  rw [tokens_eq, beforeEnd_written] at hd
  rw [tokens_eq] at hfaults
  have htext : (joined p q).toList = p.toList ++ '\n' :: q.toList := toList_joined p q
  let last := lineAfter 1 (joined p q).toList
  obtain ⟨hnone, hsame⟩ := program_written (lineAfter 1 p.toList + 1) last hfaults
  obtain ⟨e, he, htrees', hregular'⟩ := Grammar.programFrom_sound _ _ (Nat.le_refl _) hnone
  rw [beforeEnd_written] at he
  have htokens : tokens (joined p q) = (d.append e).yield ++ [.endOfInput last] := by
    rw [tokens_eq, d.yield_append, hd, he, ← written_join hpieces, ← htext]
  have hprogram : Grammar.program (tokens (joined p q)) = ⟨d.trees ++ e.trees, []⟩ := by
    rw [htokens, ← d.trees_append]
    exact Grammar.program_of_derivation (d.append e) (.single (.endOfInput last) rfl) []
      (d.regular_append e hregular hregular')
  constructor
  · rw [reading_accepted, htext, hprogram]
    exact ⟨faultless_join hpieces hpieces', rfl⟩
  · refine ⟨e.trees, ?_, ?_⟩
    · rw [← htrees]
      exact congrArg Grammar.Parsed.tree hprogram
    · rw [htrees']
      refine hsame.trans ?_
      rw [← tokens_eq]
      rfl

/-! ## Joined runs -/

end Session

def Report.bare : Report → Report
  | .lexical message _ => .lexical message 0
  | .syntactic message location _ => .syntactic message location 0
  | .runtime message _ => .runtime message 0
  | .output message => .output message

namespace Session

/-- Two units that came to the same but for lines: the same reports and outcome, the same bytes
printed and the same values in all scopes. -/
structure Alike (ds ds' : Diagnostics) (t t' : State) : Prop where
  reports : ds.map Report.bare = ds'.map Report.bare
  outcome : ds.outcome = ds'.outcome
  printed : t.sink = t'.sink
  state : t.bare = t'.bare

theorem alike_of_bare {f g : Finished Unit} (h : f.bare = g.bare) :
    Alike (failures f.result) (failures g.result) f.state g.state := by
  obtain ⟨result, t⟩ := f
  obtain ⟨result', t'⟩ := g
  simp only [Finished.bare, Finished.mk.injEq] at h
  obtain ⟨hresult, hstate⟩ := h
  have hprinted : t.bare.sink = t'.bare.sink := congrArg State.sink hstate
  rcases result with failure | ⟨⟩ <;> rcases result' with failure' | ⟨⟩
  · have hfailure : failure.bare = failure'.bare := by simpa using hresult
    refine ⟨?_, by rw [failures, failures, outcome_failure, outcome_failure], hprinted, hstate⟩
    cases failure <;> cases failure' <;> cases hfailure <;> rfl
  · cases hresult
  · cases hresult
  · exact ⟨rfl, rfl, hprinted, hstate⟩

section

variable {p q : String} (hp : (Reading.program p).diagnostics = [])
  (hq : (Reading.program q).diagnostics = [])
include hp hq

/-- Behind a unit that succeeds, the joined unit does what the second does alone. -/
theorem ran_joined_of_success {s t : State} (h : Ran s p [] t) :
    ((∃ ds u, Ran s (joined p q) ds u) ↔ ∃ ds u, Ran t q ds u) ∧
      ∀ ds u ds' u', Ran s (joined p q) ds u → Ran t q ds' u' → Alike ds ds' u u' := by
  obtain ⟨hjoined, shifted, htree, hbare⟩ := reading_joined hp hq
  have hexecuted : Executes s (Reading.program p).tree ⟨.ok .normal, t⟩ := by
    rcases h.outcome with hrejected | hfailed | hsucceeded
    · exact absurd rfl hrejected.nonempty
    · cases hfailed.outcome
    · exact hsucceeded.executed
  have hran : ∀ ds u, Ran s (joined p q) ds u ↔
      ∃ result, ds = failures result ∧ Run.Ends (interpret · shifted) t ⟨result, u⟩ := by
    intro ds u
    simp only [ran_accepted hjoined, htree, ends_interpret_append hexecuted]
  have hsecond : ∀ ds u, Ran s (joined p q) ds u →
      ∃ ds' u', Ran t q ds' u' ∧ Alike ds ds' u u' := by
    intro ds u hds
    obtain ⟨result, rfl, fuel, hfuel⟩ := (hran ds u).1 hds
    obtain ⟨g, hg, hsame⟩ := finish_interpret_alike hbare rfl hfuel
    exact ⟨_, g.state, (ran_accepted hq).2 ⟨g.result, rfl, fuel, hg⟩, alike_of_bare hsame.symm⟩
  refine ⟨⟨?_, ?_⟩, ?_⟩
  · rintro ⟨ds, u, hds⟩
    obtain ⟨ds', u', hds', _⟩ := hsecond ds u hds
    exact ⟨ds', u', hds'⟩
  · rintro ⟨ds', u', hds'⟩
    obtain ⟨result, rfl, fuel, hfuel⟩ := (ran_accepted hq).1 hds'
    obtain ⟨g, hg, _⟩ := finish_interpret_alike hbare.symm rfl hfuel
    exact ⟨failures g.result, g.state, (hran _ _).2 ⟨g.result, rfl, fuel, hg⟩⟩
  · intro ds u ds' u' hds hds'
    obtain ⟨other, v, hother, halike⟩ := hsecond ds u hds
    obtain ⟨rfl, rfl⟩ := hother.unique hds'
    exact halike

/-- A unit that fails does so too with another behind it, and leaves the same state. -/
theorem ran_joined_of_failure {s t : State} {ds : Diagnostics} (hflush : s.sink.flushFails = false)
    (h : Ran s p ds t) (hfailed : ds.outcome = .runtimeError) (ds' : Diagnostics) (u : State) :
    Ran s (joined p q) ds' u ↔ ds' = ds ∧ u = t := by
  obtain ⟨hjoined, shifted, htree, _⟩ := reading_joined hp hq
  obtain ⟨result, rfl, hends⟩ := (ran_accepted hp).1 h
  rcases ends_interpret.1 hends with ⟨flow, v, hexecuted, hflushed⟩ | ⟨failure, v, herror, heq⟩
  · -- All statements were executed, and the sink can still be flushed: this is no failure.
    have hsink : v.sink.flushFails = false :=
      (executes_outputs hexecuted).flushFails.trans hflush
    rw [flushed, if_neg (by simp [hsink])] at hflushed
    cases hflushed
    cases hfailed
  · cases heq
    simp only [ran_accepted hjoined, htree, ends_interpret_of_error herror, Finished.mk.injEq]
    constructor
    · rintro ⟨_, rfl, rfl, rfl⟩
      exact ⟨rfl, rfl⟩
    · rintro ⟨rfl, rfl⟩
      exact ⟨_, rfl, rfl, rfl⟩

end

/-- Two accepted texts are accepted when joined. If the first succeeds, the joined unit ends if the
second one does after the first, and they come to the same but for lines; if the first fails, the
joined unit fails in the same way and leaves the same state. -/
theorem joined_unit (p q : String) (hp : (Reading.program p).diagnostics = [])
    (hq : (Reading.program q).diagnostics = []) :
    (Reading.program (joined p q)).diagnostics = [] ∧
    (∀ s t : State, Ran s p [] t →
      ((∃ ds u, Ran s (joined p q) ds u) ↔ ∃ ds u, Ran t q ds u) ∧
      ∀ ds u ds' u', Ran s (joined p q) ds u → Ran t q ds' u' → Alike ds ds' u u') ∧
    ∀ (s t : State) (ds : Diagnostics), s.sink.flushFails = false → Ran s p ds t →
      ds.outcome = .runtimeError →
      ∀ ds' u, Ran s (joined p q) ds' u ↔ ds' = ds ∧ u = t :=
  ⟨(reading_joined hp hq).1, fun _ _ h => ran_joined_of_success hp hq h,
    fun _ _ _ hflush h hfailed => ran_joined_of_failure hp hq hflush h hfailed⟩

def printing : String := "print nil;"

def calling : String := "nil();"

theorem reading_printing : Reading.program printing = ⟨[.print (.literal .nil)], []⟩ := by
  have hchars : printing.toList = ['p', 'r', 'i', 'n', 't', ' ', 'n', 'i', 'l', ';'] := by decide
  rw [Reading.program, Reading.ofSource, Scan.tokens, Scan.reports, Scan.items, hchars]
  rfl

theorem reading_calling : Reading.program calling =
    ⟨[.expression (.call (.literal .nil) ⟨.symbol .rightParen, ")", 1⟩ [])], []⟩ := by
  have hchars : calling.toList = ['n', 'i', 'l', '(', ')', ';'] := by decide
  rw [Reading.program, Reading.ofSource, Scan.tokens, Scan.reports, Scan.items, hchars]
  rfl

/-- The failing unit stands behind the other one, where only its line changes, or before it, where
it keeps the other from running. -/
theorem printing_calling_joined :
    (∃ t u ds v, Ran (.initial .unlimited) printing [] t ∧
      Ran t calling [.runtime "Can only call functions and classes." 1] u ∧
      Ran (.initial .unlimited) (joined printing calling) ds v ∧
      Alike ds [.runtime "Can only call functions and classes." 1] v u) ∧
    ∃ t, Ran (.initial .unlimited) calling
        [.runtime "Can only call functions and classes." 1] t ∧
      Ran (.initial .unlimited) (joined calling printing)
        [.runtime "Can only call functions and classes." 1] t := by
  have hprinting : (Reading.program printing).diagnostics = [] := by rw [reading_printing]
  have hcalling : (Reading.program calling).diagnostics = [] := by rw [reading_calling]
  have hprinted : ∃ t, run 10 (.initial .unlimited) printing = some ([], t) := by
    simp only [run, reading_printing]
    exact ⟨_, rfl⟩
  have hcalled : ∀ s, run 10 s calling =
      some ([.runtime "Can only call functions and classes." 1], s) := by
    intro s
    simp only [run, reading_calling]
    rfl
  obtain ⟨t, ht⟩ := hprinted
  have hfirst := (joined_unit printing calling hprinting hcalling).2.1 _ t ⟨10, ht⟩
  have hfailed := (joined_unit calling printing hcalling hprinting).2.2 (.initial .unlimited) _ _
    rfl ⟨10, hcalled _⟩ rfl
  have hran : Ran t calling _ t := ⟨10, hcalled t⟩
  obtain ⟨ds, v, hjoined⟩ := hfirst.1.2 ⟨_, t, hran⟩
  exact ⟨⟨t, t, ds, v, ⟨10, ht⟩, hran, hjoined, hfirst.2 ds v _ t hjoined hran⟩,
    _, ⟨10, hcalled _⟩, (hfailed _ _).2 ⟨rfl, rfl⟩⟩

end Session

end TreeWalk
