import TreeWalk.Proofs.Grammar.Walking

/-!
What a walker does in bodies and outside of all. The number of bodies it stands in is only looked at
for a `return`, so that it parses the same in any of them as outside, with the same reports, but
that it leaves out those of the `return` statements it begins outside of all further bodies.
-/

namespace TreeWalk.Grammar

open Walk

def isReturnReport (report : Report) : Bool := report.message = Problem.topLevelReturn.message

/-- No other problem has this message. -/
theorem Problem.message_eq (problem : Problem) :
    problem.message = Problem.topLevelReturn.message ↔ problem = .topLevelReturn := by
  constructor
  · intro h
    cases problem with
    | topLevelReturn => rfl
    | noRoutineName routine => cases routine <;> exact absurd h (by decide)
    | unopenedParameters routine => cases routine <;> exact absurd h (by decide)
    | unopenedBody routine => cases routine <;> exact absurd h (by decide)
    | _ => exact absurd h (by decide)
  · rintro rfl
    rfl

theorem isReturnReport_report (stop : Token) (f : Fault) :
    isReturnReport (f.report stop) = f.ofReturn := by
  have hmessage : (f.report stop).message = f.problem.message := rfl
  simp only [isReturnReport, hmessage, f.problem.message_eq, Fault.ofReturn]

theorem filter_reports (stop : Token) (faults : List Fault) :
    (faults.map (Fault.report stop)).filter isReturnReport =
        (faults.filter Fault.ofReturn).map (Fault.report stop) ∧
      (faults.map (Fault.report stop)).filter (fun report => !isReturnReport report) =
        (faults.filter fun f => !f.ofReturn).map (Fault.report stop) := by
  simp only [List.filter_map]
  constructor
  · exact congrArg _ (List.filter_congr fun f _ => isReturnReport_report stop f)
  · exact congrArg _ (List.filter_congr fun f _ => congrArg _ (isReturnReport_report stop f))

/-- The reports of the `return` statements that have no body around. -/
def Returns.reports (begun : List (Token × Nat)) : List Report :=
  (begun.filter fun r => r.2 = 0).map fun r => .syntacticAt r.1 Problem.topLevelReturn.message

theorem Returns.reports_eq (stop : Token) (begun : List (Token × Nat)) :
    (outside begun).map (Fault.report stop) = reports begun := by
  rw [outside, reports, List.map_map]
  rfl

/-- The walk from `w` on comes to the same in `d + 1` bodies as outside of all, and stands at the
same token then. The reports are the same as well and in the same order, but that outside of all
bodies there are others among them: one for each `return` statement begun with no body around. -/
structure SameInBodies {α : Type} (q : Walk α) (begun : Returns) (ts : List Token) (w : Stand)
    (d : Nat) : Prop where
  came : (q ts { w with depth := d + 1 }).1 = (q ts { w with depth := 0 }).1
  passed : (q ts { w with depth := d + 1 }).2.passed = (q ts { w with depth := 0 }).2.passed
  depth : (q ts { w with depth := d + 1 }).2.depth = d + 1 ∧
    (q ts { w with depth := 0 }).2.depth = 0
  reports : ∃ found, (q ts { w with depth := 0 }).2.reports = w.reports ++ found ∧
    (q ts { w with depth := d + 1 }).2.reports =
      w.reports ++ found.filter (fun report => !isReturnReport report) ∧
    found.filter isReturnReport = Returns.reports (begun (w.ahead ts))

section

variable {ts : List Token} {w : Stand} {d : Nat}

theorem sameInBodies_of_faults {α : Type} {q : Walk α} {begun : Returns} (came : Came α)
    (passed : Nat) (faults : List Fault)
    (hq : ∀ depth, q ts { w with depth := depth } = (came, ⟨passed, depth,
      w.reports ++ (heard depth faults).map (Fault.report (w.stop ts))⟩))
    (hbegun : faults.filter Fault.ofReturn = Returns.outside (begun (w.ahead ts))) :
    SameInBodies q begun ts w d := by
  refine ⟨by rw [hq, hq], by rw [hq, hq], by simp [hq], ?_⟩
  refine ⟨faults.map (Fault.report (w.stop ts)), by rw [hq]; simp [heard], ?_, ?_⟩
  · rw [hq, heard, if_neg (Nat.succ_ne_zero d), (filter_reports _ _).2]
  · rw [(filter_reports _ _).1, hbegun, Returns.reports_eq]

theorem sameInBodies_of_mirrors {α : Type} {p : Parse α} {q : Walk α} {begun : Returns}
    (h : ∀ extra, Mirrors 0 extra p q) (hp : p.Traced begun) : SameInBodies q begun ts w d := by
  have hsteps : ∀ depth, Follows depth p q ts { w with depth := depth } :=
    fun depth => h depth ts _ (Nat.zero_add depth).symm
  obtain ⟨taken, htaken, -⟩ := hsteps 0
  apply sameInBodies_of_faults ((p (w.ahead ts)).reply.come (w.stop ts)) (w.passed + taken.length)
    (p (w.ahead ts)).noted _ (hp.noted _)
  intro depth
  obtain ⟨taken', htaken', hq⟩ := hsteps depth
  obtain rfl : taken = taken' := List.append_cancel_right (htaken.symm.trans htaken')
  exact hq

/-- A walk comes to an end where the step that it follows does. -/
theorem came_of_mirrors {α : Type} {p : Parse α} {q : Walk α}
    (h : ∀ extra, Mirrors 0 extra p q) (hp : (p (w.ahead ts)).reply ≠ .outOfFuel) :
    (q ts w).1 ≠ none := by
  obtain ⟨_, -, hq⟩ := h w.depth ts w (Nat.zero_add _).symm
  rw [hq]
  exact Reply.come_ne_none hp

end

/-- The bodies around play no part but for the reports of returns outside. From wherever a walker
stands it reads a declaration, the declarations up to a brace and those up to the end in bodies as
outside of all, and it comes to the end; and outside of all it reads to the end what the tokens from
there on are read as. -/
theorem nesting_only_reports_returns (ts : List Token) (w : Stand) (d : Nat) :
    (∀ fuel, SameInBodies (Walk.declaration fuel) (Returns.declaration fuel 0) ts w d) ∧
    (∀ fuel, SameInBodies (Walk.declarations fuel) (Returns.declarations fuel 0) ts w d) ∧
    SameInBodies Walk.program (fun us => Returns.program us.length us) ts w d ∧
    (Walk.declaration (fuelFor ts) ts w).1 ≠ none ∧
    (Walk.declarations (fuelFor ts) ts w).1 ≠ none ∧
    (Walk.program ts { w with depth := 0 }).1 =
      some (.ok (Reading.ofTokens program (ts.drop w.passed)).tree) ∧
    (Walk.program ts { w with depth := 0 }).2.reports =
      w.reports ++ (Reading.ofTokens program (ts.drop w.passed)).diagnostics := by
  have henough : 32 * (w.ahead ts).length + 14 ≤ fuelFor ts := by
    have hlength := w.ahead_length ts
    unfold fuelFor
    omega
  refine ⟨fun fuel => ?_, fun fuel => ?_, ?_, ?_, ?_, ?_, ?_⟩
  · exact sameInBodies_of_mirrors (fun extra => (statementMirrors extra fuel).declaration 0)
      ((statementTraced fuel).declaration 0)
  · exact sameInBodies_of_mirrors (fun extra => (statementMirrors extra fuel).declarations 0)
      ((statementTraced fuel).declarations 0)
  · exact sameInBodies_of_faults (some (.ok (program (ts.drop w.passed)).tree))
      (w.passed + (w.ahead ts).length) (program (ts.drop w.passed)).faults
      (fun depth => program_walked ts { w with depth := depth }) (programFrom_noted _ _)
  · exact came_of_mirrors (fun extra => (statementMirrors extra _).declaration 0)
      ((statementTakes _).declaration 0 _ (Nat.le_of_succ_le henough)).1.fueled
  · exact came_of_mirrors (fun extra => (statementMirrors extra _).declarations 0)
      ((statementTakes _).declarations 0 _ henough).fueled
  · rw [program_walked]
    rfl
  · rw [program_walked]
    rfl

end TreeWalk.Grammar
