import TreeWalk.Proofs.Grammar.Walking

/-!
Where the declarations of a program begin. Whatever was read and found at fault before, a walker
stands there in no body, and reads on as one that begins there: the program is what was read so far
and the program from there on.
-/

namespace TreeWalk.Grammar

open Walk

/-- The stands from which a program goes on with another declaration, or at last to the end, and the
statements read on the way. -/
inductive Reaches (ts : List Token) : List Stmt → Stand → Prop
  | start : Reaches ts [] .fresh
  | next {statements : List Stmt} {first : Option Stmt} {w v : Stand} :
    Reaches ts statements w → w.atEnd ts = false →
    Walk.declaration (fuelFor ts) ts w = (some (.ok first), v) →
    Reaches ts (statements ++ first.toList) v

/-- `v` stands behind `w` as it would behind the beginning. -/
def Stand.behind (w v : Stand) : Stand :=
  ⟨w.passed + v.passed, v.depth, w.reports ++ v.reports⟩

namespace Walk

variable {ts : List Token} {w : Stand}

/-- A walk outside of all bodies only counts on what it has passed and reported. -/
theorem Mirrors.context_free {α : Type} {p : Parse α} {q : Walk α} (h : Mirrors 0 0 p q)
    (hw : w.depth = 0) :
    q ts w = ((q (ts.drop w.passed) .fresh).1, w.behind (q (ts.drop w.passed) .fresh).2) := by
  obtain ⟨taken, htaken, hq⟩ := h ts w hw
  obtain ⟨taken', htaken', hq'⟩ := h (ts.drop w.passed) .fresh rfl
  have hahead : Stand.fresh.ahead (ts.drop w.passed) = w.ahead ts := rfl
  have hstop : Stand.fresh.stop (ts.drop w.passed) = w.stop ts := rfl
  rw [hahead] at htaken' hq'
  rw [hstop] at hq'
  obtain rfl : taken = taken' := List.append_cancel_right (htaken.symm.trans htaken')
  rw [hq, hq']
  simp [Stand.behind, Stand.fresh, hw]

end Walk

theorem Reaches.depth {ts : List Token} {statements : List Stmt} {w : Stand}
    (h : Reaches ts statements w) : w.depth = 0 := by
  induction h with
  | start => rfl
  | next hw hend hfirst ih =>
    obtain ⟨first, v, noted, hdone, hturn⟩ := declaration_turns ih hend (fuelFor_ahead _ _)
    rw [hfirst] at hdone
    cases hdone
    exact hturn.depth.trans ih

/-- What has been read and reported, and what is read and reported from there on. -/
theorem Reaches.reading {ts : List Token} {statements : List Stmt} {w : Stand}
    (h : Reaches ts statements w) : Reading.ofTokens program ts =
      ⟨statements ++ (Reading.ofTokens program (ts.drop w.passed)).tree,
        w.reports ++ (Reading.ofTokens program (ts.drop w.passed)).diagnostics⟩ := by
  induction h with
  | start => rfl
  | @next statements first w v hw hend hfirst ih =>
    obtain ⟨first, v, noted, hdone, hturn⟩ :=
      declaration_turns hw.depth hend (fuelFor_ahead _ _)
    rw [hfirst] at hdone
    cases hdone
    have hstop : stopToken (ts.drop v.passed) = stopToken (ts.drop w.passed) := hturn.stop
    rw [ih]
    simp only [Reading.ofTokens, Parsed.reports, hturn.program, hturn.reports, hstop, heard,
      if_pos, List.map_append, List.append_assoc]
    rfl

theorem Walk.program_stays {ts : List Token} {w : Stand} (h : w.ahead ts = []) :
    (Walk.program ts w).2 = w := by
  rw [program_walked, program_atEnd h, h]
  simp

/-- From every such stand the end is reached, where the walker comes to in the end. -/
theorem Reaches.toEnd {ts : List Token} {statements : List Stmt} {w : Stand}
    (h : Reaches ts statements w) :
    Reaches ts (statements ++ (program (ts.drop w.passed)).tree) (Walk.program ts w).2 ∧
      (Walk.program ts w).2.atEnd ts = true := by
  -- Each declaration leaves fewer tokens ahead.
  induction hlength : (w.ahead ts).length using Nat.strongRecOn
    generalizing statements w with
  | _ length ih =>
    subst hlength
    cases hend : w.atEnd ts with
    | true =>
      have hahead : w.ahead ts = [] := by simpa [Stand.atEnd_eq] using hend
      rw [program_stays hahead, program_atEnd hahead, List.append_nil]
      exact ⟨h, hend⟩
    | false =>
      obtain ⟨first, v, noted, hfirst, hturn⟩ := declaration_turns rfl hend (fuelFor_ahead _ _)
      have hmore := ih _ hturn.shorter (h.next hend hfirst) rfl
      rw [hturn.program_end, List.append_assoc] at hmore
      rw [hturn.program]
      exact hmore

/-- A program is read declaration by declaration to its end. Wherever one begins, whatever faults
there were before, the walker stands in no body; what the program is read as is what was read and
reported so far and what the tokens from there on are read as; and the next declaration is read
there as it is by a walker that begins with it. -/
theorem declarations_context_free (ts : List Token) :
    (∃ w, Reaches ts (Reading.ofTokens program ts).tree w ∧ w.atEnd ts = true ∧
      w.reports = (Reading.ofTokens program ts).diagnostics ∧
      Walk.program ts .fresh = (some (.ok (Reading.ofTokens program ts).tree), w)) ∧
    ∀ statements w, Reaches ts statements w → w.depth = 0 ∧
      Reading.ofTokens program ts =
        ⟨statements ++ (Reading.ofTokens program (ts.drop w.passed)).tree,
          w.reports ++ (Reading.ofTokens program (ts.drop w.passed)).diagnostics⟩ ∧
      ∀ fuel, Walk.declaration fuel ts w =
        ((Walk.declaration fuel (ts.drop w.passed) .fresh).1,
          w.behind (Walk.declaration fuel (ts.drop w.passed) .fresh).2) := by
  constructor
  · have hstart : Reaches ts [] .fresh := .start
    obtain ⟨hreaches, hend⟩ := hstart.toEnd
    have hwalked := program_walked ts .fresh
    refine ⟨(Walk.program ts .fresh).2, hreaches, hend, ?_, ?_⟩
    · rw [hwalked]
      rfl
    · rw [hwalked]
      rfl
  · intro statements w hw
    refine ⟨hw.depth, hw.reading, fun fuel => ?_⟩
    exact ((statementMirrors 0 fuel).declaration 0).context_free hw.depth

/-- The tokens of `fun f() { var ; } return f;`, with a fault in the body and a `return` outside. -/
def brokenBody : List Token :=
  [⟨.symbol (.keyword .funWord), "fun", 1⟩, ⟨.symbol .identifier, "f", 1⟩,
    ⟨.symbol .leftParen, "(", 1⟩, ⟨.symbol .rightParen, ")", 1⟩, ⟨.symbol .leftBrace, "\x7b", 1⟩,
    ⟨.symbol (.keyword .varWord), "var", 1⟩, ⟨.symbol .semicolon, ";", 1⟩,
    ⟨.symbol .rightBrace, "\x7d", 1⟩, ⟨.symbol (.keyword .returnWord), "return", 2⟩,
    ⟨.symbol .identifier, "f", 2⟩, ⟨.symbol .semicolon, ";", 2⟩, .endOfInput 3]

def brokenFunction : Stmt := .funDecl ⟨⟨.symbol .identifier, "f", 1⟩, [], []⟩

def missingName : Report := .syntactic "Expected variable name" " at ';'" 1

/-- Behind the function the walker stands in no body, so that the `return` is reported. -/
theorem brokenBody_outside :
    Reaches brokenBody [brokenFunction] ⟨8, 0, [missingName]⟩ ∧
    Reading.ofTokens program brokenBody =
      ⟨brokenFunction :: (Reading.ofTokens program (brokenBody.drop 8)).tree,
        missingName :: (Reading.ofTokens program (brokenBody.drop 8)).diagnostics⟩ ∧
    (Reading.ofTokens program (brokenBody.drop 8)).diagnostics =
      [.syntactic "Can't return from top-level code" " at 'return'" 2] := by
  have hreaches : Reaches brokenBody ([] ++ (some brokenFunction).toList) ⟨8, 0, [missingName]⟩ :=
    .next .start rfl rfl
  obtain ⟨-, hreading, -⟩ := (declarations_context_free brokenBody).2 _ _ hreaches
  exact ⟨hreaches, hreading, rfl⟩

end TreeWalk.Grammar
