import TreeWalk.Proofs.Grammar.Completeness

/-!
Single expressions and `print` statements. Tokens are a single expression if and only if they are a
program of one statement once `print` stands before them and a semicolon behind.
-/

namespace TreeWalk.Grammar

open TreeWalk.Grammar.Derivation

variable {ts : List Token}

theorem soleExpression_eq_iff (hts : Inner ts) (stop : Terminal [.endOfInput]) {e : Expr} :
    soleExpression (ts ++ [stop.token]) = ⟨some e, []⟩ ↔
      ∃ d : Expression, d.yield = ts ∧ d.tree = e ∧ d.Regular := by
  constructor
  · intro h
    rw [soleExpression, beforeEnd_append hts] at h
    rcases hstep : expression (fuelFor ts) ts with ⟨value | fault | _, rest, noted⟩ <;>
      rw [hstep] at h
    · cases rest with
      | nil =>
        cases h
        obtain ⟨d, hd, htree, hregular⟩ := (expressionSound _).expression hstep
        exact ⟨d, by simp [hd], htree.symm, hregular⟩
      | cons t rest => cases h
    · cases h
    · cases h
  · rintro ⟨d, rfl, rfl, hregular⟩
    exact soleExpression_of_derivation d stop [] hregular

theorem program_eq_iff (hts : Inner ts) (stop : Terminal [.endOfInput]) {statement : Stmt} :
    program (ts ++ [stop.token]) = ⟨[statement], []⟩ ↔
      ∃ d : Declaration, d.yield = ts ∧ d.tree = statement ∧ d.Regular 0 := by
  constructor
  · intro h
    obtain ⟨d, hd, htrees, hregular⟩ :=
      programFrom_sound _ _ (Nat.le_refl _) (congrArg Parsed.faults h)
    replace htrees : d.trees = [statement] := htrees.trans (congrArg Parsed.tree h)
    rw [beforeEnd_append hts] at hd
    rcases d with _ | ⟨first, _ | ⟨second, more⟩⟩
    · cases htrees
    · cases htrees
      exact ⟨first, by simpa [Declarations.yield] using hd, rfl, hregular.1⟩
    · cases htrees
  · rintro ⟨d, rfl, rfl, hregular⟩
    have h := program_of_derivation (.next d .done) stop [] ⟨hregular, trivial⟩
    simpa [Declarations.yield, Declarations.trees] using h

/-- Only a `print` statement begins with the keyword. -/
theorem Derivation.Declaration.print_of_nextIs {d : Declaration}
    (h : nextIs [.keyword .printWord] d.yield = true) :
    ∃ keyword statement, d = .statement (.print keyword statement) := by
  have hother : ∀ {symbols : List Symbol} (t : Terminal symbols) (ts : List Token),
      d.yield = t.token :: ts → ¬ ∀ s ∈ symbols, s ∉ [Symbol.keyword .printWord] := by
    intro symbols t ts hd hsymbols
    rw [hd, nextIs_terminal_of_disjoint t ts hsymbols] at h
    cases h
  cases d with
  | classDecl head methods closing => exact (hother head.keyword _ rfl (by decide)).elim
  | funDecl keyword function => exact (hother keyword _ rfl (by decide)).elim
  | varDecl declaration => exact (hother declaration.keyword _ rfl (by decide)).elim
  | statement statement =>
    cases statement with
    | expression statement =>
      have hnot : nextIs [.keyword .printWord] statement.yield = false :=
        statement.value.beginsWith.nextIs_append _ (by decide)
      exact absurd (h.symm.trans hnot) (by decide)
    | forLoop head body => exact (hother head.keyword _ rfl (by decide)).elim
    | ifThen guard thenBranch => exact (hother guard.keyword _ rfl (by decide)).elim
    | ifElse guard thenBranch keyword elseBranch =>
      exact (hother guard.keyword _ rfl (by decide)).elim
    | print keyword statement => exact ⟨keyword, statement, rfl⟩
    | returnValue keyword value semicolon => exact (hother keyword _ rfl (by decide)).elim
    | whileLoop guard body => exact (hother guard.keyword _ rfl (by decide)).elim
    | block block =>
      obtain ⟨opening, body, closing⟩ := block
      exact (hother opening _ rfl (by decide)).elim

/-- One statement that begins with `print` and ends with a semicolon prints the single expression
between them. -/
theorem program_printed_iff (hts : Inner ts) (keyword : Terminal [.keyword .printWord])
    (semicolon : Terminal [.semicolon]) (stop stop' : Terminal [.endOfInput]) {statement : Stmt} :
    program (keyword.token :: (ts ++ [semicolon.token]) ++ [stop.token]) = ⟨[statement], []⟩ ↔
      ∃ e, statement = .print e ∧ soleExpression (ts ++ [stop'.token]) = ⟨some e, []⟩ := by
  have hinner : Inner (keyword.token :: (ts ++ [semicolon.token])) := by simp [hts]
  simp only [program_eq_iff hinner, soleExpression_eq_iff hts]
  constructor
  · rintro ⟨d, hd, rfl, hregular⟩
    have hfirst : nextIs [.keyword .printWord] d.yield = true := hd ▸ nextIs_terminal keyword _
    obtain ⟨keyword', ⟨value, semicolon'⟩, rfl⟩ := d.print_of_nextIs hfirst
    have hyield : value.yield ++ [semicolon'.token] = ts ++ [semicolon.token] :=
      (List.cons.inj hd).2
    exact ⟨value.tree, rfl, value, List.append_inj_left' hyield rfl, rfl, hregular⟩
  · rintro ⟨e, rfl, value, rfl, rfl, hregular⟩
    exact ⟨.statement (.print keyword ⟨value, semicolon⟩), rfl, rfl, hregular⟩

end TreeWalk.Grammar
