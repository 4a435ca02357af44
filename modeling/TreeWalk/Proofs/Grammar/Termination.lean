import TreeWalk.Session
import TreeWalk.Proofs.Grammar.Fuel
import TreeWalk.Proofs.Grammar.Lookahead
import TreeWalk.Proofs.Grammar.Soundness

/-!
Parsing comes to an end on every list of tokens. No rule goes back, a declaration takes a token
also when it fails, and a program is read to the first end of input and no further: what stands
behind it changes nothing, and a list without an end of input is read as if one stood on line 0.
-/

namespace TreeWalk.Grammar

open TreeWalk.Grammar.Parse

variable {ts us : List Token}

/-! ## Rules with fuel enough -/

/-- On `ts` the rule `p` comes to the end `step`, and to no other with more fuel. -/
structure Settles {α : Type} (p : Nat → Parse α) (ts : List Token) (step : Step α) : Prop where
  replies : step.reply ≠ .outOfFuel
  suffix : step.rest <:+ ts
  same : ∀ fuel, fuelFor ts ≤ fuel → p fuel ts = step

theorem settles_of_continues {α : Type} {p : Nat → Parse α}
    (hp : ∀ fuel, fuelFor ts ≤ fuel → Continues (p (fuelFor ts)) (p fuel))
    (h : (p (fuelFor ts) ts).reply ≠ .outOfFuel) : Settles p ts (p (fuelFor ts) ts) :=
  ⟨h, (hp _ (Nat.le_refl _)).few ts, fun fuel hfuel => (hp fuel hfuel).same ts h⟩

/-- A declaration that comes to an end takes a token, whatever fuel it was given. -/
theorem declaration_shorter (fuel depth : Nat) (hts : ts ≠ [])
    (h : (declaration fuel depth ts).reply ≠ .outOfFuel) :
    (declaration fuel depth ts).rest.length < ts.length := by
  -- With fuel for all its tokens on top it does the same.
  have hmore : fuel ≤ fuel + fuelFor ts := Nat.le_add_right _ _
  have hsame := ((statementContinues hmore).declaration depth).same ts h
  have henough : 32 * ts.length + 13 ≤ fuel + fuelFor ts := by
    unfold fuelFor
    omega
  have htakes := ((statementTakes (fuel + fuelFor ts)).declaration depth ts henough).2 hts
  rwa [hsame] at htakes

/-- A program is read declaration after declaration to the end of its tokens. Each declaration
comes to an end and takes at least the token it begins with. -/
inductive ReadToEnd : List Token → Parsed (List Stmt) → Prop
  | done : ReadToEnd [] ⟨[], []⟩
  | next {t : Token} {ts rest : List Token} {first : Option Stmt} {noted : List Fault}
      {more : Parsed (List Stmt)} :
      Settles (declaration · 0) (t :: ts) ⟨.done first, rest, noted⟩ → rest <:+ ts →
      ReadToEnd rest more →
      ReadToEnd (t :: ts) ⟨first.toList ++ more.tree, noted ++ more.faults⟩

theorem programFrom_readToEnd (turns : Nat) (ts : List Token) (hturns : ts.length ≤ turns) :
    ReadToEnd ts (programFrom turns ts) := by
  induction turns generalizing ts with
  | zero =>
    obtain rfl : ts = [] := List.length_eq_zero_iff.1 (Nat.le_zero.1 hturns)
    exact .done
  | succ turns ih =>
    cases ts with
    | nil => exact .done
    | cons t ts =>
      have hne := List.cons_ne_nil t ts
      obtain ⟨first, rest, noted, hfirst, hsuffix, hshorter⟩ := declaration_done 0 hne
      have hsettles : Settles (declaration · 0) (t :: ts) ⟨.done first, rest, noted⟩ := by
        rw [← hfirst]
        apply settles_of_continues (p := fun fuel => declaration fuel 0)
        · exact fun _ hfuel => (statementContinues hfuel).declaration 0
        · rw [hfirst]
          rintro ⟨⟩
      have htail : rest <:+ ts := by
        rcases List.suffix_cons_iff.1 hsuffix with rfl | htail
        · exact absurd hshorter (Nat.lt_irrefl _)
        · exact htail
      have hrest : rest.length ≤ turns := by
        rw [List.length_cons] at hturns
        exact Nat.le_trans htail.length_le (Nat.le_of_succ_le_succ hturns)
      rw [programFrom_succ hne hfirst]
      exact .next hsettles htail (ih rest hrest)

/-- The ends that a single expression comes to. -/
inductive ReadAsOne (ts : List Token) : Parsed (Option Expr) → Prop
  | whole {value : Expr} {noted : List Fault} :
      Settles expression ts ⟨.done value, [], noted⟩ → ReadAsOne ts ⟨some value, noted⟩
  | surplus {value : Expr} {t : Token} {rest : List Token} {noted : List Fault} :
      Settles expression ts ⟨.done value, t :: rest, noted⟩ →
      ReadAsOne ts ⟨none, noted ++ [⟨some t, .surplusAfterExpression⟩]⟩
  | broken {fault : Fault} {rest : List Token} {noted : List Fault} :
      Settles expression ts ⟨.failed fault, rest, noted⟩ →
      ReadAsOne ts ⟨none, noted ++ [fault]⟩

theorem soleExpression_readAsOne (ts : List Token) :
    ReadAsOne (beforeEnd ts) (soleExpression ts) := by
  have hsettles : Settles expression (beforeEnd ts) _ :=
    settles_of_continues (fun _ hfuel => (expressionContinues hfuel).expression)
      (expression_fueled (beforeEnd ts))
  unfold soleExpression
  rcases hstep : expression (fuelFor (beforeEnd ts)) (beforeEnd ts) with ⟨reply, rest, noted⟩
  rw [hstep] at hsettles
  cases reply with
  | done value =>
    cases rest with
    | nil => exact .whole hsettles
    | cons t rest => exact .surplus hsettles
  | failed fault => exact .broken hsettles
  | outOfFuel => exact absurd rfl hsettles.replies

/-! ## The first end of input -/

theorem beforeEnd_split (ts : List Token) : Inner (beforeEnd ts) ∧
    ∃ after, ts = beforeEnd ts ++ after ∧ ∀ t ∈ after.head?, t.is .endOfInput = true := by
  refine ⟨?_, ts.dropWhile fun t => !t.is .endOfInput, List.takeWhile_append_dropWhile.symm, ?_⟩
  · intro t ht
    simpa using List.all_eq_true.1 List.all_takeWhile t ht
  · intro t ht
    have hhead := List.head?_dropWhile_not (fun t => !t.is .endOfInput) ts
    rw [Option.mem_def.1 ht] at hhead
    simpa using hhead

theorem beforeEnd_stop (hts : Inner ts) {stop : Token} (hstop : stop.is .endOfInput = true)
    (after : List Token) : beforeEnd (ts ++ stop :: after) = ts :=
  beforeEnd_append hts (.single stop (Token.is_iff.1 hstop)) after

theorem beforeEnd_inner (hts : Inner ts) : beforeEnd ts = ts := by
  induction ts with
  | nil => rfl
  | cons t ts ih =>
    obtain ⟨ht, hts⟩ := inner_cons.1 hts
    rw [beforeEnd, List.takeWhile_cons_of_pos (by simp [ht])]
    exact congrArg (t :: ·) (ih hts)

theorem find?_inner (hts : Inner ts) : ts.find? (Token.is .endOfInput) = none := by
  rw [List.find?_eq_none]
  intro t ht
  simp [hts t ht]

theorem stopToken_stop (hts : Inner ts) {stop : Token} (hstop : stop.is .endOfInput = true)
    (after : List Token) : stopToken (ts ++ stop :: after) = stop := by
  simp [stopToken, List.find?_append, find?_inner hts, hstop]

theorem stopToken_inner (hts : Inner ts) : stopToken ts = .endOfInput 0 := by
  rw [stopToken, find?_inner hts]
  rfl

theorem stopToken_is (ts : List Token) : (stopToken ts).is .endOfInput = true := by
  unfold stopToken
  cases h : ts.find? (Token.is .endOfInput) with
  | none => rfl
  | some stop => exact List.find?_some h

/-- A report at the end of the text has only the line of the end of input. -/
theorem report_stop {stop stop' : Token} (h : stop.is .endOfInput = true)
    (h' : stop'.is .endOfInput = true) (hline : stop.line = stop'.line) (f : Fault) :
    f.report stop = f.report stop' := by
  unfold Fault.report
  cases f.place with
  | none => simp [Report.syntacticAt, Token.location, h, h', hline]
  | some t => rfl

/-- What a list of tokens is read as rests on the tokens before its first end of input and on the
line of that. -/
theorem reading_ext {α : Type} {parse : List Token → Parsed α} (hparse : parse ts = parse us)
    (hline : (stopToken ts).line = (stopToken us).line) :
    Reading.ofTokens parse ts = Reading.ofTokens parse us := by
  have hreport : Fault.report (stopToken ts) = Fault.report (stopToken us) :=
    funext (report_stop (stopToken_is ts) (stopToken_is us) hline)
  simp only [Reading.ofTokens, Parsed.reports, hparse, hreport]

/-- Two lists are read alike, as a program and as a single expression. -/
def ReadAlike (ts us : List Token) : Prop :=
  Reading.ofTokens program ts = Reading.ofTokens program us ∧
    Reading.ofTokens soleExpression ts = Reading.ofTokens soleExpression us

theorem readAlike_of_beforeEnd (h : beforeEnd ts = beforeEnd us)
    (hline : (stopToken ts).line = (stopToken us).line) : ReadAlike ts us := by
  constructor
  · exact reading_ext (by rw [program, program, h]) hline
  · exact reading_ext (by rw [soleExpression, soleExpression, h]) hline

/-! ## Every list of tokens -/

/-- Parsing terminates and moves on. Every rule leaves a suffix of its tokens, with any fuel, and
more fuel only continues it; recovery skips a token and a declaration takes one, whenever there is
one. A program is read to its first end of input, a single expression comes to an end before it,
and neither rests on what stands behind. -/
theorem parsing_progresses :
    (∀ few many, few ≤ many →
      ExpressionContinues few many ∧ PartContinues few many ∧ StatementContinues few many) ∧
    (∀ ts, synchronize ts <:+ ts.tail) ∧
    (∀ fuel depth ts, ts ≠ [] → (declaration fuel depth ts).reply ≠ .outOfFuel →
      (declaration fuel depth ts).rest.length < ts.length) ∧
    (∀ ts, Inner (beforeEnd ts) ∧
      (∃ after, ts = beforeEnd ts ++ after ∧ ∀ t ∈ after.head?, t.is .endOfInput = true) ∧
      ReadToEnd (beforeEnd ts) (program ts) ∧ ReadAsOne (beforeEnd ts) (soleExpression ts)) ∧
    (∀ ts stop after after', Inner ts → stop.is .endOfInput = true →
      ReadAlike (ts ++ stop :: after) (ts ++ stop :: after')) ∧
    (∀ ts stop, Inner ts → stop.is .endOfInput = true → stop.line = 0 →
      ReadAlike ts (ts ++ [stop])) := by
  refine ⟨?_, synchronize_suffix, ?_, ?_, ?_, ?_⟩
  · exact fun few many h => ⟨expressionContinues h, partContinues h, statementContinues h⟩
  · exact fun fuel depth ts hts h => declaration_shorter fuel depth hts h
  · intro ts
    obtain ⟨hinner, hsplit⟩ := beforeEnd_split ts
    exact ⟨hinner, hsplit, programFrom_readToEnd _ _ (Nat.le_refl _),
      soleExpression_readAsOne ts⟩
  · intro ts stop after after' hts hstop
    apply readAlike_of_beforeEnd
    · rw [beforeEnd_stop hts hstop, beforeEnd_stop hts hstop]
    · rw [stopToken_stop hts hstop, stopToken_stop hts hstop]
  · intro ts stop hts hstop hline
    apply readAlike_of_beforeEnd
    · rw [beforeEnd_inner hts, beforeEnd_stop hts hstop]
    · rw [stopToken_inner hts, stopToken_stop hts hstop, hline]
      rfl

/-- The tokens of `fun f() { { var ; class`, which fails inside two blocks and is not closed. -/
def unclosedBody : List Token :=
  [⟨.symbol (.keyword .funWord), "fun", 1⟩, ⟨.symbol .identifier, "f", 1⟩,
    ⟨.symbol .leftParen, "(", 1⟩, ⟨.symbol .rightParen, ")", 1⟩,
    ⟨.symbol .leftBrace, "\x7b", 1⟩, ⟨.symbol .leftBrace, "\x7b", 2⟩,
    ⟨.symbol (.keyword .varWord), "var", 2⟩, ⟨.symbol .semicolon, ";", 2⟩,
    ⟨.symbol (.keyword .classWord), "class", 3⟩]

theorem unclosedBody_read :
    (declaration 64 0 unclosedBody).rest.length < unclosedBody.length ∧
    StatementContinues 8 64 ∧ ReadAlike unclosedBody (unclosedBody ++ [.endOfInput 0]) ∧
    ReadAlike (unclosedBody ++ .endOfInput 7 :: unclosedBody)
      (unclosedBody ++ [.endOfInput 7]) := by
  obtain ⟨hcontinues, -, hshorter, -, hafter, hstop⟩ := parsing_progresses
  have hinner : Inner unclosedBody := by simp [unclosedBody, Token.is]
  refine ⟨hshorter 64 0 unclosedBody (List.cons_ne_nil _ _) ?_, ?_, ?_, ?_⟩
  · rintro ⟨⟩
  · exact (hcontinues 8 64 (by decide)).2.2
  · exact hstop unclosedBody (.endOfInput 0) hinner rfl rfl
  · exact hafter unclosedBody (.endOfInput 7) unclosedBody [] hinner rfl

end TreeWalk.Grammar
