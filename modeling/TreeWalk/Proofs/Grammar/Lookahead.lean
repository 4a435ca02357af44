import TreeWalk.Proofs.Grammar.Derivation
import TreeWalk.Proofs.Grammar.Reads

/-!
First and follow sets. One token decides between the alternatives of each rule: the symbols that
begin an expression or a declaration are none of those that the rules around it look for, and what
ends a chain of one tier begins no operand of a tighter one. No yield holds an end of input.
-/

namespace TreeWalk.Grammar

open TreeWalk.Grammar.Derivation

theorem Derivation.Terminal.kind_eq {s : Symbol} (t : Terminal [s]) : t.token.kind = .symbol s := by
  obtain ⟨s', hs, hk⟩ := t.isOne
  rw [hk, List.mem_singleton.1 hs]

theorem nextIs_terminal {symbols : List Symbol} (t : Terminal symbols) (ts : List Token) :
    nextIs symbols (t.token :: ts) = true :=
  nextIs_cons.2 t.isOne

/-- A token of some symbols is none of others. -/
theorem nextIs_terminal_of_disjoint {symbols others : List Symbol} (t : Terminal symbols)
    (ts : List Token) (h : ∀ s ∈ symbols, s ∉ others) : nextIs others (t.token :: ts) = false := by
  obtain ⟨s, hs, hk⟩ := t.isOne
  rw [nextIs_of_kind hk]
  simpa using h s hs

/-! ## What begins an expression -/

def primaryFirst : List Symbol :=
  [.keyword .trueWord, .keyword .falseWord, .keyword .nilWord, .identifier, .leftParen]

def expressionFirst : List Symbol := unaryOperators ++ primaryFirst

/-- The yield begins with a literal of no symbol or with one of the symbols. -/
def BeginsWith (symbols : List Symbol) (yield : List Token) : Prop :=
  ∃ t ts, yield = t :: ts ∧ ∀ s, t.kind = .symbol s → s ∈ symbols

theorem BeginsWith.append {symbols : List Symbol} {yield : List Token}
    (h : BeginsWith symbols yield) (more : List Token) : BeginsWith symbols (yield ++ more) := by
  obtain ⟨t, ts, rfl, hs⟩ := h
  exact ⟨t, ts ++ more, rfl, hs⟩

theorem BeginsWith.mono {few many : List Symbol} {yield : List Token} (h : BeginsWith few yield)
    (hsub : few ⊆ many) : BeginsWith many yield := by
  obtain ⟨t, ts, rfl, hs⟩ := h
  exact ⟨t, ts, rfl, fun s hk => hsub (hs s hk)⟩

theorem beginsWith_terminal {symbols many : List Symbol} (t : Terminal symbols) (ts : List Token)
    (hsub : symbols ⊆ many) : BeginsWith many (t.token :: ts) := by
  obtain ⟨s, hs, hk⟩ := t.isOne
  refine ⟨t.token, ts, rfl, ?_⟩
  intro s' hk'
  rw [hk] at hk'
  cases hk'
  exact hsub hs

theorem BeginsWith.nextIs_append {symbols others : List Symbol} {yield : List Token}
    (h : BeginsWith symbols yield) (rest : List Token) (hd : ∀ s ∈ others, s ∉ symbols) :
    nextIs others (yield ++ rest) = false := by
  obtain ⟨t, ts, rfl, hs⟩ := h
  rw [List.cons_append, Bool.eq_false_iff, Ne, nextIs_cons]
  rintro ⟨s, hmem, hk⟩
  exact hd s hmem (hs s hk)

theorem Derivation.Primary.beginsWith (d : Primary) : BeginsWith primaryFirst d.yield := by
  cases d with
  | literal token =>
    obtain ⟨t, value, hw⟩ := token
    refine ⟨t, [], rfl, ?_⟩
    intro s hk
    change Writes t.kind value at hw
    rw [hk] at hw
    cases hw <;> decide
  | name name => exact beginsWith_terminal name [] (by decide)
  | group opening inner closing => exact beginsWith_terminal opening _ (by decide)

theorem Derivation.Unary.beginsWith (d : Unary) : BeginsWith expressionFirst d.yield := by
  cases d with
  | operation operator right =>
    exact beginsWith_terminal operator _ (List.subset_append_left _ _)
  | call callee calls =>
    exact (callee.beginsWith.append _).mono (List.subset_append_right _ _)

theorem Derivation.Tiered.beginsWith :
    ∀ {tiers : List Tier} (d : Tiered tiers), BeginsWith expressionFirst d.yield
  | _, .unary operand => operand.beginsWith
  | _, .chain first more => first.beginsWith.append more.yield

theorem Derivation.Expression.beginsWith (d : Expression) :
    BeginsWith expressionFirst d.yield := by
  cases d with
  | assign name equals value => exact beginsWith_terminal name _ (by decide)
  | tiered operand => exact operand.beginsWith

theorem Derivation.Arguments.beginsWith (d : Arguments) :
    BeginsWith expressionFirst d.yield := by
  cases d with
  | one value => exact value.beginsWith
  | more value comma rest => exact value.beginsWith.append _

/-! ## What ends an expression -/

/-- What goes on with an expression of the tiers, so that none of it may follow one. -/
def stops (tiers : List Tier) : List Symbol := .leftParen :: tiers.flatMap Tier.operators

def expressionStops : List Symbol := .equal :: stops Tier.ladder

theorem Tier.operators_disjoint (t u : Tier) : t ≠ u → ∀ s ∈ t.operators, s ∉ u.operators := by
  cases t <;> cases u <;> decide

theorem Tier.not_mem_stops {s : Symbol} {tier : Tier} {tighter : List Tier}
    (hs : s ∈ tier.operators) (htier : tier ∉ tighter) : s ∉ stops tighter := by
  rw [stops, List.mem_cons, List.mem_flatMap]
  rintro (rfl | ⟨other, hother, hs'⟩)
  · cases tier <;> simp [operators] at hs
  · have hne : tier ≠ other := by
      rintro rfl
      exact htier hother
    exact Tier.operators_disjoint tier other hne s hs hs'

/-- Behind an operand stands an operator of its tier or what follows the chain. -/
theorem Derivation.Chain.nextIs_yield {tier : Tier} {tighter : List Tier} (d : Chain tier tighter)
    {rest : List Token} (htier : tier ∉ tighter)
    (hrest : nextIs (stops (tier :: tighter)) rest = false) :
    nextIs (stops tighter) (d.yield ++ rest) = false := by
  cases d with
  | done =>
    refine nextIs_mono ?_ hrest
    simp only [stops, List.flatMap_cons]
    exact List.cons_subset_cons _ (List.subset_append_right _ _)
  | next operator right more =>
    refine nextIs_terminal_of_disjoint operator _ fun s hs => Tier.not_mem_stops ?_ htier
    rwa [← levelOperators_eq]

/-! ## What begins a declaration -/

def statementFirst : List Symbol :=
  [.keyword .forWord, .keyword .ifWord, .keyword .whileWord, .keyword .returnWord, .leftBrace,
    .keyword .printWord] ++ expressionFirst

def declarationFirst : List Symbol :=
  [.keyword .classWord, .keyword .funWord, .keyword .varWord] ++ statementFirst

theorem Derivation.ExprStmt.beginsWith (d : ExprStmt) : BeginsWith expressionFirst d.yield :=
  d.value.beginsWith.append _

theorem Derivation.Statement.beginsWith (d : Statement) : BeginsWith statementFirst d.yield := by
  cases d with
  | expression statement => exact statement.beginsWith.mono (List.subset_append_right _ _)
  | forLoop head body => exact beginsWith_terminal head.keyword _ (by decide)
  | ifThen guard thenBranch => exact beginsWith_terminal guard.keyword _ (by decide)
  | ifElse guard thenBranch keyword elseBranch =>
    exact beginsWith_terminal guard.keyword _ (by decide)
  | print keyword statement => exact beginsWith_terminal keyword _ (by decide)
  | returnValue keyword value semicolon => exact beginsWith_terminal keyword _ (by decide)
  | whileLoop guard body => exact beginsWith_terminal guard.keyword _ (by decide)
  | block block =>
    obtain ⟨opening, body, closing⟩ := block
    exact beginsWith_terminal opening _ (by decide)

theorem Derivation.Declaration.beginsWith (d : Declaration) :
    BeginsWith declarationFirst d.yield := by
  cases d with
  | classDecl head methods closing => exact beginsWith_terminal head.keyword _ (by decide)
  | funDecl keyword function => exact beginsWith_terminal keyword _ (by decide)
  | varDecl declaration => exact beginsWith_terminal declaration.keyword _ (by decide)
  | statement statement => exact statement.beginsWith.mono (List.subset_append_right _ _)

/-! ## No end of input inside -/

def Inner (ts : List Token) : Prop := ∀ t ∈ ts, t.is .endOfInput = false

@[simp] theorem inner_nil : Inner [] := by
  intro t ht
  cases ht

@[simp] theorem inner_append {ts us : List Token} : Inner (ts ++ us) ↔ Inner ts ∧ Inner us := by
  simp only [Inner, List.mem_append]
  constructor
  · exact fun h => ⟨fun t ht => h t (.inl ht), fun t ht => h t (.inr ht)⟩
  · rintro ⟨hts, hus⟩ t (ht | ht)
    · exact hts t ht
    · exact hus t ht

@[simp] theorem inner_cons {t : Token} {ts : List Token} :
    Inner (t :: ts) ↔ t.is .endOfInput = false ∧ Inner ts := by
  simp [Inner]

@[simp] theorem Derivation.endOfInput_not_mem_levelOperators (tier : Tier) :
    .endOfInput ∉ levelOperators tier := by
  cases tier <;> decide

@[simp] theorem Derivation.endOfInput_not_mem_signs : .endOfInput ∉ signs := by
  decide

@[simp] theorem Derivation.Terminal.inner {symbols : List Symbol} (t : Terminal symbols)
    (h : .endOfInput ∉ symbols) : t.token.is .endOfInput = false := by
  obtain ⟨s, hs, hk⟩ := t.isOne
  rw [Bool.eq_false_iff, Ne, Token.is_iff, hk]
  rintro ⟨⟩
  exact h hs

@[simp] theorem Derivation.LiteralToken.inner (d : LiteralToken) :
    d.token.is .endOfInput = false := by
  rw [Bool.eq_false_iff, Ne, Token.is_iff]
  intro hk
  have hw := d.writes
  rw [hk] at hw
  cases hw

mutual

theorem Derivation.Expression.inner : ∀ d : Expression, Inner d.yield
  | .assign name equals value => by simp [Expression.yield, value.inner]
  | .tiered operand => operand.inner

theorem Derivation.Tiered.inner : ∀ {tiers : List Tier} (d : Tiered tiers), Inner d.yield
  | _, .unary operand => operand.inner
  | _, .chain first more => by simp [Tiered.yield, first.inner, more.inner]

theorem Derivation.Chain.inner :
    ∀ {tier : Tier} {tighter : List Tier} (d : Chain tier tighter), Inner d.yield
  | _, _, .done => inner_nil
  | _, _, .next operator right more => by simp [Chain.yield, right.inner, more.inner]

theorem Derivation.Unary.inner : ∀ d : Unary, Inner d.yield
  | .operation operator right => by simp [Unary.yield, right.inner]
  | .call callee calls => by simp [Unary.yield, callee.inner, calls.inner]

theorem Derivation.Calls.inner : ∀ d : Calls, Inner d.yield
  | .done => inner_nil
  | .bare opening closing more => by simp [Calls.yield, more.inner]
  | .passing opening arguments closing more => by
    simp [Calls.yield, arguments.inner, more.inner]

theorem Derivation.Arguments.inner : ∀ d : Arguments, Inner d.yield
  | .one value => value.inner
  | .more value comma rest => by simp [Arguments.yield, value.inner, rest.inner]

theorem Derivation.Primary.inner : ∀ d : Primary, Inner d.yield
  | .literal token => by simp [Primary.yield]
  | .name name => by simp [Primary.yield]
  | .group opening inner closing => by simp [Primary.yield, inner.inner]

end

theorem Derivation.Parameters.inner (d : Parameters) : Inner d.yield := by
  induction d with
  | one name => simp [Parameters.yield]
  | more name comma rest ih => simp [Parameters.yield, ih]

theorem inner_elim (o : Option Expression) : Inner (o.elim [] Expression.yield) := by
  cases o with
  | none => exact inner_nil
  | some d => exact d.inner

theorem Derivation.VarDecl.inner (d : VarDecl) : Inner d.yield := by
  obtain ⟨keyword, name, initial, semicolon⟩ := d
  cases initial with
  | none => simp [VarDecl.yield]
  | some i => simp [VarDecl.yield, i.2.inner]

theorem Derivation.ExprStmt.inner (d : ExprStmt) : Inner d.yield := by
  simp [ExprStmt.yield, d.value.inner]

theorem Derivation.ForHead.inner (d : ForHead) : Inner d.yield := by
  have hstart : Inner d.start.yield := by
    cases d.start with
    | absent semicolon => simp [ForStart.yield]
    | varDecl declaration => exact declaration.inner
    | exprStmt statement => exact statement.inner
  simp [ForHead.yield, hstart, inner_elim]

theorem Derivation.Guard.inner {word : Keyword} (d : Guard word) : Inner d.yield := by
  simp [Guard.yield, d.condition.inner]

theorem Derivation.ClassHead.inner (d : ClassHead) : Inner d.yield := by
  obtain ⟨keyword, name, superclass, opening⟩ := d
  cases superclass <;> simp [ClassHead.yield]

theorem Derivation.FunctionHead.inner (d : FunctionHead) : Inner d.yield := by
  obtain ⟨name, opening, parameters, closing⟩ := d
  cases parameters with
  | none => simp [FunctionHead.yield]
  | some names => simp [FunctionHead.yield, names.inner]

mutual

theorem Derivation.Declaration.inner : ∀ d : Declaration, Inner d.yield
  | .classDecl head methods closing => by simp [Declaration.yield, head.inner, methods.inner]
  | .funDecl keyword function => by simp [Declaration.yield, function.inner]
  | .varDecl declaration => declaration.inner
  | .statement statement => statement.inner

theorem Derivation.Methods.inner : ∀ d : Methods, Inner d.yield
  | .done => inner_nil
  | .next method more => by simp [Methods.yield, method.inner, more.inner]

theorem Derivation.Function.inner : ∀ d : Derivation.Function, Inner d.yield
  | .mk head body => by simp [Function.yield, head.inner, body.inner]

theorem Derivation.Block.inner : ∀ d : Block, Inner d.yield
  | .mk opening body closing => by simp [Block.yield, body.inner]

theorem Derivation.Declarations.inner : ∀ d : Declarations, Inner d.yield
  | .done => inner_nil
  | .next first more => by simp [Declarations.yield, first.inner, more.inner]

theorem Derivation.Statement.inner : ∀ d : Statement, Inner d.yield
  | .expression statement => statement.inner
  | .forLoop head body => by simp [Statement.yield, head.inner, body.inner]
  | .ifThen guard thenBranch => by simp [Statement.yield, guard.inner, thenBranch.inner]
  | .ifElse guard thenBranch keyword elseBranch => by
    simp [Statement.yield, guard.inner, thenBranch.inner, elseBranch.inner]
  | .print keyword statement => by simp [Statement.yield, statement.inner]
  | .returnValue keyword value semicolon => by simp [Statement.yield, inner_elim]
  | .whileLoop guard body => by simp [Statement.yield, guard.inner, body.inner]
  | .block block => block.inner

end

/-- The tokens before the first end of input, where it stands right behind a yield. -/
theorem beforeEnd_append {ts : List Token} (h : Inner ts) (stop : Terminal [.endOfInput])
    (after : List Token) : beforeEnd (ts ++ stop.token :: after) = ts := by
  have hstop : stop.token.is .endOfInput = true := Token.is_iff.2 stop.kind_eq
  rw [beforeEnd, List.takeWhile_append_of_pos (by simpa [Inner] using h)]
  simp [hstop]

end TreeWalk.Grammar
