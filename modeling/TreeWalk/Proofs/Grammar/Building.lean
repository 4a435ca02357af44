import TreeWalk.Proofs.Grammar.Progress

/-!
What the parser builds. It makes trees out of the tokens it was given, and its faults stand at such
tokens or at the end, through recovery and behind the end. So any property of trees that is kept
by each way to build one holds of all trees that are parsed, on every list of tokens and whatever
faults are noted on the way.
-/

namespace TreeWalk

def Token.OneOf (symbols : List Symbol) (t : Token) : Prop := ∃ s ∈ symbols, t.kind = .symbol s

theorem Token.OneOf.mono {few many : List Symbol} {t : Token} (h : t.OneOf few)
    (hsub : few ⊆ many) : t.OneOf many := by
  obtain ⟨s, hs, hkind⟩ := h
  exact ⟨s, hsub hs, hkind⟩

def Token.IsName (t : Token) : Prop := t.kind = .symbol .identifier

namespace Expr

/-- How tightly an expression with a sign or a `!` before it holds together. -/
def unaryTightness : Nat := 7

def callTightness : Nat := 8

/-- That of a literal, a name or an expression in parentheses. -/
def primaryTightness : Nat := 9

end Expr

namespace Grammar

namespace Tier

def level : Tier → Nat
  | disjunction => 1
  | conjunction => 2
  | equality => 3
  | comparison => 4
  | sum => 5
  | product => 6

/-- What the operands of the first of the tiers need, or those of none. -/
def floor : List Tier → Nat
  | [] => Expr.unaryTightness
  | tier :: _ => tier.level

/-- Tiers that each hold tighter than those before. -/
def Ascending (tiers : List Tier) : Prop := tiers.Pairwise fun t u => t.level < u.level

theorem ascending_ladder : Ascending ladder := by
  unfold Ascending
  decide

theorem level_lt_floor {tier : Tier} {tighter : List Tier} (h : Ascending (tier :: tighter)) :
    tier.level < floor tighter := by
  cases tighter with
  | nil => cases tier <;> decide
  | cons next _ => exact (List.pairwise_cons.1 h).1 next List.mem_cons_self

end Tier

/-! ## Steps that draw on the tokens -/

/-- The fault stands at a token with `T`, or at the end. -/
def Fault.On (T : Token → Prop) (f : Fault) : Prop := ∀ t ∈ f.place, T t

namespace Parse

variable {α β : Type} {T : Token → Prop} {P : α → Prop} {Q : β → Prop}

/-- The value has `P`, or the fault stands at a token with `T`. -/
def Drawn (T : Token → Prop) (P : α → Prop) : Reply α → Prop
  | .done a => P a
  | .failed fault => fault.On T
  | .outOfFuel => True

/-- Among tokens with `T` the step stays among them: those it leaves and those that its faults
stand at have `T`, and the value it replies with has `P`. -/
def Draws (T : Token → Prop) (P : α → Prop) (p : Parse α) : Prop :=
  ∀ ts : List Token, (∀ t ∈ ts, T t) → Drawn T P (p ts).reply ∧ (∀ t ∈ (p ts).rest, T t) ∧
    ∀ f ∈ (p ts).noted, f.On T

theorem on_head {ts : List Token} (hts : ∀ t ∈ ts, T t) (problem : Problem) :
    Fault.On T ⟨ts.head?, problem⟩ := fun t ht => hts t (List.mem_of_mem_head? ht)

theorem on_some {t : Token} (ht : T t) (problem : Problem) : Fault.On T ⟨some t, problem⟩ := by
  rintro _ ⟨⟩
  exact ht

theorem draws_pure {a : α} (ha : P a) : Draws T P (Pure.pure a) := by
  intro ts hts
  exact ⟨ha, hts, List.forall_mem_nil _⟩

theorem draws_outOfFuel : Draws T P outOfFuel := fun _ hts => ⟨trivial, hts, List.forall_mem_nil _⟩

theorem draws_fail (problem : Problem) : Draws T P (fail problem) := fun _ hts =>
  ⟨on_head hts problem, hts, List.forall_mem_nil _⟩

theorem Draws.bind {p : Parse α} {f : α → Parse β} (hp : Draws T P p)
    (hf : ∀ a, P a → Draws T Q (f a)) : Draws T Q (p >>= f) := by
  intro ts hts
  obtain ⟨hreply, hrest, hnoted⟩ := hp ts hts
  rw [bind_apply]
  rcases hstep : p ts with ⟨reply, rest, noted⟩
  rw [hstep] at hreply hrest hnoted
  cases reply with
  | done a =>
    obtain ⟨hreply', hrest', hmore⟩ := hf a hreply rest hrest
    exact ⟨hreply', hrest', List.forall_mem_append.2 ⟨hnoted, hmore⟩⟩
  | failed fault => exact ⟨hreply, hrest, hnoted⟩
  | outOfFuel => exact ⟨trivial, hrest, hnoted⟩

theorem Draws.weaken {P' : α → Prop} {p : Parse α} (h : Draws T P p) (hP : ∀ a, P a → P' a) :
    Draws T P' p := by
  intro ts hts
  obtain ⟨hreply, hrest, hnoted⟩ := h ts hts
  refine ⟨?_, hrest, hnoted⟩
  cases hstep : (p ts).reply with
  | done a => exact hP a (by rwa [hstep] at hreply)
  | failed fault => exact (by rwa [hstep] at hreply)
  | outOfFuel => trivial

theorem draws_note {fault : Fault} (h : fault.On T) : Draws T (fun _ => True) (note fault) :=
  fun _ hts => ⟨trivial, hts, List.forall_mem_singleton.2 h⟩

theorem draws_noteHere (problem : Problem) : Draws T (fun _ => True) (noteHere problem) :=
  fun _ hts => ⟨trivial, hts, List.forall_mem_singleton.2 (on_head hts problem)⟩

theorem Draws.noting {c : Prop} [Decidable c] {m : Parse Unit} {p : Parse α}
    (hm : Draws T (fun _ => True) m) (hp : Draws T P p) :
    Draws T P (if c then m >>= fun _ => p else p) := by
  split
  · exact hm.bind fun _ _ => hp
  · exact hp

theorem draws_sees (symbols : List Symbol) : Draws T (fun _ => True) (sees symbols) := by
  intro ts hts
  cases ts with
  | nil => exact ⟨trivial, hts, List.forall_mem_nil _⟩
  | cons t ts => exact ⟨trivial, hts, List.forall_mem_nil _⟩

theorem draws_atEnd : Draws T (fun _ => True) atEnd := fun _ hts =>
  ⟨trivial, hts, List.forall_mem_nil _⟩

theorem draws_peek : Draws T (fun o => ∀ t ∈ o, T t) peek := fun _ hts =>
  ⟨fun t ht => hts t (List.mem_of_mem_head? ht), hts, List.forall_mem_nil _⟩

theorem draws_skip : Draws T (fun _ => True) skip := fun _ hts =>
  ⟨trivial, fun t ht => hts t (List.mem_of_mem_tail ht), List.forall_mem_nil _⟩

theorem draws_accept (symbols : List Symbol) :
    Draws T (fun o => ∀ t ∈ o, T t ∧ t.OneOf symbols) (accept symbols) := by
  intro ts hts
  rw [accept_eq]
  cases hnext : nextIs symbols ts with
  | false => exact ⟨nofun, hts, List.forall_mem_nil _⟩
  | true =>
    refine ⟨?_, fun t ht => hts t (List.mem_of_mem_tail ht), List.forall_mem_nil _⟩
    intro t ht
    obtain ⟨rest, rfl⟩ := List.head?_eq_some_iff.1 ht
    exact ⟨hts t List.mem_cons_self, nextIs_cons.1 hnext⟩

theorem draws_expect (symbol : Symbol) (problem : Problem) :
    Draws T (fun t => T t ∧ t.kind = .symbol symbol) (expect symbol problem) := by
  intro ts hts
  cases ts with
  | nil => exact draws_fail problem [] hts
  | cons t ts =>
    unfold expect
    dsimp only
    split
    · next hsymbol =>
      obtain ⟨ht, hrest⟩ := List.forall_mem_cons.1 hts
      exact ⟨⟨ht, Token.is_iff.1 hsymbol⟩, hrest, List.forall_mem_nil _⟩
    · exact draws_fail problem (t :: ts) hts

/-- Recovery skips tokens and makes none. -/
theorem Draws.recover {p : Parse α} (h : Draws T P p) :
    Draws T (fun o => ∀ a ∈ o, P a) (recover p) := by
  intro ts hts
  obtain ⟨hreply, hrest, hnoted⟩ := h ts hts
  unfold Grammar.recover
  rcases hstep : p ts with ⟨reply, rest, noted⟩
  rw [hstep] at hreply hrest hnoted
  cases reply with
  | done a =>
    refine ⟨?_, hrest, hnoted⟩
    rintro _ ⟨⟩
    exact hreply
  | failed fault =>
    -- The fault that stopped the step is noted now.
    have hskipped : ∀ t ∈ synchronize rest, T t := fun t ht =>
      hrest t (List.mem_of_mem_tail ((synchronize_suffix rest).subset ht))
    have hmore := List.forall_mem_append.2 ⟨hnoted, List.forall_mem_singleton.2 hreply⟩
    exact ⟨nofun, hskipped, hmore⟩
  | outOfFuel => exact ⟨trivial, hrest, hnoted⟩

end Parse

open Parse

/-! ## Properties of trees -/

/-- A superclass is a name, if there is one. -/
def IsSuperclass (T : Token → Prop) (o : Option Expr) : Prop :=
  ∀ e ∈ o, ∃ parent : Token, e = .reference parent ∧ T parent ∧ parent.IsName

/-- A literal that one of the tokens writes. Only the condition of a loop that has none is `true`
without a token. -/
def IsLiteral (T : Token → Prop) (value : Literal) : Prop :=
  value = .bool true ∨ ∃ t, T t ∧ literal? t = some value

/-- Properties that are kept by all ways to build a tree out of tokens with `T`: `E n` of
expressions for a place that needs tightness `n`, `S` of statements and `D` of functions. -/
structure Building (T : Token → Prop) (E : Nat → Expr → Prop) (S : Stmt → Prop)
    (D : FunDecl → Prop) : Prop where
  loosen : ∀ {n m : Nat} {e : Expr}, n ≤ m → E m e → E n e
  literal : ∀ {value : Literal}, IsLiteral T value → E Expr.primaryTightness (.literal value)
  group : ∀ {inner : Expr}, E 0 inner → E Expr.primaryTightness (.group inner)
  reference : ∀ {name : Token}, T name → name.IsName → E Expr.primaryTightness (.reference name)
  assign : ∀ {name : Token} {value : Expr}, E 0 (.reference name) → E 0 value →
    E 0 (.assign name value)
  unary : ∀ {operator : Token} {right : Expr}, T operator → operator.OneOf unaryOperators →
    E Expr.unaryTightness right → E Expr.unaryTightness (.unary operator right)
  node : ∀ {tier : Tier} {left right : Expr} {operator : Token} {n : Nat}, E tier.level left →
    T operator → operator.OneOf tier.operators → E n right → tier.level < n →
    E tier.level (tier.node left operator right)
  call : ∀ {callee : Expr} {paren : Token} {arguments : List Expr}, E Expr.callTightness callee →
    T paren → paren.kind = .symbol .rightParen → (∀ e ∈ arguments, E 0 e) →
    E Expr.callTightness (.call callee paren arguments)
  expression : ∀ {value : Expr}, E 0 value → S (.expression value)
  print : ∀ {value : Expr}, E 0 value → S (.print value)
  varDecl : ∀ {name : Token} {initial : Option Expr}, T name → name.IsName →
    (∀ e ∈ initial, E 0 e) → S (.varDecl name initial)
  block : ∀ {body : List Stmt}, (∀ s ∈ body, S s) → S (.block body)
  ifElse : ∀ {condition : Expr} {thenBranch : Stmt} {elseBranch : Option Stmt}, E 0 condition →
    S thenBranch → (∀ s ∈ elseBranch, S s) → S (.ifElse condition thenBranch elseBranch)
  whileLoop : ∀ {condition : Expr} {body : Stmt}, E 0 condition → S body →
    S (.whileLoop condition body)
  funDecl : ∀ {declaration : FunDecl}, D declaration → S (.funDecl declaration)
  returnValue : ∀ {keyword : Token} {value : Option Expr}, T keyword →
    keyword.kind = .symbol (.keyword .returnWord) → (∀ e ∈ value, E 0 e) →
    S (.returnValue keyword value)
  classDecl : ∀ {name : Token} {superclass : Option Expr} {methods : List FunDecl}, T name →
    name.IsName → IsSuperclass T superclass → (∀ d ∈ methods, D d) →
    S (.classDecl name superclass methods)
  function : ∀ {name : Token} {params : List Token} {body : List Stmt}, T name → name.IsName →
    (∀ p ∈ params, T p ∧ p.IsName) → (∀ s ∈ body, S s) → D ⟨name, params, body⟩

/-! ## Expressions -/

/-- What each expression rule draws, with `fuel` for the rules it calls. -/
structure ExpressionDraws (T : Token → Prop) (E : Nat → Expr → Prop) (fuel : Nat) : Prop where
  expression : Draws T (E 0) (expression fuel)
  tiered : ∀ tiers : List Tier, Tier.Ascending tiers →
    Draws T (E (Tier.floor tiers)) (tiered fuel tiers)
  chain : ∀ (tier : Tier) (tighter : List Tier) (left : Expr),
    Tier.Ascending (tier :: tighter) → E tier.level left →
    Draws T (E tier.level) (chain fuel tier tighter left)
  unary : Draws T (E Expr.unaryTightness) (unary fuel)
  calls : ∀ callee : Expr, E Expr.callTightness callee →
    Draws T (E Expr.callTightness) (calls fuel callee)
  arguments : ∀ count : Nat, Draws T (fun es => ∀ e ∈ es, E 0 e) (arguments fuel count)
  primary : Draws T (E Expr.primaryTightness) (primary fuel)

section

variable {T : Token → Prop} {E : Nat → Expr → Prop} {S : Stmt → Prop} {D : FunDecl → Prop}
  (code : Building T E S D)
include code

/-- A target that is no name stands for the whole, and was built before. -/
theorem assignTo_draws {left value : Expr} {equals : Token} (hleft : E 0 left)
    (hequals : T equals) (hvalue : E 0 value) : Draws T (E 0) (assignTo left equals value) := by
  have hkept : Draws T (E 0) (note ⟨some equals, .invalidTarget⟩ >>= fun _ => Pure.pure left) :=
    (draws_note (on_some hequals _)).bind fun _ _ => draws_pure hleft
  cases left with
  | reference name => exact draws_pure (code.assign hleft hvalue)
  | _ => exact hkept

section

variable {fuel : Nat} (ih : ExpressionDraws T E fuel)
include ih

theorem expression_draws : Draws T (E 0) (expression (fuel + 1)) := by
  rw [expression]
  refine (ih.tiered Tier.ladder Tier.ascending_ladder).bind fun left hleft => ?_
  have hleft := code.loosen (Nat.zero_le _) hleft
  refine (draws_accept [.equal]).bind fun o ho => ?_
  cases o with
  | none => exact draws_pure hleft
  | some equals =>
    refine ih.expression.bind fun value hvalue => ?_
    exact assignTo_draws code hleft (ho equals rfl).1 hvalue

theorem tiered_draws (tiers : List Tier) (htiers : Tier.Ascending tiers) :
    Draws T (E (Tier.floor tiers)) (tiered (fuel + 1) tiers) := by
  cases tiers with
  | nil =>
    rw [tiered]
    exact ih.unary
  | cons tier tighter =>
    rw [tiered]
    refine (ih.tiered tighter (List.pairwise_cons.1 htiers).2).bind fun left hleft => ?_
    have hlt := Tier.level_lt_floor htiers
    exact ih.chain tier tighter left htiers (code.loosen (Nat.le_of_lt hlt) hleft)

theorem chain_draws (tier : Tier) (tighter : List Tier) (left : Expr)
    (htiers : Tier.Ascending (tier :: tighter)) (hleft : E tier.level left) :
    Draws T (E tier.level) (chain (fuel + 1) tier tighter left) := by
  rw [chain]
  refine (draws_accept tier.operators).bind fun o ho => ?_
  cases o with
  | none => exact draws_pure hleft
  | some operator =>
    obtain ⟨hoperator, hsymbol⟩ := ho operator rfl
    refine (ih.tiered tighter (List.pairwise_cons.1 htiers).2).bind fun right hright => ?_
    have hlt := Tier.level_lt_floor htiers
    exact ih.chain tier tighter _ htiers (code.node hleft hoperator hsymbol hright hlt)

theorem unary_draws : Draws T (E Expr.unaryTightness) (unary (fuel + 1)) := by
  rw [unary]
  refine (draws_accept unaryOperators).bind fun o ho => ?_
  cases o with
  | none =>
    refine ih.primary.bind fun callee hcallee => ?_
    have hcalls := ih.calls callee (code.loosen (by decide) hcallee)
    exact hcalls.weaken fun e he => code.loosen (by decide) he
  | some operator =>
    obtain ⟨hoperator, hsymbol⟩ := ho operator rfl
    exact ih.unary.bind fun right hright => draws_pure (code.unary hoperator hsymbol hright)

theorem calls_draws (callee : Expr) (hcallee : E Expr.callTightness callee) :
    Draws T (E Expr.callTightness) (calls (fuel + 1) callee) := by
  rw [calls]
  -- Both ways of the condition go on in the same way behind the arguments.
  have hclosed : ∀ values : List Expr, (∀ e ∈ values, E 0 e) →
      Draws T (E Expr.callTightness) (expect .rightParen .unclosedArguments >>= fun paren =>
        calls fuel (.call callee paren values)) := fun values hvalues =>
    (draws_expect _ _).bind fun paren hparen =>
      ih.calls _ (code.call hcallee hparen.1 hparen.2 hvalues)
  refine (draws_accept [.leftParen]).bind fun o _ => ?_
  cases o with
  | none => exact draws_pure hcallee
  | some opening =>
    refine (draws_sees [.rightParen]).bind fun bare _ => ?_
    cases bare with
    | true => exact (draws_pure (P := fun es => ∀ e ∈ es, E 0 e) (by simp)).bind hclosed
    | false => exact (ih.arguments 0).bind hclosed

omit code in
theorem arguments_draws (count : Nat) :
    Draws T (fun es => ∀ e ∈ es, E 0 e) (arguments (fuel + 1) count) := by
  rw [arguments]
  refine (draws_noteHere .tooManyArguments).noting ?_
  refine ih.expression.bind fun value hvalue => ?_
  refine (draws_accept [.comma]).bind fun o _ => ?_
  cases o with
  | none => exact draws_pure (List.forall_mem_singleton.2 hvalue)
  | some comma =>
    refine (ih.arguments (count + 1)).bind fun values hvalues => ?_
    exact draws_pure (List.forall_mem_cons.2 ⟨hvalue, hvalues⟩)

theorem primary_draws : Draws T (E Expr.primaryTightness) (primary (fuel + 1)) := by
  rw [primary]
  refine draws_peek.bind fun o ho => ?_
  cases o with
  | none => exact draws_fail _
  | some t =>
    dsimp only
    split
    · next value hvalue =>
      have hliteral := code.literal (.inr ⟨t, ho t rfl, hvalue⟩)
      exact draws_skip.bind fun _ _ => draws_pure hliteral
    · split
      · next hname =>
        have hreference := code.reference (ho t rfl) (Token.is_iff.1 hname)
        exact draws_skip.bind fun _ _ => draws_pure hreference
      · split
        · refine draws_skip.bind fun _ _ => ?_
          refine ih.expression.bind fun inner hinner => ?_
          exact (draws_expect _ _).bind fun _ _ => draws_pure (code.group hinner)
        · exact draws_fail _

end

theorem expressionDraws (fuel : Nat) : ExpressionDraws T E fuel := by
  induction fuel with
  | zero =>
    constructor <;> intros
    all_goals exact draws_outOfFuel
  | succ fuel ih =>
    exact ⟨expression_draws code ih, tiered_draws code ih, chain_draws code ih,
      unary_draws code ih, calls_draws code ih, arguments_draws ih, primary_draws code ih⟩

/-! ## Statements without statements inside -/

section

variable (fuel : Nat)

theorem expressionUnless_draws (symbol : Symbol) :
    Draws T (fun o => ∀ e ∈ o, E 0 e) (expressionUnless fuel symbol) := by
  refine (draws_sees [symbol]).bind fun absent _ => ?_
  cases absent with
  | true => exact draws_pure (by simp)
  | false =>
    refine (expressionDraws code fuel).expression.bind fun value hvalue => ?_
    exact draws_pure (by simpa using hvalue)

theorem expressionStatement_draws : Draws T S (expressionStatement fuel) := by
  refine (expressionDraws code fuel).expression.bind fun value hvalue => ?_
  exact (draws_expect _ _).bind fun _ _ => draws_pure (code.expression hvalue)

theorem printStatement_draws : Draws T S (printStatement fuel) := by
  refine (expressionDraws code fuel).expression.bind fun value hvalue => ?_
  exact (draws_expect _ _).bind fun _ _ => draws_pure (code.print hvalue)

theorem varDeclaration_draws : Draws T S (varDeclaration fuel) := by
  refine (draws_expect .identifier .noVariableName).bind fun name hname => ?_
  have hended : ∀ initial : Option Expr, (∀ e ∈ initial, E 0 e) →
      Draws T S (expect .semicolon .unendedDeclaration >>= fun _ =>
        Pure.pure (Stmt.varDecl name initial)) := fun initial hinitial =>
    (draws_expect _ _).bind fun _ _ => draws_pure (code.varDecl hname.1 hname.2 hinitial)
  refine (draws_accept [.equal]).bind fun o _ => ?_
  cases o with
  | none => exact (draws_pure (P := fun o => ∀ e ∈ o, E 0 e) (by simp)).bind hended
  | some equals =>
    refine (expressionDraws code fuel).expression.bind fun value hvalue => ?_
    exact (draws_pure (P := fun o => ∀ e ∈ o, E 0 e) (by simpa using hvalue)).bind hended

theorem returnStatement_draws (depth : Nat) {keyword : Token} (hkeyword : T keyword)
    (hword : keyword.kind = .symbol (.keyword .returnWord)) :
    Draws T S (returnStatement fuel depth keyword) := by
  rw [returnStatement]
  refine (draws_note (on_some hkeyword _)).noting ?_
  refine (expressionUnless_draws code fuel .semicolon).bind fun value hvalue => ?_
  exact (draws_expect _ _).bind fun _ _ => draws_pure (code.returnValue hkeyword hword hvalue)

theorem condition_draws (unopened : Problem) : Draws T (E 0) (condition fuel unopened) := by
  refine (draws_expect _ _).bind fun _ _ => ?_
  refine (expressionDraws code fuel).expression.bind fun value hvalue => ?_
  exact (draws_expect _ _).bind fun _ _ => draws_pure hvalue

theorem forStart_draws : Draws T (fun o => ∀ s ∈ o, S s) (forStart fuel) := by
  have hstarted : ∀ start : Stmt, S start →
      Draws T (fun o => ∀ s ∈ o, S s) (Pure.pure (some start) : Parse (Option Stmt)) :=
    fun start hstart => draws_pure (by simpa using hstart)
  refine (draws_accept [.semicolon]).bind fun semicolon _ => ?_
  cases semicolon with
  | some _ => exact draws_pure (by simp)
  | none =>
    refine (draws_accept [.keyword .varWord]).bind fun keyword _ => ?_
    cases keyword with
    | some _ => exact (varDeclaration_draws code fuel).bind hstarted
    | none => exact (expressionStatement_draws code fuel).bind hstarted

theorem forClauses_draws : Draws T (fun clauses => (∀ s ∈ clauses.start, S s) ∧
    (∀ e ∈ clauses.condition, E 0 e) ∧ ∀ e ∈ clauses.step, E 0 e) (forClauses fuel) := by
  refine (draws_expect _ _).bind fun _ _ => ?_
  refine (forStart_draws code fuel).bind fun start hstart => ?_
  refine (expressionUnless_draws code fuel .semicolon).bind fun condition hcondition => ?_
  refine (draws_expect _ _).bind fun _ _ => ?_
  refine (expressionUnless_draws code fuel .rightParen).bind fun step hstep => ?_
  exact (draws_expect _ _).bind fun _ _ => draws_pure ⟨hstart, hcondition, hstep⟩

end

theorem forLoop_built {start : Option Stmt} {condition step : Option Expr} {body : Stmt}
    (hstart : ∀ s ∈ start, S s) (hcondition : ∀ e ∈ condition, E 0 e) (hstep : ∀ e ∈ step, E 0 e)
    (hbody : S body) : S (.forLoop start condition step body) :=
  Stmt.forLoop_of_parts (code.loosen (Nat.zero_le _) (code.literal (.inl rfl))) code.expression
    code.block code.whileLoop hstart hcondition hstep hbody

end

variable {T : Token → Prop}

/-- Names that stand in a row. -/
theorem parameters_draws (fuel count : Nat) :
    Draws T (fun names => ∀ p ∈ names, T p ∧ p.IsName) (parameters fuel count) := by
  induction fuel generalizing count with
  | zero => exact draws_outOfFuel
  | succ fuel ih =>
    rw [parameters]
    refine (draws_noteHere .tooManyParameters).noting ?_
    refine (draws_expect .identifier .noParameterName).bind fun name hname => ?_
    refine (draws_accept [.comma]).bind fun comma _ => ?_
    cases comma with
    | none => exact draws_pure (List.forall_mem_singleton.2 hname)
    | some _ =>
      refine (ih (count + 1)).bind fun names hnames => ?_
      exact draws_pure (List.forall_mem_cons.2 ⟨hname, hnames⟩)

theorem classHead_draws :
    Draws T (fun head => (T head.1 ∧ head.1.IsName) ∧ IsSuperclass T head.2) classHead := by
  refine (draws_expect .identifier .noClassName).bind fun name hname => ?_
  have hopened : ∀ superclass : Option Expr, IsSuperclass T superclass →
      Draws T (fun head => (T head.1 ∧ head.1.IsName) ∧ IsSuperclass T head.2)
        (expect .leftBrace .unopenedClass >>= fun _ => Pure.pure (name, superclass)) :=
    fun superclass hsuperclass =>
      (draws_expect _ _).bind fun _ _ => draws_pure ⟨hname, hsuperclass⟩
  refine (draws_accept [.less]).bind fun less _ => ?_
  cases less with
  | none => exact (draws_pure (P := IsSuperclass T) (by simp [IsSuperclass])).bind hopened
  | some _ =>
    refine (draws_expect .identifier .noSuperclassName).bind fun parent hparent => ?_
    have hnamed : IsSuperclass T (some (.reference parent)) := by
      rintro _ ⟨⟩
      exact ⟨parent, rfl, hparent⟩
    exact (draws_pure hnamed).bind hopened

theorem routineHead_draws (fuel : Nat) (kind : Routine) :
    Draws T (fun head => (T head.1 ∧ head.1.IsName) ∧ ∀ p ∈ head.2, T p ∧ p.IsName)
      (routineHead fuel kind) := by
  refine (draws_expect .identifier (.noRoutineName kind)).bind fun name hname => ?_
  have hclosed : ∀ params : List Token, (∀ p ∈ params, T p ∧ p.IsName) →
      Draws T (fun head => (T head.1 ∧ head.1.IsName) ∧ ∀ p ∈ head.2, T p ∧ p.IsName)
        (expect .rightParen .unclosedParameters >>= fun _ =>
          expect .leftBrace (.unopenedBody kind) >>= fun _ => Pure.pure (name, params)) :=
    fun params hparams => (draws_expect _ _).bind fun _ _ =>
      (draws_expect _ _).bind fun _ _ => draws_pure ⟨hname, hparams⟩
  refine (draws_expect _ _).bind fun _ _ => ?_
  refine (draws_sees [.rightParen]).bind fun bare _ => ?_
  cases bare with
  | true =>
    exact (draws_pure (P := fun names => ∀ p ∈ names, T p ∧ p.IsName) (by simp)).bind hclosed
  | false => exact (parameters_draws fuel 0).bind hclosed

theorem atClosing_draws : Draws T (fun _ => True) atClosing := by
  refine (draws_sees [.rightBrace]).bind fun closing _ => ?_
  cases closing with
  | true => exact draws_pure trivial
  | false => exact draws_atEnd

/-! ## Statements -/

/-- What each statement rule draws, with `fuel` for the rules it calls. -/
structure StatementDraws (T : Token → Prop) (S : Stmt → Prop) (D : FunDecl → Prop) (fuel : Nat) :
    Prop where
  declaration : ∀ depth : Nat, Draws T (fun o => ∀ s ∈ o, S s) (declaration fuel depth)
  declared : ∀ depth : Nat, Draws T S (declared fuel depth)
  methodList : ∀ depth : Nat, Draws T (fun ds => ∀ d ∈ ds, D d) (methodList fuel depth)
  routine : ∀ (depth : Nat) (kind : Routine), Draws T D (routine fuel depth kind)
  statement : ∀ depth : Nat, Draws T S (statement fuel depth)
  block : ∀ depth : Nat, Draws T (fun ss => ∀ s ∈ ss, S s) (block fuel depth)
  declarations : ∀ depth : Nat, Draws T (fun ss => ∀ s ∈ ss, S s) (declarations fuel depth)

variable {E : Nat → Expr → Prop} {S : Stmt → Prop} {D : FunDecl → Prop}
  (code : Building T E S D)

section

variable {fuel : Nat} (ih : StatementDraws T S D fuel) (depth : Nat)
include ih

include code in
theorem declared_draws : Draws T S (declared (fuel + 1) depth) := by
  rw [declared]
  refine (draws_accept _).bind fun classWord _ => ?_
  cases classWord with
  | some _ =>
    refine classHead_draws.bind fun head hhead => ?_
    refine (ih.methodList depth).bind fun methods hmethods => ?_
    have hclass := code.classDecl hhead.1.1 hhead.1.2 hhead.2 hmethods
    exact (draws_expect _ _).bind fun _ _ => draws_pure hclass
  | none =>
  refine (draws_accept _).bind fun funWord _ => ?_
  cases funWord with
  | some _ =>
    refine (ih.routine depth .function).bind fun routine hroutine => ?_
    exact draws_pure (code.funDecl hroutine)
  | none =>
  refine (draws_accept _).bind fun varWord _ => ?_
  cases varWord with
  | some _ => exact varDeclaration_draws code fuel
  | none => exact ih.statement depth

theorem methodList_draws :
    Draws T (fun ds => ∀ d ∈ ds, D d) (methodList (fuel + 1) depth) := by
  rw [methodList]
  refine atClosing_draws.bind fun closing _ => ?_
  cases closing with
  | true => exact draws_pure (by simp)
  | false =>
    refine (ih.routine depth .method).bind fun method hmethod => ?_
    refine (ih.methodList depth).bind fun methods hmethods => ?_
    exact draws_pure (List.forall_mem_cons.2 ⟨hmethod, hmethods⟩)

include code in
theorem routine_draws (kind : Routine) : Draws T D (routine (fuel + 1) depth kind) := by
  rw [routine]
  refine (routineHead_draws fuel kind).bind fun head hhead => ?_
  refine (ih.block (depth + 1)).bind fun body hbody => ?_
  exact draws_pure (code.function hhead.1.1 hhead.1.2 hhead.2 hbody)

include code in
theorem statement_draws : Draws T S (statement (fuel + 1) depth) := by
  rw [statement]
  -- One case for each keyword that a statement begins with, an expression last.
  refine (draws_accept _).bind fun forWord _ => ?_
  cases forWord with
  | some _ =>
    refine (forClauses_draws code fuel).bind fun clauses hclauses => ?_
    obtain ⟨hstart, hcondition, hstep⟩ := hclauses
    refine (ih.statement depth).bind fun body hbody => ?_
    exact draws_pure (forLoop_built code hstart hcondition hstep hbody)
  | none =>
  refine (draws_accept _).bind fun ifWord _ => ?_
  cases ifWord with
  | some _ =>
    refine (condition_draws code fuel .unopenedIf).bind fun test htest => ?_
    refine (ih.statement depth).bind fun thenBranch hthen => ?_
    refine (draws_accept _).bind fun elseWord _ => ?_
    cases elseWord with
    | none => exact draws_pure (code.ifElse htest hthen (by simp))
    | some _ =>
      refine (ih.statement depth).bind fun elseBranch helse => ?_
      exact draws_pure (code.ifElse htest hthen (by simpa using helse))
  | none =>
  refine (draws_accept _).bind fun whileWord _ => ?_
  cases whileWord with
  | some _ =>
    refine (condition_draws code fuel .unopenedWhile).bind fun test htest => ?_
    refine (ih.statement depth).bind fun body hbody => ?_
    exact draws_pure (code.whileLoop htest hbody)
  | none =>
  refine (draws_accept _).bind fun returnWord hreturn => ?_
  cases returnWord with
  | some keyword =>
    obtain ⟨hkeyword, s, hs, hword⟩ := hreturn keyword rfl
    rw [List.mem_singleton.1 hs] at hword
    exact returnStatement_draws code fuel depth hkeyword hword
  | none =>
  refine (draws_accept _).bind fun opening _ => ?_
  cases opening with
  | some _ => exact (ih.block depth).bind fun body hbody => draws_pure (code.block hbody)
  | none =>
  refine (draws_accept _).bind fun printWord _ => ?_
  cases printWord with
  | some _ => exact printStatement_draws code fuel
  | none => exact expressionStatement_draws code fuel

theorem block_draws : Draws T (fun ss => ∀ s ∈ ss, S s) (block (fuel + 1) depth) := by
  rw [block]
  refine (ih.declarations depth).bind fun body hbody => ?_
  exact (draws_expect _ _).bind fun _ _ => draws_pure hbody

theorem declarations_draws :
    Draws T (fun ss => ∀ s ∈ ss, S s) (declarations (fuel + 1) depth) := by
  rw [declarations]
  refine atClosing_draws.bind fun closing _ => ?_
  cases closing with
  | true => exact draws_pure (by simp)
  | false =>
    refine (ih.declaration depth).bind fun first hfirst => ?_
    refine (ih.declarations depth).bind fun more hmore => ?_
    refine draws_pure (List.forall_mem_append.2 ⟨?_, hmore⟩)
    exact fun s hs => hfirst s (Option.mem_toList.1 hs)

end

include code

theorem statementDraws (fuel : Nat) : StatementDraws T S D fuel := by
  induction fuel with
  | zero =>
    constructor <;> intros
    all_goals exact draws_outOfFuel
  | succ fuel ih =>
    exact ⟨fun depth => (ih.declared depth).recover, declared_draws code ih,
      methodList_draws ih, routine_draws code ih, statement_draws code ih, block_draws ih,
      declarations_draws ih⟩

/-! ## Programs and single expressions -/

theorem programFrom_draws (turns : Nat) (ts : List Token) (hts : ∀ t ∈ ts, T t) :
    (∀ s ∈ (programFrom turns ts).tree, S s) ∧ ∀ f ∈ (programFrom turns ts).faults, f.On T := by
  fun_induction programFrom turns ts with
  | case1 turns t ts first rest noted hfirst more ih =>
    have hdeclared := (statementDraws code (fuelFor (t :: ts))).declaration 0 (t :: ts) hts
    rw [hfirst] at hdeclared
    obtain ⟨hreply, hrest, hnoted⟩ := hdeclared
    obtain ⟨htree, hfaults⟩ := ih hrest
    refine ⟨List.forall_mem_append.2 ⟨?_, htree⟩, List.forall_mem_append.2 ⟨hnoted, hfaults⟩⟩
    exact fun s hs => hreply s (Option.mem_toList.1 hs)
  | case2 turns t ts step rest noted hnot hfirst =>
    have hdeclared := (statementDraws code (fuelFor (t :: ts))).declaration 0 (t :: ts) hts
    rw [hfirst] at hdeclared
    exact ⟨List.forall_mem_nil _, hdeclared.2.2⟩
  | case3 => exact ⟨List.forall_mem_nil _, List.forall_mem_nil _⟩

/-- A program is built from the tokens before the end, and its faults stand at such tokens or at
the end. -/
theorem Building.program {ts : List Token} (hts : ∀ t ∈ beforeEnd ts, T t) :
    (∀ s ∈ (Grammar.program ts).tree, S s) ∧ ∀ f ∈ (Grammar.program ts).faults, f.On T :=
  programFrom_draws code _ _ hts

theorem Building.soleExpression {ts : List Token} (hts : ∀ t ∈ beforeEnd ts, T t) :
    (∀ e ∈ (Grammar.soleExpression ts).tree, E 0 e) ∧
      ∀ f ∈ (Grammar.soleExpression ts).faults, f.On T := by
  obtain ⟨hreply, hrest, hnoted⟩ :=
    (expressionDraws code (fuelFor (beforeEnd ts))).expression (beforeEnd ts) hts
  unfold Grammar.soleExpression
  rcases hstep : Grammar.expression (fuelFor (beforeEnd ts)) (beforeEnd ts) with
    ⟨reply, rest, noted⟩
  rw [hstep] at hreply hrest hnoted
  cases reply with
  | done value =>
    cases rest with
    | nil =>
      refine ⟨?_, hnoted⟩
      rintro _ ⟨⟩
      exact hreply
    | cons t rest =>
      have hsurplus := on_head hrest .surplusAfterExpression
      exact ⟨nofun, List.forall_mem_append.2 ⟨hnoted, List.forall_mem_singleton.2 hsurplus⟩⟩
  | failed fault =>
    exact ⟨nofun, List.forall_mem_append.2 ⟨hnoted, List.forall_mem_singleton.2 hreply⟩⟩
  | outOfFuel => exact ⟨nofun, hnoted⟩

end Grammar

end TreeWalk
