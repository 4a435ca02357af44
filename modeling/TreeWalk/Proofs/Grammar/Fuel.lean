import TreeWalk.Proofs.Grammar.Progress

/-!
More fuel only takes a parsing step further. Where a step runs out of fuel, the same step with more
of it goes on from the tokens that were left; where it does not, more fuel changes nothing. Every
step leaves a suffix of its tokens, however much fuel it has and whether it replies or not.
-/

namespace TreeWalk.Grammar

namespace Parse

variable {α β : Type} {p q : Parse α}

/-- The step never goes back, nor past the end of the tokens. -/
def Onward (p : Parse α) : Prop := ∀ ts, (p ts).rest <:+ ts

theorem onward_bind_first {f : α → Parse β} (hf : ∀ a, Onward (f a)) (ts : List Token) :
    ((p >>= f) ts).rest <:+ (p ts).rest := by
  rw [bind_apply]
  rcases p ts with ⟨reply, rest, noted⟩
  cases reply with
  | done a => exact hf a rest
  | failed fault => exact List.suffix_rfl
  | outOfFuel => exact List.suffix_rfl

theorem Onward.bind {f : α → Parse β} (hp : Onward p) (hf : ∀ a, Onward (f a)) :
    Onward (p >>= f) := fun ts => (onward_bind_first hf ts).trans (hp ts)

theorem onward_recover (p : Parse α) (ts : List Token) :
    (recover p ts).rest <:+ (p ts).rest := by
  unfold recover
  rcases p ts with ⟨reply, rest, noted⟩
  cases reply with
  | done a => exact List.suffix_rfl
  | failed fault => exact (synchronize_suffix rest).trans (List.tail_suffix rest)
  | outOfFuel => exact List.suffix_rfl

/-- `q` is `p` with more fuel: it does the same if `p` replies, and goes on behind `p` if not. -/
structure Continues (p q : Parse α) : Prop where
  few : Onward p
  many : Onward q
  further : ∀ ts, (q ts).rest <:+ (p ts).rest
  same : ∀ ts, (p ts).reply ≠ .outOfFuel → q ts = p ts

theorem Onward.continues (hp : Onward p) : Continues p p :=
  ⟨hp, hp, fun _ => List.suffix_rfl, fun _ _ => rfl⟩

theorem continues_outOfFuel (hq : Onward q) : Continues outOfFuel q :=
  ⟨fun _ => List.suffix_rfl, hq, hq, fun _ h => absurd rfl h⟩

theorem Continues.bind {f g : α → Parse β} (hp : Continues p q)
    (hf : ∀ a, Continues (f a) (g a)) : Continues (p >>= f) (q >>= g) := by
  have hfew := hp.few.bind fun a => (hf a).few
  have hmany := hp.many.bind fun a => (hf a).many
  refine ⟨hfew, hmany, ?_, ?_⟩
  · intro ts
    have hsame := hp.same ts
    have hfurther := (onward_bind_first (p := q) (fun a => (hf a).many) ts).trans (hp.further ts)
    rw [bind_apply p]
    rcases hts : p ts with ⟨reply, rest, noted⟩
    rw [hts] at hsame hfurther
    cases reply with
    | done a =>
      rw [bind_apply q, hsame (by simp)]
      exact (hf a).further rest
    | failed fault => simp only [bind_apply q, hsame (by simp), List.suffix_rfl]
    | outOfFuel => exact hfurther
  · intro ts hreply
    have hsame := hp.same ts
    rw [bind_apply] at hreply ⊢
    rw [bind_apply]
    rcases hts : p ts with ⟨reply, rest, noted⟩
    rw [hts] at hsame hreply
    cases reply with
    | done a =>
      rw [hsame (by simp)]
      have hrest := (hf a).same rest hreply
      simp only [hrest]
    | failed fault => rw [hsame (by simp)]
    | outOfFuel => exact absurd rfl hreply

theorem Continues.recover (h : Continues p q) : Continues (recover p) (recover q) := by
  have hfew : Onward (Grammar.recover p) := fun ts => (onward_recover p ts).trans (h.few ts)
  have hmany : Onward (Grammar.recover q) := fun ts => (onward_recover q ts).trans (h.many ts)
  refine ⟨hfew, hmany, ?_, ?_⟩
  · intro ts
    have hsame := h.same ts
    have hfurther := (onward_recover q ts).trans (h.further ts)
    rcases hts : p ts with ⟨reply, rest, noted⟩
    rw [hts] at hsame hfurther
    cases reply with
    | done a => simp only [Grammar.recover, hts, hsame (by simp), List.suffix_rfl]
    | failed fault => simp only [Grammar.recover, hts, hsame (by simp), List.suffix_rfl]
    | outOfFuel => simpa only [Grammar.recover, hts] using hfurther
  · intro ts hreply
    have hsame : q ts = p ts := by
      apply h.same ts
      intro hout
      rcases hts : p ts with ⟨reply, rest, noted⟩
      rw [hts] at hout
      simp only [Grammar.recover, hts] at hreply
      cases hout
      exact hreply rfl
    simp only [Grammar.recover, hsame]

/-! ## Single steps -/

theorem continues_pure (a : α) : Continues (Pure.pure a) (Pure.pure a) :=
  Onward.continues fun _ => List.suffix_rfl

theorem continues_fail (problem : Problem) :
    Continues (fail problem : Parse α) (fail problem) :=
  Onward.continues fun _ => List.suffix_rfl

theorem continues_note (fault : Fault) : Continues (note fault) (note fault) :=
  Onward.continues fun _ => List.suffix_rfl

theorem continues_noteHere (problem : Problem) :
    Continues (noteHere problem) (noteHere problem) :=
  Onward.continues fun _ => List.suffix_rfl

theorem continues_sees (symbols : List Symbol) : Continues (sees symbols) (sees symbols) := by
  apply Onward.continues
  intro ts
  simp only [sees_apply, List.suffix_rfl]

theorem continues_peek : Continues peek peek := Onward.continues fun _ => List.suffix_rfl

theorem continues_skip : Continues skip skip := Onward.continues fun ts => List.tail_suffix ts

theorem continues_accept (symbols : List Symbol) :
    Continues (accept symbols) (accept symbols) := by
  apply Onward.continues
  intro ts
  cases ts with
  | nil => exact List.suffix_rfl
  | cons t ts =>
    unfold accept
    dsimp only
    split
    · exact List.suffix_cons t ts
    · exact List.suffix_rfl

theorem continues_expect (symbol : Symbol) (problem : Problem) :
    Continues (expect symbol problem) (expect symbol problem) :=
  Onward.continues fun ts => (takes_expect symbol problem ts).suffix

theorem continues_atClosing : Continues atClosing atClosing := by
  apply Onward.continues
  intro ts
  simp only [atClosing_apply, List.suffix_rfl]

/-- The token that closes a rule may be expected behind it. -/
theorem Continues.closed {f : α → β} (h : Continues p q) (symbol : Symbol) (problem : Problem) :
    Continues (p >>= fun a => expect symbol problem >>= fun _ => Pure.pure (f a))
      (q >>= fun a => expect symbol problem >>= fun _ => Pure.pure (f a)) :=
  h.bind fun _ => (continues_expect symbol problem).bind fun _ => continues_pure _

/-- A fault may be noted first. -/
theorem Continues.noting {c : Prop} [Decidable c] {m : Parse Unit} (hm : Continues m m)
    (h : Continues p q) :
    Continues (if c then m >>= fun _ => p else p) (if c then m >>= fun _ => q else q) := by
  split
  · exact hm.bind fun _ => h
  · exact h

end Parse

open Parse

/-- Induction for rules that call each other with a unit of fuel less. A rule without fuel stops
where it began: that it moves on with more is known once it is known of equal fuel. -/
theorem fuel_induction {P : Nat → Nat → Prop} (unfueled : P 0 0)
    (first : ∀ many, P many many → P 0 many)
    (step : ∀ few many, P few many → P (few + 1) (many + 1)) {few many : Nat} (h : few ≤ many) :
    P few many := by
  have hself : ∀ fuel, P fuel fuel := by
    intro fuel
    induction fuel with
    | zero => exact unfueled
    | succ fuel ih => exact step fuel fuel ih
  induction few generalizing many with
  | zero => exact first many (hself many)
  | succ few ih =>
    cases many with
    | zero => omega
    | succ many => exact step few many (ih (Nat.le_of_succ_le_succ h))

theorem assignTo_continues (left : Expr) (equals : Token) (value : Expr) :
    Continues (assignTo left equals value) (assignTo left equals value) := by
  cases left with
  | reference name => exact continues_pure _
  | _ => exact (continues_note _).bind fun _ => continues_pure _

/-! ## Expressions -/

/-- Every expression rule, with `many` units of fuel, continues what it does with `few`. -/
structure ExpressionContinues (few many : Nat) : Prop where
  expression : Continues (expression few) (expression many)
  tiered : ∀ tiers : List Tier, Continues (tiered few tiers) (tiered many tiers)
  chain : ∀ (tier : Tier) (tighter : List Tier) (left : Expr),
    Continues (chain few tier tighter left) (chain many tier tighter left)
  unary : Continues (unary few) (unary many)
  calls : ∀ callee : Expr, Continues (calls few callee) (calls many callee)
  arguments : ∀ count : Nat, Continues (arguments few count) (arguments many count)
  primary : Continues (primary few) (primary many)

section

variable {few many : Nat} (ih : ExpressionContinues few many)
include ih

theorem expression_continues : Continues (expression (few + 1)) (expression (many + 1)) := by
  apply (ih.tiered Tier.ladder).bind
  intro left
  apply (continues_accept [.equal]).bind
  intro equals
  cases equals with
  | none => exact continues_pure left
  | some equals => exact ih.expression.bind fun value => assignTo_continues left equals value

theorem tiered_continues (tiers : List Tier) :
    Continues (tiered (few + 1) tiers) (tiered (many + 1) tiers) := by
  cases tiers with
  | nil => exact ih.unary
  | cons tier tighter => exact (ih.tiered tighter).bind fun left => ih.chain tier tighter left

theorem chain_continues (tier : Tier) (tighter : List Tier) (left : Expr) :
    Continues (chain (few + 1) tier tighter left) (chain (many + 1) tier tighter left) := by
  apply (continues_accept tier.operators).bind
  intro operator
  cases operator with
  | none => exact continues_pure left
  | some operator => exact (ih.tiered tighter).bind fun right => ih.chain tier tighter _

theorem unary_continues : Continues (unary (few + 1)) (unary (many + 1)) := by
  apply (continues_accept unaryOperators).bind
  intro operator
  cases operator with
  | none => exact ih.primary.bind fun callee => ih.calls callee
  | some operator => exact ih.unary.bind fun right => continues_pure _

theorem calls_continues (callee : Expr) :
    Continues (calls (few + 1) callee) (calls (many + 1) callee) := by
  apply (continues_accept [.leftParen]).bind
  intro opening
  cases opening with
  | none => exact continues_pure callee
  | some opening =>
    have hclose : ∀ values : List Expr, Continues
        (expect .rightParen .unclosedArguments >>= fun paren =>
          calls few (.call callee paren values))
        (expect .rightParen .unclosedArguments >>= fun paren =>
          calls many (.call callee paren values)) := by
      intro values
      exact (continues_expect _ _).bind fun paren => ih.calls _
    apply (continues_sees [.rightParen]).bind
    intro closing
    cases closing with
    | true => exact (continues_pure []).bind hclose
    | false => exact (ih.arguments 0).bind hclose

theorem arguments_continues (count : Nat) :
    Continues (arguments (few + 1) count) (arguments (many + 1) count) := by
  rw [arguments, arguments]
  apply (continues_noteHere .tooManyArguments).noting
  apply ih.expression.bind
  intro value
  apply (continues_accept [.comma]).bind
  intro comma
  cases comma with
  | none => exact continues_pure [value]
  | some comma => exact (ih.arguments (count + 1)).bind fun values => continues_pure _

theorem primary_continues : Continues (primary (few + 1)) (primary (many + 1)) := by
  apply continues_peek.bind
  intro next
  cases next with
  | none => exact continues_fail .noExpression
  | some t =>
    cases hliteral : literal? t with
    | some value =>
      simp only [hliteral]
      exact continues_skip.bind fun _ => continues_pure _
    | none =>
      simp only [hliteral]
      split
      · exact continues_skip.bind fun _ => continues_pure _
      · split
        · apply continues_skip.bind
          intro _
          exact ih.expression.closed .rightParen .unclosedGroup
        · exact continues_fail .noExpression

theorem ExpressionContinues.step : ExpressionContinues (few + 1) (many + 1) :=
  ⟨expression_continues ih, tiered_continues ih, chain_continues ih, unary_continues ih,
    calls_continues ih, arguments_continues ih, primary_continues ih⟩

end

theorem expressionContinues {few many : Nat} (h : few ≤ many) : ExpressionContinues few many := by
  refine fuel_induction ?_ ?_ (fun _ _ ih => ih.step) h
  · constructor <;> intros
    all_goals exact continues_outOfFuel fun _ => List.suffix_rfl
  · intro many hmany
    exact ⟨continues_outOfFuel hmany.expression.many,
      fun tiers => continues_outOfFuel (hmany.tiered tiers).many,
      fun tier tighter left => continues_outOfFuel (hmany.chain tier tighter left).many,
      continues_outOfFuel hmany.unary.many,
      fun callee => continues_outOfFuel (hmany.calls callee).many,
      fun count => continues_outOfFuel (hmany.arguments count).many,
      continues_outOfFuel hmany.primary.many⟩

/-! ## Statements without statements inside -/

section

variable {few many : Nat} (h : few ≤ many)
include h

theorem expressionUnless_continues (symbol : Symbol) :
    Continues (expressionUnless few symbol) (expressionUnless many symbol) := by
  apply (continues_sees [symbol]).bind
  intro found
  cases found with
  | true => exact continues_pure none
  | false => exact (expressionContinues h).expression.bind fun value => continues_pure (some value)

theorem expressionStatement_continues :
    Continues (expressionStatement few) (expressionStatement many) :=
  (expressionContinues h).expression.closed .semicolon .unendedExpression

theorem printStatement_continues : Continues (printStatement few) (printStatement many) :=
  (expressionContinues h).expression.closed .semicolon .unendedPrint

theorem varDeclaration_continues : Continues (varDeclaration few) (varDeclaration many) := by
  apply (continues_expect .identifier .noVariableName).bind
  intro name
  apply (continues_accept [.equal]).bind
  intro equals
  cases equals with
  | none => exact (continues_pure none).closed .semicolon .unendedDeclaration
  | some equals =>
    apply (expressionContinues h).expression.bind
    intro value
    exact (continues_pure (some value)).closed .semicolon .unendedDeclaration

theorem returnStatement_continues (depth : Nat) (keyword : Token) :
    Continues (returnStatement few depth keyword) (returnStatement many depth keyword) := by
  unfold returnStatement
  apply (continues_note _).noting
  exact (expressionUnless_continues h .semicolon).closed .semicolon .unendedReturn

theorem condition_continues (unopened : Problem) :
    Continues (condition few unopened) (condition many unopened) := by
  apply (continues_expect .leftParen unopened).bind
  intro _
  exact (expressionContinues h).expression.closed .rightParen .unclosedCondition

theorem forStart_continues : Continues (forStart few) (forStart many) := by
  apply (continues_accept [.semicolon]).bind
  intro semicolon
  cases semicolon with
  | some _ => exact continues_pure none
  | none =>
    apply (continues_accept [.keyword .varWord]).bind
    intro keyword
    cases keyword with
    | some _ => exact (varDeclaration_continues h).bind fun start => continues_pure (some start)
    | none => exact (expressionStatement_continues h).bind fun start => continues_pure (some start)

theorem forClauses_continues : Continues (forClauses few) (forClauses many) := by
  apply (continues_expect .leftParen .unopenedFor).bind
  intro _
  apply (forStart_continues h).bind
  intro start
  apply (expressionUnless_continues h .semicolon).bind
  intro condition
  apply (continues_expect .semicolon .unendedLoopCondition).bind
  intro _
  exact (expressionUnless_continues h .rightParen).closed .rightParen .unclosedFor

end

theorem parameters_continues_step {few many : Nat}
    (ih : ∀ count, Continues (parameters few count) (parameters many count)) (count : Nat) :
    Continues (parameters (few + 1) count) (parameters (many + 1) count) := by
  rw [parameters, parameters]
  apply (continues_noteHere .tooManyParameters).noting
  apply (continues_expect .identifier .noParameterName).bind
  intro name
  apply (continues_accept [.comma]).bind
  intro comma
  cases comma with
  | none => exact continues_pure [name]
  | some comma => exact (ih (count + 1)).bind fun names => continues_pure _

theorem parameters_continues {few many : Nat} (h : few ≤ many) :
    ∀ count, Continues (parameters few count) (parameters many count) := by
  refine fuel_induction (P := fun few many =>
    ∀ count, Continues (parameters few count) (parameters many count)) ?_ ?_ ?_ h
  · exact fun count => continues_outOfFuel fun _ => List.suffix_rfl
  · exact fun many hmany count => continues_outOfFuel (hmany count).many
  · exact fun few many ih => parameters_continues_step ih

theorem classHead_continues : Continues classHead classHead :=
  Onward.continues fun ts => (classHead_takes ts).suffix

theorem routineHead_continues {few many : Nat} (h : few ≤ many) (kind : Routine) :
    Continues (routineHead few kind) (routineHead many kind) := by
  apply (continues_expect .identifier (.noRoutineName kind)).bind
  intro name
  apply (continues_expect .leftParen (.unopenedParameters kind)).bind
  intro _
  apply (continues_sees [.rightParen]).bind
  intro closing
  have hend : ∀ params : List Token, Continues
      (expect .rightParen .unclosedParameters >>= fun _ =>
        expect .leftBrace (.unopenedBody kind) >>= fun _ => Pure.pure (name, params))
      (expect .rightParen .unclosedParameters >>= fun _ =>
        expect .leftBrace (.unopenedBody kind) >>= fun _ => Pure.pure (name, params)) := by
    intro params
    exact (continues_expect .rightParen .unclosedParameters).closed .leftBrace (.unopenedBody kind)
  cases closing with
  | true => exact (continues_pure []).bind hend
  | false => exact (parameters_continues h 0).bind hend

/-- The same of the rules for parts of statements and for statements without others inside. -/
structure PartContinues (few many : Nat) : Prop where
  expressionUnless : ∀ symbol,
    Continues (expressionUnless few symbol) (expressionUnless many symbol)
  expressionStatement : Continues (expressionStatement few) (expressionStatement many)
  printStatement : Continues (printStatement few) (printStatement many)
  varDeclaration : Continues (varDeclaration few) (varDeclaration many)
  returnStatement : ∀ depth keyword,
    Continues (returnStatement few depth keyword) (returnStatement many depth keyword)
  condition : ∀ unopened, Continues (condition few unopened) (condition many unopened)
  forStart : Continues (forStart few) (forStart many)
  forClauses : Continues (forClauses few) (forClauses many)
  parameters : ∀ count, Continues (parameters few count) (parameters many count)
  classHead : Continues classHead classHead
  routineHead : ∀ kind, Continues (routineHead few kind) (routineHead many kind)

theorem partContinues {few many : Nat} (h : few ≤ many) : PartContinues few many :=
  ⟨expressionUnless_continues h, expressionStatement_continues h, printStatement_continues h,
    varDeclaration_continues h, returnStatement_continues h, condition_continues h,
    forStart_continues h, forClauses_continues h, parameters_continues h, classHead_continues,
    routineHead_continues h⟩

/-! ## Statements -/

/-- Every statement rule, with `many` units of fuel, continues what it does with `few`. -/
structure StatementContinues (few many : Nat) : Prop where
  declaration : ∀ depth, Continues (declaration few depth) (declaration many depth)
  declared : ∀ depth, Continues (declared few depth) (declared many depth)
  methodList : ∀ depth, Continues (methodList few depth) (methodList many depth)
  routine : ∀ depth kind, Continues (routine few depth kind) (routine many depth kind)
  statement : ∀ depth, Continues (statement few depth) (statement many depth)
  block : ∀ depth, Continues (block few depth) (block many depth)
  declarations : ∀ depth, Continues (declarations few depth) (declarations many depth)

section

variable {few many : Nat} (h : few ≤ many) (ih : StatementContinues few many) (depth : Nat)

include h ih in
theorem declared_continues :
    Continues (declared (few + 1) depth) (declared (many + 1) depth) := by
  apply (continues_accept [.keyword .classWord]).bind
  intro classWord
  cases classWord with
  | some _ =>
    apply classHead_continues.bind
    rintro ⟨name, superclass⟩
    exact (ih.methodList depth).closed .rightBrace .unclosedClass
  | none =>
    apply (continues_accept [.keyword .funWord]).bind
    intro funWord
    cases funWord with
    | some _ => exact (ih.routine depth .function).bind fun routine => continues_pure _
    | none =>
      apply (continues_accept [.keyword .varWord]).bind
      intro varWord
      cases varWord with
      | some _ => exact varDeclaration_continues h
      | none => exact ih.statement depth

include ih in
theorem methodList_continues :
    Continues (methodList (few + 1) depth) (methodList (many + 1) depth) := by
  apply continues_atClosing.bind
  intro closing
  cases closing with
  | true => exact continues_pure []
  | false =>
    apply (ih.routine depth .method).bind
    intro method
    exact (ih.methodList depth).bind fun methods => continues_pure _

include h ih in
theorem routine_continues (kind : Routine) :
    Continues (routine (few + 1) depth kind) (routine (many + 1) depth kind) := by
  apply (routineHead_continues h kind).bind
  rintro ⟨name, params⟩
  exact (ih.block (depth + 1)).bind fun body => continues_pure _

include h ih in
theorem statement_continues :
    Continues (statement (few + 1) depth) (statement (many + 1) depth) := by
  apply (continues_accept [.keyword .forWord]).bind
  intro forWord
  cases forWord with
  | some _ =>
    apply (forClauses_continues h).bind
    intro clauses
    exact (ih.statement depth).bind fun body => continues_pure _
  | none =>
    apply (continues_accept [.keyword .ifWord]).bind
    intro ifWord
    cases ifWord with
    | some _ =>
      apply (condition_continues h .unopenedIf).bind
      intro test
      apply (ih.statement depth).bind
      intro thenBranch
      apply (continues_accept [.keyword .elseWord]).bind
      intro elseWord
      cases elseWord with
      | some _ => exact (ih.statement depth).bind fun elseBranch => continues_pure _
      | none => exact continues_pure _
    | none =>
      apply (continues_accept [.keyword .whileWord]).bind
      intro whileWord
      cases whileWord with
      | some _ =>
        apply (condition_continues h .unopenedWhile).bind
        intro test
        exact (ih.statement depth).bind fun body => continues_pure _
      | none =>
        apply (continues_accept [.keyword .returnWord]).bind
        intro returnWord
        cases returnWord with
        | some keyword => exact returnStatement_continues h depth keyword
        | none =>
          apply (continues_accept [.leftBrace]).bind
          intro leftBrace
          cases leftBrace with
          | some _ => exact (ih.block depth).bind fun body => continues_pure _
          | none =>
            apply (continues_accept [.keyword .printWord]).bind
            intro printWord
            cases printWord with
            | some _ => exact printStatement_continues h
            | none => exact expressionStatement_continues h

include ih in
theorem block_continues : Continues (block (few + 1) depth) (block (many + 1) depth) :=
  (ih.declarations depth).closed .rightBrace .unclosedBlock

include ih in
theorem declarations_continues :
    Continues (declarations (few + 1) depth) (declarations (many + 1) depth) := by
  apply continues_atClosing.bind
  intro closing
  cases closing with
  | true => exact continues_pure []
  | false =>
    apply (ih.declaration depth).bind
    intro first
    exact (ih.declarations depth).bind fun more => continues_pure _

include h ih in
theorem StatementContinues.step : StatementContinues (few + 1) (many + 1) :=
  ⟨fun depth => (ih.declared depth).recover, declared_continues h ih, methodList_continues ih,
    routine_continues h ih, statement_continues h ih, block_continues ih,
    declarations_continues ih⟩

end

theorem statementContinues {few many : Nat} (h : few ≤ many) : StatementContinues few many := by
  -- The rules of statements call those of expressions, so the order of the two fuels goes along.
  refine (fuel_induction (P := fun few many => few ≤ many ∧ StatementContinues few many)
    ?_ ?_ ?_ h).2
  · refine ⟨Nat.le_refl 0, ?_⟩
    constructor <;> intros
    all_goals exact continues_outOfFuel fun _ => List.suffix_rfl
  · rintro many ⟨_, hmany⟩
    exact ⟨Nat.zero_le many, fun depth => continues_outOfFuel (hmany.declaration depth).many,
      fun depth => continues_outOfFuel (hmany.declared depth).many,
      fun depth => continues_outOfFuel (hmany.methodList depth).many,
      fun depth kind => continues_outOfFuel (hmany.routine depth kind).many,
      fun depth => continues_outOfFuel (hmany.statement depth).many,
      fun depth => continues_outOfFuel (hmany.block depth).many,
      fun depth => continues_outOfFuel (hmany.declarations depth).many⟩
  · rintro few many ⟨hle, ih⟩
    exact ⟨Nat.succ_le_succ hle, ih.step hle⟩

end TreeWalk.Grammar
