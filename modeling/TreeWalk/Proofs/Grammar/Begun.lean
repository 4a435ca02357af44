import TreeWalk.Proofs.Grammar.Progress

/-!
The `return` statements that parsing begins, whether they come to an end or not. The problem of a
`return` outside of all bodies is noted exactly at those among them that have no body around, once
at each and in their order, and no rule fails by it.
-/

namespace TreeWalk.Grammar

open TreeWalk.Grammar.Parse

/-- The `return` statements begun in some tokens, in their order: the keyword of each, and how many
bodies are around it. -/
abbrev Returns : Type := List Token → List (Token × Nat)

namespace Returns

variable {α : Type}

def nowhere : Returns := fun _ => []

/-- Those begun behind a step, if it gets there. -/
def behind (p : Parse α) (f : α → Returns) : Returns := fun ts =>
  match p ts with
  | ⟨.done a, rest, _⟩ => f a rest
  | _ => []

/-- Those begun in a step, and then those behind it. -/
def andBehind (begun : Returns) (p : Parse α) (f : α → Returns) : Returns := fun ts =>
  begun ts ++ behind p f ts

mutual

/-- Those begun in a declaration with `depth` bodies around, and likewise for the other rules. -/
def declaration : Nat → Nat → Returns
  | 0, _ => nowhere
  | fuel + 1, depth => declared fuel depth
  termination_by structural fuel => fuel

def declared : Nat → Nat → Returns
  | 0, _ => nowhere
  | fuel + 1, depth =>
    behind (accept [.keyword .classWord]) fun
    | some _ => behind classHead fun _ => methodList fuel depth
    | none => behind (accept [.keyword .funWord]) fun
      | some _ => routine fuel depth .function
      | none => behind (accept [.keyword .varWord]) fun
        | some _ => nowhere
        | none => statement fuel depth
  termination_by structural fuel => fuel

def methodList : Nat → Nat → Returns
  | 0, _ => nowhere
  | fuel + 1, depth =>
    behind atClosing fun
    | true => nowhere
    | false => (routine fuel depth .method).andBehind (Grammar.routine fuel depth .method) fun _ =>
        methodList fuel depth
  termination_by structural fuel => fuel

def routine : Nat → Nat → Routine → Returns
  | 0, _, _ => nowhere
  | fuel + 1, depth, kind => behind (routineHead fuel kind) fun _ => block fuel (depth + 1)
  termination_by structural fuel => fuel

def statement : Nat → Nat → Returns
  | 0, _ => nowhere
  | fuel + 1, depth =>
    behind (accept [.keyword .forWord]) fun
    | some _ => behind (forClauses fuel) fun _ => statement fuel depth
    | none => behind (accept [.keyword .ifWord]) fun
      | some _ => behind (condition fuel .unopenedIf) fun _ =>
          (statement fuel depth).andBehind (Grammar.statement fuel depth) fun _ =>
            behind (accept [.keyword .elseWord]) fun
            | some _ => statement fuel depth
            | none => nowhere
      | none => behind (accept [.keyword .whileWord]) fun
        | some _ => behind (condition fuel .unopenedWhile) fun _ => statement fuel depth
        | none => behind (accept [.keyword .returnWord]) fun
          | some keyword => fun _ => [(keyword, depth)]
          | none => behind (accept [.leftBrace]) fun
            | some _ => block fuel depth
            | none => nowhere
  termination_by structural fuel => fuel

def block : Nat → Nat → Returns
  | 0, _ => nowhere
  | fuel + 1, depth => declarations fuel depth
  termination_by structural fuel => fuel

def declarations : Nat → Nat → Returns
  | 0, _ => nowhere
  | fuel + 1, depth =>
    behind atClosing fun
    | true => nowhere
    | false => (declaration fuel depth).andBehind (Grammar.declaration fuel depth) fun _ =>
        declarations fuel depth
  termination_by structural fuel => fuel

end

/-- Those begun in the declarations of a program. -/
def program : Nat → Returns
  | turns + 1, t :: ts =>
    (declaration (fuelFor (t :: ts)) 0).andBehind (Grammar.declaration (fuelFor (t :: ts)) 0)
      (fun _ => program turns) (t :: ts)
  | _, _ => []

/-- The faults of those that have no body around. -/
def outside (begun : List (Token × Nat)) : List Fault :=
  (begun.filter fun r => r.2 = 0).map fun r => ⟨some r.1, .topLevelReturn⟩

@[simp] theorem outside_nil : outside [] = [] := rfl

@[simp] theorem outside_append (begun more : List (Token × Nat)) :
    outside (begun ++ more) = outside begun ++ outside more := by
  simp [outside]

end Returns

def Fault.ofReturn (f : Fault) : Bool := f.problem = .topLevelReturn

namespace Parse

open Returns

variable {α β : Type} {p : Parse α} {begun : Returns}

/-- The faults of returns that `p` notes are at those begun outside of all bodies, and `p` does not
fail by one. -/
structure Traced (p : Parse α) (begun : Returns) : Prop where
  noted : ∀ ts, (p ts).noted.filter Fault.ofReturn = outside (begun ts)
  failed : ∀ ts fault, (p ts).reply = .failed fault → fault.ofReturn = false

/-- No return is begun in `p`. -/
abbrev Silent (p : Parse α) : Prop := Traced p nowhere

theorem Traced.bind {f : α → Parse β} {g : α → Returns} (hp : Traced p begun)
    (hf : ∀ a, Traced (f a) (g a)) : Traced (p >>= f) (begun.andBehind p g) := by
  constructor
  · intro ts
    have hnoted := hp.noted ts
    rw [bind_apply, andBehind, behind]
    rcases hts : p ts with ⟨reply, rest, noted⟩
    rw [hts] at hnoted
    cases reply with
    | done a =>
      have hrest := (hf a).noted rest
      simp only [List.filter_append, outside_append, hnoted, hrest]
    | failed fault => simpa using hnoted
    | outOfFuel => simpa using hnoted
  · intro ts fault h
    have hfailed := hp.failed ts
    rw [bind_apply] at h
    rcases hts : p ts with ⟨reply, rest, noted⟩
    rw [hts] at h hfailed
    cases reply with
    | done a => exact (hf a).failed rest fault h
    | failed fault' =>
      cases h
      exact hfailed fault rfl
    | outOfFuel => cases h

theorem Traced.behind {f : α → Parse β} {g : α → Returns} (hp : Silent p)
    (hf : ∀ a, Traced (f a) (g a)) : Traced (p >>= f) (behind p g) := hp.bind hf

/-- What stands behind a step may be silent. -/
theorem Traced.then_silent {f : α → Parse β} (hp : Traced p begun) (hf : ∀ a, Silent (f a)) :
    Traced (p >>= f) begun := by
  have h := hp.bind hf
  have hsame : begun.andBehind p (fun _ => nowhere) = begun := by
    funext ts
    rw [andBehind, Returns.behind]
    split <;> exact List.append_nil _
  rwa [hsame] at h

theorem silent_pure (a : α) : Silent (Pure.pure a) := ⟨fun _ => rfl, fun _ _ => nofun⟩

theorem silent_outOfFuel : Silent (outOfFuel : Parse α) := ⟨fun _ => rfl, fun _ _ => nofun⟩

theorem silent_note {fault : Fault} (h : fault.ofReturn = false) : Silent (note fault) :=
  ⟨fun _ => by simp [note, h, nowhere], fun _ _ => nofun⟩

theorem silent_noteHere {problem : Problem} (h : problem ≠ .topLevelReturn) :
    Silent (noteHere problem) :=
  ⟨fun _ => by simp [noteHere, Fault.ofReturn, h, nowhere], fun _ _ => nofun⟩

theorem silent_fail {problem : Problem} (h : problem ≠ .topLevelReturn) :
    Silent (fail problem : Parse α) := by
  refine ⟨fun _ => rfl, ?_⟩
  rintro ts fault ⟨⟩
  simp [Fault.ofReturn, h]

theorem silent_sees (symbols : List Symbol) : Silent (sees symbols) := by
  constructor <;> intro ts <;> simp [sees_apply, nowhere]

theorem silent_atClosing : Silent atClosing := by
  constructor <;> intro ts <;> simp [atClosing_apply, nowhere]

theorem silent_peek : Silent peek := ⟨fun _ => rfl, fun _ _ => nofun⟩

theorem silent_skip : Silent skip := ⟨fun _ => rfl, fun _ _ => nofun⟩

theorem silent_accept (symbols : List Symbol) : Silent (accept symbols) := by
  constructor <;> intro ts <;> rw [accept_eq] <;> split <;> simp [nowhere]

theorem silent_expect {symbol : Symbol} {problem : Problem} (h : problem ≠ .topLevelReturn) :
    Silent (expect symbol problem) := by
  have hfail := silent_fail (α := Token) h
  constructor <;> intro ts <;> unfold expect <;> split
  · split
    · rfl
    · exact hfail.noted _
  · exact hfail.noted _
  · split
    · exact fun _ => nofun
    · exact hfail.failed _
  · exact hfail.failed _

/-- The token that closes a rule may be expected behind it. -/
theorem Traced.closed {f : α → β} (hp : Traced p begun) {symbol : Symbol} {problem : Problem}
    (h : problem ≠ .topLevelReturn) :
    Traced (p >>= fun a => expect symbol problem >>= fun _ => Pure.pure (f a)) begun :=
  hp.then_silent fun _ => (silent_expect h).then_silent fun _ => silent_pure _

/-- Another fault may be noted first. -/
theorem Traced.noting {c : Prop} [Decidable c] {problem : Problem} (hp : Traced p begun)
    (h : problem ≠ .topLevelReturn) :
    Traced (if c then noteHere problem >>= fun _ => p else p) begun := by
  split
  · exact (silent_noteHere h).bind fun _ => hp
  · exact hp

/-- Recovery notes the fault that stopped a rule. -/
theorem Traced.recover (hp : Traced p begun) : Traced (recover p) begun := by
  constructor <;> intro ts
  · have hnoted := hp.noted ts
    have hfailed := hp.failed ts
    unfold Grammar.recover
    rcases hts : p ts with ⟨reply, rest, noted⟩
    rw [hts] at hnoted hfailed
    cases reply with
    | done a => exact hnoted
    | failed fault => simpa [hfailed fault rfl] using hnoted
    | outOfFuel => exact hnoted
  · unfold Grammar.recover
    rcases p ts with ⟨reply, rest, noted⟩
    cases reply <;> exact fun _ => nofun

end Parse

/-! ## Expressions -/

/-- No expression rule begins a return. -/
structure ExpressionSilent (fuel : Nat) : Prop where
  expression : Silent (expression fuel)
  tiered : ∀ tiers : List Tier, Silent (tiered fuel tiers)
  chain : ∀ (tier : Tier) (tighter : List Tier) (left : Expr), Silent (chain fuel tier tighter left)
  unary : Silent (unary fuel)
  calls : ∀ callee : Expr, Silent (calls fuel callee)
  arguments : ∀ count : Nat, Silent (arguments fuel count)
  primary : Silent (primary fuel)

theorem assignTo_silent (left : Expr) (equals : Token) (value : Expr) :
    Silent (assignTo left equals value) := by
  cases left with
  | reference name => exact silent_pure _
  | _ => exact (silent_note rfl).then_silent fun _ => silent_pure _

section

variable {fuel : Nat} (ih : ExpressionSilent fuel)
include ih

theorem expression_silent : Silent (expression (fuel + 1)) := by
  apply (ih.tiered Tier.ladder).then_silent
  intro left
  apply (silent_accept [.equal]).then_silent
  intro equals
  cases equals with
  | none => exact silent_pure left
  | some equals => exact ih.expression.then_silent fun value => assignTo_silent left equals value

theorem tiered_silent (tiers : List Tier) : Silent (tiered (fuel + 1) tiers) := by
  cases tiers with
  | nil => exact ih.unary
  | cons tier tighter =>
    exact (ih.tiered tighter).then_silent fun left => ih.chain tier tighter left

theorem chain_silent (tier : Tier) (tighter : List Tier) (left : Expr) :
    Silent (chain (fuel + 1) tier tighter left) := by
  apply (silent_accept tier.operators).then_silent
  intro operator
  cases operator with
  | none => exact silent_pure left
  | some operator => exact (ih.tiered tighter).then_silent fun right => ih.chain tier tighter _

theorem unary_silent : Silent (unary (fuel + 1)) := by
  apply (silent_accept unaryOperators).then_silent
  intro operator
  cases operator with
  | none => exact ih.primary.then_silent fun callee => ih.calls callee
  | some operator => exact ih.unary.then_silent fun right => silent_pure _

theorem calls_silent (callee : Expr) : Silent (calls (fuel + 1) callee) := by
  apply (silent_accept [.leftParen]).then_silent
  intro opening
  cases opening with
  | none => exact silent_pure callee
  | some opening =>
    have hclose : ∀ values : List Expr, Silent (expect .rightParen .unclosedArguments >>=
        fun paren => calls fuel (.call callee paren values)) :=
      fun values => (silent_expect (by decide)).then_silent fun paren => ih.calls _
    apply (silent_sees [.rightParen]).then_silent
    intro closing
    cases closing with
    | true => exact (silent_pure []).then_silent hclose
    | false => exact (ih.arguments 0).then_silent hclose

theorem arguments_silent (count : Nat) : Silent (arguments (fuel + 1) count) := by
  rw [arguments]
  refine Traced.noting ?_ (by decide)
  apply ih.expression.then_silent
  intro value
  apply (silent_accept [.comma]).then_silent
  intro comma
  cases comma with
  | none => exact silent_pure [value]
  | some comma => exact (ih.arguments (count + 1)).then_silent fun values => silent_pure _

theorem primary_silent : Silent (primary (fuel + 1)) := by
  apply silent_peek.then_silent
  intro next
  cases next with
  | none => exact silent_fail (by decide)
  | some t =>
    cases hliteral : literal? t with
    | some value =>
      simp only [hliteral]
      exact silent_skip.then_silent fun _ => silent_pure _
    | none =>
      simp only [hliteral]
      split
      · exact silent_skip.then_silent fun _ => silent_pure _
      · split
        · exact silent_skip.then_silent fun _ => ih.expression.closed (by decide)
        · exact silent_fail (by decide)

end

theorem expressionSilent (fuel : Nat) : ExpressionSilent fuel := by
  induction fuel with
  | zero =>
    constructor <;> intros
    all_goals exact silent_outOfFuel
  | succ fuel ih =>
    exact ⟨expression_silent ih, tiered_silent ih, chain_silent ih, unary_silent ih,
      calls_silent ih, arguments_silent ih, primary_silent ih⟩

/-! ## Parts of statements -/

theorem expressionUnless_silent (fuel : Nat) (symbol : Symbol) :
    Silent (expressionUnless fuel symbol) := by
  apply (silent_sees [symbol]).then_silent
  intro found
  cases found with
  | true => exact silent_pure none
  | false => exact (expressionSilent fuel).expression.then_silent fun value => silent_pure _

theorem expressionStatement_silent (fuel : Nat) : Silent (expressionStatement fuel) :=
  (expressionSilent fuel).expression.closed (by decide)

theorem printStatement_silent (fuel : Nat) : Silent (printStatement fuel) :=
  (expressionSilent fuel).expression.closed (by decide)

theorem varDeclaration_silent (fuel : Nat) : Silent (varDeclaration fuel) := by
  apply (silent_expect (by decide)).then_silent
  intro name
  apply (silent_accept [.equal]).then_silent
  intro equals
  cases equals with
  | none => exact (silent_pure none).closed (by decide)
  | some equals =>
    apply (expressionSilent fuel).expression.then_silent
    intro value
    exact (silent_pure (some value)).closed (by decide)

theorem condition_silent (fuel : Nat) {unopened : Problem} (h : unopened ≠ .topLevelReturn) :
    Silent (condition fuel unopened) :=
  (silent_expect h).then_silent fun _ => (expressionSilent fuel).expression.closed (by decide)

theorem forStart_silent (fuel : Nat) : Silent (forStart fuel) := by
  apply (silent_accept [.semicolon]).then_silent
  intro semicolon
  cases semicolon with
  | some _ => exact silent_pure none
  | none =>
    apply (silent_accept [.keyword .varWord]).then_silent
    intro keyword
    cases keyword with
    | some _ => exact (varDeclaration_silent fuel).then_silent fun start => silent_pure _
    | none => exact (expressionStatement_silent fuel).then_silent fun start => silent_pure _

theorem forClauses_silent (fuel : Nat) : Silent (forClauses fuel) := by
  apply (silent_expect (by decide)).then_silent
  intro _
  apply (forStart_silent fuel).then_silent
  intro start
  apply (expressionUnless_silent fuel .semicolon).then_silent
  intro condition
  apply (silent_expect (by decide)).then_silent
  intro _
  exact (expressionUnless_silent fuel .rightParen).closed (by decide)

theorem parameters_silent (fuel : Nat) : ∀ count, Silent (parameters fuel count) := by
  induction fuel with
  | zero => exact fun _ => silent_outOfFuel
  | succ fuel ih =>
    intro count
    rw [parameters]
    refine Traced.noting ?_ (by decide)
    apply (silent_expect (by decide)).then_silent
    intro name
    apply (silent_accept [.comma]).then_silent
    intro comma
    cases comma with
    | none => exact silent_pure [name]
    | some comma => exact (ih (count + 1)).then_silent fun names => silent_pure _

theorem classHead_silent : Silent classHead := by
  apply (silent_expect (by decide)).then_silent
  intro name
  apply (silent_accept [.less]).then_silent
  intro less
  cases less with
  | none => exact (silent_pure none).closed (by decide)
  | some less =>
    apply (silent_expect (by decide)).then_silent
    intro parent
    exact (silent_pure (some (Expr.reference parent))).closed (by decide)

theorem routineHead_silent (fuel : Nat) (kind : Routine) : Silent (routineHead fuel kind) := by
  apply (silent_expect (by nofun)).then_silent
  intro name
  apply (silent_expect (by nofun)).then_silent
  intro _
  have hend : ∀ params : List Token, Silent (expect .rightParen .unclosedParameters >>= fun _ =>
      expect .leftBrace (.unopenedBody kind) >>= fun _ => Pure.pure (name, params)) :=
    fun params => (silent_expect (by decide)).closed (by nofun)
  apply (silent_sees [.rightParen]).then_silent
  intro closing
  cases closing with
  | true => exact (silent_pure []).then_silent hend
  | false => exact (parameters_silent fuel 0).then_silent hend

/-! ## Statements -/

/-- What the statement rules begin, with `fuel`. -/
structure StatementTraced (fuel : Nat) : Prop where
  declaration : ∀ depth, Traced (declaration fuel depth) (Returns.declaration fuel depth)
  declared : ∀ depth, Traced (declared fuel depth) (Returns.declared fuel depth)
  methodList : ∀ depth, Traced (methodList fuel depth) (Returns.methodList fuel depth)
  routine : ∀ depth kind, Traced (routine fuel depth kind) (Returns.routine fuel depth kind)
  statement : ∀ depth, Traced (statement fuel depth) (Returns.statement fuel depth)
  block : ∀ depth, Traced (block fuel depth) (Returns.block fuel depth)
  declarations : ∀ depth, Traced (declarations fuel depth) (Returns.declarations fuel depth)

/-- Outside of all bodies its keyword is noted. -/
theorem returnStatement_traced (fuel depth : Nat) (keyword : Token) :
    Traced (returnStatement fuel depth keyword) fun _ => [(keyword, depth)] := by
  have hvalue : Silent (expressionUnless fuel .semicolon >>= fun value =>
      expect .semicolon .unendedReturn >>= fun _ => Pure.pure (Stmt.returnValue keyword value)) :=
    (expressionUnless_silent fuel .semicolon).closed (by decide)
  rw [returnStatement]
  split
  · have hnote : Traced (note ⟨some keyword, .topLevelReturn⟩) fun _ => [(keyword, depth)] := by
      constructor
      · simp_all [note, Fault.ofReturn, Returns.outside]
      · rintro ts fault ⟨⟩
    exact hnote.then_silent fun _ => hvalue
  · exact ⟨fun ts => (hvalue.noted ts).trans (by simp_all [Returns.outside, Returns.nowhere]),
      hvalue.failed⟩

section

variable {fuel : Nat} (ih : StatementTraced fuel) (depth : Nat)
include ih

theorem declared_traced :
    Traced (declared (fuel + 1) depth) (Returns.declared (fuel + 1) depth) := by
  apply (silent_accept [.keyword .classWord]).behind
  intro classWord
  cases classWord with
  | some _ =>
    apply classHead_silent.behind
    rintro ⟨name, superclass⟩
    exact (ih.methodList depth).closed (by decide)
  | none =>
    apply (silent_accept [.keyword .funWord]).behind
    intro funWord
    cases funWord with
    | some _ => exact (ih.routine depth .function).then_silent fun routine => silent_pure _
    | none =>
      apply (silent_accept [.keyword .varWord]).behind
      intro varWord
      cases varWord with
      | some _ => exact varDeclaration_silent fuel
      | none => exact ih.statement depth

theorem methodList_traced :
    Traced (methodList (fuel + 1) depth) (Returns.methodList (fuel + 1) depth) := by
  apply silent_atClosing.behind
  intro closing
  cases closing with
  | true => exact silent_pure []
  | false =>
    apply (ih.routine depth .method).bind
    intro method
    exact (ih.methodList depth).then_silent fun methods => silent_pure _

theorem routine_traced (kind : Routine) :
    Traced (routine (fuel + 1) depth kind) (Returns.routine (fuel + 1) depth kind) := by
  apply (routineHead_silent fuel kind).behind
  rintro ⟨name, params⟩
  exact (ih.block (depth + 1)).then_silent fun body => silent_pure _

theorem statement_traced :
    Traced (statement (fuel + 1) depth) (Returns.statement (fuel + 1) depth) := by
  apply (silent_accept [.keyword .forWord]).behind
  intro forWord
  cases forWord with
  | some _ =>
    apply (forClauses_silent fuel).behind
    intro clauses
    exact (ih.statement depth).then_silent fun body => silent_pure _
  | none =>
    apply (silent_accept [.keyword .ifWord]).behind
    intro ifWord
    cases ifWord with
    | some _ =>
      apply (condition_silent fuel (by decide)).behind
      intro test
      apply (ih.statement depth).bind
      intro thenBranch
      apply (silent_accept [.keyword .elseWord]).behind
      intro elseWord
      cases elseWord with
      | some _ => exact (ih.statement depth).then_silent fun elseBranch => silent_pure _
      | none => exact silent_pure _
    | none =>
      apply (silent_accept [.keyword .whileWord]).behind
      intro whileWord
      cases whileWord with
      | some _ =>
        apply (condition_silent fuel (by decide)).behind
        intro test
        exact (ih.statement depth).then_silent fun body => silent_pure _
      | none =>
        apply (silent_accept [.keyword .returnWord]).behind
        intro returnWord
        cases returnWord with
        | some keyword => exact returnStatement_traced fuel depth keyword
        | none =>
          apply (silent_accept [.leftBrace]).behind
          intro leftBrace
          cases leftBrace with
          | some _ => exact (ih.block depth).then_silent fun body => silent_pure _
          | none =>
            apply (silent_accept [.keyword .printWord]).then_silent
            intro printWord
            cases printWord with
            | some _ => exact printStatement_silent fuel
            | none => exact expressionStatement_silent fuel

theorem block_traced : Traced (block (fuel + 1) depth) (Returns.block (fuel + 1) depth) :=
  (ih.declarations depth).closed (by decide)

theorem declarations_traced :
    Traced (declarations (fuel + 1) depth) (Returns.declarations (fuel + 1) depth) := by
  apply silent_atClosing.behind
  intro closing
  cases closing with
  | true => exact silent_pure []
  | false =>
    apply (ih.declaration depth).bind
    intro first
    exact (ih.declarations depth).then_silent fun more => silent_pure _

end

theorem statementTraced (fuel : Nat) : StatementTraced fuel := by
  induction fuel with
  | zero =>
    constructor <;> intros
    all_goals exact silent_outOfFuel
  | succ fuel ih =>
    exact ⟨fun depth => (ih.declared depth).recover, declared_traced ih, methodList_traced ih,
      routine_traced ih, statement_traced ih, block_traced ih, declarations_traced ih⟩

/-- The faults of returns in a program. -/
theorem programFrom_noted (turns : Nat) (ts : List Token) :
    (programFrom turns ts).faults.filter Fault.ofReturn =
      Returns.outside (Returns.program turns ts) := by
  induction turns generalizing ts with
  | zero => cases ts <;> rfl
  | succ turns ih =>
    cases ts with
    | nil => rfl
    | cons t ts =>
      have hfirst := ((statementTraced (fuelFor (t :: ts))).declaration 0).noted (t :: ts)
      rw [programFrom, Returns.program, Returns.andBehind, Returns.behind]
      rcases hstep : declaration (fuelFor (t :: ts)) 0 (t :: ts) with ⟨reply, rest, noted⟩
      rw [hstep] at hfirst
      cases reply with
      | done first =>
        simp only [List.filter_append, Returns.outside_append, hfirst, ih rest]
      | failed fault => simpa using hfirst
      | outOfFuel => simpa using hfirst

end TreeWalk.Grammar
