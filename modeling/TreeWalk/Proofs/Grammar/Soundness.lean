import TreeWalk.Proofs.Grammar.Derivation
import TreeWalk.Proofs.Grammar.Progress
import TreeWalk.Tree.Text

/-!
What the parser accepts is in the grammar. Every value that a rule reads without a fault is the
tree of a regular derivation whose yield is exactly the tokens the rule took.
-/

namespace TreeWalk.Grammar

open Parse TreeWalk.Grammar.Derivation

theorem literal?_eq_some {t : Token} {value : Literal} :
    literal? t = some value ↔ Writes t.kind value := by
  constructor
  · intro h
    unfold literal? at h
    split at h <;> cases h <;> rename_i hk <;> rw [hk] <;> constructor
  · intro h
    unfold literal?
    cases hk : t.kind with
    | symbol s => rw [hk] at h; cases h <;> rfl
    | string contents => rw [hk] at h; cases h; rfl
    | number x => rw [hk] at h; cases h; rfl

/-! ## Operands that are names -/

theorem Derivation.Chain.tree_eq_reference {tier : Tier} {tighter : List Tier} :
    ∀ (d : Chain tier tighter) {left : Expr} {name : Token}, d.tree left = .reference name →
      d.yield = [] ∧ left = .reference name
  | .done, _, _, h => ⟨rfl, h⟩
  | .next operator right more, left, name, h => by
    -- A chain with an operator is a node of its tier.
    obtain ⟨_, hnode⟩ := more.tree_eq_reference h
    cases tier <;> cases hnode

theorem Derivation.Calls.tree_eq_reference :
    ∀ (d : Calls) {callee : Expr} {name : Token}, d.tree callee = .reference name →
      d.yield = [] ∧ callee = .reference name
  | .done, _, _, h => ⟨rfl, h⟩
  | .bare _ _ more, _, _, h => by cases (more.tree_eq_reference h).2
  | .passing _ _ _ more, _, _, h => by cases (more.tree_eq_reference h).2

theorem Derivation.Primary.tree_eq_reference (d : Primary) {name : Token}
    (h : d.tree = .reference name) : d.yield = [name] ∧ name.kind = .symbol .identifier := by
  cases d with
  | literal token => cases h
  | group opening inner closing => cases h
  | name terminal =>
    cases h
    obtain ⟨token, s, hs, hk⟩ := terminal
    rw [List.mem_singleton] at hs
    exact ⟨rfl, hs ▸ hk⟩

/-- Only a name alone stands for a reference, so what is assigned to is a name. -/
theorem Derivation.Tiered.tree_eq_reference {name : Token} :
    ∀ {tiers : List Tier} (d : Tiered tiers), d.tree = .reference name →
      d.yield = [name] ∧ name.kind = .symbol .identifier
  | _, .unary (.operation _ _), h => by cases h
  | _, .unary (.call callee calls), h => by
    obtain ⟨hyield, hcallee⟩ := calls.tree_eq_reference h
    have h := callee.tree_eq_reference hcallee
    simpa [Tiered.yield, Unary.yield, hyield] using h
  | _, .chain first more, h => by
    obtain ⟨hyield, hfirst⟩ := more.tree_eq_reference h
    have h := first.tree_eq_reference hfirst
    simpa [Tiered.yield, hyield] using h

/-! ## Expressions -/

/-- What each rule reads is derived, with `fuel` for the rules it calls. -/
structure ExpressionSound (fuel : Nat) : Prop where
  expression : ∀ {ts : List Token} {e : Expr} {rest : List Token},
    Reads (expression fuel) ts e rest →
      ∃ d : Expression, ts = d.yield ++ rest ∧ e = d.tree ∧ d.Regular
  tiered : ∀ {tiers : List Tier} {ts : List Token} {e : Expr} {rest : List Token},
    Reads (tiered fuel tiers) ts e rest →
      ∃ d : Tiered tiers, ts = d.yield ++ rest ∧ e = d.tree ∧ d.Regular
  chain : ∀ {tier : Tier} {tighter : List Tier} {left : Expr} {ts : List Token} {e : Expr}
    {rest : List Token}, Reads (chain fuel tier tighter left) ts e rest →
      ∃ d : Chain tier tighter, ts = d.yield ++ rest ∧ e = d.tree left ∧ d.Regular
  unary : ∀ {ts : List Token} {e : Expr} {rest : List Token}, Reads (unary fuel) ts e rest →
    ∃ d : Unary, ts = d.yield ++ rest ∧ e = d.tree ∧ d.Regular
  calls : ∀ {callee : Expr} {ts : List Token} {e : Expr} {rest : List Token},
    Reads (calls fuel callee) ts e rest →
      ∃ d : Calls, ts = d.yield ++ rest ∧ e = d.tree callee ∧ d.Regular
  arguments : ∀ {count : Nat} {ts : List Token} {es : List Expr} {rest : List Token},
    Reads (arguments fuel count) ts es rest →
      ∃ d : Arguments, ts = d.yield ++ rest ∧ es = d.trees ∧ d.Regular ∧
        count + d.count ≤ mostArguments
  primary : ∀ {ts : List Token} {e : Expr} {rest : List Token}, Reads (primary fuel) ts e rest →
    ∃ d : Primary, ts = d.yield ++ rest ∧ e = d.tree ∧ d.Regular

/-- The token that a step took as one of the symbols. -/
def Derivation.Terminal.single {s : Symbol} (t : Token) (h : t.kind = .symbol s) : Terminal [s] :=
  ⟨t, s, List.mem_singleton_self s, h⟩

theorem reads_assignTo {left : Expr} {equals : Token} {value e : Expr} {ts rest : List Token} :
    Reads (assignTo left equals value) ts e rest ↔
      ∃ name, left = .reference name ∧ e = .assign name value ∧ ts = rest := by
  cases left <;> simp [assignTo, eq_comm]

section

variable {fuel : Nat} (ih : ExpressionSound fuel) {ts rest : List Token} {e : Expr}
include ih

theorem expression_sound (h : Reads (expression (fuel + 1)) ts e rest) :
    ∃ d : Expression, ts = d.yield ++ rest ∧ e = d.tree ∧ d.Regular := by
  simp only [expression, ← levels_eq, reads_bind] at h
  obtain ⟨left, afterLeft, hleft, o, afterEquals, hequals, h⟩ := h
  obtain ⟨d, rfl, rfl, hd⟩ := ih.tiered hleft
  cases o with
  | none =>
    simp only [reads_accept_none, reads_pure] at hequals h
    obtain ⟨_, rfl⟩ := hequals
    obtain ⟨rfl, rfl⟩ := h
    exact ⟨.tiered d, rfl, rfl, hd⟩
  | some equals =>
    simp only [reads_accept_some, reads_bind, reads_assignTo] at hequals h
    obtain ⟨hequals, rfl⟩ := hequals
    obtain ⟨value, afterValue, hvalue, name, hname, rfl, rfl⟩ := h
    obtain ⟨v, rfl, rfl, hv⟩ := ih.expression hvalue
    obtain ⟨hyield, hident⟩ := d.tree_eq_reference hname
    refine ⟨.assign (.single name hident) ⟨equals, hequals⟩ v, ?_, rfl, hv⟩
    rw [hyield]
    rfl

theorem tiered_sound {tiers : List Tier} (h : Reads (tiered (fuel + 1) tiers) ts e rest) :
    ∃ d : Tiered tiers, ts = d.yield ++ rest ∧ e = d.tree ∧ d.Regular := by
  cases tiers with
  | nil =>
    rw [tiered] at h
    obtain ⟨d, rfl, rfl, hd⟩ := ih.unary h
    exact ⟨.unary d, rfl, rfl, hd⟩
  | cons tier tighter =>
    simp only [tiered, reads_bind] at h
    obtain ⟨left, afterLeft, hleft, h⟩ := h
    obtain ⟨first, rfl, rfl, hfirst⟩ := ih.tiered hleft
    obtain ⟨more, rfl, rfl, hmore⟩ := ih.chain h
    exact ⟨.chain first more, by rw [Tiered.yield, List.append_assoc], rfl, hfirst, hmore⟩

theorem chain_sound {tier : Tier} {tighter : List Tier} {left : Expr}
    (h : Reads (chain (fuel + 1) tier tighter left) ts e rest) :
    ∃ d : Chain tier tighter, ts = d.yield ++ rest ∧ e = d.tree left ∧ d.Regular := by
  simp only [chain, reads_bind] at h
  obtain ⟨o, afterOperator, hoperator, h⟩ := h
  cases o with
  | none =>
    simp only [reads_accept_none, reads_pure] at hoperator h
    obtain ⟨_, rfl⟩ := hoperator
    obtain ⟨rfl, rfl⟩ := h
    exact ⟨.done, rfl, rfl, trivial⟩
  | some operator =>
    simp only [reads_accept_some, reads_bind] at hoperator h
    obtain ⟨hoperator, rfl⟩ := hoperator
    obtain ⟨right, afterRight, hright, h⟩ := h
    obtain ⟨r, rfl, rfl, hr⟩ := ih.tiered hright
    obtain ⟨more, rfl, rfl, hmore⟩ := ih.chain h
    rw [← levelOperators_eq] at hoperator
    exact ⟨.next ⟨operator, hoperator⟩ r more, by simp [Chain.yield],
      by rw [Chain.tree, levelTree_eq], hr, hmore⟩

theorem unary_sound (h : Reads (unary (fuel + 1)) ts e rest) :
    ∃ d : Unary, ts = d.yield ++ rest ∧ e = d.tree ∧ d.Regular := by
  simp only [unary, ← signs_eq, reads_bind] at h
  obtain ⟨o, afterOperator, hoperator, h⟩ := h
  cases o with
  | none =>
    simp only [reads_accept_none, reads_bind] at hoperator h
    obtain ⟨_, rfl⟩ := hoperator
    obtain ⟨callee, afterCallee, hcallee, h⟩ := h
    obtain ⟨c, rfl, rfl, hc⟩ := ih.primary hcallee
    obtain ⟨calls, rfl, rfl, hcalls⟩ := ih.calls h
    exact ⟨.call c calls, by rw [Unary.yield, List.append_assoc], rfl, hc, hcalls⟩
  | some operator =>
    simp only [reads_accept_some, reads_bind, reads_pure] at hoperator h
    obtain ⟨hoperator, rfl⟩ := hoperator
    obtain ⟨right, afterRight, hright, rfl, rfl⟩ := h
    obtain ⟨r, rfl, rfl, hr⟩ := ih.unary hright
    exact ⟨.operation ⟨operator, hoperator⟩ r, rfl, rfl, hr⟩

theorem calls_sound {callee : Expr} (h : Reads (calls (fuel + 1) callee) ts e rest) :
    ∃ d : Calls, ts = d.yield ++ rest ∧ e = d.tree callee ∧ d.Regular := by
  simp only [calls, reads_bind] at h
  obtain ⟨o, afterOpening, hopening, h⟩ := h
  cases o with
  | none =>
    simp only [reads_accept_none, reads_pure] at hopening h
    obtain ⟨_, rfl⟩ := hopening
    obtain ⟨rfl, rfl⟩ := h
    exact ⟨.done, rfl, rfl, trivial⟩
  | some opening =>
    simp only [reads_accept_some, reads_bind, reads_sees] at hopening h
    obtain ⟨hopening, rfl⟩ := hopening
    obtain ⟨bare, _, ⟨_, rfl⟩, h⟩ := h
    cases bare with
    | true =>
      simp only [if_true, pure_eq, reads_bind, reads_pure, reads_expect] at h
      obtain ⟨_, _, ⟨rfl, rfl⟩, paren, _, ⟨hparen, rfl⟩, h⟩ := h
      obtain ⟨more, rfl, rfl, hmore⟩ := ih.calls h
      exact ⟨.bare ⟨opening, hopening⟩ (.single paren hparen) more, rfl, rfl, hmore⟩
    | false =>
      simp only [Bool.false_eq_true, if_false, reads_bind, reads_expect] at h
      obtain ⟨values, _, hvalues, paren, _, ⟨hparen, rfl⟩, h⟩ := h
      obtain ⟨args, rfl, rfl, hargs, hcount⟩ := ih.arguments hvalues
      obtain ⟨more, rfl, rfl, hmore⟩ := ih.calls h
      rw [Nat.zero_add] at hcount
      exact ⟨.passing ⟨opening, hopening⟩ args (.single paren hparen) more,
        by simp [Calls.yield, Terminal.single], rfl, hcount, hargs, hmore⟩

theorem arguments_sound {count : Nat} {es : List Expr}
    (h : Reads (arguments (fuel + 1) count) ts es rest) :
    ∃ d : Arguments, ts = d.yield ++ rest ∧ es = d.trees ∧ d.Regular ∧
      count + d.count ≤ mostArguments := by
  rw [arguments, ← mostArguments_eq] at h
  split at h
  · simp at h
  · next hcount =>
    simp only [reads_bind] at h
    obtain ⟨value, afterValue, hvalue, o, afterComma, hcomma, h⟩ := h
    obtain ⟨v, rfl, rfl, hv⟩ := ih.expression hvalue
    cases o with
    | none =>
      simp only [reads_accept_none, reads_pure] at hcomma h
      obtain ⟨_, rfl⟩ := hcomma
      obtain ⟨rfl, rfl⟩ := h
      exact ⟨.one v, rfl, rfl, hv, by simp only [Arguments.count]; omega⟩
    | some comma =>
      simp only [reads_accept_some, reads_bind, reads_pure] at hcomma h
      obtain ⟨hcomma, rfl⟩ := hcomma
      obtain ⟨values, _, hvalues, rfl, rfl⟩ := h
      obtain ⟨more, rfl, rfl, hmore, hmax⟩ := ih.arguments hvalues
      exact ⟨.more v ⟨comma, hcomma⟩ more, by simp [Arguments.yield], rfl, ⟨hv, hmore⟩,
        by simp only [Arguments.count]; omega⟩

theorem primary_sound (h : Reads (primary (fuel + 1)) ts e rest) :
    ∃ d : Primary, ts = d.yield ++ rest ∧ e = d.tree ∧ d.Regular := by
  simp only [primary, reads_bind, reads_peek] at h
  obtain ⟨o, _, ⟨ho, rfl⟩, h⟩ := h
  cases ts with
  | nil =>
    cases ho
    simp at h
  | cons t ts =>
    cases ho
    simp only [List.head?_cons] at h
    split at h
    · next value hvalue =>
      simp only [reads_bind, reads_skip, reads_pure] at h
      obtain ⟨_, _, rfl, rfl, rfl⟩ := h
      exact ⟨.literal ⟨t, value, literal?_eq_some.1 hvalue⟩, rfl, rfl, trivial⟩
    · split at h
      · next hident =>
        simp only [reads_bind, reads_skip, reads_pure] at h
        obtain ⟨_, _, rfl, rfl, rfl⟩ := h
        exact ⟨.name (.single t (Token.is_iff.1 hident)), rfl, rfl, trivial⟩
      · split at h
        · next hopening =>
          simp only [reads_bind, reads_skip, reads_expect, reads_pure] at h
          obtain ⟨_, _, rfl, inner, _, hinner, closing, _, ⟨hclosing, rfl⟩, rfl, rfl⟩ := h
          obtain ⟨d, hd, rfl, hreg⟩ := ih.expression hinner
          refine ⟨.group (.single t (Token.is_iff.1 hopening)) d (.single closing hclosing),
            ?_, rfl, hreg⟩
          rw [List.tail_cons] at hd
          simp [hd, Primary.yield, Terminal.single]
        · simp at h

end

theorem expressionSound (fuel : Nat) : ExpressionSound fuel := by
  induction fuel with
  | zero =>
    constructor <;> intros <;> rename_i h <;>
      simp [expression, tiered, chain, unary, calls, arguments, primary] at h
  | succ fuel ih =>
    exact ⟨expression_sound ih, tiered_sound ih, chain_sound ih, unary_sound ih, calls_sound ih,
      arguments_sound ih, primary_sound ih⟩

/-! ## Parts of statements -/

section

variable {fuel : Nat} {ts rest : List Token}

theorem expressionUnless_sound {symbol : Symbol} {o : Option Expr}
    (h : Reads (expressionUnless fuel symbol) ts o rest) :
    ∃ d : Option Expression, ts = d.elim [] Expression.yield ++ rest ∧
      o = d.map Expression.tree ∧ ∀ e ∈ d, e.Regular := by
  simp only [expressionUnless, reads_bind, reads_sees] at h
  obtain ⟨absent, _, ⟨_, rfl⟩, h⟩ := h
  cases absent with
  | true =>
    simp only [if_true, reads_pure] at h
    obtain ⟨rfl, rfl⟩ := h
    exact ⟨none, rfl, rfl, by simp⟩
  | false =>
    simp only [Bool.false_eq_true, if_false, reads_bind, reads_pure] at h
    obtain ⟨value, _, hvalue, rfl, rfl⟩ := h
    obtain ⟨v, rfl, rfl, hv⟩ := (expressionSound fuel).expression hvalue
    exact ⟨some v, rfl, rfl, by simpa using hv⟩

/-- An expression up to its semicolon, for what `node` makes of it. -/
theorem endedExpression_sound {problem : Problem} {node : Expr → Stmt} {s : Stmt}
    (h : Reads (expression fuel >>= fun value => expect .semicolon problem >>= fun _ =>
      Pure.pure (node value)) ts s rest) :
    ∃ d : ExprStmt, ts = d.yield ++ rest ∧ s = node d.value.tree ∧ d.Regular := by
  simp only [reads_bind, reads_expect, reads_pure] at h
  obtain ⟨value, _, hvalue, semicolon, _, ⟨hsemicolon, rfl⟩, rfl, rfl⟩ := h
  obtain ⟨v, rfl, rfl, hv⟩ := (expressionSound fuel).expression hvalue
  exact ⟨⟨v, .single semicolon hsemicolon⟩, by simp [ExprStmt.yield, Terminal.single], rfl, hv⟩

theorem expressionStatement_sound {s : Stmt} (h : Reads (expressionStatement fuel) ts s rest) :
    ∃ d : ExprStmt, ts = d.yield ++ rest ∧ s = d.tree ∧ d.Regular := endedExpression_sound h

theorem printStatement_sound {s : Stmt} (h : Reads (printStatement fuel) ts s rest) :
    ∃ d : ExprStmt, ts = d.yield ++ rest ∧ s = .print d.value.tree ∧ d.Regular :=
  endedExpression_sound h

theorem varDeclaration_sound (keyword : Terminal [.keyword .varWord]) {s : Stmt}
    (h : Reads (varDeclaration fuel) ts s rest) :
    ∃ d : VarDecl, keyword.token :: ts = d.yield ++ rest ∧ s = d.tree ∧ d.Regular := by
  simp only [varDeclaration, reads_bind, reads_expect] at h
  obtain ⟨name, _, ⟨hname, rfl⟩, o, _, hequals, h⟩ := h
  cases o with
  | none =>
    simp only [reads_accept_none, pure_eq, reads_bind, reads_pure, reads_expect] at hequals h
    obtain ⟨_, rfl⟩ := hequals
    obtain ⟨_, _, ⟨rfl, rfl⟩, semicolon, _, ⟨hsemicolon, rfl⟩, rfl, rfl⟩ := h
    exact ⟨⟨keyword, .single name hname, none, .single semicolon hsemicolon⟩, rfl, rfl,
      by simp [VarDecl.Regular]⟩
  | some equals =>
    simp only [reads_accept_some, pure_eq, reads_bind, reads_pure, reads_expect] at hequals h
    obtain ⟨hequals, rfl⟩ := hequals
    obtain ⟨value, _, hvalue, _, _, ⟨rfl, rfl⟩, semicolon, _, ⟨hsemicolon, rfl⟩, rfl, rfl⟩ := h
    obtain ⟨v, rfl, rfl, hv⟩ := (expressionSound fuel).expression hvalue
    exact ⟨⟨keyword, .single name hname, some (⟨equals, hequals⟩, v),
      .single semicolon hsemicolon⟩, by simp [VarDecl.yield, Terminal.single], rfl,
      by simpa [VarDecl.Regular] using hv⟩

theorem returnStatement_sound {depth : Nat} (keyword : Terminal [.keyword .returnWord]) {s : Stmt}
    (h : Reads (returnStatement fuel depth keyword.token) ts s rest) :
    ∃ (value : Option Expression) (semicolon : Terminal [.semicolon]),
      ts = value.elim [] Expression.yield ++ semicolon.token :: rest ∧
        s = .returnValue keyword.token (value.map Expression.tree) ∧
        0 < depth ∧ ∀ e ∈ value, e.Regular := by
  rw [returnStatement] at h
  split at h
  · simp at h
  · next hdepth =>
    simp only [reads_bind, reads_expect, reads_pure] at h
    obtain ⟨value, _, hvalue, semicolon, _, ⟨hsemicolon, rfl⟩, rfl, rfl⟩ := h
    obtain ⟨v, rfl, rfl, hv⟩ := expressionUnless_sound hvalue
    exact ⟨v, .single semicolon hsemicolon, rfl, rfl, Nat.pos_of_ne_zero hdepth, hv⟩

theorem condition_sound {word : Keyword} (keyword : Terminal [.keyword word]) {unopened : Problem}
    {e : Expr} (h : Reads (condition fuel unopened) ts e rest) :
    ∃ d : Guard word, keyword.token :: ts = d.yield ++ rest ∧ e = d.condition.tree ∧
      d.condition.Regular := by
  simp only [condition, reads_bind, reads_expect, reads_pure] at h
  obtain ⟨opening, _, ⟨hopening, rfl⟩, value, _, hvalue, closing, _, ⟨hclosing, rfl⟩, rfl, rfl⟩ := h
  obtain ⟨v, rfl, rfl, hv⟩ := (expressionSound fuel).expression hvalue
  exact ⟨⟨keyword, .single opening hopening, v, .single closing hclosing⟩,
    by simp [Guard.yield, Terminal.single], rfl, hv⟩

theorem forStart_sound {o : Option Stmt} (h : Reads (forStart fuel) ts o rest) :
    ∃ d : ForStart, ts = d.yield ++ rest ∧ o = d.tree ∧ d.Regular := by
  rw [forStart, reads_accept_bind] at h
  rcases h with ⟨semicolon, mid, hsemicolon, rfl, h⟩ | ⟨_, h⟩
  · simp only [reads_pure] at h
    obtain ⟨rfl, rfl⟩ := h
    exact ⟨.absent ⟨semicolon, hsemicolon⟩, rfl, rfl, trivial⟩
  rw [reads_accept_bind] at h
  rcases h with ⟨keyword, mid, hkeyword, rfl, h⟩ | ⟨_, h⟩
  · simp only [reads_bind, reads_pure] at h
    obtain ⟨start, _, hstart, rfl, rfl⟩ := h
    obtain ⟨d, hd, rfl, hreg⟩ := varDeclaration_sound ⟨keyword, hkeyword⟩ hstart
    exact ⟨.varDecl d, hd, rfl, hreg⟩
  · simp only [reads_bind, reads_pure] at h
    obtain ⟨start, _, hstart, rfl, rfl⟩ := h
    obtain ⟨d, rfl, rfl, hreg⟩ := expressionStatement_sound hstart
    exact ⟨.exprStmt d, rfl, rfl, hreg⟩

theorem forClauses_sound (keyword : Terminal [.keyword .forWord]) {clauses : ForClauses}
    (h : Reads (forClauses fuel) ts clauses rest) :
    ∃ d : ForHead, keyword.token :: ts = d.yield ++ rest ∧
      clauses = ⟨d.start.tree, d.condition.map Expression.tree, d.step.map Expression.tree⟩ ∧
      d.Regular := by
  simp only [forClauses, reads_bind, reads_expect, reads_pure] at h
  obtain ⟨opening, _, ⟨hopening, rfl⟩, start, _, hstart, condition, _, hcondition, semicolon, _,
    ⟨hsemicolon, rfl⟩, step, _, hstep, closing, _, ⟨hclosing, rfl⟩, rfl, rfl⟩ := h
  obtain ⟨d, rfl, rfl, hd⟩ := forStart_sound hstart
  obtain ⟨c, rfl, rfl, hc⟩ := expressionUnless_sound hcondition
  obtain ⟨u, rfl, rfl, hu⟩ := expressionUnless_sound hstep
  exact ⟨⟨keyword, .single opening hopening, d, c, .single semicolon hsemicolon, u,
    .single closing hclosing⟩, by simp [ForHead.yield, Terminal.single], rfl, hd, hc, hu⟩

end

theorem parameters_sound {fuel count : Nat} {ts names rest : List Token}
    (h : Reads (parameters fuel count) ts names rest) :
    ∃ d : Parameters, ts = d.yield ++ rest ∧ names = d.names ∧
      count + d.names.length ≤ mostArguments := by
  induction fuel generalizing count ts names with
  | zero => simp [parameters] at h
  | succ fuel ih =>
    rw [parameters, ← mostArguments_eq] at h
    split at h
    · simp at h
    · next hcount =>
      simp only [reads_bind, reads_expect] at h
      obtain ⟨name, _, ⟨hname, rfl⟩, o, _, hcomma, h⟩ := h
      cases o with
      | none =>
        simp only [reads_accept_none, reads_pure] at hcomma h
        obtain ⟨_, rfl⟩ := hcomma
        obtain ⟨rfl, rfl⟩ := h
        refine ⟨.one (.single name hname), rfl, rfl, ?_⟩
        simp only [Parameters.names, List.length_singleton]
        omega
      | some comma =>
        simp only [reads_accept_some, reads_bind, reads_pure] at hcomma h
        obtain ⟨hcomma, rfl⟩ := hcomma
        obtain ⟨more, _, hmore, rfl, rfl⟩ := h
        obtain ⟨d, rfl, rfl, hd⟩ := ih hmore
        refine ⟨.more (.single name hname) ⟨comma, hcomma⟩ d, rfl, rfl, ?_⟩
        simp only [Parameters.names, List.length_cons]
        omega

theorem classHead_sound (keyword : Terminal [.keyword .classWord]) {ts rest : List Token}
    {head : Token × Option Expr} (h : Reads classHead ts head rest) :
    ∃ d : ClassHead, keyword.token :: ts = d.yield ++ rest ∧
      head = (d.name.token, d.superclass.map fun c => .reference c.2.token) := by
  simp only [classHead, reads_bind, reads_expect] at h
  obtain ⟨name, _, ⟨hname, rfl⟩, o, _, hless, h⟩ := h
  cases o with
  | none =>
    simp only [reads_accept_none, pure_eq, reads_bind, reads_pure, reads_expect] at hless h
    obtain ⟨_, rfl⟩ := hless
    obtain ⟨_, _, ⟨rfl, rfl⟩, opening, _, ⟨hopening, rfl⟩, rfl, rfl⟩ := h
    exact ⟨⟨keyword, .single name hname, none, .single opening hopening⟩, rfl, rfl⟩
  | some less =>
    simp only [reads_accept_some, pure_eq, reads_bind, reads_pure, reads_expect] at hless h
    obtain ⟨hless, rfl⟩ := hless
    obtain ⟨parent, _, ⟨hparent, rfl⟩, _, _, ⟨rfl, rfl⟩, opening, _, ⟨hopening, rfl⟩, rfl, rfl⟩ := h
    exact ⟨⟨keyword, .single name hname, some (⟨less, hless⟩, .single parent hparent),
      .single opening hopening⟩, rfl, rfl⟩

theorem routineHead_sound {fuel : Nat} {kind : Routine} {ts rest : List Token}
    {head : Token × List Token} (h : Reads (routineHead fuel kind) ts head rest) :
    ∃ (d : FunctionHead) (opening : Terminal [.leftBrace]),
      ts = d.yield ++ opening.token :: rest ∧ head = (d.name.token, d.names) ∧
        d.names.length ≤ mostArguments := by
  simp only [routineHead, reads_bind, reads_expect, reads_sees] at h
  obtain ⟨name, _, ⟨hname, rfl⟩, opening, _, ⟨hopening, rfl⟩, bare, _, ⟨_, rfl⟩, h⟩ := h
  cases bare with
  | true =>
    simp only [if_true, pure_eq, reads_bind, reads_pure, reads_expect] at h
    obtain ⟨_, _, ⟨rfl, rfl⟩, closing, _, ⟨hclosing, rfl⟩, brace, _, ⟨hbrace, rfl⟩, rfl, rfl⟩ := h
    exact ⟨⟨.single name hname, .single opening hopening, none, .single closing hclosing⟩,
      .single brace hbrace, rfl, rfl, Nat.zero_le _⟩
  | false =>
    simp only [Bool.false_eq_true, if_false, reads_bind, reads_pure, reads_expect] at h
    obtain ⟨params, _, hparams, closing, _, ⟨hclosing, rfl⟩, brace, _, ⟨hbrace, rfl⟩, rfl, rfl⟩ := h
    obtain ⟨d, rfl, rfl, hd⟩ := parameters_sound hparams
    rw [Nat.zero_add] at hd
    exact ⟨⟨.single name hname, .single opening hopening, some d, .single closing hclosing⟩,
      .single brace hbrace, by simp [FunctionHead.yield, Terminal.single], rfl, hd⟩

/-! ## Statements -/

/-- A statement that ends with an open `if` leaves no `else`, since the `if` would have taken it. -/
structure StatementSound (fuel : Nat) : Prop where
  declaration : ∀ {depth : Nat} {ts : List Token} {o : Option Stmt} {rest : List Token},
    Reads (declaration fuel depth) ts o rest →
      ∃ d : Declaration, ts = d.yield ++ rest ∧ o = some d.tree ∧ d.Regular depth
  declared : ∀ {depth : Nat} {ts : List Token} {s : Stmt} {rest : List Token},
    Reads (declared fuel depth) ts s rest →
      ∃ d : Declaration, ts = d.yield ++ rest ∧ s = d.tree ∧ d.Regular depth
  methodList : ∀ {depth : Nat} {ts : List Token} {methods : List FunDecl} {rest : List Token},
    Reads (methodList fuel depth) ts methods rest →
      ∃ d : Methods, ts = d.yield ++ rest ∧ methods = d.trees ∧ d.Regular depth
  routine : ∀ {depth : Nat} {kind : Routine} {ts : List Token} {f : FunDecl} {rest : List Token},
    Reads (routine fuel depth kind) ts f rest →
      ∃ d : Derivation.Function, ts = d.yield ++ rest ∧ f = d.tree ∧ d.Regular depth
  statement : ∀ {depth : Nat} {ts : List Token} {s : Stmt} {rest : List Token},
    Reads (statement fuel depth) ts s rest →
      ∃ d : Statement, ts = d.yield ++ rest ∧ s = d.tree ∧ d.Regular depth ∧
        (d.EndsOpen → nextIs [.keyword .elseWord] rest = false)
  block : ∀ {depth : Nat} (opening : Terminal [.leftBrace]) {ts : List Token} {body : List Stmt}
    {rest : List Token}, Reads (block fuel depth) ts body rest →
      ∃ d : Block, opening.token :: ts = d.yield ++ rest ∧ body = d.trees ∧ d.Regular depth
  declarations : ∀ {depth : Nat} {ts : List Token} {body : List Stmt} {rest : List Token},
    Reads (declarations fuel depth) ts body rest →
      ∃ d : Declarations, ts = d.yield ++ rest ∧ body = d.trees ∧ d.Regular depth

theorem reads_atClosing {ts : List Token} {b : Bool} {rest : List Token} :
    Reads atClosing ts b rest ↔ (nextIs [.rightBrace] ts || ts.isEmpty) = b ∧ ts = rest := by
  simp [Reads, atClosing_apply]

section

variable {fuel : Nat} (ih : StatementSound fuel) {depth : Nat} {ts rest : List Token}
include ih

theorem declaration_sound {o : Option Stmt} (h : Reads (declaration (fuel + 1) depth) ts o rest) :
    ∃ d : Declaration, ts = d.yield ++ rest ∧ o = some d.tree ∧ d.Regular depth := by
  rw [declaration, reads_recover] at h
  obtain ⟨s, rfl, h⟩ := h
  obtain ⟨d, rfl, rfl, hd⟩ := ih.declared h
  exact ⟨d, rfl, rfl, hd⟩

theorem declared_sound {s : Stmt} (h : Reads (declared (fuel + 1) depth) ts s rest) :
    ∃ d : Declaration, ts = d.yield ++ rest ∧ s = d.tree ∧ d.Regular depth := by
  rw [declared, reads_accept_bind] at h
  rcases h with ⟨keyword, mid, hkeyword, rfl, h⟩ | ⟨_, h⟩
  · simp only [reads_bind, reads_expect, reads_pure] at h
    obtain ⟨head, _, hhead, methods, _, hmethods, closing, _, ⟨hclosing, rfl⟩, rfl, rfl⟩ := h
    obtain ⟨c, hc, rfl⟩ := classHead_sound ⟨keyword, hkeyword⟩ hhead
    obtain ⟨m, rfl, rfl, hm⟩ := ih.methodList hmethods
    refine ⟨.classDecl c m (.single closing hclosing), ?_, rfl, hm⟩
    rw [hc]
    simp [Declaration.yield, Terminal.single]
  rw [reads_accept_bind] at h
  rcases h with ⟨keyword, mid, hkeyword, rfl, h⟩ | ⟨_, h⟩
  · simp only [reads_bind, reads_pure] at h
    obtain ⟨f, _, hf, rfl, rfl⟩ := h
    obtain ⟨d, rfl, rfl, hd⟩ := ih.routine hf
    exact ⟨.funDecl ⟨keyword, hkeyword⟩ d, rfl, rfl, hd⟩
  rw [reads_accept_bind] at h
  rcases h with ⟨keyword, mid, hkeyword, rfl, h⟩ | ⟨_, h⟩
  · obtain ⟨d, hd, rfl, hreg⟩ := varDeclaration_sound ⟨keyword, hkeyword⟩ h
    exact ⟨.varDecl d, hd, rfl, hreg⟩
  · obtain ⟨d, rfl, rfl, hd, _⟩ := ih.statement h
    exact ⟨.statement d, rfl, rfl, hd⟩

theorem methodList_sound {methods : List FunDecl}
    (h : Reads (methodList (fuel + 1) depth) ts methods rest) :
    ∃ d : Methods, ts = d.yield ++ rest ∧ methods = d.trees ∧ d.Regular depth := by
  simp only [methodList, reads_bind, reads_atClosing] at h
  obtain ⟨closing, _, ⟨_, rfl⟩, h⟩ := h
  cases closing with
  | true =>
    simp only [if_true, reads_pure] at h
    obtain ⟨rfl, rfl⟩ := h
    exact ⟨.done, rfl, rfl, trivial⟩
  | false =>
    simp only [Bool.false_eq_true, if_false, reads_bind, reads_pure] at h
    obtain ⟨method, _, hmethod, methods, _, hmethods, rfl, rfl⟩ := h
    obtain ⟨d, rfl, rfl, hd⟩ := ih.routine hmethod
    obtain ⟨ds, rfl, rfl, hds⟩ := ih.methodList hmethods
    exact ⟨.next d ds, by simp [Methods.yield], rfl, hd, hds⟩

theorem routine_sound {kind : Routine} {f : FunDecl}
    (h : Reads (routine (fuel + 1) depth kind) ts f rest) :
    ∃ d : Derivation.Function, ts = d.yield ++ rest ∧ f = d.tree ∧ d.Regular depth := by
  simp only [routine, reads_bind, reads_pure] at h
  obtain ⟨head, _, hhead, body, _, hbody, rfl, rfl⟩ := h
  obtain ⟨d, opening, rfl, rfl, hd⟩ := routineHead_sound hhead
  obtain ⟨b, hb, rfl, hreg⟩ := ih.block opening hbody
  refine ⟨.mk d b, ?_, rfl, hd, hreg⟩
  rw [hb]
  simp [Derivation.Function.yield]

theorem statement_sound {s : Stmt} (h : Reads (statement (fuel + 1) depth) ts s rest) :
    ∃ d : Statement, ts = d.yield ++ rest ∧ s = d.tree ∧ d.Regular depth ∧
      (d.EndsOpen → nextIs [.keyword .elseWord] rest = false) := by
  rw [statement, reads_accept_bind] at h
  rcases h with ⟨keyword, mid, hkeyword, rfl, h⟩ | ⟨_, h⟩
  · simp only [reads_bind, reads_pure] at h
    obtain ⟨clauses, _, hclauses, body, _, hbody, rfl, rfl⟩ := h
    obtain ⟨head, hhead, rfl, hreg⟩ := forClauses_sound ⟨keyword, hkeyword⟩ hclauses
    obtain ⟨b, rfl, rfl, hb, hopen⟩ := ih.statement hbody
    refine ⟨.forLoop head b, ?_, (head.tree_eq b.tree).symm, ⟨hreg, hb⟩, hopen⟩
    rw [hhead, Statement.yield, List.append_assoc]
  rw [reads_accept_bind] at h
  rcases h with ⟨keyword, mid, hkeyword, rfl, h⟩ | ⟨_, h⟩
  · simp only [reads_bind] at h
    obtain ⟨test, _, htest, thenBranch, _, hthen, o, _, helse, h⟩ := h
    obtain ⟨guard, hguard, rfl, hcond⟩ := condition_sound ⟨keyword, hkeyword⟩ htest
    obtain ⟨t, rfl, rfl, ht, hopen⟩ := ih.statement hthen
    cases o with
    | none =>
      simp only [reads_accept_none, reads_pure] at helse h
      obtain ⟨helse, rfl⟩ := helse
      obtain ⟨rfl, rfl⟩ := h
      refine ⟨.ifThen guard t, ?_, rfl, ⟨hcond, ht⟩, fun _ => helse⟩
      rw [hguard, Statement.yield, List.append_assoc]
    | some elseWord =>
      simp only [reads_accept_some, reads_bind, reads_pure] at helse h
      obtain ⟨helse, rfl⟩ := helse
      obtain ⟨elseBranch, _, hbranch, rfl, rfl⟩ := h
      obtain ⟨u, rfl, rfl, hu, hopen'⟩ := ih.statement hbranch
      have hclosed : ¬ t.EndsOpen := by
        intro ht
        have hnext := hopen ht
        rw [nextIs_cons.2 helse] at hnext
        cases hnext
      refine ⟨.ifElse guard t ⟨elseWord, helse⟩ u, ?_, rfl, ⟨hcond, ht, hclosed, hu⟩, hopen'⟩
      rw [hguard]
      simp [Statement.yield]
  rw [reads_accept_bind] at h
  rcases h with ⟨keyword, mid, hkeyword, rfl, h⟩ | ⟨_, h⟩
  · simp only [reads_bind, reads_pure] at h
    obtain ⟨test, _, htest, body, _, hbody, rfl, rfl⟩ := h
    obtain ⟨guard, hguard, rfl, hcond⟩ := condition_sound ⟨keyword, hkeyword⟩ htest
    obtain ⟨b, rfl, rfl, hb, hopen⟩ := ih.statement hbody
    refine ⟨.whileLoop guard b, ?_, rfl, ⟨hcond, hb⟩, hopen⟩
    rw [hguard, Statement.yield, List.append_assoc]
  rw [reads_accept_bind] at h
  rcases h with ⟨keyword, mid, hkeyword, rfl, h⟩ | ⟨_, h⟩
  · obtain ⟨value, semicolon, rfl, rfl, hdepth, hvalue⟩ :=
      returnStatement_sound ⟨keyword, hkeyword⟩ h
    exact ⟨.returnValue ⟨keyword, hkeyword⟩ value semicolon, by simp [Statement.yield], rfl,
      ⟨hdepth, hvalue⟩, False.elim⟩
  rw [reads_accept_bind] at h
  rcases h with ⟨opening, mid, hopening, rfl, h⟩ | ⟨_, h⟩
  · simp only [reads_bind, reads_pure] at h
    obtain ⟨body, _, hbody, rfl, rfl⟩ := h
    obtain ⟨b, hb, rfl, hreg⟩ := ih.block ⟨opening, hopening⟩ hbody
    exact ⟨.block b, hb, rfl, hreg, False.elim⟩
  rw [reads_accept_bind] at h
  rcases h with ⟨keyword, mid, hkeyword, rfl, h⟩ | ⟨_, h⟩
  · obtain ⟨d, rfl, rfl, hd⟩ := printStatement_sound h
    exact ⟨.print ⟨keyword, hkeyword⟩ d, rfl, rfl, hd, False.elim⟩
  · obtain ⟨d, rfl, rfl, hd⟩ := expressionStatement_sound h
    exact ⟨.expression d, rfl, rfl, hd, False.elim⟩

theorem block_sound (opening : Terminal [.leftBrace]) {body : List Stmt}
    (h : Reads (block (fuel + 1) depth) ts body rest) :
    ∃ d : Block, opening.token :: ts = d.yield ++ rest ∧ body = d.trees ∧ d.Regular depth := by
  simp only [block, reads_bind, reads_expect, reads_pure] at h
  obtain ⟨body, _, hbody, closing, _, ⟨hclosing, rfl⟩, rfl, rfl⟩ := h
  obtain ⟨ds, rfl, rfl, hds⟩ := ih.declarations hbody
  exact ⟨.mk opening ds (.single closing hclosing), by simp [Block.yield, Terminal.single], rfl,
    hds⟩

theorem declarations_sound {body : List Stmt}
    (h : Reads (declarations (fuel + 1) depth) ts body rest) :
    ∃ d : Declarations, ts = d.yield ++ rest ∧ body = d.trees ∧ d.Regular depth := by
  simp only [declarations, reads_bind, reads_atClosing] at h
  obtain ⟨closing, _, ⟨_, rfl⟩, h⟩ := h
  cases closing with
  | true =>
    simp only [if_true, reads_pure] at h
    obtain ⟨rfl, rfl⟩ := h
    exact ⟨.done, rfl, rfl, trivial⟩
  | false =>
    simp only [Bool.false_eq_true, if_false, reads_bind, reads_pure] at h
    obtain ⟨first, _, hfirst, more, _, hmore, rfl, rfl⟩ := h
    obtain ⟨d, rfl, rfl, hd⟩ := ih.declaration hfirst
    obtain ⟨ds, rfl, rfl, hds⟩ := ih.declarations hmore
    exact ⟨.next d ds, by simp [Declarations.yield], rfl, hd, hds⟩

end

theorem statementSound (fuel : Nat) : StatementSound fuel := by
  induction fuel with
  | zero =>
    constructor <;> intros <;> rename_i h <;>
      simp [declaration, declared, methodList, routine, statement, block, declarations] at h
  | succ fuel ih =>
    exact ⟨declaration_sound ih, declared_sound ih, methodList_sound ih, routine_sound ih,
      statement_sound ih, fun opening => block_sound ih opening, declarations_sound ih⟩

/-! ## Programs -/

theorem programFrom_succ {turns : Nat} {ts rest : List Token} {first : Option Stmt}
    {noted : List Fault} (hts : ts ≠ [])
    (h : declaration (fuelFor ts) 0 ts = ⟨.done first, rest, noted⟩) :
    programFrom (turns + 1) ts = ⟨first.toList ++ (programFrom turns rest).tree,
      noted ++ (programFrom turns rest).faults⟩ := by
  cases ts with
  | nil => exact absurd rfl hts
  | cons t ts => simp only [programFrom, h]

theorem programFrom_sound (turns : Nat) (ts : List Token) (hturns : ts.length ≤ turns)
    (h : (programFrom turns ts).faults = []) :
    ∃ d : Declarations, d.yield = ts ∧ d.trees = (programFrom turns ts).tree ∧ d.Regular 0 := by
  induction turns generalizing ts with
  | zero =>
    obtain rfl : ts = [] := List.length_eq_zero_iff.1 (Nat.le_zero.1 hturns)
    exact ⟨.done, rfl, rfl, trivial⟩
  | succ turns ih =>
    cases ts with
    | nil => exact ⟨.done, rfl, rfl, trivial⟩
    | cons t ts =>
      have hne := List.cons_ne_nil t ts
      obtain ⟨first, rest, noted, hfirst, _, hshorter⟩ := declaration_done 0 hne
      rw [programFrom_succ hne hfirst] at h ⊢
      obtain ⟨rfl, hmore⟩ := List.append_eq_nil_iff.1 h
      obtain ⟨d, hd, rfl, hreg⟩ := (statementSound _).declaration hfirst
      rw [List.length_cons] at hturns hshorter
      obtain ⟨ds, rfl, hds, hregs⟩ := ih rest (by omega) hmore
      exact ⟨.next d ds, by rw [hd, Declarations.yield], by simp [Declarations.trees, hds], hreg,
        hregs⟩

/-- A program without faults is the tree of a regular derivation of all its tokens before the
first end of input. -/
theorem program_derived (ts : List Token) (h : (program ts).faults = []) :
    ∃ d : Declarations, d.yield = beforeEnd ts ∧ d.trees = (program ts).tree ∧ d.Regular 0 :=
  programFrom_sound _ _ (Nat.le_refl _) h

/-- The tokens of
`fun f(a, b) { for (; a or b == f and a < b;) if (a) if (!b) return a - b - f * a; else f(a / b); }`
-/
def returningLoop : List Token :=
  let name (text : String) : Token := ⟨.symbol .identifier, text, 1⟩
  let word (keyword : Keyword) (text : String) : Token := ⟨.symbol (.keyword keyword), text, 1⟩
  let opening : Token := ⟨.symbol .leftParen, "(", 1⟩
  let closing : Token := ⟨.symbol .rightParen, ")", 1⟩
  let semicolon : Token := ⟨.symbol .semicolon, ";", 1⟩
  let minus : Token := ⟨.symbol .minus, "-", 1⟩
  [word .funWord "fun", name "f", opening, name "a", ⟨.symbol .comma, ",", 1⟩, name "b", closing,
    ⟨.symbol .leftBrace, "\x7b", 1⟩, word .forWord "for", opening, semicolon, name "a",
    word .orWord "or", name "b", ⟨.symbol .equalEqual, "==", 1⟩, name "f", word .andWord "and",
    name "a", ⟨.symbol .less, "<", 1⟩, name "b", semicolon, closing, word .ifWord "if", opening,
    name "a", closing, word .ifWord "if", opening, ⟨.symbol .bang, "!", 1⟩, name "b", closing,
    word .returnWord "return", name "a", minus, name "b", minus, name "f",
    ⟨.symbol .star, "*", 1⟩, name "a", semicolon, word .elseWord "else", name "f", opening,
    name "a", ⟨.symbol .slash, "/", 1⟩, name "b", closing, semicolon,
    ⟨.symbol .rightBrace, "\x7d", 1⟩, .endOfInput 1]

theorem returningLoop_derived : (program returningLoop).faults = [] ∧
    (∃ d : Declarations, d.yield = beforeEnd returningLoop ∧
      d.trees = (program returningLoop).tree ∧ d.Regular 0) ∧
    Stmt.textAll (program returningLoop).tree =
      " (fun f(a b) (while (or a (and (== b f) (< a b)))" ++
        " (if a (if (! b) (return (- (- a b) (* f a))) (; (call f (/ a b)))))))" :=
  ⟨rfl, program_derived returningLoop rfl, by decide +kernel⟩

end TreeWalk.Grammar
