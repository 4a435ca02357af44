import TreeWalk.Proofs.Grammar.Lookahead
import TreeWalk.Proofs.Grammar.Soundness

/-!
What the grammar derives is accepted. On the yield of a regular derivation, followed by anything
that does not go on with it, each rule takes exactly the yield and replies with the tree. The
induction is on the fuel, which is enough by the progress of the parser.
-/

namespace TreeWalk.Grammar

open Parse TreeWalk.Grammar.Derivation

/-! ## Steps on terminals -/

section

variable {α : Type} {b : α} {ts rest : List Token}

theorem admits_accept {symbols : List Symbol} (t : Terminal symbols)
    {f : Option Token → Parse α} (h : Admits (f (some t.token)) ts b rest) :
    Admits (accept symbols >>= f) (t.token :: ts) b rest :=
  (reads_accept_some.2 ⟨t.isOne, rfl⟩).admits.bind h

theorem admits_pass {symbols : List Symbol} {f : Option Token → Parse α}
    (hnext : nextIs symbols ts = false) (h : Admits (f none) ts b rest) :
    Admits (accept symbols >>= f) ts b rest :=
  (reads_accept_none.2 ⟨hnext, rfl⟩).admits.bind h

theorem admits_expect {symbol : Symbol} {problem : Problem} (t : Terminal [symbol])
    {f : Token → Parse α} (h : Admits (f t.token) ts b rest) :
    Admits (expect symbol problem >>= f) (t.token :: ts) b rest :=
  (reads_expect.2 ⟨t.kind_eq, rfl⟩).admits.bind h

theorem admits_sees {symbols : List Symbol} {f : Bool → Parse α} {sight : Bool}
    (hnext : nextIs symbols ts = sight) (h : Admits (f sight) ts b rest) :
    Admits (sees symbols >>= f) ts b rest :=
  (reads_sees.2 ⟨hnext, rfl⟩).admits.bind h

theorem admits_peek {t : Token} {f : Option Token → Parse α}
    (h : Admits (f (some t)) (t :: ts) b rest) : Admits (peek >>= f) (t :: ts) b rest :=
  (reads_peek.2 ⟨rfl, rfl⟩).admits.bind h

theorem admits_skip {t : Token} {f : Unit → Parse α} (h : Admits (f ()) ts b rest) :
    Admits (skip >>= f) (t :: ts) b rest :=
  (reads_skip.2 rfl).admits.bind h

end

/-! ## Expressions -/

/-- A name as an operand of the tiers. -/
def Derivation.Tiered.ofName (name : Terminal [.identifier]) : (tiers : List Tier) → Tiered tiers
  | [] => .unary (.call (.name name) .done)
  | _ :: tighter => .chain (ofName name tighter) .done

theorem Derivation.Tiered.ofName_spec (name : Terminal [.identifier]) (tiers : List Tier) :
    (ofName name tiers).yield = [name.token] ∧ (ofName name tiers).tree = .reference name.token ∧
      (ofName name tiers).Regular := by
  induction tiers with
  | nil => exact ⟨rfl, rfl, trivial, trivial⟩
  | cons tier tighter ih =>
    obtain ⟨hyield, htree, hreg⟩ := ih
    exact ⟨by simp [ofName, Tiered.yield, Chain.yield, hyield],
      by simp [ofName, Tiered.tree, Chain.tree, htree], hreg, trivial⟩

structure ExpressionComplete (fuel : Nat) : Prop where
  expression : ∀ (d : Expression) (rest : List Token), d.Regular →
    nextIs expressionStops rest = false → Admits (expression fuel) (d.yield ++ rest) d.tree rest
  tiered : ∀ {tiers : List Tier} (d : Tiered tiers) (rest : List Token), tiers.Nodup →
    d.Regular → nextIs (stops tiers) rest = false →
      Admits (tiered fuel tiers) (d.yield ++ rest) d.tree rest
  chain : ∀ {tier : Tier} {tighter : List Tier} (d : Chain tier tighter) (left : Expr)
    (rest : List Token), (tier :: tighter).Nodup → d.Regular →
      nextIs (stops (tier :: tighter)) rest = false →
      Admits (chain fuel tier tighter left) (d.yield ++ rest) (d.tree left) rest
  unary : ∀ (d : Unary) (rest : List Token), d.Regular → nextIs [.leftParen] rest = false →
    Admits (unary fuel) (d.yield ++ rest) d.tree rest
  calls : ∀ (d : Calls) (callee : Expr) (rest : List Token), d.Regular →
    nextIs [.leftParen] rest = false →
      Admits (calls fuel callee) (d.yield ++ rest) (d.tree callee) rest
  arguments : ∀ (d : Arguments) (count : Nat) (rest : List Token), d.Regular →
    count + d.count ≤ mostArguments → nextIs (.comma :: expressionStops) rest = false →
      Admits (arguments fuel count) (d.yield ++ rest) d.trees rest
  primary : ∀ (d : Primary) (rest : List Token), d.Regular →
    Admits (primary fuel) (d.yield ++ rest) d.tree rest

section

variable {fuel : Nat} (ih : ExpressionComplete fuel)
include ih

theorem expression_complete (d : Expression) (rest : List Token) (hd : d.Regular)
    (hrest : nextIs expressionStops rest = false) :
    Admits (expression (fuel + 1)) (d.yield ++ rest) d.tree rest := by
  rw [expression, ← levels_eq]
  cases d with
  | assign name equals value =>
    -- The name is first read as an operand, and becomes the target behind the equals sign.
    obtain ⟨hyield, htree, hreg⟩ := Tiered.ofName_spec name levels
    have hequals : nextIs (stops levels) (equals.token :: (value.yield ++ rest)) = false :=
      nextIs_terminal_of_disjoint equals _ (by decide)
    have hname := ih.tiered (.ofName name levels) _ (by decide) hreg hequals
    have hvalue := ih.expression value rest hd hrest
    rw [hyield, htree] at hname
    apply hname.bind
    apply admits_accept equals
    exact hvalue.bind (admits_pure _ _)
  | tiered operand =>
    have hstops : nextIs (stops levels) rest = false :=
      nextIs_mono (List.subset_cons_self _ _) hrest
    have hequal : nextIs [.equal] rest = false := nextIs_mono (by simp [expressionStops]) hrest
    have hoperand := ih.tiered operand rest (by decide) hd hstops
    exact hoperand.bind (admits_pass hequal (admits_pure _ _))

theorem tiered_complete {tiers : List Tier} (d : Tiered tiers) (rest : List Token)
    (htiers : tiers.Nodup) (hd : d.Regular) (hrest : nextIs (stops tiers) rest = false) :
    Admits (tiered (fuel + 1) tiers) (d.yield ++ rest) d.tree rest := by
  cases d with
  | unary operand =>
    rw [tiered]
    exact ih.unary operand rest hd hrest
  | @chain tier tighter first more =>
    obtain ⟨htier, htighter⟩ := List.nodup_cons.1 htiers
    have hfirst := ih.tiered first _ htighter hd.1 (more.nextIs_yield htier hrest)
    have hmore := ih.chain more first.tree rest htiers hd.2 hrest
    rw [tiered, Tiered.yield, List.append_assoc]
    exact hfirst.bind hmore

theorem chain_complete {tier : Tier} {tighter : List Tier} (d : Chain tier tighter) (left : Expr)
    (rest : List Token) (htiers : (tier :: tighter).Nodup) (hd : d.Regular)
    (hrest : nextIs (stops (tier :: tighter)) rest = false) :
    Admits (chain (fuel + 1) tier tighter left) (d.yield ++ rest) (d.tree left) rest := by
  rw [chain]
  cases d with
  | done =>
    have hoperator : nextIs tier.operators rest = false := nextIs_mono (by simp [stops]) hrest
    exact admits_pass hoperator (admits_pure _ _)
  | next operator right more =>
    obtain ⟨htier, htighter⟩ := List.nodup_cons.1 htiers
    have hright := ih.tiered right _ htighter hd.1 (more.nextIs_yield htier hrest)
    simp only [Chain.yield, List.cons_append, List.append_assoc]
    rw [← levelOperators_eq, ← levelTree_eq]
    apply admits_accept operator
    exact hright.bind (ih.chain more _ rest htiers hd.2 hrest)

theorem unary_complete (d : Unary) (rest : List Token) (hd : d.Regular)
    (hrest : nextIs [.leftParen] rest = false) :
    Admits (unary (fuel + 1)) (d.yield ++ rest) d.tree rest := by
  rw [unary, ← signs_eq]
  cases d with
  | operation operator right =>
    have hright := ih.unary right rest hd hrest
    exact admits_accept operator (hright.bind (admits_pure _ _))
  | call callee calls =>
    have hcallee := ih.primary callee (calls.yield ++ rest) hd.1
    have hcalls := ih.calls calls callee.tree rest hd.2 hrest
    rw [Unary.yield, List.append_assoc]
    apply admits_pass (callee.beginsWith.nextIs_append _ (by decide))
    exact hcallee.bind hcalls

theorem calls_complete (d : Calls) (callee : Expr) (rest : List Token) (hd : d.Regular)
    (hrest : nextIs [.leftParen] rest = false) :
    Admits (calls (fuel + 1) callee) (d.yield ++ rest) (d.tree callee) rest := by
  rw [calls]
  cases d with
  | done => exact admits_pass hrest (admits_pure _ _)
  | bare opening closing more =>
    have hmore := ih.calls more (.call callee closing.token []) rest hd hrest
    apply admits_accept opening
    apply admits_sees (nextIs_terminal closing _)
    exact (admits_pure [] _).bind (admits_expect closing hmore)
  | passing opening arguments closing more =>
    obtain ⟨hcount, hargs, hmore⟩ := hd
    have hclosing : nextIs (.comma :: expressionStops) (closing.token :: (more.yield ++ rest)) =
        false := nextIs_terminal_of_disjoint closing _ (by decide)
    have hpassed := ih.arguments arguments 0 _ hargs (by omega) hclosing
    simp only [Calls.yield, List.cons_append, List.append_assoc]
    apply admits_accept opening
    apply admits_sees (arguments.beginsWith.nextIs_append _ (by decide))
    apply hpassed.bind
    exact admits_expect closing (ih.calls more _ rest hmore hrest)

theorem arguments_complete (d : Arguments) (count : Nat) (rest : List Token) (hd : d.Regular)
    (hcount : count + d.count ≤ mostArguments)
    (hrest : nextIs (.comma :: expressionStops) rest = false) :
    Admits (arguments (fuel + 1) count) (d.yield ++ rest) d.trees rest := by
  rw [arguments, ← mostArguments_eq]
  cases d with
  | one value =>
    simp only [Arguments.count] at hcount
    have hstops : nextIs expressionStops rest = false :=
      nextIs_mono (List.subset_cons_self _ _) hrest
    have hcomma : nextIs [.comma] rest = false := nextIs_mono (by simp) hrest
    rw [if_neg (by omega)]
    exact (ih.expression value rest hd hstops).bind (admits_pass hcomma (admits_pure _ _))
  | more value comma others =>
    simp only [Arguments.count] at hcount
    have hcomma : nextIs expressionStops (comma.token :: (others.yield ++ rest)) = false :=
      nextIs_terminal_of_disjoint comma _ (by decide)
    have hvalue := ih.expression value _ hd.1 hcomma
    have hothers := ih.arguments others (count + 1) rest hd.2 (by omega) hrest
    rw [if_neg (by omega), Arguments.yield, List.append_assoc, List.cons_append]
    apply hvalue.bind
    apply admits_accept comma
    exact hothers.bind (admits_pure _ _)

theorem primary_complete (d : Primary) (rest : List Token) (hd : d.Regular) :
    Admits (primary (fuel + 1)) (d.yield ++ rest) d.tree rest := by
  rw [primary]
  cases d with
  | literal literal =>
    apply admits_peek
    simp only [literal?_eq_some.2 literal.writes]
    exact admits_skip (admits_pure _ _)
  | name name =>
    apply admits_peek
    simp only [literal?, Token.is, name.kind_eq, beq_self_eq_true, if_true]
    exact admits_skip (admits_pure _ _)
  | group opening inner closing =>
    have hclosing : nextIs expressionStops (closing.token :: rest) = false :=
      nextIs_terminal_of_disjoint closing _ (by decide)
    have hinner := ih.expression inner _ hd hclosing
    simp only [Primary.yield, List.cons_append, List.append_assoc]
    apply admits_peek
    simp only [literal?, Token.is, opening.kind_eq, beq_self_eq_true, if_true]
    apply admits_skip
    apply hinner.bind
    exact admits_expect closing (admits_pure _ _)

end

theorem expressionComplete (fuel : Nat) : ExpressionComplete fuel := by
  induction fuel with
  | zero => constructor <;> intros <;> exact admits_outOfFuel
  | succ fuel ih =>
    exact ⟨expression_complete ih, tiered_complete ih, chain_complete ih, unary_complete ih,
      calls_complete ih, arguments_complete ih, primary_complete ih⟩

/-! ## Parts of statements -/

section

variable {fuel : Nat} (rest : List Token)

/-- An expression or nothing, before a symbol that neither begins nor continues an expression. -/
theorem expressionUnless_complete {symbol : Symbol} (d : Option Expression)
    (stop : Terminal [symbol]) (hd : ∀ e ∈ d, e.Regular) (hfirst : symbol ∉ expressionFirst)
    (hstop : symbol ∉ expressionStops) :
    Admits (expressionUnless fuel symbol) (d.elim [] Expression.yield ++ stop.token :: rest)
      (d.map Expression.tree) (stop.token :: rest) := by
  rw [expressionUnless]
  cases d with
  | none => exact admits_sees (nextIs_terminal stop rest) (admits_pure _ _)
  | some e =>
    have hnext : nextIs expressionStops (stop.token :: rest) = false :=
      nextIs_terminal_of_disjoint stop _ (by simpa using hstop)
    have he := (expressionComplete fuel).expression e _ (hd e rfl) hnext
    apply admits_sees (e.beginsWith.nextIs_append _ (by simpa using hfirst))
    exact he.bind (admits_pure _ _)

theorem exprStmt_value_complete (d : ExprStmt) (hd : d.Regular) :
    Admits (expression fuel) (d.yield ++ rest) d.value.tree (d.semicolon.token :: rest) := by
  rw [ExprStmt.yield, List.append_assoc]
  exact (expressionComplete fuel).expression d.value _ hd
    (nextIs_terminal_of_disjoint d.semicolon _ (by decide))

theorem expressionStatement_complete (d : ExprStmt) (hd : d.Regular) :
    Admits (expressionStatement fuel) (d.yield ++ rest) d.tree rest :=
  (exprStmt_value_complete rest d hd).bind (admits_expect d.semicolon (admits_pure _ _))

theorem printStatement_complete (d : ExprStmt) (hd : d.Regular) :
    Admits (printStatement fuel) (d.yield ++ rest) (.print d.value.tree) rest :=
  (exprStmt_value_complete rest d hd).bind (admits_expect d.semicolon (admits_pure _ _))

theorem varDeclaration_complete (d : VarDecl) (hd : d.Regular) :
    Admits (varDeclaration fuel) (d.yield.tail ++ rest) d.tree rest := by
  obtain ⟨keyword, name, initial, semicolon⟩ := d
  simp only [VarDecl.yield, List.tail_cons, List.cons_append, List.append_assoc]
  apply admits_expect name
  cases initial with
  | none =>
    apply admits_pass (nextIs_terminal_of_disjoint semicolon _ (by decide))
    exact (admits_pure _ _).bind (admits_expect semicolon (admits_pure _ _))
  | some i =>
    obtain ⟨equals, value⟩ := i
    have hsemicolon : nextIs expressionStops (semicolon.token :: rest) = false :=
      nextIs_terminal_of_disjoint semicolon _ (by decide)
    have hvalue := (expressionComplete fuel).expression value _ (hd _ rfl) hsemicolon
    apply admits_accept equals
    apply hvalue.bind
    exact (admits_pure _ _).bind (admits_expect semicolon (admits_pure _ _))

theorem returnStatement_complete {depth : Nat} (keyword : Token) (value : Option Expression)
    (semicolon : Terminal [.semicolon]) (hdepth : 0 < depth) (hvalue : ∀ e ∈ value, e.Regular) :
    Admits (returnStatement fuel depth keyword)
      (value.elim [] Expression.yield ++ semicolon.token :: rest)
      (.returnValue keyword (value.map Expression.tree)) rest := by
  rw [returnStatement, if_neg (by omega)]
  apply (expressionUnless_complete rest value semicolon hvalue (by decide) (by decide)).bind
  exact admits_expect semicolon (admits_pure _ _)

theorem condition_complete {word : Keyword} {unopened : Problem} (d : Guard word)
    (hd : d.condition.Regular) :
    Admits (condition fuel unopened) (d.yield.tail ++ rest) d.condition.tree rest := by
  obtain ⟨keyword, opening, test, closing⟩ := d
  have hclosing : nextIs expressionStops (closing.token :: rest) = false :=
    nextIs_terminal_of_disjoint closing _ (by decide)
  have htest := (expressionComplete fuel).expression test _ hd hclosing
  simp only [Guard.yield, List.tail_cons, List.cons_append, List.append_assoc]
  apply admits_expect opening
  exact htest.bind (admits_expect closing (admits_pure _ _))

theorem forStart_complete (d : ForStart) (hd : d.Regular) :
    Admits (forStart fuel) (d.yield ++ rest) d.tree rest := by
  rw [forStart]
  cases d with
  | absent semicolon => exact admits_accept semicolon (admits_pure _ _)
  | varDecl declaration =>
    apply admits_pass (nextIs_terminal_of_disjoint declaration.keyword _ (by decide))
    apply admits_accept declaration.keyword
    exact (varDeclaration_complete rest declaration hd).bind (admits_pure _ _)
  | exprStmt statement =>
    apply admits_pass (statement.beginsWith.nextIs_append _ (by decide))
    apply admits_pass (statement.beginsWith.nextIs_append _ (by decide))
    exact (expressionStatement_complete rest statement hd).bind (admits_pure _ _)

theorem forClauses_complete (d : ForHead) (hd : d.Regular) :
    Admits (forClauses fuel) (d.yield.tail ++ rest)
      ⟨d.start.tree, d.condition.map Expression.tree, d.step.map Expression.tree⟩ rest := by
  obtain ⟨keyword, opening, start, condition, semicolon, step, closing⟩ := d
  obtain ⟨hstart, hcondition, hstep⟩ := hd
  simp only [ForHead.yield, List.tail_cons, List.cons_append, List.append_assoc]
  apply admits_expect opening
  apply (forStart_complete _ start hstart).bind
  refine (expressionUnless_complete _ condition semicolon hcondition (by decide)
    (by decide)).bind ?_
  apply admits_expect semicolon
  apply (expressionUnless_complete rest step closing hstep (by decide) (by decide)).bind
  exact admits_expect closing (admits_pure _ _)

theorem parameters_complete (d : Parameters) (count : Nat)
    (hcount : count + d.names.length ≤ mostArguments) (hrest : nextIs [.comma] rest = false) :
    Admits (parameters fuel count) (d.yield ++ rest) d.names rest := by
  induction d generalizing fuel count with
  | one name =>
    cases fuel with
    | zero => exact admits_outOfFuel
    | succ fuel =>
      simp only [Parameters.names, List.length_singleton] at hcount
      rw [parameters, ← mostArguments_eq, if_neg (by omega)]
      exact admits_expect name (admits_pass hrest (admits_pure _ _))
  | more name comma others ih =>
    cases fuel with
    | zero => exact admits_outOfFuel
    | succ fuel =>
      simp only [Parameters.names, List.length_cons] at hcount
      rw [parameters, ← mostArguments_eq, if_neg (by omega)]
      refine admits_expect name (admits_accept comma ?_)
      exact (ih (count + 1) (by omega)).bind (admits_pure _ _)

theorem classHead_complete (d : ClassHead) :
    Admits classHead (d.yield.tail ++ rest)
      (d.name.token, d.superclass.map fun c => .reference c.2.token) rest := by
  obtain ⟨keyword, name, superclass, opening⟩ := d
  rw [classHead]
  apply admits_expect name
  cases superclass with
  | none =>
    apply admits_pass (nextIs_terminal_of_disjoint opening _ (by decide))
    exact (admits_pure _ _).bind (admits_expect opening (admits_pure _ _))
  | some c =>
    obtain ⟨less, parent⟩ := c
    refine admits_accept less (admits_expect parent ?_)
    exact (admits_pure _ _).bind (admits_expect opening (admits_pure _ _))

theorem routineHead_complete {kind : Routine} (d : FunctionHead) (opening : Terminal [.leftBrace])
    (hd : d.names.length ≤ mostArguments) :
    Admits (routineHead fuel kind) (d.yield ++ opening.token :: rest) (d.name.token, d.names)
      rest := by
  obtain ⟨name, paren, params, closing⟩ := d
  simp only [FunctionHead.yield, List.cons_append, List.append_assoc]
  refine admits_expect name (admits_expect paren ?_)
  cases params with
  | none =>
    apply admits_sees (nextIs_terminal closing _)
    refine (admits_pure [] _).bind (admits_expect closing ?_)
    exact admits_expect opening (admits_pure _ _)
  | some names =>
    have hfirst : nextIs [.rightParen] (names.yield ++ closing.token :: opening.token :: rest) =
        false := by
      cases names with
      | one name => exact nextIs_terminal_of_disjoint name _ (by decide)
      | more name comma others => exact nextIs_terminal_of_disjoint name _ (by decide)
    have hclosing : nextIs [.comma] (closing.token :: opening.token :: rest) = false :=
      nextIs_terminal_of_disjoint closing _ (by decide)
    have hcount : 0 + names.names.length ≤ mostArguments := by simpa [FunctionHead.names] using hd
    apply admits_sees hfirst
    apply (parameters_complete _ names 0 hcount hclosing).bind
    exact admits_expect closing (admits_expect opening (admits_pure _ _))

end

/-! ## Statements -/

structure StatementComplete (fuel : Nat) : Prop where
  declaration : ∀ (depth : Nat) (d : Declaration) (rest : List Token), d.Regular depth →
    nextIs [.keyword .elseWord] rest = false →
      Admits (declaration fuel depth) (d.yield ++ rest) (some d.tree) rest
  declared : ∀ (depth : Nat) (d : Declaration) (rest : List Token), d.Regular depth →
    nextIs [.keyword .elseWord] rest = false →
      Admits (declared fuel depth) (d.yield ++ rest) d.tree rest
  methodList : ∀ (depth : Nat) (d : Methods) (rest : List Token), d.Regular depth →
    nextIs [.rightBrace] rest = true → Admits (methodList fuel depth) (d.yield ++ rest) d.trees rest
  routine : ∀ (depth : Nat) (kind : Routine) (d : Derivation.Function) (rest : List Token),
    d.Regular depth → Admits (routine fuel depth kind) (d.yield ++ rest) d.tree rest
  statement : ∀ (depth : Nat) (d : Statement) (rest : List Token), d.Regular depth →
    (d.EndsOpen → nextIs [.keyword .elseWord] rest = false) →
      Admits (statement fuel depth) (d.yield ++ rest) d.tree rest
  block : ∀ (depth : Nat) (d : Block) (rest : List Token), d.Regular depth →
    Admits (block fuel depth) (d.yield.tail ++ rest) d.trees rest
  declarations : ∀ (depth : Nat) (d : Declarations) (rest : List Token), d.Regular depth →
    nextIs [.rightBrace] rest = true →
      Admits (declarations fuel depth) (d.yield ++ rest) d.trees rest

/-- Behind a declaration stands another one or what follows them all, and no `else`. -/
theorem Derivation.Declarations.nextIs_else (d : Declarations) {rest : List Token}
    (hrest : nextIs [.keyword .elseWord] rest = false) :
    nextIs [.keyword .elseWord] (d.yield ++ rest) = false := by
  cases d with
  | done => exact hrest
  | next first more =>
    rw [Declarations.yield, List.append_assoc]
    exact first.beginsWith.nextIs_append _ (by decide)

theorem nextIs_of_nextIs_single {s : Symbol} {others : List Symbol} {ts : List Token}
    (h : nextIs [s] ts = true) (hs : s ∉ others) : nextIs others ts = false := by
  cases ts with
  | nil => rfl
  | cons t ts =>
    obtain ⟨s', hs', hk⟩ := nextIs_cons.1 h
    rw [List.mem_singleton] at hs'
    rw [nextIs_of_kind hk, hs']
    simpa using hs

theorem admits_atClosing {α : Type} {f : Bool → Parse α} {b : α} {ts rest : List Token}
    {closing : Bool} (hnext : (nextIs [.rightBrace] ts || ts.isEmpty) = closing)
    (h : Admits (f closing) ts b rest) : Admits (atClosing >>= f) ts b rest :=
  (reads_atClosing.2 ⟨hnext, rfl⟩).admits.bind h

theorem BeginsWith.not_closing {symbols : List Symbol} {yield : List Token}
    (h : BeginsWith symbols yield) (rest : List Token) (hs : .rightBrace ∉ symbols) :
    (nextIs [.rightBrace] (yield ++ rest) || (yield ++ rest).isEmpty) = false := by
  rw [h.nextIs_append rest (by simpa using hs)]
  obtain ⟨t, ts, rfl, _⟩ := h
  rfl

section

variable {fuel : Nat} (ih : StatementComplete fuel) (depth : Nat)
include ih

theorem declaration_complete (d : Declaration) (rest : List Token) (hd : d.Regular depth)
    (hrest : nextIs [.keyword .elseWord] rest = false) :
    Admits (declaration (fuel + 1) depth) (d.yield ++ rest) (some d.tree) rest := by
  rw [declaration]
  exact (ih.declared depth d rest hd hrest).recover

theorem declared_complete (d : Declaration) (rest : List Token) (hd : d.Regular depth)
    (hrest : nextIs [.keyword .elseWord] rest = false) :
    Admits (declared (fuel + 1) depth) (d.yield ++ rest) d.tree rest := by
  rw [declared]
  cases d with
  | classDecl head methods closing =>
    have hmethods := ih.methodList depth methods (closing.token :: rest) hd
      (nextIs_terminal closing rest)
    simp only [Declaration.yield, List.append_assoc]
    apply admits_accept head.keyword
    apply (classHead_complete _ head).bind
    exact hmethods.bind (admits_expect closing (admits_pure _ _))
  | funDecl keyword function =>
    apply admits_pass (nextIs_terminal_of_disjoint keyword _ (by decide))
    apply admits_accept keyword
    exact (ih.routine depth .function function rest hd).bind (admits_pure _ _)
  | varDecl declaration =>
    apply admits_pass (nextIs_terminal_of_disjoint declaration.keyword _ (by decide))
    apply admits_pass (nextIs_terminal_of_disjoint declaration.keyword _ (by decide))
    exact admits_accept declaration.keyword (varDeclaration_complete rest declaration hd)
  | statement statement =>
    apply admits_pass (statement.beginsWith.nextIs_append _ (by decide))
    apply admits_pass (statement.beginsWith.nextIs_append _ (by decide))
    apply admits_pass (statement.beginsWith.nextIs_append _ (by decide))
    exact ih.statement depth statement rest hd fun _ => hrest

theorem methodList_complete (d : Methods) (rest : List Token) (hd : d.Regular depth)
    (hrest : nextIs [.rightBrace] rest = true) :
    Admits (methodList (fuel + 1) depth) (d.yield ++ rest) d.trees rest := by
  rw [methodList]
  cases d with
  | done =>
    have hclosing : (nextIs [.rightBrace] rest || rest.isEmpty) = true := by simp [hrest]
    exact admits_atClosing hclosing (admits_pure _ _)
  | next method more =>
    have hfirst : BeginsWith [.identifier] method.yield := by
      obtain ⟨head, body⟩ := method
      exact beginsWith_terminal head.name _ (by decide)
    rw [Methods.yield, List.append_assoc]
    apply admits_atClosing (hfirst.not_closing _ (by decide))
    apply (ih.routine depth .method method _ hd.1).bind
    exact (ih.methodList depth more rest hd.2 hrest).bind (admits_pure _ _)

theorem routine_complete (kind : Routine) (d : Derivation.Function) (rest : List Token)
    (hd : d.Regular depth) :
    Admits (routine (fuel + 1) depth kind) (d.yield ++ rest) d.tree rest := by
  obtain ⟨head, body⟩ := d
  obtain ⟨opening, declarations, closing⟩ := body
  have hbody := ih.block (depth + 1) (.mk opening declarations closing) rest hd.2
  rw [routine, Derivation.Function.yield, List.append_assoc]
  apply (routineHead_complete _ head opening hd.1).bind
  exact hbody.bind (admits_pure _ _)

theorem statement_complete (d : Statement) (rest : List Token) (hd : d.Regular depth)
    (hrest : d.EndsOpen → nextIs [.keyword .elseWord] rest = false) :
    Admits (statement (fuel + 1) depth) (d.yield ++ rest) d.tree rest := by
  rw [statement]
  cases d with
  | forLoop head body =>
    rw [Statement.yield, List.append_assoc, Statement.tree, ForHead.tree_eq]
    apply admits_accept head.keyword
    apply (forClauses_complete _ head hd.1).bind
    exact (ih.statement depth body rest hd.2 hrest).bind (admits_pure _ _)
  | ifThen guard thenBranch =>
    rw [Statement.yield, List.append_assoc]
    apply admits_pass (nextIs_terminal_of_disjoint guard.keyword _ (by decide))
    apply admits_accept guard.keyword
    apply (condition_complete _ guard hd.1).bind
    apply (ih.statement depth thenBranch rest hd.2 fun _ => hrest trivial).bind
    exact admits_pass (hrest trivial) (admits_pure _ _)
  | ifElse guard thenBranch keyword elseBranch =>
    obtain ⟨hcondition, hthen, hclosed, helse⟩ := hd
    -- The branch before the `else` has no open `if`, so the `else` is left for this one.
    have hfirst := ih.statement depth thenBranch (keyword.token :: (elseBranch.yield ++ rest))
      hthen fun h => absurd h hclosed
    have hsecond := ih.statement depth elseBranch rest helse hrest
    simp only [Statement.yield, List.append_assoc, List.cons_append]
    apply admits_pass (nextIs_terminal_of_disjoint guard.keyword _ (by decide))
    apply admits_accept guard.keyword
    apply (condition_complete _ guard hcondition).bind
    apply hfirst.bind
    apply admits_accept keyword
    exact hsecond.bind (admits_pure _ _)
  | whileLoop guard body =>
    rw [Statement.yield, List.append_assoc]
    apply admits_pass (nextIs_terminal_of_disjoint guard.keyword _ (by decide))
    apply admits_pass (nextIs_terminal_of_disjoint guard.keyword _ (by decide))
    apply admits_accept guard.keyword
    apply (condition_complete _ guard hd.1).bind
    exact (ih.statement depth body rest hd.2 hrest).bind (admits_pure _ _)
  | returnValue keyword value semicolon =>
    simp only [Statement.yield, List.append_assoc, List.cons_append]
    apply admits_pass (nextIs_terminal_of_disjoint keyword _ (by decide))
    apply admits_pass (nextIs_terminal_of_disjoint keyword _ (by decide))
    apply admits_pass (nextIs_terminal_of_disjoint keyword _ (by decide))
    exact admits_accept keyword
      (returnStatement_complete rest keyword.token value semicolon hd.1 hd.2)
  | block block =>
    obtain ⟨opening, body, closing⟩ := block
    iterate 4 refine admits_pass (nextIs_terminal_of_disjoint opening _ (by decide)) ?_
    apply admits_accept opening
    exact (ih.block depth (.mk opening body closing) rest hd).bind (admits_pure _ _)
  | print keyword statement =>
    iterate 5 refine admits_pass (nextIs_terminal_of_disjoint keyword _ (by decide)) ?_
    exact admits_accept keyword (printStatement_complete rest statement hd)
  | expression statement =>
    iterate 6 refine admits_pass (statement.beginsWith.nextIs_append _ (by decide)) ?_
    exact expressionStatement_complete rest statement hd

theorem block_complete (d : Block) (rest : List Token) (hd : d.Regular depth) :
    Admits (block (fuel + 1) depth) (d.yield.tail ++ rest) d.trees rest := by
  obtain ⟨opening, body, closing⟩ := d
  have hbody := ih.declarations depth body (closing.token :: rest) hd
    (nextIs_terminal closing rest)
  simp only [block, Block.yield, List.tail_cons, List.append_assoc]
  exact hbody.bind (admits_expect closing (admits_pure _ _))

theorem declarations_complete (d : Declarations) (rest : List Token) (hd : d.Regular depth)
    (hrest : nextIs [.rightBrace] rest = true) :
    Admits (declarations (fuel + 1) depth) (d.yield ++ rest) d.trees rest := by
  rw [declarations]
  cases d with
  | done =>
    have hclosing : (nextIs [.rightBrace] rest || rest.isEmpty) = true := by simp [hrest]
    exact admits_atClosing hclosing (admits_pure _ _)
  | next first more =>
    have helse : nextIs [.keyword .elseWord] (more.yield ++ rest) = false :=
      more.nextIs_else (nextIs_of_nextIs_single hrest (by decide))
    rw [Declarations.yield, List.append_assoc]
    apply admits_atClosing (first.beginsWith.not_closing _ (by decide))
    apply (ih.declaration depth first _ hd.1 helse).bind
    exact (ih.declarations depth more rest hd.2 hrest).bind (admits_pure _ _)

end

theorem statementComplete (fuel : Nat) : StatementComplete fuel := by
  induction fuel with
  | zero => constructor <;> intros <;> exact admits_outOfFuel
  | succ fuel ih =>
    exact ⟨declaration_complete ih, declared_complete ih, methodList_complete ih,
      routine_complete ih, statement_complete ih, block_complete ih, declarations_complete ih⟩

/-! ## Programs and single expressions -/

theorem Derivation.Declaration.yield_ne_nil (d : Declaration) (ts : List Token) :
    d.yield ++ ts ≠ [] := by
  obtain ⟨t, us, h, _⟩ := d.beginsWith
  simp [h]

/-- A declaration at the top of a program is read with no fault before any tokens that do not begin
with `else`. -/
theorem declaration_reads (d : Declaration) {rest : List Token} (hd : d.Regular 0)
    (helse : nextIs [.keyword .elseWord] rest = false) :
    Reads (declaration (fuelFor (d.yield ++ rest)) 0) (d.yield ++ rest) (some d.tree) rest := by
  obtain ⟨_, _, _, hdone, _⟩ := declaration_done 0 (d.yield_ne_nil rest)
  rcases (statementComplete _).declaration 0 d rest hd helse with hfuel | hreads
  · rw [hdone] at hfuel
    cases hfuel
  · exact hreads

theorem programFrom_complete (d : Declarations) (turns : Nat) (hd : d.Regular 0)
    (hturns : d.yield.length ≤ turns) : programFrom turns d.yield = ⟨d.trees, []⟩ := by
  induction turns generalizing d with
  | zero =>
    have hnil : d.yield = [] := List.length_eq_zero_iff.1 (Nat.le_zero.1 hturns)
    cases d with
    | done => rfl
    | next first more => exact absurd hnil (first.yield_ne_nil more.yield)
  | succ turns ih =>
    cases d with
    | done => rfl
    | next first more =>
      have hne := first.yield_ne_nil more.yield
      have helse : nextIs [.keyword .elseWord] more.yield = false := by
        simpa using more.nextIs_else (nextIs_nil _)
      have hfirst := declaration_reads first hd.1 helse
      obtain ⟨_, _, _, hdone, _, hshorter⟩ := declaration_done 0 hne
      rw [show declaration _ _ _ = _ from hfirst] at hdone
      cases hdone
      rw [Declarations.yield] at hturns ⊢
      rw [programFrom_succ hne hfirst, ih more hd.2 (by omega)]
      rfl

theorem program_of_derivation (d : Declarations) (stop : Terminal [.endOfInput])
    (after : List Token) (hd : d.Regular 0) :
    program (d.yield ++ stop.token :: after) = ⟨d.trees, []⟩ := by
  rw [program, beforeEnd_append d.inner]
  exact programFrom_complete d _ hd (Nat.le_refl _)

theorem soleExpression_of_derivation (d : Expression) (stop : Terminal [.endOfInput])
    (after : List Token) (hd : d.Regular) :
    soleExpression (d.yield ++ stop.token :: after) = ⟨some d.tree, []⟩ := by
  have h := (expressionComplete (fuelFor d.yield)).expression d [] hd (nextIs_nil _)
  rw [List.append_nil] at h
  rcases h with hfuel | hreads
  · exact absurd hfuel (expression_fueled d.yield)
  · rw [soleExpression, beforeEnd_append d.inner, show expression _ _ = _ from hreads]

/-- The parser accepts every regular derivation and gives its tree, so that no list of tokens has
regular derivations with different trees. -/
theorem regular_derivations_accepted :
    (∀ (d : Declarations) (stop : Terminal [.endOfInput]) (after : List Token), d.Regular 0 →
      program (d.yield ++ stop.token :: after) = ⟨d.trees, []⟩) ∧
    (∀ (d : Expression) (stop : Terminal [.endOfInput]) (after : List Token), d.Regular →
      soleExpression (d.yield ++ stop.token :: after) = ⟨some d.tree, []⟩) ∧
    ∀ d d' : Declarations, d.Regular 0 → d'.Regular 0 → d.yield = d'.yield →
      d.trees = d'.trees := by
  refine ⟨program_of_derivation, soleExpression_of_derivation, ?_⟩
  intro d d' hd hd' h
  have e := programFrom_complete d d.yield.length hd (Nat.le_refl _)
  have e' := programFrom_complete d' d.yield.length hd' (h ▸ Nat.le_refl _)
  rw [← h, e] at e'
  exact congrArg Parsed.tree e'

def nameToken (text : String) : Token := ⟨.symbol .identifier, text, 1⟩

def nameExpression (text : String) : Expression :=
  .tiered (.ofName (.single (nameToken text) rfl) levels)

/-- A name and one operator behind it, with what stands on the right of the operator. -/
def Derivation.Tiered.operation {tier : Tier} {tighter : List Tier} (left : String)
    (operator : Terminal (levelOperators tier)) (right : Tiered tighter) :
    Tiered (tier :: tighter) :=
  .chain (.ofName (.single (nameToken left) rfl) tighter) (.next operator right .done)

theorem Derivation.Tiered.operation_regular {tier : Tier} {tighter : List Tier} {left : String}
    {operator : Terminal (levelOperators tier)} {right : Tiered tighter} (h : right.Regular) :
    (operation left operator right).Regular :=
  ⟨(ofName_spec _ _).2.2, h, trivial⟩

/-- The derivation of `a or b and c == d < e - f + g * -h`, with operators of each rule. -/
def mixedTiers : Expression :=
  let sign : Terminal signs := ⟨⟨.symbol .minus, "-", 1⟩, .minus, by decide, rfl⟩
  let product : Tiered [.product] :=
    .operation "g" ⟨⟨.symbol .star, "*", 1⟩, .star, by decide, rfl⟩
      (.unary (.operation sign (.call (.name (.single (nameToken "h") rfl)) .done)))
  let sum : Tiered [.sum, .product] :=
    .chain (.ofName (.single (nameToken "e") rfl) [.product])
      (.next ⟨⟨.symbol .minus, "-", 1⟩, .minus, by decide, rfl⟩
        (.ofName (.single (nameToken "f") rfl) [.product])
        (.next ⟨⟨.symbol .plus, "+", 1⟩, .plus, by decide, rfl⟩ product .done))
  .tiered (.operation "a" ⟨⟨.symbol (.keyword .orWord), "or", 1⟩, _, by decide, rfl⟩
    (.operation "b" ⟨⟨.symbol (.keyword .andWord), "and", 1⟩, _, by decide, rfl⟩
      (.operation "c" ⟨⟨.symbol .equalEqual, "==", 1⟩, _, by decide, rfl⟩
        (.operation "d" ⟨⟨.symbol .less, "<", 1⟩, _, by decide, rfl⟩ sum))))

/-- The derivation of `if (m) if (b) c; else m;` that gives the `else` to the second `if`, with
`mixedTiers` for `m`. -/
def nestedIf : Declarations :=
  let guard (condition : Expression) : Guard .ifWord :=
    ⟨.single ⟨.symbol (.keyword .ifWord), "if", 1⟩ rfl, .single ⟨.symbol .leftParen, "(", 1⟩ rfl,
      condition, .single ⟨.symbol .rightParen, ")", 1⟩ rfl⟩
  let statement (value : Expression) : Statement :=
    .expression ⟨value, .single ⟨.symbol .semicolon, ";", 1⟩ rfl⟩
  .next (.statement (.ifThen (guard mixedTiers) (.ifElse (guard (nameExpression "b"))
    (statement (nameExpression "c")) (.single ⟨.symbol (.keyword .elseWord), "else", 1⟩ rfl)
    (statement mixedTiers)))) .done

theorem nestedIf_accepted :
    (nestedIf.Regular 0 ∧ program (nestedIf.yield ++ [.endOfInput 1]) = ⟨nestedIf.trees, []⟩) ∧
    mixedTiers.Regular ∧
      soleExpression (mixedTiers.yield ++ [.endOfInput 1]) = ⟨some mixedTiers.tree, []⟩ ∧
      mixedTiers.yield.map (·.lexeme) =
        ["a", "or", "b", "and", "c", "==", "d", "<", "e", "-", "f", "+", "g", "*", "-", "h"] ∧
      mixedTiers.tree.text = "(or a (and b (== c (< d (+ (- e f) (* g (- h)))))))" := by
  have hname : ∀ text, (nameExpression text).Regular := fun text => (Tiered.ofName_spec _ _).2.2
  have hmixed : mixedTiers.Regular := by
    refine Tiered.operation_regular (Tiered.operation_regular (Tiered.operation_regular
      (Tiered.operation_regular ⟨(Tiered.ofName_spec _ _).2.2, ?_⟩)))
    exact ⟨(Tiered.ofName_spec _ _).2.2, Tiered.operation_regular ⟨trivial, trivial⟩, trivial⟩
  have hif : nestedIf.Regular 0 :=
    ⟨⟨hmixed, hname "b", hname "c", False.elim, hmixed⟩, trivial⟩
  let stop : Terminal [.endOfInput] := .single (.endOfInput 1) rfl
  exact ⟨⟨hif, regular_derivations_accepted.1 nestedIf stop [] hif⟩, hmixed,
    regular_derivations_accepted.2.1 mixedTiers stop [] hmixed, rfl, by decide +kernel⟩

end TreeWalk.Grammar
