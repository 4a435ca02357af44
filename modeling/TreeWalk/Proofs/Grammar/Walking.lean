import TreeWalk.Proofs.Grammar.Recovery
import TreeWalk.Proofs.Grammar.Stepping

/-!
Every rule of a walker mirrors the rule of the grammar, so that a walker reads the declarations that
the grammar reads, from wherever it stands.
-/

namespace TreeWalk.Grammar

open Parse in
/-- A primary expression that is no literal. -/
def nameOrGroup (expression : Parse Expr) : Parse Expr := do
  match ← accept [.identifier] with
  | some name => return .reference name
  | none =>
    match ← accept [.leftParen] with
    | some _ =>
      let inner ← expression
      let _ ← expect .rightParen .unclosedGroup
      return .group inner
    | none => fail .noExpression

/-- A literal is looked for before all else. -/
theorem primary_apply (fuel : Nat) (ts : List Token) :
    primary (fuel + 1) ts = match ts.head?.bind literal? with
      | some value => ⟨.done (.literal value), ts.tail, []⟩
      | none => nameOrGroup (expression fuel) ts := by
  cases ts with
  | nil => rfl
  | cons t rest =>
    rw [primary, Parse.bind_apply, List.head?_cons, Option.bind_some]
    simp only [Parse.peek, List.head?_cons]
    cases literal? t with
    | some value => rfl
    | none =>
      simp only [nameOrGroup, Parse.accept_bind, nextIs, List.any_cons, List.any_nil, Bool.or_false]
      cases t.is .identifier <;> cases t.is .leftParen <;> rfl

theorem literal?_stop {stop : Token} (h : stop.is .endOfInput = true) : literal? stop = none := by
  rw [literal?, Token.is_iff.1 h]

namespace Walk

variable {depth extra fuel : Nat}

/-! ## Expressions -/

/-- The expression rules of a walker, with `fuel`. -/
structure ExpressionMirrors (depth extra fuel : Nat) : Prop where
  expression : Mirrors depth extra (Grammar.expression fuel) (expression fuel)
  tiered : ∀ tiers : List Tier, Mirrors depth extra (Grammar.tiered fuel tiers) (tiered fuel tiers)
  chain : ∀ (tier : Tier) (tighter : List Tier) (left : Expr),
    Mirrors depth extra (Grammar.chain fuel tier tighter left) (chain fuel tier tighter left)
  unary : Mirrors depth extra (Grammar.unary fuel) (unary fuel)
  calls : ∀ callee : Expr, Mirrors depth extra (Grammar.calls fuel callee) (calls fuel callee)
  arguments : ∀ count : Nat,
    Mirrors depth extra (Grammar.arguments fuel count) (arguments fuel count)
  primary : Mirrors depth extra (Grammar.primary fuel) (primary fuel)

theorem assignTo_mirrors (left : Expr) (equals : Token) (value : Expr) :
    Mirrors depth extra (Grammar.assignTo left equals value) (assignTo left equals value) := by
  cases left with
  | reference name => exact mirrors_pure _
  | _ => exact (mirrors_note equals (by decide)).bind fun _ => mirrors_pure _

theorem nameOrGroup_mirrors {p : Parse Expr} {q : Walk Expr} (h : Mirrors depth extra p q) :
    Mirrors depth extra (Grammar.nameOrGroup p) (nameOrGroup q) := by
  refine mirrors_passes (fun name => mirrors_previous (mirrors_pure _)) ?_
  refine mirrors_passes (fun opening => Mirrors.behind ?_) (mirrors_fail .noExpression)
  exact h.closed .rightParen .unclosedGroup

section

variable (ih : ExpressionMirrors depth extra fuel)
include ih

theorem expression_mirrors :
    Mirrors depth extra (Grammar.expression (fuel + 1)) (expression (fuel + 1)) := by
  apply (ih.tiered Tier.ladder).bind
  intro left
  refine mirrors_passes (fun equals => mirrors_previous ?_) (mirrors_pure left)
  exact ih.expression.bind fun value => assignTo_mirrors left equals value

theorem tiered_mirrors (tiers : List Tier) :
    Mirrors depth extra (Grammar.tiered (fuel + 1) tiers) (tiered (fuel + 1) tiers) := by
  cases tiers with
  | nil => exact ih.unary
  | cons tier tighter => exact (ih.tiered tighter).bind fun left => ih.chain tier tighter left

theorem chain_mirrors (tier : Tier) (tighter : List Tier) (left : Expr) :
    Mirrors depth extra (Grammar.chain (fuel + 1) tier tighter left)
      (chain (fuel + 1) tier tighter left) := by
  refine mirrors_passes (fun operator => mirrors_previous ?_) (mirrors_pure left)
  exact (ih.tiered tighter).bind fun right => ih.chain tier tighter _

theorem unary_mirrors : Mirrors depth extra (Grammar.unary (fuel + 1)) (unary (fuel + 1)) := by
  refine mirrors_passes (fun operator => mirrors_previous ?_) ?_
  · exact ih.unary.bind fun right => mirrors_pure _
  · exact ih.primary.bind fun callee => ih.calls callee

theorem calls_mirrors (callee : Expr) :
    Mirrors depth extra (Grammar.calls (fuel + 1) callee) (calls (fuel + 1) callee) := by
  refine mirrors_passes (fun opening => Mirrors.behind ?_) (mirrors_pure callee)
  have hclose : ∀ values : List Expr, Mirrors depth extra
      (Parse.expect .rightParen .unclosedArguments >>= fun paren =>
        Grammar.calls fuel (.call callee paren values))
      (expect .rightParen .unclosedArguments >>= fun paren =>
        calls fuel (.call callee paren values)) :=
    fun values => (mirrors_expect _ _).bind fun paren => ih.calls _
  apply (mirrors_sees [.rightParen]).bind
  intro closing
  cases closing with
  | true => exact (mirrors_pure []).bind hclose
  | false => exact (ih.arguments 0).bind hclose

theorem arguments_mirrors (count : Nat) :
    Mirrors depth extra (Grammar.arguments (fuel + 1) count) (arguments (fuel + 1) count) := by
  rw [Grammar.arguments, arguments]
  refine Mirrors.noting ?_ (by decide)
  apply ih.expression.bind
  intro value
  refine mirrors_passes (fun comma => Mirrors.behind ?_) (mirrors_pure [value])
  exact (ih.arguments (count + 1)).bind fun values => mirrors_pure _

theorem primary_mirrors :
    Mirrors depth extra (Grammar.primary (fuel + 1)) (primary (fuel + 1)) := by
  intro ts w hw
  have hother := nameOrGroup_mirrors ih.expression ts w hw
  have hwalk : primary (fuel + 1) ts w = match literal? (w.next ts) with
      | some value => (some (.ok (.literal value)), w.advanced ts)
      | none => nameOrGroup (expression fuel) ts w := by
    rw [primary, bind_apply]
    simp only [next, look]
    cases literal? (w.next ts) <;> rfl
  have hnext := w.next_eq ts
  rw [Follows, primary_apply, hwalk]
  cases hahead : w.ahead ts with
  | nil =>
    have hstop : literal? (w.next ts) = none := by
      rw [hnext, hahead]
      exact literal?_stop (stopToken_is _)
    rw [hstop]
    rwa [Follows, hahead] at hother
  | cons t rest =>
    rw [hahead] at hnext
    rw [hnext]
    cases hliteral : literal? t with
    | some value =>
      simp only [List.head?_cons, Option.bind_some, Option.getD_some, hliteral]
      refine ⟨[t], rfl, ?_⟩
      rw [Stand.advanced_eq hahead]
      simp [Reply.come]
    | none =>
      rw [Follows, hahead] at hother
      simpa only [List.head?_cons, Option.bind_some, Option.getD_some, hliteral] using hother

end

theorem expressionMirrors (depth extra fuel : Nat) : ExpressionMirrors depth extra fuel := by
  induction fuel with
  | zero =>
    constructor <;> intros
    all_goals exact mirrors_outOfFuel
  | succ fuel ih =>
    exact ⟨expression_mirrors ih, tiered_mirrors ih, chain_mirrors ih, unary_mirrors ih,
      calls_mirrors ih, arguments_mirrors ih, primary_mirrors ih⟩

/-! ## Parts of statements -/

theorem expressionUnless_mirrors (symbol : Symbol) :
    Mirrors depth extra (Grammar.expressionUnless fuel symbol) (expressionUnless fuel symbol) := by
  apply (mirrors_sees [symbol]).bind
  intro found
  cases found with
  | true => exact mirrors_pure none
  | false => exact (expressionMirrors _ _ fuel).expression.bind fun value => mirrors_pure _

theorem expressionStatement_mirrors :
    Mirrors depth extra (Grammar.expressionStatement fuel) (expressionStatement fuel) :=
  (expressionMirrors _ _ fuel).expression.closed .semicolon .unendedExpression

theorem printStatement_mirrors :
    Mirrors depth extra (Grammar.printStatement fuel) (printStatement fuel) :=
  (expressionMirrors _ _ fuel).expression.closed .semicolon .unendedPrint

theorem varDeclaration_mirrors :
    Mirrors depth extra (Grammar.varDeclaration fuel) (varDeclaration fuel) := by
  apply (mirrors_expect .identifier .noVariableName).bind
  intro name
  refine mirrors_passes (fun equals => Mirrors.behind ?_) ?_
  · apply (expressionMirrors _ _ fuel).expression.bind
    intro value
    exact (mirrors_pure (some value)).closed .semicolon .unendedDeclaration
  · exact (mirrors_pure none).closed .semicolon .unendedDeclaration

theorem returnStatement_mirrors (keyword : Token) :
    MirrorsBehind keyword depth extra (Grammar.returnStatement fuel depth keyword)
      (returnStatement fuel) := by
  apply mirrors_previous
  apply Mirrors.outside
  exact (expressionUnless_mirrors .semicolon).closed .semicolon .unendedReturn

theorem condition_mirrors (unopened : Problem) :
    Mirrors depth extra (Grammar.condition fuel unopened) (condition fuel unopened) := by
  apply (mirrors_expect .leftParen unopened).bind
  intro _
  exact (expressionMirrors _ _ fuel).expression.closed .rightParen .unclosedCondition

theorem forStart_mirrors : Mirrors depth extra (Grammar.forStart fuel) (forStart fuel) := by
  refine mirrors_passes (fun semicolon => (mirrors_pure none).behind) ?_
  refine mirrors_passes (fun keyword => Mirrors.behind ?_) ?_
  · exact varDeclaration_mirrors.bind fun start => mirrors_pure _
  · exact expressionStatement_mirrors.bind fun start => mirrors_pure _

theorem forClauses_mirrors : Mirrors depth extra (Grammar.forClauses fuel) (forClauses fuel) := by
  apply (mirrors_expect .leftParen .unopenedFor).bind
  intro _
  apply forStart_mirrors.bind
  intro start
  apply (expressionUnless_mirrors .semicolon).bind
  intro condition
  apply (mirrors_expect .semicolon .unendedLoopCondition).bind
  intro _
  exact (expressionUnless_mirrors .rightParen).closed .rightParen .unclosedFor

theorem parameters_mirrors : ∀ count,
    Mirrors depth extra (Grammar.parameters fuel count) (parameters fuel count) := by
  induction fuel with
  | zero => exact fun _ => mirrors_outOfFuel
  | succ fuel ih =>
    intro count
    rw [Grammar.parameters, parameters]
    refine Mirrors.noting ?_ (by decide)
    apply (mirrors_expect .identifier .noParameterName).bind
    intro name
    refine mirrors_passes (fun comma => Mirrors.behind ?_) (mirrors_pure [name])
    exact (ih (count + 1)).bind fun names => mirrors_pure _

theorem classHead_mirrors : Mirrors depth extra Grammar.classHead classHead := by
  apply (mirrors_expect .identifier .noClassName).bind
  intro name
  refine mirrors_passes (fun less => Mirrors.behind ?_) ?_
  · apply (mirrors_expect .identifier .noSuperclassName).bind
    intro parent
    exact (mirrors_pure (some (Expr.reference parent))).closed .leftBrace .unopenedClass
  · exact (mirrors_pure none).closed .leftBrace .unopenedClass

theorem routineHead_mirrors (kind : Routine) :
    Mirrors depth extra (Grammar.routineHead fuel kind) (routineHead fuel kind) := by
  apply (mirrors_expect .identifier (.noRoutineName kind)).bind
  intro name
  apply (mirrors_expect .leftParen (.unopenedParameters kind)).bind
  intro _
  have hend : ∀ params : List Token, Mirrors depth extra
      (Parse.expect .rightParen .unclosedParameters >>= fun _ =>
        Parse.expect .leftBrace (.unopenedBody kind) >>= fun _ => Pure.pure (name, params))
      (expect .rightParen .unclosedParameters >>= fun _ =>
        expect .leftBrace (.unopenedBody kind) >>= fun _ => Pure.pure (name, params)) :=
    fun params => (mirrors_expect .rightParen .unclosedParameters).closed .leftBrace _
  apply (mirrors_sees [.rightParen]).bind
  intro closing
  cases closing with
  | true => exact (mirrors_pure []).bind hend
  | false => exact (parameters_mirrors 0).bind hend

/-! ## Statements -/

/-- The statement rules of a walker. The grammar counts the bodies that a rule is in, so they are
the same rules at every depth. -/
structure StatementMirrors (extra fuel : Nat) : Prop where
  declaration : ∀ depth,
    Mirrors depth extra (Grammar.declaration fuel depth) (declaration fuel)
  declared : ∀ depth, Mirrors depth extra (Grammar.declared fuel depth) (declared fuel)
  methodList : ∀ depth, Mirrors depth extra (Grammar.methodList fuel depth) (methodList fuel)
  routine : ∀ depth kind,
    Mirrors depth extra (Grammar.routine fuel depth kind) (routine fuel kind)
  statement : ∀ depth, Mirrors depth extra (Grammar.statement fuel depth) (statement fuel)
  block : ∀ depth, Mirrors depth extra (Grammar.block fuel depth) (block fuel)
  declarations : ∀ depth,
    Mirrors depth extra (Grammar.declarations fuel depth) (declarations fuel)

section

variable (ih : StatementMirrors extra fuel) (depth : Nat)
include ih

theorem declaration_mirrors :
    Mirrors depth extra (Grammar.declaration (fuel + 1) depth) (declaration (fuel + 1)) :=
  (ih.declared depth).recover ((statementTraced fuel).declared depth).failed

theorem declared_mirrors :
    Mirrors depth extra (Grammar.declared (fuel + 1) depth) (declared (fuel + 1)) := by
  refine mirrors_passes (fun classWord => Mirrors.behind ?_) ?_
  · apply classHead_mirrors.bind
    rintro ⟨name, superclass⟩
    exact (ih.methodList depth).closed .rightBrace .unclosedClass
  refine mirrors_passes (fun funWord => Mirrors.behind ?_) ?_
  · exact (ih.routine depth .function).bind fun routine => mirrors_pure _
  refine mirrors_passes (fun varWord => Mirrors.behind ?_) ?_
  · exact varDeclaration_mirrors
  · exact ih.statement depth

theorem methodList_mirrors :
    Mirrors depth extra (Grammar.methodList (fuel + 1) depth) (methodList (fuel + 1)) := by
  apply mirrors_atClosing.bind
  intro closing
  cases closing with
  | true => exact mirrors_pure []
  | false =>
    apply (ih.routine depth .method).bind
    intro method
    exact (ih.methodList depth).bind fun methods => mirrors_pure _

theorem routine_mirrors (kind : Routine) :
    Mirrors depth extra (Grammar.routine (fuel + 1) depth kind) (routine (fuel + 1) kind) := by
  apply (routineHead_mirrors kind).bind
  rintro ⟨name, params⟩
  exact (ih.block (depth + 1)).inBody.bind fun body => mirrors_pure _

theorem statement_mirrors :
    Mirrors depth extra (Grammar.statement (fuel + 1) depth) (statement (fuel + 1)) := by
  refine mirrors_passes (fun forWord => Mirrors.behind ?_) ?_
  · apply forClauses_mirrors.bind
    intro clauses
    exact (ih.statement depth).bind fun body => mirrors_pure _
  refine mirrors_passes (fun ifWord => Mirrors.behind ?_) ?_
  · apply (condition_mirrors .unopenedIf).bind
    intro test
    apply (ih.statement depth).bind
    intro thenBranch
    refine mirrors_passes (fun elseWord => Mirrors.behind ?_) (mirrors_pure _)
    exact (ih.statement depth).bind fun elseBranch => mirrors_pure _
  refine mirrors_passes (fun whileWord => Mirrors.behind ?_) ?_
  · apply (condition_mirrors .unopenedWhile).bind
    intro test
    exact (ih.statement depth).bind fun body => mirrors_pure _
  refine mirrors_passes (fun keyword => returnStatement_mirrors keyword) ?_
  refine mirrors_passes (fun opening => Mirrors.behind ?_) ?_
  · exact (ih.block depth).bind fun body => mirrors_pure _
  refine mirrors_passes (fun printWord => Mirrors.behind ?_) ?_
  · exact printStatement_mirrors
  · exact expressionStatement_mirrors

theorem block_mirrors :
    Mirrors depth extra (Grammar.block (fuel + 1) depth) (block (fuel + 1)) :=
  (ih.declarations depth).closed .rightBrace .unclosedBlock

theorem declarations_mirrors :
    Mirrors depth extra (Grammar.declarations (fuel + 1) depth) (declarations (fuel + 1)) := by
  apply mirrors_atClosing.bind
  intro closing
  cases closing with
  | true => exact mirrors_pure []
  | false =>
    apply (ih.declaration depth).bind
    intro first
    exact (ih.declarations depth).bind fun more => mirrors_pure _

end

theorem statementMirrors (extra fuel : Nat) : StatementMirrors extra fuel := by
  induction fuel with
  | zero =>
    constructor <;> intros
    all_goals exact mirrors_outOfFuel
  | succ fuel ih =>
    exact ⟨declaration_mirrors ih, declared_mirrors ih, methodList_mirrors ih, routine_mirrors ih,
      statement_mirrors ih, block_mirrors ih, declarations_mirrors ih⟩

/-! ## Programs -/

/-- One declaration is read on the way from `w` to `v`, and the program from `w` on is that and the
program from `v` on. -/
structure Turn (extra : Nat) (ts : List Token) (w v : Stand) (first : Option Stmt)
    (noted : List Fault) : Prop where
  depth : v.depth = w.depth
  stop : v.stop ts = w.stop ts
  shorter : (v.ahead ts).length < (w.ahead ts).length
  passed : v.passed + (v.ahead ts).length = w.passed + (w.ahead ts).length
  reports : v.reports = w.reports ++ (heard extra noted).map (Fault.report (w.stop ts))
  program : Grammar.program (ts.drop w.passed) =
    ⟨first.toList ++ (Grammar.program (ts.drop v.passed)).tree,
      noted ++ (Grammar.program (ts.drop v.passed)).faults⟩

theorem program_ahead (w : Stand) (ts : List Token) :
    Grammar.program (w.ahead ts) = Grammar.program (ts.drop w.passed) := by
  rw [Grammar.program, Grammar.program, beforeEnd_inner (w.ahead_inner ts)]
  rfl

/-- A declaration with fuel enough for the tokens ahead comes to an end. -/
theorem declaration_turns {ts : List Token} {w : Stand} (hw : w.depth = extra)
    (hend : w.atEnd ts = false) (hfuel : fuelFor (w.ahead ts) ≤ fuel) :
    ∃ first v noted, declaration fuel ts w = (some (.ok first), v) ∧
      Turn extra ts w v first noted := by
  have hne : w.ahead ts ≠ [] := by simpa [Stand.atEnd_eq] using hend
  obtain ⟨first, rest, noted, hfirst, -, hshorter⟩ := declaration_done 0 hne
  -- The walker has fuel for all tokens, the grammar for those ahead.
  have hsame : Grammar.declaration fuel 0 (w.ahead ts) = ⟨.done first, rest, noted⟩ := by
    rw [((statementContinues hfuel).declaration 0).same _ (by rw [hfirst]; nofun), hfirst]
  obtain ⟨taken, htaken, hq⟩ :=
    (statementMirrors extra fuel).declaration 0 ts w (hw.trans (Nat.zero_add _).symm)
  rw [hsame] at htaken hq
  let v : Stand := ⟨w.passed + taken.length, w.depth,
    w.reports ++ (heard extra noted).map (Fault.report (w.stop ts))⟩
  obtain ⟨hahead, hstop⟩ : v.ahead ts = rest ∧ v.stop ts = w.stop ts :=
    Stand.passed_ahead htaken rfl
  have hlength := congrArg List.length htaken
  rw [List.length_append] at hlength
  refine ⟨first, v, noted, hq, rfl, hstop, by rwa [hahead], ?_, rfl, ?_⟩
  · rw [hahead, hlength, ← Nat.add_assoc]
  · have hprogram := program_next (w.ahead_inner ts) hne hfirst
    rwa [← hahead, program_ahead, program_ahead] at hprogram

theorem program_atEnd {ts : List Token} {w : Stand} (h : w.ahead ts = []) :
    Grammar.program (ts.drop w.passed) = ⟨[], []⟩ := by
  rw [Grammar.program, show beforeEnd (ts.drop w.passed) = [] from h]
  rfl

theorem toEnd_walked (turns : Nat) {ts : List Token} {w : Stand} (hw : w.depth = extra)
    (hfuel : fuelFor (w.ahead ts) ≤ fuel) (hturns : (w.ahead ts).length < turns) :
    toEnd fuel turns ts w = (some (.ok (Grammar.program (ts.drop w.passed)).tree),
      ⟨w.passed + (w.ahead ts).length, w.depth, w.reports ++
        (heard extra (Grammar.program (ts.drop w.passed)).faults).map
          (Fault.report (w.stop ts))⟩) := by
  induction turns generalizing w with
  | zero => omega
  | succ turns ih =>
    rw [toEnd, bind_apply]
    simp only [atEnd, look]
    cases hend : w.atEnd ts with
    | true =>
      have hahead : w.ahead ts = [] := by simpa [Stand.atEnd_eq] using hend
      rw [program_atEnd hahead, hahead]
      simp
      rfl
    | false =>
      obtain ⟨first, v, noted, hfirst, hturn⟩ := declaration_turns hw hend hfuel
      have hshorter := hturn.shorter
      have hmore := ih (hturn.depth.trans hw) (by unfold fuelFor at *; omega) (by omega)
      rw [hturn.stop, hturn.depth, hturn.reports, hturn.passed] at hmore
      rw [hturn.program]
      simp [bind_apply, hfirst, hmore]
      rfl

theorem fuelFor_ahead (w : Stand) (ts : List Token) : fuelFor (w.ahead ts) ≤ fuelFor ts := by
  have hlength := w.ahead_length ts
  unfold fuelFor
  omega

/-- The walker reads to the end of input what the grammar reads of the tokens from there on. -/
theorem program_walked (ts : List Token) (w : Stand) :
    program ts w = (some (.ok (Grammar.program (ts.drop w.passed)).tree),
      ⟨w.passed + (w.ahead ts).length, w.depth, w.reports ++
        (heard w.depth (Grammar.program (ts.drop w.passed)).faults).map
          (Fault.report (w.stop ts))⟩) :=
  toEnd_walked (ts.length + 1) rfl (fuelFor_ahead w ts) (Nat.lt_succ_of_le (w.ahead_length ts))

/-- The walker comes to the same end from where a declaration leaves it. -/
theorem Turn.program_end {ts : List Token} {w v : Stand} {first : Option Stmt}
    {noted : List Fault} (h : Turn w.depth ts w v first noted) :
    (Walk.program ts v).2 = (Walk.program ts w).2 := by
  rw [program_walked, program_walked, h.program]
  simp only [h.passed, h.depth, h.reports, h.stop, heard_append, List.map_append,
    List.append_assoc]

end Walk

end TreeWalk.Grammar
