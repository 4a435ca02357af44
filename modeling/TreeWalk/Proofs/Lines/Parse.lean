import TreeWalk.Grammar.Program
import TreeWalk.Proofs.Grammar.Reads
import TreeWalk.Proofs.Lines.Bare

/-!
Parsing does not look at lines. From bare tokens each rule makes the bare tree, leaves the bare
rest and notes the bare faults.
-/

namespace TreeWalk.Grammar

def Fault.bare (f : Fault) : Fault := { f with place := f.place.map Token.bare }

namespace Parse

variable {α β γ δ : Type}

def Reply.bare (F : α → β) : Reply α → Reply β
  | .done a => .done (F a)
  | .failed fault => .failed fault.bare
  | .outOfFuel => .outOfFuel

/-- A step with its value changed by `F` and all else bare. -/
def bareStep (F : α → β) (step : Step α) : Step β :=
  ⟨Reply.bare F step.reply, step.rest.map Token.bare, step.noted.map Fault.bare⟩

/-- On bare tokens, `q` does what `p` does on the tokens. -/
def Bares (F : α → β) (p : Parse α) (q : Parse β) : Prop :=
  ∀ ts, q (ts.map Token.bare) = bareStep F (p ts)

variable {F : α → β} {G : γ → δ}

theorem Bares.bind {p : Parse α} {q : Parse β} {f : α → Parse γ} {g : β → Parse δ}
    (hp : Bares F p q) (hf : ∀ a, Bares G (f a) (g (F a))) : Bares G (p >>= f) (q >>= g) := by
  intro ts
  rw [bind_apply, bind_apply, hp ts]
  rcases p ts with ⟨reply, rest, noted⟩
  cases reply with
  | done a =>
    have hrest := hf a rest
    simp only [bareStep, Reply.bare, hrest, List.map_append]
  | failed fault => rfl
  | outOfFuel => rfl

theorem Bares.ite {p p' : Parse α} {q q' : Parse β} {b c : Bool} (hc : c = b) (hp : Bares F p q)
    (hp' : Bares F p' q') : Bares F (if b then p else p') (if c then q else q') := by
  cases b <;> subst hc
  · exact hp'
  · exact hp

theorem bares_pure (F : α → β) (a : α) : Bares F (Pure.pure a) (Pure.pure (F a)) := fun _ => rfl

theorem bares_outOfFuel (F : α → β) : Bares F outOfFuel outOfFuel := fun _ => rfl

theorem bares_fail (F : α → β) (problem : Problem) : Bares F (fail problem) (fail problem) := by
  intro ts
  cases ts <;> rfl

theorem bares_note (place : Option Token) (problem : Problem) :
    Bares id (note ⟨place, problem⟩) (note ⟨place.map Token.bare, problem⟩) := fun _ => rfl

theorem bares_noteHere (problem : Problem) : Bares id (noteHere problem) (noteHere problem) := by
  intro ts
  cases ts <;> rfl

/-- What is noted first under a condition that does not depend on lines. -/
theorem Bares.noting {c : Prop} [Decidable c] {m n : Parse Unit} {p : Parse α} {q : Parse β}
    (hnote : Bares id m n) (h : Bares F p q) :
    Bares F (if c then m >>= fun _ => p else p) (if c then n >>= fun _ => q else q) := by
  split
  · exact hnote.bind fun _ => h
  · exact h

theorem bares_sees (symbols : List Symbol) : Bares id (sees symbols) (sees symbols) := by
  intro ts
  cases ts <;> rfl

theorem bares_atEnd : Bares id atEnd atEnd := by
  intro ts
  cases ts <;> rfl

theorem bares_peek : Bares (Option.map Token.bare) peek peek := by
  intro ts
  cases ts <;> rfl

theorem bares_skip : Bares id skip skip := by
  intro ts
  cases ts <;> rfl

theorem bares_accept (symbols : List Symbol) :
    Bares (Option.map Token.bare) (accept symbols) (accept symbols) := by
  intro ts
  cases ts with
  | nil => rfl
  | cons t ts =>
    simp only [List.map_cons, accept, Token.is_bare]
    split <;> rfl

theorem bares_expect (symbol : Symbol) (problem : Problem) :
    Bares Token.bare (expect symbol problem) (expect symbol problem) := by
  intro ts
  cases ts with
  | nil => rfl
  | cons t ts =>
    simp only [List.map_cons, expect, Token.is_bare]
    split <;> rfl

end Parse

open Parse

theorem literal?_bare (t : Token) : literal? t.bare = literal? t := rfl

theorem assignTo_bares (left : Expr) (equals : Token) (value : Expr) :
    Bares Expr.bare (assignTo left equals value)
      (assignTo left.bare equals.bare value.bare) := by
  cases left with
  | reference name => exact bares_pure _ (Expr.assign name value)
  | _ => exact (bares_note (some equals) .invalidTarget).bind fun _ => bares_pure _ _

theorem node_bare (tier : Tier) (left : Expr) (operator : Token) (right : Expr) :
    (tier.node left operator right).bare = tier.node left.bare operator.bare right.bare := by
  cases tier <;> rfl

/-- Every expression rule with the given fuel does the same on bare tokens. -/
structure ExpressionBares (fuel : Nat) : Prop where
  expression : Bares Expr.bare (expression fuel) (expression fuel)
  tiered : ∀ tiers : List Tier, Bares Expr.bare (tiered fuel tiers) (tiered fuel tiers)
  chain : ∀ (tier : Tier) (tighter : List Tier) (left : Expr),
    Bares Expr.bare (chain fuel tier tighter left) (chain fuel tier tighter left.bare)
  unary : Bares Expr.bare (unary fuel) (unary fuel)
  calls : ∀ callee : Expr, Bares Expr.bare (calls fuel callee) (calls fuel callee.bare)
  arguments : ∀ count : Nat,
    Bares (List.map Expr.bare) (arguments fuel count) (arguments fuel count)
  primary : Bares Expr.bare (primary fuel) (primary fuel)

section

variable {fuel : Nat} (ih : ExpressionBares fuel)
include ih

theorem expression_bares : Bares Expr.bare (expression (fuel + 1)) (expression (fuel + 1)) := by
  apply (ih.tiered Tier.ladder).bind
  intro left
  apply (bares_accept [.equal]).bind
  intro equals
  cases equals with
  | none => exact bares_pure _ left
  | some equals => exact ih.expression.bind fun value => assignTo_bares left equals value

theorem tiered_bares (tiers : List Tier) :
    Bares Expr.bare (tiered (fuel + 1) tiers) (tiered (fuel + 1) tiers) := by
  cases tiers with
  | nil => exact ih.unary
  | cons tier tighter => exact (ih.tiered tighter).bind fun left => ih.chain tier tighter left

theorem chain_bares (tier : Tier) (tighter : List Tier) (left : Expr) :
    Bares Expr.bare (chain (fuel + 1) tier tighter left)
      (chain (fuel + 1) tier tighter left.bare) := by
  apply (bares_accept tier.operators).bind
  intro operator
  cases operator with
  | none => exact bares_pure _ left
  | some operator =>
    apply (ih.tiered tighter).bind
    intro right
    rw [← node_bare]
    exact ih.chain tier tighter _

theorem unary_bares : Bares Expr.bare (unary (fuel + 1)) (unary (fuel + 1)) := by
  apply (bares_accept unaryOperators).bind
  intro operator
  cases operator with
  | none => exact ih.primary.bind fun callee => ih.calls callee
  | some operator => exact ih.unary.bind fun right => bares_pure _ (Expr.unary operator right)

theorem calls_bares (callee : Expr) :
    Bares Expr.bare (calls (fuel + 1) callee) (calls (fuel + 1) callee.bare) := by
  apply (bares_accept [.leftParen]).bind
  intro opening
  cases opening with
  | none => exact bares_pure _ callee
  | some opening =>
    have hclose : ∀ values : List Expr, Bares Expr.bare
        (expect .rightParen .unclosedArguments >>= fun paren =>
          calls fuel (.call callee paren values))
        (expect .rightParen .unclosedArguments >>= fun paren =>
          calls fuel (.call callee.bare paren (values.map Expr.bare))) := by
      intro values
      apply (bares_expect .rightParen .unclosedArguments).bind
      intro paren
      have hcalls := ih.calls (.call callee paren values)
      rwa [Expr.bare, Expr.bareAll_eq] at hcalls
    apply (bares_sees [.rightParen]).bind
    intro closing
    cases closing with
    | true => exact (bares_pure _ []).bind hclose
    | false => exact (ih.arguments 0).bind hclose

theorem arguments_bares (count : Nat) :
    Bares (List.map Expr.bare) (arguments (fuel + 1) count) (arguments (fuel + 1) count) := by
  rw [arguments]
  apply (bares_noteHere .tooManyArguments).noting
  apply ih.expression.bind
  intro value
  apply (bares_accept [.comma]).bind
  intro comma
  cases comma with
  | none => exact bares_pure _ [value]
  | some comma => exact (ih.arguments (count + 1)).bind fun values => bares_pure _ (value :: values)

theorem primary_bares : Bares Expr.bare (primary (fuel + 1)) (primary (fuel + 1)) := by
  apply bares_peek.bind
  intro next
  cases next with
  | none => exact bares_fail _ .noExpression
  | some t =>
    have hgroup : Bares Expr.bare
        (do
          skip
          let inner ← expression fuel
          let _ ← expect .rightParen .unclosedGroup
          return .group inner)
        (do
          skip
          let inner ← expression fuel
          let _ ← expect .rightParen .unclosedGroup
          return .group inner) := by
      apply bares_skip.bind
      intro _
      apply ih.expression.bind
      intro inner
      apply (bares_expect .rightParen .unclosedGroup).bind
      exact fun _ => bares_pure _ (Expr.group inner)
    simp only [Option.map_some, literal?_bare]
    cases literal? t with
    | some value => exact bares_skip.bind fun _ => bares_pure _ (Expr.literal value)
    | none =>
      apply Bares.ite (Token.is_bare t .identifier)
      · exact bares_skip.bind fun _ => bares_pure _ (Expr.reference t)
      · exact hgroup.ite (Token.is_bare t .leftParen) (bares_fail _ .noExpression)

end

theorem expressionBares (fuel : Nat) : ExpressionBares fuel := by
  induction fuel with
  | zero =>
    constructor <;> intros
    all_goals exact bares_outOfFuel _
  | succ fuel ih =>
    exact ⟨expression_bares ih, tiered_bares ih, chain_bares ih, unary_bares ih, calls_bares ih,
      arguments_bares ih, primary_bares ih⟩

/-! ## Statements -/

theorem isBoundary_bare (t : Token) : isBoundary t.bare = isBoundary t := rfl

theorem synchronize_bare (ts : List Token) :
    synchronize (ts.map Token.bare) = (synchronize ts).map Token.bare := by
  fun_induction synchronize ts with
  | case1 => rfl
  | case2 t => rfl
  | case3 t next rest hstop =>
    rw [List.map_cons, List.map_cons, synchronize, isBoundary_bare, Token.is_bare, if_pos hstop]
  | case4 t next rest hgo ih =>
    rw [List.map_cons, List.map_cons, synchronize, isBoundary_bare, Token.is_bare, if_neg hgo,
      ← ih, List.map_cons]

theorem recover_bares {α β : Type} {F : α → β} {p : Parse α} {q : Parse β} (h : Bares F p q) :
    Bares (Option.map F) (recover p) (recover q) := by
  intro ts
  unfold recover
  rw [h ts]
  rcases p ts with ⟨reply, rest, noted⟩
  cases reply with
  | done a => rfl
  | failed fault => simp only [bareStep, Reply.bare, synchronize_bare, List.map_append]; rfl
  | outOfFuel => rfl

theorem forLoop_bare (start : Option Stmt) (condition step : Option Expr) (body : Stmt) :
    (Stmt.forLoop start condition step body).bare =
      .forLoop (start.map Stmt.bare) (condition.map Expr.bare) (step.map Expr.bare) body.bare := by
  have hcondition : (condition.getD (.literal (.bool true))).bare =
      (condition.map Expr.bare).getD (.literal (.bool true)) := by
    cases condition <;> rfl
  cases start <;> cases step <;>
    simp only [Stmt.forLoop, Stmt.bare, Stmt.bareAll, Option.map, hcondition]

def ForClauses.bare (clauses : ForClauses) : ForClauses :=
  ⟨clauses.start.map Stmt.bare, clauses.condition.map Expr.bare, clauses.step.map Expr.bare⟩

section

variable (fuel : Nat)

theorem expression_bare : Bares Expr.bare (expression fuel) (expression fuel) :=
  (expressionBares fuel).expression

theorem expressionUnless_bare (symbol : Symbol) :
    Bares (Option.map Expr.bare) (expressionUnless fuel symbol) (expressionUnless fuel symbol) := by
  apply (bares_sees [symbol]).bind
  intro found
  cases found with
  | true => exact bares_pure _ none
  | false => exact (expression_bare fuel).bind fun value => bares_pure _ (some value)

theorem expressionStatement_bare :
    Bares Stmt.bare (expressionStatement fuel) (expressionStatement fuel) := by
  apply (expression_bare fuel).bind
  intro value
  apply (bares_expect .semicolon .unendedExpression).bind
  exact fun _ => bares_pure _ (Stmt.expression value)

theorem printStatement_bare : Bares Stmt.bare (printStatement fuel) (printStatement fuel) := by
  apply (expression_bare fuel).bind
  intro value
  apply (bares_expect .semicolon .unendedPrint).bind
  exact fun _ => bares_pure _ (Stmt.print value)

theorem varDeclaration_bare : Bares Stmt.bare (varDeclaration fuel) (varDeclaration fuel) := by
  apply (bares_expect .identifier .noVariableName).bind
  intro name
  apply (bares_accept [.equal]).bind
  intro equals
  have hend : ∀ initial : Option Expr, Bares Stmt.bare
      (expect .semicolon .unendedDeclaration >>= fun _ => Pure.pure (.varDecl name initial))
      (expect .semicolon .unendedDeclaration >>= fun _ =>
        Pure.pure (.varDecl name.bare (initial.map Expr.bare))) := by
    intro initial
    apply (bares_expect .semicolon .unendedDeclaration).bind
    exact fun _ => bares_pure _ (Stmt.varDecl name initial)
  cases equals with
  | none => exact (bares_pure _ none).bind hend
  | some equals =>
    exact (expression_bare fuel).bind fun value => (bares_pure _ (some value)).bind hend

theorem returnStatement_bare (depth : Nat) (keyword : Token) :
    Bares Stmt.bare (returnStatement fuel depth keyword)
      (returnStatement fuel depth keyword.bare) := by
  unfold returnStatement
  apply (bares_note (some keyword) .topLevelReturn).noting
  apply (expressionUnless_bare fuel .semicolon).bind
  intro value
  apply (bares_expect .semicolon .unendedReturn).bind
  exact fun _ => bares_pure _ (Stmt.returnValue keyword value)

theorem condition_bare (unopened : Problem) :
    Bares Expr.bare (condition fuel unopened) (condition fuel unopened) := by
  apply (bares_expect .leftParen unopened).bind
  intro _
  apply (expression_bare fuel).bind
  intro value
  apply (bares_expect .rightParen .unclosedCondition).bind
  exact fun _ => bares_pure _ value

theorem forStart_bare : Bares (Option.map Stmt.bare) (forStart fuel) (forStart fuel) := by
  apply (bares_accept [.semicolon]).bind
  intro semicolon
  cases semicolon with
  | some _ => exact bares_pure _ none
  | none =>
    apply (bares_accept [.keyword .varWord]).bind
    intro keyword
    cases keyword with
    | some _ => exact (varDeclaration_bare fuel).bind fun start => bares_pure _ (some start)
    | none => exact (expressionStatement_bare fuel).bind fun start => bares_pure _ (some start)

theorem forClauses_bare : Bares ForClauses.bare (forClauses fuel) (forClauses fuel) := by
  apply (bares_expect .leftParen .unopenedFor).bind
  intro _
  apply (forStart_bare fuel).bind
  intro start
  apply (expressionUnless_bare fuel .semicolon).bind
  intro condition
  apply (bares_expect .semicolon .unendedLoopCondition).bind
  intro _
  apply (expressionUnless_bare fuel .rightParen).bind
  intro step
  apply (bares_expect .rightParen .unclosedFor).bind
  exact fun _ => bares_pure _ (ForClauses.mk start condition step)

theorem parameters_bare (count : Nat) :
    Bares (List.map Token.bare) (parameters fuel count) (parameters fuel count) := by
  induction fuel generalizing count with
  | zero => exact bares_outOfFuel _
  | succ fuel ih =>
    rw [parameters]
    apply (bares_noteHere .tooManyParameters).noting
    apply (bares_expect .identifier .noParameterName).bind
    intro name
    apply (bares_accept [.comma]).bind
    intro comma
    cases comma with
    | none => exact bares_pure _ [name]
    | some comma => exact (ih (count + 1)).bind fun names => bares_pure _ (name :: names)

theorem classHead_bare :
    Bares (Prod.map Token.bare (Option.map Expr.bare)) classHead classHead := by
  apply (bares_expect .identifier .noClassName).bind
  intro name
  apply (bares_accept [.less]).bind
  intro less
  have hend : ∀ superclass : Option Expr, Bares (Prod.map Token.bare (Option.map Expr.bare))
      (expect .leftBrace .unopenedClass >>= fun _ => Pure.pure (name, superclass))
      (expect .leftBrace .unopenedClass >>= fun _ =>
        Pure.pure (name.bare, superclass.map Expr.bare)) := by
    intro superclass
    apply (bares_expect .leftBrace .unopenedClass).bind
    exact fun _ => bares_pure _ (name, superclass)
  cases less with
  | none => exact (bares_pure _ none).bind hend
  | some less =>
    apply (bares_expect .identifier .noSuperclassName).bind
    exact fun parent => (bares_pure _ (some (Expr.reference parent))).bind hend

theorem routineHead_bare (kind : Routine) :
    Bares (Prod.map Token.bare (List.map Token.bare)) (routineHead fuel kind)
      (routineHead fuel kind) := by
  apply (bares_expect .identifier (.noRoutineName kind)).bind
  intro name
  apply (bares_expect .leftParen (.unopenedParameters kind)).bind
  intro _
  apply (bares_sees [.rightParen]).bind
  intro closing
  have hend : ∀ params : List Token, Bares (Prod.map Token.bare (List.map Token.bare))
      (do
        let _ ← expect .rightParen .unclosedParameters
        let _ ← expect .leftBrace (.unopenedBody kind)
        return (name, params))
      (do
        let _ ← expect .rightParen .unclosedParameters
        let _ ← expect .leftBrace (.unopenedBody kind)
        return (name.bare, params.map Token.bare)) := by
    intro params
    apply (bares_expect .rightParen .unclosedParameters).bind
    intro _
    apply (bares_expect .leftBrace (.unopenedBody kind)).bind
    exact fun _ => bares_pure _ (name, params)
  cases closing with
  | true => exact (bares_pure _ []).bind hend
  | false => exact (parameters_bare fuel 0).bind hend

end

theorem atClosing_bare : Bares id atClosing atClosing := by
  apply (bares_sees [.rightBrace]).bind
  intro found
  cases found with
  | true => exact bares_pure _ true
  | false => exact bares_atEnd

/-- Every statement rule with the given fuel does the same on bare tokens. -/
structure StatementBares (fuel : Nat) : Prop where
  declaration : ∀ depth, Bares (Option.map Stmt.bare) (declaration fuel depth)
    (declaration fuel depth)
  declared : ∀ depth, Bares Stmt.bare (declared fuel depth) (declared fuel depth)
  methodList : ∀ depth, Bares (List.map FunDecl.bare) (methodList fuel depth)
    (methodList fuel depth)
  routine : ∀ depth kind, Bares FunDecl.bare (routine fuel depth kind) (routine fuel depth kind)
  statement : ∀ depth, Bares Stmt.bare (statement fuel depth) (statement fuel depth)
  block : ∀ depth, Bares (List.map Stmt.bare) (block fuel depth) (block fuel depth)
  declarations : ∀ depth, Bares (List.map Stmt.bare) (declarations fuel depth)
    (declarations fuel depth)

section

variable {fuel : Nat} (ih : StatementBares fuel) (depth : Nat)
include ih

theorem declared_bares :
    Bares Stmt.bare (declared (fuel + 1) depth) (declared (fuel + 1) depth) := by
  apply (bares_accept [.keyword .classWord]).bind
  intro classWord
  cases classWord with
  | some _ =>
    apply classHead_bare.bind
    rintro ⟨name, superclass⟩
    apply (ih.methodList depth).bind
    intro methods
    apply (bares_expect .rightBrace .unclosedClass).bind
    intro _
    have hclass := bares_pure Stmt.bare (.classDecl name superclass methods)
    rwa [Stmt.bare, FunDecl.bareAll_eq] at hclass
  | none =>
    apply (bares_accept [.keyword .funWord]).bind
    intro funWord
    cases funWord with
    | some _ =>
      apply (ih.routine depth .function).bind
      intro declaration
      have hfun := bares_pure Stmt.bare (.funDecl declaration)
      rwa [Stmt.bare] at hfun
    | none =>
      apply (bares_accept [.keyword .varWord]).bind
      intro varWord
      cases varWord with
      | some _ => exact varDeclaration_bare fuel
      | none => exact ih.statement depth

theorem methodList_bares :
    Bares (List.map FunDecl.bare) (methodList (fuel + 1) depth) (methodList (fuel + 1) depth) := by
  apply atClosing_bare.bind
  intro closing
  cases closing with
  | true => exact bares_pure _ []
  | false =>
    apply (ih.routine depth .method).bind
    intro method
    exact (ih.methodList depth).bind fun methods => bares_pure _ (method :: methods)

theorem routine_bares (kind : Routine) :
    Bares FunDecl.bare (routine (fuel + 1) depth kind) (routine (fuel + 1) depth kind) := by
  apply (routineHead_bare fuel kind).bind
  rintro ⟨name, params⟩
  apply (ih.block (depth + 1)).bind
  intro body
  have hroutine := bares_pure FunDecl.bare ⟨name, params, body⟩
  rwa [FunDecl.bare, Stmt.bareAll_eq] at hroutine

theorem statement_bares :
    Bares Stmt.bare (statement (fuel + 1) depth) (statement (fuel + 1) depth) := by
  apply (bares_accept [.keyword .forWord]).bind
  intro forWord
  cases forWord with
  | some _ =>
    apply (forClauses_bare fuel).bind
    intro clauses
    apply (ih.statement depth).bind
    intro body
    have hloop := bares_pure Stmt.bare
      (.forLoop clauses.start clauses.condition clauses.step body)
    rwa [forLoop_bare] at hloop
  | none =>
    apply (bares_accept [.keyword .ifWord]).bind
    intro ifWord
    cases ifWord with
    | some _ =>
      apply (condition_bare fuel .unopenedIf).bind
      intro test
      apply (ih.statement depth).bind
      intro thenBranch
      apply (bares_accept [.keyword .elseWord]).bind
      intro elseWord
      cases elseWord with
      | some _ =>
        apply (ih.statement depth).bind
        intro elseBranch
        have hif := bares_pure Stmt.bare (.ifElse test thenBranch (some elseBranch))
        rwa [Stmt.bare] at hif
      | none =>
        have hif := bares_pure Stmt.bare (.ifElse test thenBranch none)
        rwa [Stmt.bare] at hif
    | none =>
      apply (bares_accept [.keyword .whileWord]).bind
      intro whileWord
      cases whileWord with
      | some _ =>
        apply (condition_bare fuel .unopenedWhile).bind
        intro test
        apply (ih.statement depth).bind
        intro body
        have hwhile := bares_pure Stmt.bare (.whileLoop test body)
        rwa [Stmt.bare] at hwhile
      | none =>
        apply (bares_accept [.keyword .returnWord]).bind
        intro returnWord
        cases returnWord with
        | some keyword =>
          exact returnStatement_bare fuel depth keyword
        | none =>
          apply (bares_accept [.leftBrace]).bind
          intro leftBrace
          cases leftBrace with
          | some _ =>
            apply (ih.block depth).bind
            intro body
            have hblock := bares_pure Stmt.bare (.block body)
            rwa [Stmt.bare, Stmt.bareAll_eq] at hblock
          | none =>
            apply (bares_accept [.keyword .printWord]).bind
            intro printWord
            cases printWord with
            | some _ =>
              exact printStatement_bare fuel
            | none =>
              exact expressionStatement_bare fuel

theorem block_bares :
    Bares (List.map Stmt.bare) (block (fuel + 1) depth) (block (fuel + 1) depth) := by
  apply (ih.declarations depth).bind
  intro body
  apply (bares_expect .rightBrace .unclosedBlock).bind
  exact fun _ => bares_pure _ body

theorem declarations_bares :
    Bares (List.map Stmt.bare) (declarations (fuel + 1) depth)
      (declarations (fuel + 1) depth) := by
  apply atClosing_bare.bind
  intro closing
  cases closing with
  | true => exact bares_pure _ []
  | false =>
    apply (ih.declaration depth).bind
    intro first
    apply (ih.declarations depth).bind
    intro more
    have hall := bares_pure (List.map Stmt.bare) (first.toList ++ more)
    rwa [List.map_append, ← Option.toList_map] at hall

end

theorem statementBares (fuel : Nat) : StatementBares fuel := by
  induction fuel with
  | zero =>
    constructor <;> intros
    all_goals exact bares_outOfFuel _
  | succ fuel ih =>
    exact ⟨fun depth => recover_bares (ih.declared depth), declared_bares ih, methodList_bares ih,
      routine_bares ih, statement_bares ih, block_bares ih, declarations_bares ih⟩

/-! ## Programs -/

def Parsed.bare (parsed : Parsed (List Stmt)) : Parsed (List Stmt) :=
  ⟨parsed.tree.map Stmt.bare, parsed.faults.map Fault.bare⟩

theorem programFrom_bare (turns : Nat) (ts : List Token) :
    programFrom turns (ts.map Token.bare) = (programFrom turns ts).bare := by
  induction turns generalizing ts with
  | zero => cases ts <;> rfl
  | succ turns ih =>
    cases ts with
    | nil => rfl
    | cons t ts =>
      have hfuel : fuelFor ((t :: ts).map Token.bare) = fuelFor (t :: ts) := by
        rw [fuelFor, fuelFor, List.length_map]
      have hfirst := (statementBares (fuelFor (t :: ts))).declaration 0 (t :: ts)
      rw [List.map_cons] at hfirst hfuel
      rw [List.map_cons, programFrom, programFrom, hfuel, hfirst]
      rcases declaration (fuelFor (t :: ts)) 0 (t :: ts) with ⟨reply, rest, noted⟩
      cases reply with
      | done first =>
        simp only [bareStep, Reply.bare, ih rest, Parsed.bare, List.map_append]
        rw [← Option.toList_map]
      | failed fault => rfl
      | outOfFuel => rfl

theorem beforeEnd_bare (ts : List Token) :
    beforeEnd (ts.map Token.bare) = (beforeEnd ts).map Token.bare :=
  List.takeWhile_map

theorem program_bare (ts : List Token) : program (ts.map Token.bare) = (program ts).bare := by
  rw [program, program, beforeEnd_bare, List.length_map, programFrom_bare]

end TreeWalk.Grammar
