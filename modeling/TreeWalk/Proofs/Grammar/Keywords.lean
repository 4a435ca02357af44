import TreeWalk.Proofs.Grammar.Lookahead

/-!
Keywords that begin statements. In a yield there are as many of them as statements in the tree that
begin with one, so that a part of a text that begins with such a keyword has its trace in the tree.
-/

namespace TreeWalk

mutual

/-- The number of statements in the tree that begin with a keyword. A `for` is a `while`. -/
def Stmt.headed : Stmt → Nat
  | .expression _ => 0
  | .print _ => 1
  | .varDecl _ _ => 1
  | .block body => Stmt.headedAll body
  | .ifElse _ thenBranch none => thenBranch.headed + 1
  | .ifElse _ thenBranch (some elseBranch) => thenBranch.headed + elseBranch.headed + 1
  | .whileLoop _ body => body.headed + 1
  | .funDecl declaration => declaration.headed + 1
  | .returnValue _ _ => 1
  | .classDecl _ _ methods => FunDecl.headedAll methods + 1

def Stmt.headedAll : List Stmt → Nat
  | [] => 0
  | s :: ss => s.headed + Stmt.headedAll ss

def FunDecl.headed : FunDecl → Nat
  | ⟨_, _, body⟩ => Stmt.headedAll body

def FunDecl.headedAll : List FunDecl → Nat
  | [] => 0
  | d :: ds => d.headed + FunDecl.headedAll ds

end

/-- A start adds what it begins with, a step nothing. -/
theorem Stmt.headed_forLoop (start : Option Stmt) (condition step : Option Expr) (body : Stmt) :
    (Stmt.forLoop start condition step body).headed =
      start.elim 0 Stmt.headed + body.headed + 1 := by
  cases start <;> cases step <;>
    simp [Stmt.forLoop, Stmt.headed, Stmt.headedAll, Nat.add_assoc]

namespace Grammar

open TreeWalk.Grammar.Derivation

def boundaries : List Symbol :=
  [.keyword .classWord, .keyword .funWord, .keyword .varWord, .keyword .forWord, .keyword .ifWord,
    .keyword .whileWord, .keyword .printWord, .keyword .returnWord]

theorem isBoundary_iff {t : Token} :
    isBoundary t = true ↔ ∃ s ∈ boundaries, t.kind = .symbol s := by
  simp [isBoundary, boundaries, Token.is_iff]

theorem nextIs_boundary {t : Token} (ht : isBoundary t = true) (rest : List Token)
    {others : List Symbol} (h : ∀ s ∈ boundaries, s ∉ others) :
    nextIs others (t :: rest) = false :=
  nextIs_terminal_of_disjoint (⟨t, isBoundary_iff.1 ht⟩ : Terminal boundaries) rest h

theorem Derivation.Terminal.boundary {s : Symbol} (t : Terminal [s]) (h : s ∈ boundaries) :
    isBoundary t.token = true :=
  isBoundary_iff.2 ⟨s, h, t.kind_eq⟩

theorem Derivation.Terminal.plain {symbols : List Symbol} (t : Terminal symbols)
    (h : ∀ s ∈ symbols, s ∉ boundaries) : isBoundary t.token = false := by
  obtain ⟨s, hs, hk⟩ := t.isOne
  rw [Bool.eq_false_iff, Ne, isBoundary_iff, hk]
  rintro ⟨_, hmem, ⟨⟩⟩
  exact h s hs hmem

theorem Derivation.LiteralToken.plain (d : LiteralToken) : isBoundary d.token = false := by
  obtain ⟨t, value, hwrites⟩ := d
  rw [Bool.eq_false_iff, Ne, isBoundary_iff]
  rintro ⟨s, hmem, hk⟩
  rw [hk] at hwrites
  cases hwrites <;> revert hmem <;> decide

theorem Tier.operators_plain (tier : Tier) : ∀ s ∈ tier.operators, s ∉ boundaries := by
  cases tier <;> decide

/-- The number of keywords among the tokens that begin statements. -/
def keywords (ts : List Token) : Nat := ts.countP isBoundary

@[simp] theorem keywords_nil : keywords [] = 0 := rfl

@[simp] theorem keywords_append (ts us : List Token) :
    keywords (ts ++ us) = keywords ts + keywords us := List.countP_append

theorem keywords_boundary {t : Token} (h : isBoundary t = true) (ts : List Token) :
    keywords (t :: ts) = keywords ts + 1 := List.countP_cons_of_pos h

theorem keywords_plain {t : Token} (h : isBoundary t = false) (ts : List Token) :
    keywords (t :: ts) = keywords ts := List.countP_cons_of_neg (by simp [h])

mutual

theorem Derivation.Expression.keywords_yield : ∀ d : Expression, keywords d.yield = 0
  | .assign name equals value => by
    rw [Expression.yield, keywords_plain (name.plain (by decide)),
      keywords_plain (equals.plain (by decide)), value.keywords_yield]
  | .tiered operand => operand.keywords_yield

theorem Derivation.Tiered.keywords_yield :
    ∀ {tiers : List Tier} (d : Tiered tiers), keywords d.yield = 0
  | _, .unary operand => operand.keywords_yield
  | _, .chain first more => by
    rw [Tiered.yield, keywords_append, first.keywords_yield, more.keywords_yield]

theorem Derivation.Chain.keywords_yield :
    ∀ {tier : Tier} {tighter : List Tier} (d : Chain tier tighter), keywords d.yield = 0
  | _, _, .done => rfl
  | tier, _, .next operator right more => by
    rw [Chain.yield, keywords_plain (operator.plain tier.operators_plain), keywords_append,
      right.keywords_yield, more.keywords_yield]

theorem Derivation.Unary.keywords_yield : ∀ d : Unary, keywords d.yield = 0
  | .operation operator right => by
    rw [Unary.yield, keywords_plain (operator.plain (by decide)), right.keywords_yield]
  | .call callee calls => by
    rw [Unary.yield, keywords_append, callee.keywords_yield, calls.keywords_yield]

theorem Derivation.Calls.keywords_yield : ∀ d : Calls, keywords d.yield = 0
  | .done => rfl
  | .bare opening closing more => by
    rw [Calls.yield, keywords_plain (opening.plain (by decide)),
      keywords_plain (closing.plain (by decide)), more.keywords_yield]
  | .passing opening arguments closing more => by
    rw [Calls.yield, keywords_plain (opening.plain (by decide)), keywords_append,
      keywords_plain (closing.plain (by decide)), arguments.keywords_yield, more.keywords_yield]

theorem Derivation.Arguments.keywords_yield : ∀ d : Arguments, keywords d.yield = 0
  | .one value => value.keywords_yield
  | .more value comma rest => by
    rw [Arguments.yield, keywords_append, keywords_plain (comma.plain (by decide)),
      value.keywords_yield, rest.keywords_yield]

theorem Derivation.Primary.keywords_yield : ∀ d : Primary, keywords d.yield = 0
  | .literal token => keywords_plain token.plain []
  | .name name => keywords_plain (name.plain (by decide)) []
  | .group opening inner closing => by
    rw [Primary.yield, keywords_plain (opening.plain (by decide)), keywords_append,
      keywords_plain (closing.plain (by decide)), inner.keywords_yield, keywords_nil]

end

theorem keywords_elim (o : Option Expression) : keywords (o.elim [] Expression.yield) = 0 := by
  cases o with
  | none => rfl
  | some d => exact d.keywords_yield

theorem Derivation.Parameters.keywords_yield (d : Parameters) : keywords d.yield = 0 := by
  induction d with
  | one name => exact keywords_plain (name.plain (by decide)) []
  | more name comma rest ih =>
    rw [Parameters.yield, keywords_plain (name.plain (by decide)),
      keywords_plain (comma.plain (by decide)), ih]

theorem Derivation.VarDecl.keywords_yield (d : VarDecl) : keywords d.yield = 1 := by
  obtain ⟨keyword, name, initial, semicolon⟩ := d
  rw [VarDecl.yield, keywords_boundary (keyword.boundary (by decide)),
    keywords_plain (name.plain (by decide)), keywords_append,
    keywords_plain (semicolon.plain (by decide))]
  cases initial with
  | none => rfl
  | some i => simp [keywords_plain (i.1.plain (by decide)), i.2.keywords_yield]

theorem Derivation.ExprStmt.keywords_yield (d : ExprStmt) : keywords d.yield = 0 := by
  rw [ExprStmt.yield, keywords_append, d.value.keywords_yield,
    keywords_plain (d.semicolon.plain (by decide)), keywords_nil]

theorem Derivation.ForStart.keywords_yield (d : ForStart) :
    keywords d.yield = d.tree.elim 0 Stmt.headed := by
  cases d with
  | absent semicolon => exact keywords_plain (semicolon.plain (by decide)) []
  | varDecl declaration => exact declaration.keywords_yield
  | exprStmt statement => exact statement.keywords_yield

theorem Derivation.ForHead.keywords_yield (d : ForHead) :
    keywords d.yield = d.start.tree.elim 0 Stmt.headed + 1 := by
  rw [ForHead.yield, keywords_boundary (d.keyword.boundary (by decide)),
    keywords_plain (d.opening.plain (by decide)), keywords_append, keywords_append,
    keywords_plain (d.semicolon.plain (by decide)), keywords_append,
    keywords_plain (d.closing.plain (by decide)), keywords_elim, keywords_elim,
    d.start.keywords_yield, keywords_nil]

theorem Derivation.Guard.keywords_yield {word : Keyword} (d : Guard word)
    (h : .keyword word ∈ boundaries) : keywords d.yield = 1 := by
  rw [Guard.yield, keywords_boundary (d.keyword.boundary h),
    keywords_plain (d.opening.plain (by decide)), keywords_append, d.condition.keywords_yield,
    keywords_plain (d.closing.plain (by decide)), keywords_nil]

theorem Derivation.ClassHead.keywords_yield (d : ClassHead) : keywords d.yield = 1 := by
  obtain ⟨keyword, name, superclass, opening⟩ := d
  rw [ClassHead.yield, keywords_boundary (keyword.boundary (by decide)),
    keywords_plain (name.plain (by decide)), keywords_append,
    keywords_plain (opening.plain (by decide))]
  cases superclass with
  | none => rfl
  | some c => simp [keywords_plain (c.1.plain (by decide)), keywords_plain (c.2.plain (by decide))]

theorem Derivation.FunctionHead.keywords_yield (d : FunctionHead) : keywords d.yield = 0 := by
  obtain ⟨name, opening, parameters, closing⟩ := d
  rw [FunctionHead.yield, keywords_plain (name.plain (by decide)),
    keywords_plain (opening.plain (by decide)), keywords_append,
    keywords_plain (closing.plain (by decide))]
  cases parameters with
  | none => rfl
  | some names => exact names.keywords_yield

mutual

theorem Derivation.Declaration.keywords_yield :
    ∀ d : Declaration, keywords d.yield = d.tree.headed
  | .classDecl head methods closing => by
    rw [Declaration.yield, keywords_append, keywords_append, head.keywords_yield,
      methods.keywords_yield, keywords_plain (closing.plain (by decide)), Declaration.tree,
      Stmt.headed, keywords_nil, Nat.add_comm, Nat.add_zero]
  | .funDecl keyword function => by
    rw [Declaration.yield, keywords_boundary (keyword.boundary (by decide)),
      function.keywords_yield, Declaration.tree, Stmt.headed]
  | .varDecl declaration => declaration.keywords_yield
  | .statement statement => statement.keywords_yield

theorem Derivation.Methods.keywords_yield :
    ∀ d : Methods, keywords d.yield = FunDecl.headedAll d.trees
  | .done => rfl
  | .next method more => by
    rw [Methods.yield, keywords_append, method.keywords_yield, more.keywords_yield, Methods.trees,
      FunDecl.headedAll]

theorem Derivation.Function.keywords_yield :
    ∀ d : Derivation.Function, keywords d.yield = d.tree.headed
  | .mk head body => by
    rw [Function.yield, keywords_append, head.keywords_yield, body.keywords_yield, Nat.zero_add,
      Function.tree, FunDecl.headed]

theorem Derivation.Block.keywords_yield :
    ∀ d : Block, keywords d.yield = Stmt.headedAll d.trees
  | .mk opening body closing => by
    rw [Block.yield, keywords_plain (opening.plain (by decide)), keywords_append,
      body.keywords_yield, keywords_plain (closing.plain (by decide)), Block.trees, keywords_nil,
      Nat.add_zero]

theorem Derivation.Declarations.keywords_yield :
    ∀ d : Declarations, keywords d.yield = Stmt.headedAll d.trees
  | .done => rfl
  | .next first more => by
    rw [Declarations.yield, keywords_append, first.keywords_yield, more.keywords_yield,
      Declarations.trees, Stmt.headedAll]

theorem Derivation.Statement.keywords_yield :
    ∀ d : Statement, keywords d.yield = d.tree.headed
  | .expression statement => statement.keywords_yield
  | .forLoop head body => by
    rw [Statement.yield, keywords_append, head.keywords_yield, body.keywords_yield, Statement.tree,
      ForHead.tree_eq, Stmt.headed_forLoop]
    omega
  | .ifThen guard thenBranch => by
    rw [Statement.yield, keywords_append, guard.keywords_yield (by decide),
      thenBranch.keywords_yield, Statement.tree, Stmt.headed, Nat.add_comm]
  | .ifElse guard thenBranch keyword elseBranch => by
    rw [Statement.yield, keywords_append, guard.keywords_yield (by decide), keywords_append,
      thenBranch.keywords_yield, keywords_plain (keyword.plain (by decide)),
      elseBranch.keywords_yield, Statement.tree, Stmt.headed, Nat.add_comm]
  | .print keyword statement => by
    rw [Statement.yield, keywords_boundary (keyword.boundary (by decide)),
      statement.keywords_yield, Statement.tree, Stmt.headed]
  | .returnValue keyword value semicolon => by
    rw [Statement.yield, keywords_boundary (keyword.boundary (by decide)), keywords_append,
      keywords_elim, keywords_plain (semicolon.plain (by decide)), Statement.tree, Stmt.headed,
      keywords_nil]
  | .whileLoop guard body => by
    rw [Statement.yield, keywords_append, guard.keywords_yield (by decide), body.keywords_yield,
      Statement.tree, Stmt.headed, Nat.add_comm]
  | .block block => by rw [Statement.yield, block.keywords_yield, Statement.tree, Stmt.headed]

end

end Grammar

end TreeWalk
