import TreeWalk.Grammar.Program

/-!
Derivations of the grammar, one type for each rule and one constructor for each alternative:

    program     → declaration* EOF
    declaration → classDecl | funDecl | varDecl | statement
    classDecl   → "class" IDENT ( "<" IDENT )? "{" function* "}"
    funDecl     → "fun" function
    function    → IDENT "(" parameters? ")" block
    varDecl     → "var" IDENT ( "=" expression )? ";"
    statement   → exprStmt | forStmt | ifStmt | printStmt | returnStmt | whileStmt | block
    exprStmt    → expression ";"
    forStmt     → "for" "(" ( varDecl | exprStmt | ";" ) expression? ";" expression? ")" statement
    ifStmt      → "if" "(" expression ")" statement ( "else" statement )?
    printStmt   → "print" expression ";"
    returnStmt  → "return" expression? ";"
    whileStmt   → "while" "(" expression ")" statement
    block       → "{" declaration* "}"
    parameters  → IDENT ( "," IDENT )*
    expression  → IDENT "=" expression | logic_or
    logic_or    → logic_and ( "or" logic_and )*
    logic_and   → equality ( "and" equality )*
    equality    → comparison ( ( "!=" | "==" ) comparison )*
    comparison  → term ( ( ">" | ">=" | "<" | "<=" ) term )*
    term        → factor ( ( "-" | "+" ) factor )*
    factor      → unary ( ( "/" | "*" ) unary )*
    unary       → ( "!" | "-" ) unary | call
    call        → primary ( "(" arguments? ")" )*
    arguments   → expression ( "," expression )*
    primary     → NUMBER | STRING | "true" | "false" | "nil" | IDENT | "(" expression ")"

A derivation has the tokens it yields and the tree it stands for. The rules alone leave open which
`if` an `else` belongs to and allow any number of arguments and a `return` anywhere; `Regular`
derivations bind each `else` to the nearest open `if` and keep the limits. Operators, limits and
trees are written out here; that they are those of the parser is shown at the end.
-/

namespace TreeWalk.Grammar.Derivation

/-! ## Operators and limits -/

/-- The rules from `logic_or` to `factor`, each with the next one as its operands. -/
def levels : List Tier := [.disjunction, .conjunction, .equality, .comparison, .sum, .product]

def levelOperators : Tier → List Symbol
  | .disjunction => [.keyword .orWord]
  | .conjunction => [.keyword .andWord]
  | .equality => [.bangEqual, .equalEqual]
  | .comparison => [.greater, .greaterEqual, .less, .lessEqual]
  | .sum => [.minus, .plus]
  | .product => [.star, .slash]

/-- `or` and `and` may stop at their left operand, so their trees are of another kind. -/
def levelTree : Tier → Expr → Token → Expr → Expr
  | .disjunction, left, operator, right => .logical left operator right
  | .conjunction, left, operator, right => .logical left operator right
  | .equality, left, operator, right => .binary left operator right
  | .comparison, left, operator, right => .binary left operator right
  | .sum, left, operator, right => .binary left operator right
  | .product, left, operator, right => .binary left operator right

/-- The operators of `unary`. -/
def signs : List Symbol := [.bang, .minus]

/-- The most arguments of a call, and the most parameters of a function. -/
def mostArguments : Nat := 255

/-! ## Tokens -/

/-- A token of one of the symbols. -/
structure Terminal (symbols : List Symbol) where
  token : Token
  isOne : ∃ s ∈ symbols, token.kind = .symbol s

/-- The kinds of token that write a literal. -/
inductive Writes : Kind → Literal → Prop
  | number (x : Float) : Writes (.number x) (.number x)
  | string (contents : String) : Writes (.string contents) (.string contents)
  | true : Writes (.symbol (.keyword .trueWord)) (.bool true)
  | false : Writes (.symbol (.keyword .falseWord)) (.bool false)
  | nil : Writes (.symbol (.keyword .nilWord)) .nil

structure LiteralToken where
  token : Token
  value : Literal
  writes : Writes token.kind value

/-! ## Expressions -/

mutual

inductive Expression
  | assign (name : Terminal [.identifier]) (equals : Terminal [.equal]) (value : Expression)
  | tiered (operand : Tiered levels)

/-- The six rules from `logic_or` to `factor`, each for the list of tiers from its own on. -/
inductive Tiered : List Tier → Type
  | unary (operand : Unary) : Tiered []
  | chain {tier : Tier} {tighter : List Tier} (first : Tiered tighter)
      (more : Chain tier tighter) : Tiered (tier :: tighter)

inductive Chain : Tier → List Tier → Type
  | done {tier : Tier} {tighter : List Tier} : Chain tier tighter
  | next {tier : Tier} {tighter : List Tier} (operator : Terminal (levelOperators tier))
      (right : Tiered tighter) (more : Chain tier tighter) : Chain tier tighter

inductive Unary
  | operation (operator : Terminal signs) (right : Unary)
  | call (callee : Primary) (calls : Calls)

inductive Calls
  | done
  | bare (opening : Terminal [.leftParen]) (closing : Terminal [.rightParen]) (more : Calls)
  | passing (opening : Terminal [.leftParen]) (arguments : Arguments)
      (closing : Terminal [.rightParen]) (more : Calls)

inductive Arguments
  | one (value : Expression)
  | more (value : Expression) (comma : Terminal [.comma]) (rest : Arguments)

inductive Primary
  | literal (token : LiteralToken)
  | name (name : Terminal [.identifier])
  | group (opening : Terminal [.leftParen]) (inner : Expression)
      (closing : Terminal [.rightParen])

end

mutual

def Expression.yield : Expression → List Token
  | .assign name equals value => name.token :: equals.token :: value.yield
  | .tiered operand => operand.yield

def Tiered.yield {tiers : List Tier} : Tiered tiers → List Token
  | .unary operand => operand.yield
  | .chain first more => first.yield ++ more.yield

def Chain.yield {tier : Tier} {tighter : List Tier} : Chain tier tighter → List Token
  | .done => []
  | .next operator right more => operator.token :: (right.yield ++ more.yield)

def Unary.yield : Unary → List Token
  | .operation operator right => operator.token :: right.yield
  | .call callee calls => callee.yield ++ calls.yield

def Calls.yield : Calls → List Token
  | .done => []
  | .bare opening closing more => opening.token :: closing.token :: more.yield
  | .passing opening arguments closing more =>
    opening.token :: (arguments.yield ++ closing.token :: more.yield)

def Arguments.yield : Arguments → List Token
  | .one value => value.yield
  | .more value comma rest => value.yield ++ comma.token :: rest.yield

def Primary.yield : Primary → List Token
  | .literal literal => [literal.token]
  | .name name => [name.token]
  | .group opening inner closing => opening.token :: (inner.yield ++ [closing.token])

end

mutual

def Expression.tree : Expression → Expr
  | .assign name _ value => .assign name.token value.tree
  | .tiered operand => operand.tree

def Tiered.tree {tiers : List Tier} : Tiered tiers → Expr
  | .unary operand => operand.tree
  | .chain first more => more.tree first.tree

/-- The operators of a chain lean to the left: each has all that stands before it as its left
operand. -/
def Chain.tree {tier : Tier} {tighter : List Tier} : Chain tier tighter → Expr → Expr
  | .done, left => left
  | .next operator right more, left => more.tree (levelTree tier left operator.token right.tree)

def Unary.tree : Unary → Expr
  | .operation operator right => .unary operator.token right.tree
  | .call callee calls => calls.tree callee.tree

def Calls.tree : Calls → Expr → Expr
  | .done, callee => callee
  | .bare _ closing more, callee => more.tree (.call callee closing.token [])
  | .passing _ arguments closing more, callee =>
    more.tree (.call callee closing.token arguments.trees)

def Arguments.trees : Arguments → List Expr
  | .one value => [value.tree]
  | .more value _ rest => value.tree :: rest.trees

def Primary.tree : Primary → Expr
  | .literal literal => .literal literal.value
  | .name name => .reference name.token
  | .group _ inner _ => .group inner.tree

end

def Arguments.count : Arguments → Nat
  | .one _ => 1
  | .more _ _ rest => rest.count + 1

mutual

/-- No call has more than `mostArguments`. -/
def Expression.Regular : Expression → Prop
  | .assign _ _ value => value.Regular
  | .tiered operand => operand.Regular

def Tiered.Regular {tiers : List Tier} : Tiered tiers → Prop
  | .unary operand => operand.Regular
  | .chain first more => first.Regular ∧ more.Regular

def Chain.Regular {tier : Tier} {tighter : List Tier} : Chain tier tighter → Prop
  | .done => True
  | .next _ right more => right.Regular ∧ more.Regular

def Unary.Regular : Unary → Prop
  | .operation _ right => right.Regular
  | .call callee calls => callee.Regular ∧ calls.Regular

def Calls.Regular : Calls → Prop
  | .done => True
  | .bare _ _ more => more.Regular
  | .passing _ arguments _ more =>
    arguments.count ≤ mostArguments ∧ arguments.Regular ∧ more.Regular

def Arguments.Regular : Arguments → Prop
  | .one value => value.Regular
  | .more value _ rest => value.Regular ∧ rest.Regular

def Primary.Regular : Primary → Prop
  | .literal _ => True
  | .name _ => True
  | .group _ inner _ => inner.Regular

end

/-! ## Declarations and statements -/

inductive Parameters
  | one (name : Terminal [.identifier])
  | more (name : Terminal [.identifier]) (comma : Terminal [.comma]) (rest : Parameters)

namespace Parameters

def names : Parameters → List Token
  | .one name => [name.token]
  | .more name _ rest => name.token :: rest.names

def yield : Parameters → List Token
  | .one name => [name.token]
  | .more name comma rest => name.token :: comma.token :: rest.yield

end Parameters

structure VarDecl where
  keyword : Terminal [.keyword .varWord]
  name : Terminal [.identifier]
  initial : Option (Terminal [.equal] × Expression)
  semicolon : Terminal [.semicolon]

namespace VarDecl

def yield (d : VarDecl) : List Token :=
  d.keyword.token :: d.name.token ::
    (d.initial.elim [] (fun i => i.1.token :: i.2.yield) ++ [d.semicolon.token])

def tree (d : VarDecl) : Stmt := .varDecl d.name.token (d.initial.map fun i => i.2.tree)

def Regular (d : VarDecl) : Prop := ∀ i ∈ d.initial, i.2.Regular

end VarDecl

structure ExprStmt where
  value : Expression
  semicolon : Terminal [.semicolon]

namespace ExprStmt

def yield (d : ExprStmt) : List Token := d.value.yield ++ [d.semicolon.token]

def tree (d : ExprStmt) : Stmt := .expression d.value.tree

def Regular (d : ExprStmt) : Prop := d.value.Regular

end ExprStmt

/-- What stands before the condition of a `for`. -/
inductive ForStart
  | absent (semicolon : Terminal [.semicolon])
  | varDecl (declaration : VarDecl)
  | exprStmt (statement : ExprStmt)

namespace ForStart

def yield : ForStart → List Token
  | absent semicolon => [semicolon.token]
  | varDecl declaration => declaration.yield
  | exprStmt statement => statement.yield

def tree : ForStart → Option Stmt
  | absent _ => none
  | varDecl declaration => some declaration.tree
  | exprStmt statement => some statement.tree

def Regular : ForStart → Prop
  | absent _ => True
  | varDecl declaration => declaration.Regular
  | exprStmt statement => statement.Regular

end ForStart

/-- A `for` up to its closing parenthesis. -/
structure ForHead where
  keyword : Terminal [.keyword .forWord]
  opening : Terminal [.leftParen]
  start : ForStart
  condition : Option Expression
  semicolon : Terminal [.semicolon]
  step : Option Expression
  closing : Terminal [.rightParen]

namespace ForHead

def yield (d : ForHead) : List Token :=
  d.keyword.token :: d.opening.token :: (d.start.yield ++ (d.condition.elim [] Expression.yield ++
    d.semicolon.token :: (d.step.elim [] Expression.yield ++ [d.closing.token])))

/-- A `for` has no tree of its own: it is a `while` over a block of its body and its step, in a
block behind its start. The blocks are there only if there is something to put in them. -/
def tree (d : ForHead) (body : Stmt) : Stmt :=
  let condition := d.condition.elim (.literal (.bool true)) Expression.tree
  let loop := Stmt.whileLoop condition
    (d.step.elim body fun step => .block [body, .expression step.tree])
  d.start.tree.elim loop fun start => .block [start, loop]

def Regular (d : ForHead) : Prop :=
  d.start.Regular ∧ (∀ e ∈ d.condition, e.Regular) ∧ ∀ e ∈ d.step, e.Regular

end ForHead

/-- A condition in parentheses, behind the keyword it belongs to. -/
structure Guard (word : Keyword) where
  keyword : Terminal [.keyword word]
  opening : Terminal [.leftParen]
  condition : Expression
  closing : Terminal [.rightParen]

def Guard.yield {word : Keyword} (d : Guard word) : List Token :=
  d.keyword.token :: d.opening.token :: (d.condition.yield ++ [d.closing.token])

/-- A class up to its opening brace. -/
structure ClassHead where
  keyword : Terminal [.keyword .classWord]
  name : Terminal [.identifier]
  superclass : Option (Terminal [.less] × Terminal [.identifier])
  opening : Terminal [.leftBrace]

def ClassHead.yield (d : ClassHead) : List Token :=
  d.keyword.token :: d.name.token ::
    (d.superclass.elim [] (fun c => [c.1.token, c.2.token]) ++ [d.opening.token])

/-- A function up to its body. -/
structure FunctionHead where
  name : Terminal [.identifier]
  opening : Terminal [.leftParen]
  parameters : Option Parameters
  closing : Terminal [.rightParen]

namespace FunctionHead

def names (d : FunctionHead) : List Token := d.parameters.elim [] Parameters.names

def yield (d : FunctionHead) : List Token :=
  d.name.token :: d.opening.token ::
    (d.parameters.elim [] Parameters.yield ++ [d.closing.token])

end FunctionHead

mutual

inductive Declaration
  | classDecl (head : ClassHead) (methods : Methods) (closing : Terminal [.rightBrace])
  | funDecl (keyword : Terminal [.keyword .funWord]) (function : Function)
  | varDecl (declaration : VarDecl)
  | statement (statement : Statement)

inductive Methods
  | done
  | next (method : Function) (more : Methods)

inductive Function
  | mk (head : FunctionHead) (body : Block)

inductive Block
  | mk (opening : Terminal [.leftBrace]) (body : Declarations) (closing : Terminal [.rightBrace])

inductive Declarations
  | done
  | next (first : Declaration) (more : Declarations)

inductive Statement
  | expression (statement : ExprStmt)
  | forLoop (head : ForHead) (body : Statement)
  | ifThen (guard : Guard .ifWord) (thenBranch : Statement)
  | ifElse (guard : Guard .ifWord) (thenBranch : Statement)
      (keyword : Terminal [.keyword .elseWord]) (elseBranch : Statement)
  | print (keyword : Terminal [.keyword .printWord]) (statement : ExprStmt)
  | returnValue (keyword : Terminal [.keyword .returnWord]) (value : Option Expression)
      (semicolon : Terminal [.semicolon])
  | whileLoop (guard : Guard .whileWord) (body : Statement)
  | block (block : Block)

end

mutual

def Declaration.yield : Declaration → List Token
  | .classDecl head methods closing => head.yield ++ (methods.yield ++ [closing.token])
  | .funDecl keyword function => keyword.token :: function.yield
  | .varDecl declaration => declaration.yield
  | .statement statement => statement.yield

def Methods.yield : Methods → List Token
  | .done => []
  | .next method more => method.yield ++ more.yield

def Function.yield : Function → List Token
  | .mk head body => head.yield ++ body.yield

def Block.yield : Block → List Token
  | .mk opening body closing => opening.token :: (body.yield ++ [closing.token])

def Declarations.yield : Declarations → List Token
  | .done => []
  | .next first more => first.yield ++ more.yield

def Statement.yield : Statement → List Token
  | .expression statement => statement.yield
  | .forLoop head body => head.yield ++ body.yield
  | .ifThen guard thenBranch => guard.yield ++ thenBranch.yield
  | .ifElse guard thenBranch keyword elseBranch =>
    guard.yield ++ (thenBranch.yield ++ keyword.token :: elseBranch.yield)
  | .print keyword statement => keyword.token :: statement.yield
  | .returnValue keyword value semicolon =>
    keyword.token :: (value.elim [] Expression.yield ++ [semicolon.token])
  | .whileLoop guard body => guard.yield ++ body.yield
  | .block block => block.yield

end

mutual

def Declaration.tree : Declaration → Stmt
  | .classDecl head methods _ =>
    .classDecl head.name.token (head.superclass.map fun c => .reference c.2.token) methods.trees
  | .funDecl _ function => .funDecl function.tree
  | .varDecl declaration => declaration.tree
  | .statement statement => statement.tree

def Methods.trees : Methods → List FunDecl
  | .done => []
  | .next method more => method.tree :: more.trees

def Function.tree : Function → FunDecl
  | .mk head body => ⟨head.name.token, head.names, body.trees⟩

def Block.trees : Block → List Stmt
  | .mk _ body _ => body.trees

def Declarations.trees : Declarations → List Stmt
  | .done => []
  | .next first more => first.tree :: more.trees

def Statement.tree : Statement → Stmt
  | .expression statement => statement.tree
  | .forLoop head body => head.tree body.tree
  | .ifThen guard thenBranch => .ifElse guard.condition.tree thenBranch.tree none
  | .ifElse guard thenBranch _ elseBranch =>
    .ifElse guard.condition.tree thenBranch.tree (some elseBranch.tree)
  | .print _ statement => .print statement.value.tree
  | .returnValue keyword value _ => .returnValue keyword.token (value.map Expression.tree)
  | .whileLoop guard body => .whileLoop guard.condition.tree body.tree
  | .block block => .block block.trees

end

/-- The statement ends with an `if` that has no `else`: an `else` right behind it belongs there. -/
def Statement.EndsOpen : Statement → Prop
  | .ifThen _ _ => True
  | .ifElse _ _ _ elseBranch => elseBranch.EndsOpen
  | .forLoop _ body => body.EndsOpen
  | .whileLoop _ body => body.EndsOpen
  | _ => False

mutual

/-- Each `else` belongs to the nearest open `if`, calls and functions keep to `mostArguments`, and a
`return` stands in a function or method. `depth` counts the bodies around. -/
def Declaration.Regular (depth : Nat) : Declaration → Prop
  | .classDecl _ methods _ => methods.Regular depth
  | .funDecl _ function => function.Regular depth
  | .varDecl declaration => declaration.Regular
  | .statement statement => statement.Regular depth

def Methods.Regular (depth : Nat) : Methods → Prop
  | .done => True
  | .next method more => method.Regular depth ∧ more.Regular depth

def Function.Regular (depth : Nat) : Function → Prop
  | .mk head body => head.names.length ≤ mostArguments ∧ body.Regular (depth + 1)

def Block.Regular (depth : Nat) : Block → Prop
  | .mk _ body _ => body.Regular depth

def Declarations.Regular (depth : Nat) : Declarations → Prop
  | .done => True
  | .next first more => first.Regular depth ∧ more.Regular depth

def Statement.Regular (depth : Nat) : Statement → Prop
  | .expression statement => statement.Regular
  | .forLoop head body => head.Regular ∧ body.Regular depth
  | .ifThen guard thenBranch => guard.condition.Regular ∧ thenBranch.Regular depth
  | .ifElse guard thenBranch _ elseBranch =>
    guard.condition.Regular ∧ thenBranch.Regular depth ∧ ¬ thenBranch.EndsOpen ∧
      elseBranch.Regular depth
  | .print _ statement => statement.Regular
  | .returnValue _ value _ => 0 < depth ∧ ∀ e ∈ value, e.Regular
  | .whileLoop guard body => guard.condition.Regular ∧ body.Regular depth
  | .block block => block.Regular depth

end

/-! ## The tables of the parser -/

theorem levels_eq : levels = Tier.ladder := rfl

theorem levelOperators_eq (tier : Tier) : levelOperators tier = tier.operators := by
  cases tier <;> rfl

theorem levelTree_eq (tier : Tier) : levelTree tier = tier.node := by
  cases tier <;> rfl

theorem signs_eq : signs = unaryOperators := rfl

theorem mostArguments_eq : mostArguments = maxArity := rfl

theorem ForHead.tree_eq (d : ForHead) (body : Stmt) :
    d.tree body = .forLoop d.start.tree (d.condition.map Expression.tree)
      (d.step.map Expression.tree) body := by
  obtain ⟨_, _, start, condition, _, step, _⟩ := d
  cases start <;> cases condition <;> cases step <;> rfl

end TreeWalk.Grammar.Derivation
