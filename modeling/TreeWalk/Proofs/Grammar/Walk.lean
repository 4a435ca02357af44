import TreeWalk.Session

/-!
Parsing from where one stands in a list of tokens. A walker keeps the number of tokens it has
passed, the number of bodies it stands in and the reports it has made, and looks one token ahead
and one behind. The list may end anywhere: past its end stands an end of input on line 0. What it
reads is what the grammar reads of the tokens it has not passed.
-/

namespace TreeWalk.Grammar

/-- Where a walker stands in its tokens, in how many bodies, and what it has reported. -/
structure Stand where
  passed : Nat
  depth : Nat
  reports : List Report

namespace Stand

variable (w : Stand) (ts : List Token)

def fresh : Stand := ⟨0, 0, []⟩

def tokenAt (i : Nat) : Token := ts.getD i (.endOfInput 0)

def next : Token := tokenAt ts w.passed

/-- The token behind, the first one if there is none. -/
def previous : Token := tokenAt ts (w.passed - 1)

def atEnd : Bool := (w.next ts).is .endOfInput

def sees (symbols : List Symbol) : Bool := !w.atEnd ts && symbols.any fun s => (w.next ts).is s

def advanced : Stand := if w.atEnd ts then w else { w with passed := w.passed + 1 }

def reporting (report : Report) : Stand := { w with reports := w.reports ++ [report] }

def entered : Stand := { w with depth := w.depth + 1 }

def exited : Stand := { w with depth := w.depth - 1 }

/-- On to behind a semicolon or to a keyword that begins a statement. -/
def seeking : Nat → Stand → Stand
  | 0, w => w
  | turns + 1, w =>
    if w.atEnd ts || (w.previous ts).is .semicolon || isBoundary (w.next ts) then w
    else seeking turns (w.advanced ts)

/-- Past the token a report is at, which may be such a keyword itself, and on from there. -/
def synchronized : Stand := seeking ts ts.length (w.advanced ts)

end Stand

/-- What a walk comes to: a value or the report that stopped it, or neither if it lacks fuel. -/
abbrev Came (α : Type) : Type := Option (Except Report α)

def Walk (α : Type) : Type := List Token → Stand → Came α × Stand

namespace Walk

variable {α β : Type}

def pure (a : α) : Walk α := fun _ w => (some (.ok a), w)

def bind (q : Walk α) (f : α → Walk β) : Walk β := fun ts w =>
  match q ts w with
  | (some (.ok a), w) => f a ts w
  | (some (.error report), w) => (some (.error report), w)
  | (none, w) => (none, w)

instance : Monad Walk where
  pure := pure
  bind := bind

def outOfFuel : Walk α := fun _ w => (none, w)

def look (f : Stand → List Token → α) : Walk α := fun ts w => (some (.ok (f w ts)), w)

def move (f : Stand → List Token → Stand) : Walk Unit := fun ts w => (some (.ok ()), f w ts)

def next : Walk Token := look Stand.next

def previous : Walk Token := look Stand.previous

def atEnd : Walk Bool := look Stand.atEnd

def sees (symbols : List Symbol) : Walk Bool := look fun w ts => w.sees ts symbols

def depth : Walk Nat := look fun w _ => w.depth

def advance : Walk Unit := move Stand.advanced

/-- Passes the next token if it is one of the symbols, and tells whether. -/
def passes (symbols : List Symbol) : Walk Bool := do
  if ← sees symbols then
    advance
    return true
  else return false

def fail (problem : Problem) : Walk α := fun ts w =>
  (some (.error (.syntacticAt (w.next ts) problem.message)), w)

def note (token : Token) (problem : Problem) : Walk Unit :=
  move fun w _ => w.reporting (.syntacticAt token problem.message)

def noteHere (problem : Problem) : Walk Unit := do
  let token ← next
  note token problem

/-- Passes the next token, which has to be the symbol. -/
def expect (symbol : Symbol) (problem : Problem) : Walk Token := do
  if ← sees [symbol] then
    advance
    previous
  else fail problem

/-- In one body more, which is left again also if the walk is stopped. -/
def inBody (q : Walk α) : Walk α := fun ts w =>
  match q ts w.entered with
  | (came, w) => (came, w.exited)

/-- The value of the walk, or none: what stopped it is reported, and the walker goes on to where a
statement can begin. -/
def recovering (q : Walk α) : Walk (Option α) := fun ts w =>
  match q ts w with
  | (some (.ok a), w) => (some (.ok (some a)), w)
  | (some (.error report), w) => (some (.ok none), (w.reporting report).synchronized ts)
  | (none, w) => (none, w)

/-! ## Expressions -/

def assignTo (left : Expr) (equals : Token) (value : Expr) : Walk Expr :=
  match left with
  | .reference name => return .assign name value
  | other => do
    note equals .invalidTarget
    return other

/-- A primary expression that is no literal. -/
def nameOrGroup (expression : Walk Expr) : Walk Expr := do
  if ← passes [.identifier] then
    let name ← previous
    return .reference name
  else if ← passes [.leftParen] then
    let inner ← expression
    let _ ← expect .rightParen .unclosedGroup
    return .group inner
  else fail .noExpression

mutual

def expression : Nat → Walk Expr
  | 0 => outOfFuel
  | fuel + 1 => do
    let left ← tiered fuel Tier.ladder
    if ← passes [.equal] then
      let equals ← previous
      let value ← expression fuel
      assignTo left equals value
    else return left

def tiered : Nat → List Tier → Walk Expr
  | 0, _ => outOfFuel
  | fuel + 1, [] => unary fuel
  | fuel + 1, tier :: tighter => do
    let left ← tiered fuel tighter
    chain fuel tier tighter left

def chain : Nat → Tier → List Tier → Expr → Walk Expr
  | 0, _, _, _ => outOfFuel
  | fuel + 1, tier, tighter, left => do
    if ← passes tier.operators then
      let operator ← previous
      let right ← tiered fuel tighter
      chain fuel tier tighter (tier.node left operator right)
    else return left

def unary : Nat → Walk Expr
  | 0 => outOfFuel
  | fuel + 1 => do
    if ← passes unaryOperators then
      let operator ← previous
      let right ← unary fuel
      return .unary operator right
    else
      let callee ← primary fuel
      calls fuel callee

def calls : Nat → Expr → Walk Expr
  | 0, _ => outOfFuel
  | fuel + 1, callee => do
    if ← passes [.leftParen] then
      let values ← if ← sees [.rightParen] then pure [] else arguments fuel 0
      let paren ← expect .rightParen .unclosedArguments
      calls fuel (.call callee paren values)
    else return callee

def arguments : Nat → Nat → Walk (List Expr)
  | 0, _ => outOfFuel
  | fuel + 1, count => do
    if maxArity ≤ count then noteHere .tooManyArguments
    let value ← expression fuel
    if ← passes [.comma] then
      let values ← arguments fuel (count + 1)
      return value :: values
    else return [value]

def primary : Nat → Walk Expr
  | 0 => outOfFuel
  | fuel + 1 => do
    let token ← next
    match literal? token with
    | some value =>
      advance
      return .literal value
    | none => nameOrGroup (expression fuel)

end

/-! ## Declarations and statements -/

def expressionUnless (fuel : Nat) (symbol : Symbol) : Walk (Option Expr) := do
  if ← sees [symbol] then return none
  else
    let value ← expression fuel
    return some value

def expressionStatement (fuel : Nat) : Walk Stmt := do
  let value ← expression fuel
  let _ ← expect .semicolon .unendedExpression
  return .expression value

def printStatement (fuel : Nat) : Walk Stmt := do
  let value ← expression fuel
  let _ ← expect .semicolon .unendedPrint
  return .print value

def varDeclaration (fuel : Nat) : Walk Stmt := do
  let name ← expect .identifier .noVariableName
  let initial ← if ← passes [.equal] then do
      let value ← expression fuel
      pure (some value)
    else pure none
  let _ ← expect .semicolon .unendedDeclaration
  return .varDecl name initial

def noteOutside (keyword : Token) : Walk Unit := do
  if (← depth) = 0 then note keyword .topLevelReturn

/-- A `return` outside of all bodies is reported and parsed all the same. -/
def returnStatement (fuel : Nat) : Walk Stmt := do
  let keyword ← previous
  noteOutside keyword
  let value ← expressionUnless fuel .semicolon
  let _ ← expect .semicolon .unendedReturn
  return .returnValue keyword value

def condition (fuel : Nat) (unopened : Problem) : Walk Expr := do
  let _ ← expect .leftParen unopened
  let value ← expression fuel
  let _ ← expect .rightParen .unclosedCondition
  return value

def forStart (fuel : Nat) : Walk (Option Stmt) := do
  if ← passes [.semicolon] then return none
  else if ← passes [.keyword .varWord] then
    let start ← varDeclaration fuel
    return some start
  else
    let start ← expressionStatement fuel
    return some start

def forClauses (fuel : Nat) : Walk ForClauses := do
  let _ ← expect .leftParen .unopenedFor
  let start ← forStart fuel
  let condition ← expressionUnless fuel .semicolon
  let _ ← expect .semicolon .unendedLoopCondition
  let step ← expressionUnless fuel .rightParen
  let _ ← expect .rightParen .unclosedFor
  return ⟨start, condition, step⟩

def parameters : Nat → Nat → Walk (List Token)
  | 0, _ => outOfFuel
  | fuel + 1, count => do
    if maxArity ≤ count then noteHere .tooManyParameters
    let name ← expect .identifier .noParameterName
    if ← passes [.comma] then
      let names ← parameters fuel (count + 1)
      return name :: names
    else return [name]

def classHead : Walk (Token × Option Expr) := do
  let name ← expect .identifier .noClassName
  let superclass ← if ← passes [.less] then do
      let parent ← expect .identifier .noSuperclassName
      pure (some (Expr.reference parent))
    else pure none
  let _ ← expect .leftBrace .unopenedClass
  return (name, superclass)

def routineHead (fuel : Nat) (kind : Routine) : Walk (Token × List Token) := do
  let name ← expect .identifier (.noRoutineName kind)
  let _ ← expect .leftParen (.unopenedParameters kind)
  let params ← if ← sees [.rightParen] then pure [] else parameters fuel 0
  let _ ← expect .rightParen .unclosedParameters
  let _ ← expect .leftBrace (.unopenedBody kind)
  return (name, params)

def atClosing : Walk Bool := do
  if ← sees [.rightBrace] then return true else atEnd

mutual

def declaration : Nat → Walk (Option Stmt)
  | 0 => outOfFuel
  | fuel + 1 => recovering (declared fuel)
  termination_by structural fuel => fuel

def declared : Nat → Walk Stmt
  | 0 => outOfFuel
  | fuel + 1 => do
    if ← passes [.keyword .classWord] then
      let (name, superclass) ← classHead
      let methods ← methodList fuel
      let _ ← expect .rightBrace .unclosedClass
      return .classDecl name superclass methods
    else if ← passes [.keyword .funWord] then
      let routine ← routine fuel .function
      return .funDecl routine
    else if ← passes [.keyword .varWord] then varDeclaration fuel
    else statement fuel
  termination_by structural fuel => fuel

def methodList : Nat → Walk (List FunDecl)
  | 0 => outOfFuel
  | fuel + 1 => do
    if ← atClosing then return []
    else
      let method ← routine fuel .method
      let methods ← methodList fuel
      return method :: methods
  termination_by structural fuel => fuel

def routine : Nat → Routine → Walk FunDecl
  | 0, _ => outOfFuel
  | fuel + 1, kind => do
    let (name, params) ← routineHead fuel kind
    let body ← inBody (block fuel)
    return ⟨name, params, body⟩
  termination_by structural fuel => fuel

def statement : Nat → Walk Stmt
  | 0 => outOfFuel
  | fuel + 1 => do
    if ← passes [.keyword .forWord] then
      let clauses ← forClauses fuel
      let body ← statement fuel
      return .forLoop clauses.start clauses.condition clauses.step body
    else if ← passes [.keyword .ifWord] then
      let test ← condition fuel .unopenedIf
      let thenBranch ← statement fuel
      if ← passes [.keyword .elseWord] then
        let elseBranch ← statement fuel
        return .ifElse test thenBranch (some elseBranch)
      else return .ifElse test thenBranch none
    else if ← passes [.keyword .whileWord] then
      let test ← condition fuel .unopenedWhile
      let body ← statement fuel
      return .whileLoop test body
    else if ← passes [.keyword .returnWord] then returnStatement fuel
    else if ← passes [.leftBrace] then
      let body ← block fuel
      return .block body
    else if ← passes [.keyword .printWord] then printStatement fuel
    else expressionStatement fuel
  termination_by structural fuel => fuel

def block : Nat → Walk (List Stmt)
  | 0 => outOfFuel
  | fuel + 1 => do
    let body ← declarations fuel
    let _ ← expect .rightBrace .unclosedBlock
    return body
  termination_by structural fuel => fuel

def declarations : Nat → Walk (List Stmt)
  | 0 => outOfFuel
  | fuel + 1 => do
    if ← atClosing then return []
    else
      let first ← declaration fuel
      let more ← declarations fuel
      return first.toList ++ more
  termination_by structural fuel => fuel

end

/-- Declarations to the end of the tokens, each with the same fuel. -/
def toEnd (fuel : Nat) : Nat → Walk (List Stmt)
  | 0 => outOfFuel
  | turns + 1 => do
    if ← atEnd then return []
    else
      let first ← declaration fuel
      let more ← toEnd fuel turns
      return first.toList ++ more

/-- The statements from where the walker stands to the end. Each declaration passes a token, so the
tokens are turns enough. -/
def program : Walk (List Stmt) := fun ts => toEnd (fuelFor ts) (ts.length + 1) ts

end Walk

end TreeWalk.Grammar
