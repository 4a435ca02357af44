import TreeWalk.Grammar.Expression

/-!
The grammar of declarations and statements. A declaration that fails is noted, and parsing goes
on behind it at the next place where a statement can begin. `depth` counts the function bodies
around a statement: outside of all, a `return` is noted.
-/

namespace TreeWalk.Grammar

open Parse

/-- The keywords that begin a statement or a declaration. -/
def isBoundary (t : Token) : Bool :=
  [Keyword.classWord, .funWord, .varWord, .forWord, .ifWord, .whileWord, .printWord,
    .returnWord].any fun word => t.is (.keyword word)

/-- Skips the token a fault was found at, then on to behind a semicolon or to a keyword that
begins a statement. -/
def synchronize : List Token → List Token
  | [] => []
  | [_] => []
  | t :: next :: rest =>
    if t.is .semicolon || isBoundary next then next :: rest else synchronize (next :: rest)

/-- The value of `p`, or none with its fault noted and the tokens skipped to a boundary. -/
def recover {α : Type} (p : Parse α) : Parse (Option α) := fun ts =>
  match p ts with
  | ⟨.done a, rest, noted⟩ => ⟨.done (some a), rest, noted⟩
  | ⟨.failed fault, rest, noted⟩ => ⟨.done none, synchronize rest, noted ++ [fault]⟩
  | ⟨.outOfFuel, rest, noted⟩ => ⟨.outOfFuel, rest, noted⟩

/-- An expression, unless the symbol comes next. -/
def expressionUnless (fuel : Nat) (symbol : Symbol) : Parse (Option Expr) := do
  if ← sees [symbol] then return none
  else
    let value ← expression fuel
    return some value

def expressionStatement (fuel : Nat) : Parse Stmt := do
  let value ← expression fuel
  let _ ← expect .semicolon .unendedExpression
  return .expression value

def printStatement (fuel : Nat) : Parse Stmt := do
  let value ← expression fuel
  let _ ← expect .semicolon .unendedPrint
  return .print value

/-- A variable declaration after its keyword. -/
def varDeclaration (fuel : Nat) : Parse Stmt := do
  let name ← expect .identifier .noVariableName
  let initial ← match ← accept [.equal] with
    | some _ => do
      let value ← expression fuel
      Parse.pure (some value)
    | none => Parse.pure none
  let _ ← expect .semicolon .unendedDeclaration
  return .varDecl name initial

def returnStatement (fuel : Nat) (depth : Nat) (keyword : Token) : Parse Stmt := do
  if depth = 0 then note ⟨some keyword, .topLevelReturn⟩
  let value ← expressionUnless fuel .semicolon
  let _ ← expect .semicolon .unendedReturn
  return .returnValue keyword value

/-- The condition of an `if` or a `while`, in parentheses. -/
def condition (fuel : Nat) (unopened : Problem) : Parse Expr := do
  let _ ← expect .leftParen unopened
  let value ← expression fuel
  let _ ← expect .rightParen .unclosedCondition
  return value

/-- The parts of a `for` loop in its parentheses. -/
structure ForClauses where
  start : Option Stmt
  condition : Option Expr
  step : Option Expr

def forStart (fuel : Nat) : Parse (Option Stmt) := do
  match ← accept [.semicolon] with
  | some _ => return none
  | none =>
    match ← accept [.keyword .varWord] with
    | some _ =>
      let start ← varDeclaration fuel
      return some start
    | none =>
      let start ← expressionStatement fuel
      return some start

def forClauses (fuel : Nat) : Parse ForClauses := do
  let _ ← expect .leftParen .unopenedFor
  let start ← forStart fuel
  let condition ← expressionUnless fuel .semicolon
  let _ ← expect .semicolon .unendedLoopCondition
  let step ← expressionUnless fuel .rightParen
  let _ ← expect .rightParen .unclosedFor
  return ⟨start, condition, step⟩

/-- Parameters after the first `count` of a routine, at least one. -/
def parameters : Nat → Nat → Parse (List Token)
  | 0, _ => outOfFuel
  | fuel + 1, count => do
    if maxArity ≤ count then noteHere .tooManyParameters
    let name ← expect .identifier .noParameterName
    match ← accept [.comma] with
    | some _ =>
      let names ← parameters fuel (count + 1)
      return name :: names
    | none => return [name]

/-- A class up to its opening brace, after its keyword. -/
def classHead : Parse (Token × Option Expr) := do
  let name ← expect .identifier .noClassName
  let superclass ← match ← accept [.less] with
    | some _ => do
      let parent ← expect .identifier .noSuperclassName
      Parse.pure (some (Expr.reference parent))
    | none => Parse.pure none
  let _ ← expect .leftBrace .unopenedClass
  return (name, superclass)

/-- A routine up to its opening brace. -/
def routineHead (fuel : Nat) (kind : Routine) : Parse (Token × List Token) := do
  let name ← expect .identifier (.noRoutineName kind)
  let _ ← expect .leftParen (.unopenedParameters kind)
  let params ← if ← sees [.rightParen] then Parse.pure [] else parameters fuel 0
  let _ ← expect .rightParen .unclosedParameters
  let _ ← expect .leftBrace (.unopenedBody kind)
  return (name, params)

/-- Whether a braced list ends here. -/
def atClosing : Parse Bool := do
  if ← sees [.rightBrace] then return true else atEnd

mutual

/-- One declaration, or none if it failed. -/
def declaration : Nat → Nat → Parse (Option Stmt)
  | 0, _ => outOfFuel
  | fuel + 1, depth => recover (declared fuel depth)
  termination_by structural fuel => fuel

def declared : Nat → Nat → Parse Stmt
  | 0, _ => outOfFuel
  | fuel + 1, depth => do
    match ← accept [.keyword .classWord] with
    | some _ =>
      let (name, superclass) ← classHead
      let methods ← methodList fuel depth
      let _ ← expect .rightBrace .unclosedClass
      return .classDecl name superclass methods
    | none =>
      match ← accept [.keyword .funWord] with
      | some _ =>
        let routine ← routine fuel depth .function
        return .funDecl routine
      | none =>
        match ← accept [.keyword .varWord] with
        | some _ => varDeclaration fuel
        | none => statement fuel depth
  termination_by structural fuel => fuel

/-- The methods of a class up to its closing brace. -/
def methodList : Nat → Nat → Parse (List FunDecl)
  | 0, _ => outOfFuel
  | fuel + 1, depth => do
    if ← atClosing then return []
    else
      let method ← routine fuel depth .method
      let methods ← methodList fuel depth
      return method :: methods
  termination_by structural fuel => fuel

def routine : Nat → Nat → Routine → Parse FunDecl
  | 0, _, _ => outOfFuel
  | fuel + 1, depth, kind => do
    let (name, params) ← routineHead fuel kind
    let body ← block fuel (depth + 1)
    return ⟨name, params, body⟩
  termination_by structural fuel => fuel

def statement : Nat → Nat → Parse Stmt
  | 0, _ => outOfFuel
  | fuel + 1, depth => do
    match ← accept [.keyword .forWord] with
    | some _ =>
      let clauses ← forClauses fuel
      let body ← statement fuel depth
      return .forLoop clauses.start clauses.condition clauses.step body
    | none =>
      match ← accept [.keyword .ifWord] with
      | some _ =>
        let test ← condition fuel .unopenedIf
        let thenBranch ← statement fuel depth
        match ← accept [.keyword .elseWord] with
        | some _ =>
          let elseBranch ← statement fuel depth
          return .ifElse test thenBranch (some elseBranch)
        | none => return .ifElse test thenBranch none
      | none =>
        match ← accept [.keyword .whileWord] with
        | some _ =>
          let test ← condition fuel .unopenedWhile
          let body ← statement fuel depth
          return .whileLoop test body
        | none =>
          match ← accept [.keyword .returnWord] with
          | some keyword => returnStatement fuel depth keyword
          | none =>
            match ← accept [.leftBrace] with
            | some _ =>
              let body ← block fuel depth
              return .block body
            | none =>
              match ← accept [.keyword .printWord] with
              | some _ => printStatement fuel
              | none => expressionStatement fuel
  termination_by structural fuel => fuel

/-- Declarations up to a closing brace, and the brace. -/
def block : Nat → Nat → Parse (List Stmt)
  | 0, _ => outOfFuel
  | fuel + 1, depth => do
    let body ← declarations fuel depth
    let _ ← expect .rightBrace .unclosedBlock
    return body
  termination_by structural fuel => fuel

/-- Declarations up to a closing brace; those that failed are left out. -/
def declarations : Nat → Nat → Parse (List Stmt)
  | 0, _ => outOfFuel
  | fuel + 1, depth => do
    if ← atClosing then return []
    else
      let first ← declaration fuel depth
      let more ← declarations fuel depth
      return first.toList ++ more
  termination_by structural fuel => fuel

end

end TreeWalk.Grammar
