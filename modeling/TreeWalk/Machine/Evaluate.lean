import TreeWalk.Machine.Operation

/-!
Evaluation of expressions and execution of statements. A run may go on for ever, so every rule
has fuel that its premises get less of; a run that ends before the fuel does is the program's own.
-/

namespace TreeWalk

open Run

mutual

def evaluate : Nat → Expr → Run Value
  | 0, _ => outOfFuel
  | _ + 1, .literal value => return .ofLiteral value
  | fuel + 1, .group inner => evaluate fuel inner
  | fuel + 1, .unary operator right => do
    let right ← evaluate fuel right
    ofOperation operator (Operation.unary operator right)
  | fuel + 1, .binary left operator right => do
    let left ← evaluate fuel left
    let right ← evaluate fuel right
    ofOperation operator (Operation.binary operator left right)
  | fuel + 1, .logical left operator right => do
    let left ← evaluate fuel left
    if Operation.decides operator left then return left else evaluate fuel right
  | _ + 1, .reference name => read name
  | fuel + 1, .assign name value => do
    let value ← evaluate fuel value
    assign name value
    return value
  | fuel + 1, .call callee paren arguments => do
    let callee ← evaluate fuel callee
    let values ← evaluateAll fuel arguments
    match callee with
    | .function function =>
      if values.length = function.arity then call fuel function values
      else failAt paren (.arity function.arity values.length)
    | _ => failAt paren .notCallable

/-- The values of expressions from left to right. -/
def evaluateAll : Nat → List Expr → Run (List Value)
  | 0, _ => outOfFuel
  | _ + 1, [] => return []
  | fuel + 1, e :: es => do
    let value ← evaluate fuel e
    let values ← evaluateAll fuel es
    return value :: values

/-- Runs a function's body in a new scope inside the one it was declared in. Parameters without an
argument stay unbound, and arguments without a parameter are dropped. -/
def call : Nat → Function → List Value → Run Value
  | 0, _, _ => outOfFuel
  | fuel + 1, function, values => do
    let names := function.declaration.params.map (·.lexeme)
    let bindings := (names.zip values).foldl (fun bs b => Scope.put b.1 b.2 bs) []
    match ← inside function.closure bindings (executeAll fuel function.declaration.body) with
    | .returned value => return value
    | .normal => return .nil

def execute : Nat → Stmt → Run Flow
  | 0, _ => outOfFuel
  | fuel + 1, .expression value => do
    let _ ← evaluate fuel value
    return .normal
  | fuel + 1, .print value => do
    let value ← evaluate fuel value
    printLine value.text
    return .normal
  | _ + 1, .varDecl name none => do
    define name .nil
    return .normal
  | fuel + 1, .varDecl name (some initial) => do
    let value ← evaluate fuel initial
    define name value
    return .normal
  | fuel + 1, .block body => nested (executeAll fuel body)
  | fuel + 1, .ifElse condition thenBranch elseBranch => do
    let test ← evaluate fuel condition
    if test.isTruthy then execute fuel thenBranch
    else match elseBranch with
      | some elseBranch => execute fuel elseBranch
      | none => return .normal
  | fuel + 1, .whileLoop condition body => do
    let test ← evaluate fuel condition
    if test.isTruthy then
      match ← execute fuel body with
      | .returned value => return .returned value
      | .normal => execute fuel (.whileLoop condition body)
    else return .normal
  | _ + 1, .funDecl declaration => do
    declare declaration
    return .normal
  | _ + 1, .returnValue _ none => return .returned .nil
  | fuel + 1, .returnValue _ (some value) => do
    let value ← evaluate fuel value
    return .returned value
  | _ + 1, .classDecl name _ _ => do
    define name .nil
    return .normal

/-- Executes statements in order, up to a `return`. -/
def executeAll : Nat → List Stmt → Run Flow
  | 0, _ => outOfFuel
  | _ + 1, [] => return .normal
  | fuel + 1, s :: ss => do
    match ← execute fuel s with
    | .returned value => return .returned value
    | .normal => executeAll fuel ss

end

/-- Executes a program, up to a `return` or a failure. Output is flushed unless it failed. -/
def interpret (fuel : Nat) (program : List Stmt) : Run Unit := do
  let _ ← executeAll fuel program
  flush

end TreeWalk
