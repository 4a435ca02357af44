import TreeWalk.Grammar.Parse

/-!
The grammar of expressions. Binary operators stand in tiers, from the loosest to the tightest;
the operators of a tier associate to the left, assignment and unary operators to the right.
-/

namespace TreeWalk.Grammar

open Parse

inductive Tier
  | disjunction
  | conjunction
  | equality
  | comparison
  | sum
  | product
  deriving DecidableEq, Repr

namespace Tier

def operators : Tier → List Symbol
  | disjunction => [.keyword .orWord]
  | conjunction => [.keyword .andWord]
  | equality => [.bangEqual, .equalEqual]
  | comparison => [.greater, .greaterEqual, .less, .lessEqual]
  | sum => [.minus, .plus]
  | product => [.star, .slash]

def node : Tier → Expr → Token → Expr → Expr
  | disjunction => .logical
  | conjunction => .logical
  | _ => .binary

/-- All tiers, the loosest first. -/
def ladder : List Tier := [disjunction, conjunction, equality, comparison, sum, product]

end Tier

def unaryOperators : List Symbol := [.bang, .minus]

/-- The most parameters a function has and the most arguments a call has. -/
def maxArity : Nat := 255

/-- The literal that a single token writes. -/
def literal? (t : Token) : Option Literal :=
  match t.kind with
  | .symbol (.keyword .falseWord) => some (.bool false)
  | .symbol (.keyword .trueWord) => some (.bool true)
  | .symbol (.keyword .nilWord) => some .nil
  | .number value => some (.number value)
  | .string contents => some (.string contents)
  | .symbol _ => none

/-- What `left = value` assigns to. A target that is no name is noted, and stands for the whole. -/
def assignTo (left : Expr) (equals : Token) (value : Expr) : Parse Expr :=
  match left with
  | .reference name => return .assign name value
  | other => do
    note ⟨some equals, .invalidTarget⟩
    return other

mutual

/-- An assignment, or an expression of the loosest tier. -/
def expression : Nat → Parse Expr
  | 0 => outOfFuel
  | fuel + 1 => do
    let left ← tiered fuel Tier.ladder
    match ← accept [.equal] with
    | some equals =>
      let value ← expression fuel
      assignTo left equals value
    | none => return left

/-- An expression of the first of the tiers, made of operands of the tiers after it. -/
def tiered : Nat → List Tier → Parse Expr
  | 0, _ => outOfFuel
  | fuel + 1, [] => unary fuel
  | fuel + 1, tier :: tighter => do
    let left ← tiered fuel tighter
    chain fuel tier tighter left

/-- The operators of a tier after its first operand, each with its right operand. -/
def chain : Nat → Tier → List Tier → Expr → Parse Expr
  | 0, _, _, _ => outOfFuel
  | fuel + 1, tier, tighter, left => do
    match ← accept tier.operators with
    | some operator =>
      let right ← tiered fuel tighter
      chain fuel tier tighter (tier.node left operator right)
    | none => return left

def unary : Nat → Parse Expr
  | 0 => outOfFuel
  | fuel + 1 => do
    match ← accept unaryOperators with
    | some operator =>
      let right ← unary fuel
      return .unary operator right
    | none =>
      let callee ← primary fuel
      calls fuel callee

/-- The argument lists after a callee. -/
def calls : Nat → Expr → Parse Expr
  | 0, _ => outOfFuel
  | fuel + 1, callee => do
    match ← accept [.leftParen] with
    | some _ =>
      let values ← if ← sees [.rightParen] then Parse.pure [] else arguments fuel 0
      let paren ← expect .rightParen .unclosedArguments
      calls fuel (.call callee paren values)
    | none => return callee

/-- Arguments after the first `count` of a call, at least one. -/
def arguments : Nat → Nat → Parse (List Expr)
  | 0, _ => outOfFuel
  | fuel + 1, count => do
    if maxArity ≤ count then noteHere .tooManyArguments
    let value ← expression fuel
    match ← accept [.comma] with
    | some _ =>
      let values ← arguments fuel (count + 1)
      return value :: values
    | none => return [value]

def primary : Nat → Parse Expr
  | 0 => outOfFuel
  | fuel + 1 => do
    match ← peek with
    | none => fail .noExpression
    | some t =>
      match literal? t with
      | some value =>
        skip
        return .literal value
      | none =>
        if t.is .identifier then
          skip
          return .reference t
        else if t.is .leftParen then
          skip
          let inner ← expression fuel
          let _ ← expect .rightParen .unclosedGroup
          return .group inner
        else fail .noExpression

end

/-- Fuel enough to parse any text of these tokens: no rule calls as many as thirty-two others
without taking a token. -/
def fuelFor (ts : List Token) : Nat := 32 * (ts.length + 1)

end TreeWalk.Grammar
