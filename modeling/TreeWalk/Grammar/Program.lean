import TreeWalk.Grammar.Statement

/-!
Whole programs and single expressions. A list of tokens is read up to its first end of input; a
list without one ends with an end of input on line 0.
-/

namespace TreeWalk.Grammar

/-- The tokens before the first end of input. -/
def beforeEnd (ts : List Token) : List Token := ts.takeWhile fun t => !t.is .endOfInput

/-- The token that ends the text. -/
def stopToken (ts : List Token) : Token :=
  (ts.find? (Token.is .endOfInput)).getD (.endOfInput 0)

/-- A tree as far as one was made, and the faults found, in the order they were noted. -/
structure Parsed (α : Type) where
  tree : α
  faults : List Fault

/-- Declarations to the end of the tokens. Each takes at least one token, so the number of tokens
is turns enough. -/
def programFrom : Nat → List Token → Parsed (List Stmt)
  | turns + 1, t :: ts =>
    match declaration (fuelFor (t :: ts)) 0 (t :: ts) with
    | ⟨.done first, rest, noted⟩ =>
      let more := programFrom turns rest
      ⟨first.toList ++ more.tree, noted ++ more.faults⟩
    | ⟨_, _, noted⟩ => ⟨[], noted⟩
  | _, _ => ⟨[], []⟩

/-- The statements of a program, those that failed left out. -/
def program (ts : List Token) : Parsed (List Stmt) :=
  programFrom (beforeEnd ts).length (beforeEnd ts)

/-- A single expression, if the tokens are one. -/
def soleExpression (ts : List Token) : Parsed (Option Expr) :=
  match expression (fuelFor (beforeEnd ts)) (beforeEnd ts) with
  | ⟨.done value, [], noted⟩ => ⟨some value, noted⟩
  | ⟨.done _, t :: _, noted⟩ => ⟨none, noted ++ [⟨some t, .surplusAfterExpression⟩]⟩
  | ⟨.failed fault, _, noted⟩ => ⟨none, noted ++ [fault]⟩
  | ⟨.outOfFuel, _, noted⟩ => ⟨none, noted⟩

/-- The reports of the faults found in a list of tokens. -/
def Parsed.reports {α : Type} (ts : List Token) (parsed : Parsed α) : Diagnostics :=
  parsed.faults.map (Fault.report (stopToken ts))

end TreeWalk.Grammar
