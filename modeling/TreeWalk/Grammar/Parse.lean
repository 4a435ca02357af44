import TreeWalk.Tree
import TreeWalk.Report

/-!
Parsing steps over a list of tokens that holds no end of input: its end is the end of the list.
A step replies with a value or with the fault that stopped it, leaves the tokens it did not take,
and notes on the way the faults that do not stop it.
-/

namespace TreeWalk.Grammar

/-- What a body is the body of, as reports call it. -/
inductive Routine
  | function
  | method
  deriving DecidableEq, Repr

def Routine.text : Routine → String
  | function => "function"
  | method => "method"

inductive Problem
  | noClassName
  | noSuperclassName
  | unopenedClass
  | unclosedClass
  | noRoutineName (routine : Routine)
  | unopenedParameters (routine : Routine)
  | tooManyParameters
  | noParameterName
  | unclosedParameters
  | unopenedBody (routine : Routine)
  | noVariableName
  | unendedDeclaration
  | unopenedFor
  | unendedLoopCondition
  | unclosedFor
  | unendedPrint
  | unendedExpression
  | unopenedIf
  | unopenedWhile
  | unclosedCondition
  | topLevelReturn
  | unendedReturn
  | unclosedBlock
  | invalidTarget
  | tooManyArguments
  | unclosedArguments
  | unclosedGroup
  | noExpression
  | surplusAfterExpression
  deriving DecidableEq, Repr

def Problem.message : Problem → String
  | noClassName => "Expected class name"
  | noSuperclassName => "Expected superclass name"
  | unopenedClass => "Expected '\x7b' before class body"
  | unclosedClass => "Expected '\x7d' after class body"
  | noRoutineName routine => "Expected " ++ routine.text ++ " name"
  | unopenedParameters routine => "Expected '(' after " ++ routine.text ++ " name"
  | tooManyParameters => "Can't have more than 255 parameters"
  | noParameterName => "Expected parameter name"
  | unclosedParameters => "Expected ')' after parameters"
  | unopenedBody routine => "Expected '\x7b' before " ++ routine.text ++ " body"
  | noVariableName => "Expected variable name"
  | unendedDeclaration => "Expected ';' after variable declaration"
  | unopenedFor => "Expected '(' after 'for'"
  | unendedLoopCondition => "Expected ';' after loop condition"
  | unclosedFor => "Expected ')' after for clauses"
  | unendedPrint => "Expected ';' after value"
  | unendedExpression => "Expected ';' after expression"
  | unopenedIf => "Expected '(' after 'if'"
  | unopenedWhile => "Expected '(' after 'while'"
  | unclosedCondition => "Expected ')' after condition"
  | topLevelReturn => "Can't return from top-level code"
  | unendedReturn => "Expected ';' after return value"
  | unclosedBlock => "Expected '\x7d' after block"
  | invalidTarget => "Invalid assignment target"
  | tooManyArguments => "Can't have more than 255 arguments"
  | unclosedArguments => "Expected ')' after arguments"
  | unclosedGroup => "Expected ')' after expression"
  | noExpression => "Expected expression"
  | surplusAfterExpression => "Expected end of expression"

/-- A problem and the token it was found at, none at the end of the tokens. -/
structure Fault where
  place : Option Token
  problem : Problem

/-- The report of a fault in a text that ends with the token `stop`. -/
def Fault.report (stop : Token) (f : Fault) : Report :=
  .syntacticAt (f.place.getD stop) f.problem.message

inductive Reply (α : Type)
  | done (value : α)
  | failed (fault : Fault)
  | outOfFuel

structure Step (α : Type) where
  reply : Reply α
  rest : List Token
  noted : List Fault

def Parse (α : Type) : Type := List Token → Step α

namespace Parse

@[always_inline, inline]
def pure {α : Type} (a : α) : Parse α := fun ts => ⟨.done a, ts, []⟩

@[always_inline, inline]
def bind {α β : Type} (p : Parse α) (f : α → Parse β) : Parse β := fun ts =>
  match p ts with
  | ⟨.done a, rest, noted⟩ =>
    match f a rest with
    | ⟨reply, rest, more⟩ => ⟨reply, rest, noted ++ more⟩
  | ⟨.failed fault, rest, noted⟩ => ⟨.failed fault, rest, noted⟩
  | ⟨.outOfFuel, rest, noted⟩ => ⟨.outOfFuel, rest, noted⟩

@[always_inline]
instance : Monad Parse where
  pure := pure
  bind := bind

def outOfFuel {α : Type} : Parse α := fun ts => ⟨.outOfFuel, ts, []⟩

/-- Stops at the next token. -/
def fail {α : Type} (problem : Problem) : Parse α := fun ts =>
  ⟨.failed ⟨ts.head?, problem⟩, ts, []⟩

def note (fault : Fault) : Parse Unit := fun ts => ⟨.done (), ts, [fault]⟩

/-- Notes a problem at the next token. -/
def noteHere (problem : Problem) : Parse Unit := fun ts =>
  ⟨.done (), ts, [⟨ts.head?, problem⟩]⟩

/-- Whether the next token is one of the symbols. -/
def sees (symbols : List Symbol) : Parse Bool := fun ts =>
  match ts with
  | t :: _ => ⟨.done (symbols.any fun s => t.is s), ts, []⟩
  | [] => ⟨.done false, ts, []⟩

def atEnd : Parse Bool := fun ts => ⟨.done ts.isEmpty, ts, []⟩

def peek : Parse (Option Token) := fun ts => ⟨.done ts.head?, ts, []⟩

def skip : Parse Unit := fun ts => ⟨.done (), ts.tail, []⟩

/-- Takes the next token if it is one of the symbols. -/
def accept (symbols : List Symbol) : Parse (Option Token) := fun ts =>
  match ts with
  | t :: rest => if symbols.any fun s => t.is s then ⟨.done (some t), rest, []⟩
    else ⟨.done none, ts, []⟩
  | [] => ⟨.done none, ts, []⟩

/-- Takes the next token, which has to be the symbol. -/
def expect (symbol : Symbol) (problem : Problem) : Parse Token := fun ts =>
  match ts with
  | t :: rest => if t.is symbol then ⟨.done t, rest, []⟩ else fail problem ts
  | [] => fail problem ts

end Parse

end TreeWalk.Grammar
