import TreeWalk.Scope
import TreeWalk.Sink
import TreeWalk.Report

/-!
The state a program runs in, the ways a run is interrupted, and the steps on the state from which
evaluation is built.
-/

namespace TreeWalk

inductive RuntimeFault
  | undefined (name : String)
  | operandNotNumber
  | unknownUnary
  | operandsNotAddable
  | operandsNotNumbers
  | divisionByZero
  | unknownBinary
  | notCallable
  | arity (expected got : Nat)
  deriving DecidableEq, Repr

def RuntimeFault.message : RuntimeFault → String
  | undefined name => s!"Undefined variable '{name}'."
  | operandNotNumber => "Operand must be a number."
  | unknownUnary => "Unknown unary operator."
  | operandsNotAddable => "Operands must be two numbers or two strings."
  | operandsNotNumbers => "Operands must be numbers."
  | divisionByZero => "Division by zero."
  | unknownBinary => "Unknown binary operator."
  | notCallable => "Can only call functions and classes."
  | arity expected got => s!"Expected {expected} arguments but got {got}."

/-- What ends a run before its time. -/
inductive Failure
  | runtime (fault : RuntimeFault) (line : Nat)
  | sink (fault : SinkFault)
  deriving DecidableEq, Repr

def Failure.report : Failure → Report
  | runtime fault line => .runtime fault.message line
  | sink fault => .output fault.message

inductive Interrupt
  | failure (failure : Failure)
  | outOfFuel
  deriving DecidableEq, Repr

structure State where
  heap : Heap
  active : ScopeId
  sink : Sink

/-- A run that starts with nothing bound. -/
def State.initial (sink : Sink) : State := ⟨Heap.empty, Heap.globals, sink⟩

/-- How a statement ended: it ran through, or a `return` is on its way to the call around it. -/
inductive Flow
  | normal
  | returned (value : Value)

abbrev Run := EStateM Interrupt State

namespace Run

def outOfFuel {α : Type} : Run α := fun s => .error .outOfFuel s

def fail {α : Type} (failure : Failure) : Run α := fun s => .error (.failure failure) s

/-- Stops with a fault at the line of a token. -/
def failAt {α : Type} (token : Token) (fault : RuntimeFault) : Run α :=
  fail (.runtime fault token.line)

/-- The result of an operation, its fault placed at the operator's line. -/
def ofOperation {α : Type} (operator : Token) : Except RuntimeFault α → Run α
  | .ok a => pure a
  | .error fault => failAt operator fault

def read (name : Token) : Run Value := fun s =>
  match s.heap.get? s.active name.lexeme with
  | some value => .ok value s
  | none => failAt name (.undefined name.lexeme) s

def define (name : Token) (value : Value) : Run Unit := fun ⟨heap, active, sink⟩ =>
  .ok () ⟨heap.define active name.lexeme value, active, sink⟩

def assign (name : Token) (value : Value) : Run Unit := fun ⟨heap, active, sink⟩ =>
  match heap.owner? active name.lexeme with
  | some owner => .ok () ⟨heap.define owner name.lexeme value, active, sink⟩
  | none => failAt name (.undefined name.lexeme) ⟨heap, active, sink⟩

def declare (declaration : FunDecl) : Run Unit := fun ⟨heap, active, sink⟩ =>
  .ok () ⟨heap.declare active declaration, active, sink⟩

/-- Writes a line of output, as far as it fits. -/
def printLine (text : String) : Run Unit := fun ⟨heap, active, sink⟩ =>
  let bytes := (text ++ "\n").toUTF8
  let fits := sink.fits bytes
  let sink := sink.write bytes
  if fits then .ok () ⟨heap, active, sink⟩ else fail (.sink .full) ⟨heap, active, sink⟩

def flush : Run Unit := fun s =>
  if s.sink.flushFails then fail (.sink .flush) s else .ok () s

/-- Runs `body` with `scope` as the active one. However it ends, the scope that was active before
is active again. -/
def within {α : Type} (scope : ScopeId) (body : Run α) : Run α := fun ⟨heap, previous, sink⟩ =>
  match body ⟨heap, scope, sink⟩ with
  | .ok a t => .ok a { t with active := previous }
  | .error e t => .error e { t with active := previous }

/-- Runs `body` with a new scope inside `outer` as the active one. -/
def inside {α : Type} (outer : ScopeId) (bindings : List (String × Value)) (body : Run α) :
    Run α := fun ⟨heap, active, sink⟩ =>
  let fresh := heap.nextScope
  within fresh body ⟨heap.addScope outer bindings, active, sink⟩

/-- Runs `body` in a new scope inside the active one. -/
def nested {α : Type} (body : Run α) : Run α := fun s => inside s.active [] body s

end Run

end TreeWalk
