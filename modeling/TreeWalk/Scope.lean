import TreeWalk.Value

/-!
Scopes and the heap that holds them. A scope binds names to values and knows the scope around it,
which was made before it; scope 0 is the global one. A name is resolved by the nearest scope
outward that binds it, its owner.
-/

namespace TreeWalk

structure Scope where
  bindings : List (String × Value)
  enclosing : Option ScopeId

namespace Scope

def lookup (scope : Scope) (name : String) : Option Value := scope.bindings.lookup name

def binds (scope : Scope) (name : String) : Bool := (scope.lookup name).isSome

/-- The bindings with `name` bound to `value` in place of what it was bound to. -/
def put (name : String) (value : Value) : List (String × Value) → List (String × Value)
  | [] => [(name, value)]
  | (other, old) :: rest =>
    if other == name then (name, value) :: rest else (other, old) :: put name value rest

def define (name : String) (value : Value) (scope : Scope) : Scope :=
  { scope with bindings := put name value scope.bindings }

end Scope

/-- All scopes made so far, and how many function values were made. -/
structure Heap where
  scopes : Array Scope
  functions : Nat

namespace Heap

def globals : ScopeId := 0

/-- The global scope alone, with nothing bound. -/
def empty : Heap := ⟨#[⟨[], none⟩], 0⟩

/-- The nearest scope outward from `s` that binds `name`, looked for in at most `fuel` scopes. -/
def ownerFrom (heap : Heap) (name : String) : Nat → ScopeId → Option ScopeId
  | 0, _ => none
  | fuel + 1, s =>
    match heap.scopes[s]? with
    | none => none
    | some scope =>
      if scope.binds name then some s
      else match scope.enclosing with
        | none => none
        | some outer => ownerFrom heap name fuel outer

/-- The nearest scope outward from `s` that binds `name`. Each scope around another was made
before it, so a chain from `s` holds at most `s + 1` scopes. -/
def owner? (heap : Heap) (s : ScopeId) (name : String) : Option ScopeId :=
  heap.ownerFrom name (s + 1) s

def get? (heap : Heap) (s : ScopeId) (name : String) : Option Value := do
  let owner ← heap.owner? s name
  let scope ← heap.scopes[owner]?
  scope.lookup name

/-- Binds a name in the scope itself, whatever the scopes around it bind. -/
def define (heap : Heap) (s : ScopeId) (name : String) (value : Value) : Heap :=
  { heap with scopes := heap.scopes.modify s (Scope.define name value) }

/-- Gives the name's nearest binding a new value. There has to be one. -/
def assign? (heap : Heap) (s : ScopeId) (name : String) (value : Value) : Option Heap :=
  match heap.owner? s name with
  | some owner => some (heap.define owner name value)
  | none => none

/-- The number that the next scope gets. -/
def nextScope (heap : Heap) : ScopeId := heap.scopes.size

/-- Adds a scope inside `outer`. -/
def addScope (heap : Heap) (outer : ScopeId) (bindings : List (String × Value)) : Heap :=
  { heap with scopes := heap.scopes.push ⟨bindings, some outer⟩ }

/-- Defines a new function value under its own name in the scope it closes over. -/
def declare (heap : Heap) (s : ScopeId) (declaration : FunDecl) : Heap :=
  let function : Function := ⟨heap.functions, declaration, s⟩
  { heap with functions := heap.functions + 1 }.define s function.name (.function function)

end Heap

end TreeWalk
