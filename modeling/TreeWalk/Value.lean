import TreeWalk.Tree

/-!
Runtime values. A function value is a declaration with the scope it was declared in, and an
identity that no other function value has.
-/

namespace TreeWalk

/-- The number of a scope in a heap of scopes. -/
abbrev ScopeId := Nat

structure Function where
  id : Nat
  declaration : FunDecl
  closure : ScopeId

namespace Function

def name (f : Function) : String := f.declaration.name.lexeme

def arity (f : Function) : Nat := f.declaration.arity

def text (f : Function) : String := s!"<fn {f.name}>"

/-- The name with the number of parameters. -/
def signature (f : Function) : String := s!"Function({f.name}/{f.arity})"

end Function

inductive Value
  | nil
  | bool (value : Bool)
  | number (value : Float)
  | string (contents : String)
  | function (function : Function)

namespace Value

/-- Only `nil` and `false` are not. -/
def isTruthy : Value → Bool
  | nil => false
  | bool b => b
  | _ => true

/-- Values of different types differ, and functions are compared by identity. -/
def equal : Value → Value → Bool
  | nil, nil => true
  | bool a, bool b => a == b
  | number a, number b => a == b
  | string a, string b => a == b
  | function f, function g => f.id == g.id
  | _, _ => false

/-- What `print` writes. -/
def text : Value → String
  | nil => "nil"
  | bool b => if b then "true" else "false"
  | number x => String.ofList (Number.printed x)
  | string s => s
  | function f => f.text

def ofLiteral : Literal → Value
  | .number x => number x
  | .string s => string s
  | .bool b => bool b
  | .nil => nil

end Value

end TreeWalk
