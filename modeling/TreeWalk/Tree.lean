import TreeWalk.Token

/-!
Syntax trees. Operators and names stay tokens, so that a fault found while a tree runs can name
the line it happened on.
-/

namespace TreeWalk

inductive Literal
  | number (value : Float)
  | string (contents : String)
  | bool (value : Bool)
  | nil

inductive Expr
  | literal (value : Literal)
  | unary (operator : Token) (right : Expr)
  | binary (left : Expr) (operator : Token) (right : Expr)
  | logical (left : Expr) (operator : Token) (right : Expr)
  | group (inner : Expr)
  | reference (name : Token)
  | assign (name : Token) (value : Expr)
  | call (callee : Expr) (paren : Token) (arguments : List Expr)

mutual

inductive Stmt
  | expression (value : Expr)
  | print (value : Expr)
  | varDecl (name : Token) (initial : Option Expr)
  | block (body : List Stmt)
  | ifElse (condition : Expr) (thenBranch : Stmt) (elseBranch : Option Stmt)
  | whileLoop (condition : Expr) (body : Stmt)
  | funDecl (declaration : FunDecl)
  | returnValue (keyword : Token) (value : Option Expr)
  | classDecl (name : Token) (superclass : Option Expr) (methods : List FunDecl)

/-- A function or a method: its name, its parameters and the statements it runs. -/
structure FunDecl where
  name : Token
  params : List Token
  body : List Stmt

end

def FunDecl.arity (d : FunDecl) : Nat := d.params.length

/-- A `for` loop is a `while` loop: the step runs after the body, in a scope of its own, and the
start in a scope around the loop. -/
def Stmt.forLoop (start : Option Stmt) (condition step : Option Expr) (body : Stmt) : Stmt :=
  let body := match step with
    | some step => .block [body, .expression step]
    | none => body
  let loop := .whileLoop (condition.getD (.literal (.bool true))) body
  match start with
  | some start => .block [start, loop]
  | none => loop

/-- What the parts of a `for` loop have, and blocks and `while` loops keep, the loop has. -/
theorem Stmt.forLoop_of_parts {E : Expr → Prop} {S : Stmt → Prop}
    (literal : E (.literal (.bool true))) (expression : ∀ {e : Expr}, E e → S (.expression e))
    (block : ∀ {body : List Stmt}, (∀ s ∈ body, S s) → S (.block body))
    (whileLoop : ∀ {condition : Expr} {body : Stmt}, E condition → S body →
      S (.whileLoop condition body))
    {start : Option Stmt} {condition step : Option Expr} {body : Stmt} (hstart : ∀ s ∈ start, S s)
    (hcondition : ∀ e ∈ condition, E e) (hstep : ∀ e ∈ step, E e) (hbody : S body) :
    S (.forLoop start condition step body) := by
  have htest : E (condition.getD (.literal (.bool true))) := by
    cases condition with
    | none => exact literal
    | some condition => exact hcondition condition rfl
  have hloop : S (.forLoop none condition step body) := by
    refine whileLoop htest ?_
    cases step with
    | none => exact hbody
    | some step =>
      have hlast := expression (hstep step rfl)
      exact block (List.forall_mem_cons.2 ⟨hbody, List.forall_mem_singleton.2 hlast⟩)
  cases start with
  | none => exact hloop
  | some start =>
    have hfirst := hstart start rfl
    exact block (List.forall_mem_cons.2 ⟨hfirst, List.forall_mem_singleton.2 hloop⟩)

end TreeWalk
