import TreeWalk.Proofs.Grammar.Building
import TreeWalk.Proofs.Machine.Inheritance

/-!
Where tokens come from. The parser makes no tokens of its own: those in its trees and those that
its faults stand at are tokens it was given, on every input, through recovery and behind the end.
Trees keep them while they run, so that a runtime fault stands at such a token as well.
-/

namespace TreeWalk

/-! ## Tokens of trees -/

/-- All tokens of an expression satisfy `T`. -/
inductive Expr.MadeOf (T : Token → Prop) : Expr → Prop
  | literal (value : Literal) : MadeOf T (.literal value)
  | group {inner : Expr} : MadeOf T inner → MadeOf T (.group inner)
  | reference {name : Token} : T name → MadeOf T (.reference name)
  | assign {name : Token} {value : Expr} : T name → MadeOf T value → MadeOf T (.assign name value)
  | unary {operator : Token} {right : Expr} : T operator → MadeOf T right →
    MadeOf T (.unary operator right)
  | logical {left : Expr} {operator : Token} {right : Expr} : MadeOf T left → T operator →
    MadeOf T right → MadeOf T (.logical left operator right)
  | binary {left : Expr} {operator : Token} {right : Expr} : MadeOf T left → T operator →
    MadeOf T right → MadeOf T (.binary left operator right)
  | call {callee : Expr} {paren : Token} {arguments : List Expr} : MadeOf T callee → T paren →
    (∀ e ∈ arguments, MadeOf T e) → MadeOf T (.call callee paren arguments)

mutual

inductive Stmt.MadeOf (T : Token → Prop) : Stmt → Prop
  | expression {value : Expr} : value.MadeOf T → Stmt.MadeOf T (.expression value)
  | print {value : Expr} : value.MadeOf T → Stmt.MadeOf T (.print value)
  | varDecl {name : Token} {initial : Option Expr} : T name → (∀ e ∈ initial, e.MadeOf T) →
    Stmt.MadeOf T (.varDecl name initial)
  | block {body : List Stmt} : (∀ s ∈ body, Stmt.MadeOf T s) → Stmt.MadeOf T (.block body)
  | ifElse {condition : Expr} {thenBranch : Stmt} {elseBranch : Option Stmt} :
    condition.MadeOf T → Stmt.MadeOf T thenBranch → (∀ s ∈ elseBranch, Stmt.MadeOf T s) →
    Stmt.MadeOf T (.ifElse condition thenBranch elseBranch)
  | whileLoop {condition : Expr} {body : Stmt} : condition.MadeOf T → Stmt.MadeOf T body →
    Stmt.MadeOf T (.whileLoop condition body)
  | funDecl {declaration : FunDecl} : FunDecl.MadeOf T declaration →
    Stmt.MadeOf T (.funDecl declaration)
  | returnValue {keyword : Token} {value : Option Expr} : T keyword →
    (∀ e ∈ value, e.MadeOf T) → Stmt.MadeOf T (.returnValue keyword value)
  | classDecl {name : Token} {superclass : Option Expr} {methods : List FunDecl} : T name →
    (∀ e ∈ superclass, e.MadeOf T) → (∀ d ∈ methods, FunDecl.MadeOf T d) →
    Stmt.MadeOf T (.classDecl name superclass methods)

inductive FunDecl.MadeOf (T : Token → Prop) : FunDecl → Prop
  | mk {name : Token} {params : List Token} {body : List Stmt} : T name → (∀ p ∈ params, T p) →
    (∀ s ∈ body, Stmt.MadeOf T s) → FunDecl.MadeOf T ⟨name, params, body⟩

end

/-- Code made of such tokens stops only on a line of one of them. -/
theorem madeOf_inherited (T : Token → Prop) :
    Inherited (Expr.MadeOf T) (Stmt.MadeOf T) fun _ line => ∃ t, T t ∧ t.line = line where
  group := by
    rintro _ (_ | hinner)
    exact hinner
  unary := by
    intro operator _ h
    cases h with
    | unary hoperator hright => exact ⟨hright, fun _ _ _ => ⟨operator, hoperator, rfl⟩⟩
  binary := by
    intro _ operator _ h
    cases h with
    | binary hleft hoperator hright =>
      exact ⟨hleft, hright, fun _ _ _ _ => ⟨operator, hoperator, rfl⟩⟩
  logical := by
    intro _ _ _ h
    cases h with
    | logical hleft _ hright => exact ⟨hleft, hright⟩
  reference := by
    intro name h
    cases h with
    | reference hname => exact ⟨name, hname, rfl⟩
  assign := by
    intro name _ h
    cases h with
    | assign hname hvalue => exact ⟨hvalue, name, hname, rfl⟩
  call := by
    intro _ paren _ h
    cases h with
    | call hcallee hparen harguments =>
      exact ⟨hcallee, harguments, ⟨paren, hparen, rfl⟩, fun _ _ => ⟨paren, hparen, rfl⟩⟩
  expression := by
    intro _ h
    cases h with
    | expression hvalue => exact hvalue
  print := by
    intro _ h
    cases h with
    | print hvalue => exact hvalue
  varDecl := by
    intro _ _ h
    cases h with
    | varDecl _ hinitial => exact hinitial
  block := by
    intro _ h
    cases h with
    | block hbody => exact hbody
  ifElse := by
    intro _ _ _ h
    cases h with
    | ifElse hcondition hthen helse => exact ⟨hcondition, hthen, helse⟩
  whileLoop := by
    intro _ _ h
    cases h with
    | whileLoop hcondition hbody => exact ⟨hcondition, hbody⟩
  funDecl := by
    intro _ h
    cases h with
    | funDecl hdeclaration =>
      cases hdeclaration with
      | mk _ _ hbody => exact hbody
  returnValue := by
    intro _ _ h
    cases h with
    | returnValue _ hvalue => exact hvalue

/-- The parser puts no other tokens into its trees than those it was given. -/
theorem madeOf_building (T : Token → Prop) :
    Grammar.Building T (fun _ => Expr.MadeOf T) (Stmt.MadeOf T) (FunDecl.MadeOf T) where
  loosen _ he := he
  literal _ := .literal _
  group := .group
  reference hname _ := .reference hname
  assign hname hvalue := by
    cases hname with
    | reference hname => exact .assign hname hvalue
  unary hoperator _ := .unary hoperator
  node := by
    intro tier _ _ _ _ hleft hoperator _ hright _
    cases tier with
    | disjunction => exact .logical hleft hoperator hright
    | conjunction => exact .logical hleft hoperator hright
    | _ => exact .binary hleft hoperator hright
  call hcallee hparen _ := .call hcallee hparen
  expression := .expression
  print := .print
  varDecl hname _ := .varDecl hname
  block := .block
  ifElse := .ifElse
  whileLoop := .whileLoop
  funDecl := .funDecl
  returnValue hkeyword _ := .returnValue hkeyword
  classDecl hname _ hsuperclass := .classDecl hname fun e he => by
    obtain ⟨parent, rfl, hparent, _⟩ := hsuperclass e he
    exact .reference hparent
  function hname _ hparams := .mk hname fun p hp => (hparams p hp).1

end TreeWalk
