import TreeWalk.Proofs.Grammar.Building

/-!
The shape of the trees that parsing makes. Operators and names are tokens of their kinds, and an
operand without parentheses holds together as tightly as its place needs. This holds of whatever a
rule replies with, on every list of tokens and whatever faults are noted on the way.
-/

namespace TreeWalk

/-- How tightly a symbol holds two operands together. Those that stand between none do not. -/
def Symbol.tightness : Symbol → Nat
  | keyword .orWord => 1
  | keyword .andWord => 2
  | bangEqual | equalEqual => 3
  | greater | greaterEqual | less | lessEqual => 4
  | minus | plus => 5
  | star | slash => 6
  | _ => 0

def Kind.tightness : Kind → Nat
  | symbol s => s.tightness
  | _ => 0

namespace Expr

/-- How tightly a tree holds together, an assignment least. -/
def tightness : Expr → Nat
  | assign _ _ => 0
  | logical _ operator _ => operator.kind.tightness
  | binary _ operator _ => operator.kind.tightness
  | unary _ _ => unaryTightness
  | call _ _ _ => callTightness
  | literal _ => primaryTightness
  | reference _ => primaryTightness
  | group _ => primaryTightness

def logicalOperators : List Symbol := [.keyword .andWord, .keyword .orWord]

/-- The operators of arithmetic, comparison and equality. -/
def binaryOperators : List Symbol :=
  [.plus, .minus, .star, .slash, .greater, .greaterEqual, .less, .lessEqual, .equalEqual,
    .bangEqual]

end Expr

/-- Operators have one of the kinds of their node and names are identifiers. A left operand holds
together at least as tightly as the operator, a right one more tightly. -/
inductive Expr.WellFormed : Expr → Prop
  | literal (value : Literal) : WellFormed (.literal value)
  | group {inner : Expr} : WellFormed inner → WellFormed (.group inner)
  | reference {name : Token} : name.IsName → WellFormed (.reference name)
  | assign {name : Token} {value : Expr} : name.IsName → WellFormed value →
    WellFormed (.assign name value)
  | unary {operator : Token} {right : Expr} : operator.OneOf [.bang, .minus] →
    WellFormed right → unaryTightness ≤ right.tightness → WellFormed (.unary operator right)
  | logical {left : Expr} {operator : Token} {right : Expr} : operator.OneOf logicalOperators →
    WellFormed left → operator.kind.tightness ≤ left.tightness → WellFormed right →
    operator.kind.tightness < right.tightness → WellFormed (.logical left operator right)
  | binary {left : Expr} {operator : Token} {right : Expr} : operator.OneOf binaryOperators →
    WellFormed left → operator.kind.tightness ≤ left.tightness → WellFormed right →
    operator.kind.tightness < right.tightness → WellFormed (.binary left operator right)
  | call {callee : Expr} {paren : Token} {arguments : List Expr} : WellFormed callee →
    callTightness ≤ callee.tightness → (∀ e ∈ arguments, WellFormed e) →
    WellFormed (.call callee paren arguments)

mutual

/-- All expressions are well formed, and a superclass is a name. -/
inductive Stmt.WellFormed : Stmt → Prop
  | expression {value : Expr} : value.WellFormed → Stmt.WellFormed (.expression value)
  | print {value : Expr} : value.WellFormed → Stmt.WellFormed (.print value)
  | varDecl {name : Token} {initial : Option Expr} : name.IsName →
    (∀ e ∈ initial, e.WellFormed) → Stmt.WellFormed (.varDecl name initial)
  | block {body : List Stmt} : (∀ s ∈ body, Stmt.WellFormed s) → Stmt.WellFormed (.block body)
  | ifElse {condition : Expr} {thenBranch : Stmt} {elseBranch : Option Stmt} :
    condition.WellFormed → Stmt.WellFormed thenBranch →
    (∀ s ∈ elseBranch, Stmt.WellFormed s) →
    Stmt.WellFormed (.ifElse condition thenBranch elseBranch)
  | whileLoop {condition : Expr} {body : Stmt} : condition.WellFormed → Stmt.WellFormed body →
    Stmt.WellFormed (.whileLoop condition body)
  | funDecl {declaration : FunDecl} : FunDecl.WellFormed declaration →
    Stmt.WellFormed (.funDecl declaration)
  | returnValue {keyword : Token} {value : Option Expr} : (∀ e ∈ value, e.WellFormed) →
    Stmt.WellFormed (.returnValue keyword value)
  | classDecl {name : Token} {superclass : Option Expr} {methods : List FunDecl} : name.IsName →
    (∀ e ∈ superclass, ∃ parent : Token, e = .reference parent ∧ parent.IsName) →
    (∀ d ∈ methods, FunDecl.WellFormed d) → Stmt.WellFormed (.classDecl name superclass methods)

inductive FunDecl.WellFormed : FunDecl → Prop
  | mk {name : Token} {params : List Token} {body : List Stmt} : name.IsName →
    (∀ p ∈ params, p.IsName) → (∀ s ∈ body, Stmt.WellFormed s) →
    FunDecl.WellFormed ⟨name, params, body⟩

end

namespace Grammar

/-- A well-formed tree for a place that needs the given tightness. -/
structure Holds (n : Nat) (e : Expr) : Prop where
  formed : e.WellFormed
  tight : n ≤ e.tightness

namespace Tier

theorem tightness_of_mem {tier : Tier} {s : Symbol} (h : s ∈ tier.operators) :
    s.tightness = tier.level := by
  cases tier <;> revert s <;> decide

theorem holds_node {tier : Tier} {left right : Expr} {operator : Token} {n : Nat}
    (hoperator : operator.OneOf tier.operators) (hleft : Holds tier.level left)
    (hright : Holds n right) (hn : tier.level < n) :
    Holds tier.level (tier.node left operator right) := by
  have htight : operator.kind.tightness = tier.level := by
    obtain ⟨s, hs, hkind⟩ := hoperator
    rw [hkind]
    exact tightness_of_mem hs
  have hle : operator.kind.tightness ≤ left.tightness := htight ▸ hleft.tight
  have hlt : operator.kind.tightness < right.tightness :=
    htight ▸ Nat.lt_of_lt_of_le hn hright.tight
  have hlogical : tier.operators ⊆ Expr.logicalOperators →
      Holds tier.level (.logical left operator right) := fun hsub =>
    ⟨.logical (hoperator.mono hsub) hleft.formed hle hright.formed hlt, Nat.le_of_eq htight.symm⟩
  have hbinary : tier.operators ⊆ Expr.binaryOperators →
      Holds tier.level (.binary left operator right) := fun hsub =>
    ⟨.binary (hoperator.mono hsub) hleft.formed hle hright.formed hlt, Nat.le_of_eq htight.symm⟩
  cases tier with
  | disjunction => exact hlogical (by decide)
  | conjunction => exact hlogical (by decide)
  | _ => exact hbinary (by decide)

end Tier

/-- All that is built is well formed, and an expression holds together as tightly as it needs. -/
theorem wellFormed_building :
    Building (fun _ => True) Holds Stmt.WellFormed FunDecl.WellFormed where
  loosen hle he := ⟨he.formed, Nat.le_trans hle he.tight⟩
  literal _ := ⟨.literal _, Nat.le_refl _⟩
  group hinner := ⟨.group hinner.formed, Nat.le_refl _⟩
  reference _ hname := ⟨.reference hname, Nat.le_refl _⟩
  assign hname hvalue := by
    cases hname.formed with
    | reference hname => exact ⟨.assign hname hvalue.formed, Nat.zero_le _⟩
  unary _ hoperator hright := ⟨.unary hoperator hright.formed hright.tight, Nat.le_refl _⟩
  node hleft _ hoperator hright hlt := Tier.holds_node hoperator hleft hright hlt
  call hcallee _ _ harguments :=
    ⟨.call hcallee.formed hcallee.tight fun e he => (harguments e he).formed, Nat.le_refl _⟩
  expression hvalue := .expression hvalue.formed
  print hvalue := .print hvalue.formed
  varDecl _ hname hinitial := .varDecl hname fun e he => (hinitial e he).formed
  block := .block
  ifElse hcondition := .ifElse hcondition.formed
  whileLoop hcondition := .whileLoop hcondition.formed
  funDecl := .funDecl
  returnValue _ _ hvalue := .returnValue fun e he => (hvalue e he).formed
  classDecl _ hname hsuperclass := .classDecl hname fun e he => by
    obtain ⟨parent, hparent, _, hnamed⟩ := hsuperclass e he
    exact ⟨parent, hparent, hnamed⟩
  function _ hname hparams := .mk hname fun p hp => (hparams p hp).2

theorem program_wellFormed (ts : List Token) : ∀ s ∈ (program ts).tree, s.WellFormed :=
  (wellFormed_building.program fun _ _ => trivial).1

theorem soleExpression_wellFormed (ts : List Token) :
    ∀ e ∈ (soleExpression ts).tree, e.WellFormed :=
  fun e he => ((wellFormed_building.soleExpression fun _ _ => trivial).1 e he).formed

end Grammar

end TreeWalk
