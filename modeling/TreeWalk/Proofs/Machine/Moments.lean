import Mathlib.Logic.Relation
import TreeWalk.Proofs.Machine.ActiveScope
import TreeWalk.Proofs.Machine.Calls

/-!
The moments of a run. While an expression, a statement or a call runs, others begin: its operands
and branches, and the bodies of the functions it calls, each in the state that those before it
left. What holds while something runs is said of these moments; a run that fails or never ends has
them too.
-/

namespace TreeWalk

open Run

/-- What can be run. -/
inductive Task
  | evaluate (e : Expr)
  | evaluateAll (es : List Expr)
  | call (function : Function) (values : List Value)
  | execute (statement : Stmt)
  | executeAll (statements : List Stmt)

namespace Task

def Result : Task → Type
  | evaluate _ => Value
  | evaluateAll _ => List Value
  | call _ _ => Value
  | execute _ => Flow
  | executeAll _ => Flow

def run (fuel : Nat) : (task : Task) → Run task.Result
  | evaluate e => TreeWalk.evaluate fuel e
  | evaluateAll es => TreeWalk.evaluateAll fuel es
  | call function values => TreeWalk.call fuel function values
  | execute statement => TreeWalk.execute fuel statement
  | executeAll statements => TreeWalk.executeAll fuel statements

end Task

/-- A task that begins, and the state it begins in. -/
structure Moment where
  task : Task
  state : State

/-- The state in which the statements of a block begin. -/
def State.nested (s : State) : State :=
  ⟨s.heap.addScope s.active [], s.heap.nextScope, s.sink⟩

/-- While the first task runs it starts the second, if the parts that come before have ended. -/
inductive Starts : Moment → Moment → Prop
  | inner {inner : Expr} {s : State} :
    Starts ⟨.evaluate (.group inner), s⟩ ⟨.evaluate inner, s⟩
  | operand {operator : Token} {right : Expr} {s : State} :
    Starts ⟨.evaluate (.unary operator right), s⟩ ⟨.evaluate right, s⟩
  | left {left right : Expr} {operator : Token} {s : State} :
    Starts ⟨.evaluate (.binary left operator right), s⟩ ⟨.evaluate left, s⟩
  | right {left right : Expr} {operator : Token} {value : Value} {s t : State} :
    Ends (evaluate · left) s ⟨.ok value, t⟩ →
    Starts ⟨.evaluate (.binary left operator right), s⟩ ⟨.evaluate right, t⟩
  | decision {left right : Expr} {operator : Token} {s : State} :
    Starts ⟨.evaluate (.logical left operator right), s⟩ ⟨.evaluate left, s⟩
  | alternative {left right : Expr} {operator : Token} {value : Value} {s t : State} :
    Ends (evaluate · left) s ⟨.ok value, t⟩ → Operation.decides operator value = false →
    Starts ⟨.evaluate (.logical left operator right), s⟩ ⟨.evaluate right, t⟩
  | assigned {name : Token} {value : Expr} {s : State} :
    Starts ⟨.evaluate (.assign name value), s⟩ ⟨.evaluate value, s⟩
  | callee {callee : Expr} {paren : Token} {arguments : List Expr} {s : State} :
    Starts ⟨.evaluate (.call callee paren arguments), s⟩ ⟨.evaluate callee, s⟩
  | arguments {callee : Expr} {paren : Token} {arguments : List Expr} {value : Value}
    {s t : State} : Ends (evaluate · callee) s ⟨.ok value, t⟩ →
    Starts ⟨.evaluate (.call callee paren arguments), s⟩ ⟨.evaluateAll arguments, t⟩
  | call {callee : Expr} {paren : Token} {arguments : List Expr} {function : Function}
    {values : List Value} {s t u : State} :
    Ends (evaluate · callee) s ⟨.ok (.function function), t⟩ →
    Ends (evaluateAll · arguments) t ⟨.ok values, u⟩ → values.length = function.arity →
    Starts ⟨.evaluate (.call callee paren arguments), s⟩ ⟨.call function values, u⟩
  | firstValue {e : Expr} {es : List Expr} {s : State} :
    Starts ⟨.evaluateAll (e :: es), s⟩ ⟨.evaluate e, s⟩
  | moreValues {e : Expr} {es : List Expr} {value : Value} {s t : State} :
    Ends (evaluate · e) s ⟨.ok value, t⟩ →
    Starts ⟨.evaluateAll (e :: es), s⟩ ⟨.evaluateAll es, t⟩
  | body {function : Function} {values : List Value} {s : State} :
    Starts ⟨.call function values, s⟩
      ⟨.executeAll function.declaration.body, function.entered values s⟩
  | expression {value : Expr} {s : State} :
    Starts ⟨.execute (.expression value), s⟩ ⟨.evaluate value, s⟩
  | printed {value : Expr} {s : State} :
    Starts ⟨.execute (.print value), s⟩ ⟨.evaluate value, s⟩
  | initial {name : Token} {initial : Expr} {s : State} :
    Starts ⟨.execute (.varDecl name (some initial)), s⟩ ⟨.evaluate initial, s⟩
  | block {body : List Stmt} {s : State} :
    Starts ⟨.execute (.block body), s⟩ ⟨.executeAll body, s.nested⟩
  | condition {condition : Expr} {thenBranch : Stmt} {elseBranch : Option Stmt} {s : State} :
    Starts ⟨.execute (.ifElse condition thenBranch elseBranch), s⟩ ⟨.evaluate condition, s⟩
  | thenBranch {condition : Expr} {thenBranch : Stmt} {elseBranch : Option Stmt} {test : Value}
    {s t : State} : Ends (evaluate · condition) s ⟨.ok test, t⟩ → test.isTruthy = true →
    Starts ⟨.execute (.ifElse condition thenBranch elseBranch), s⟩ ⟨.execute thenBranch, t⟩
  | elseBranch {condition : Expr} {thenBranch elseBranch : Stmt} {test : Value} {s t : State} :
    Ends (evaluate · condition) s ⟨.ok test, t⟩ → test.isTruthy = false →
    Starts ⟨.execute (.ifElse condition thenBranch (some elseBranch)), s⟩ ⟨.execute elseBranch, t⟩
  | test {condition : Expr} {body : Stmt} {s : State} :
    Starts ⟨.execute (.whileLoop condition body), s⟩ ⟨.evaluate condition, s⟩
  | round {condition : Expr} {body : Stmt} {test : Value} {s t : State} :
    Ends (evaluate · condition) s ⟨.ok test, t⟩ → test.isTruthy = true →
    Starts ⟨.execute (.whileLoop condition body), s⟩ ⟨.execute body, t⟩
  | again {condition : Expr} {body : Stmt} {test : Value} {s t u : State} :
    Ends (evaluate · condition) s ⟨.ok test, t⟩ → test.isTruthy = true →
    Ends (execute · body) t ⟨.ok .normal, u⟩ →
    Starts ⟨.execute (.whileLoop condition body), s⟩ ⟨.execute (.whileLoop condition body), u⟩
  | returned {keyword : Token} {value : Expr} {s : State} :
    Starts ⟨.execute (.returnValue keyword (some value)), s⟩ ⟨.evaluate value, s⟩
  | first {statement : Stmt} {more : List Stmt} {s : State} :
    Starts ⟨.executeAll (statement :: more), s⟩ ⟨.execute statement, s⟩
  | more {statement : Stmt} {more : List Stmt} {s t : State} :
    Ends (execute · statement) s ⟨.ok .normal, t⟩ →
    Starts ⟨.executeAll (statement :: more), s⟩ ⟨.executeAll more, t⟩

/-- The second moment comes while the first task runs. -/
abbrev Within : Moment → Moment → Prop := Relation.TransGen Starts

/-- The second moment is the first, or comes while its task runs. -/
abbrev Begins : Moment → Moment → Prop := Relation.ReflTransGen Starts

/-! ## Scopes at a moment -/

theorem Heap.Keeps.size_le {h k : Heap} (hk : h.Keeps k) : h.scopes.size ≤ k.scopes.size := by
  apply Nat.le_of_not_lt
  intro hlt
  obtain ⟨kept, hkept, _⟩ := hk k.scopes.size _ (Array.getElem?_eq_getElem hlt)
  rw [Array.getElem?_eq_none (Nat.le_refl _)] at hkept
  cases hkept

/-- What runs between two parts of a task leaves the scopes there and the same one active. -/
theorem restored_of_ends {α : Type} {m : Nat → Run α} (hm : ∀ fuel, Leaves State.Restored (m fuel))
    {s : State} {f : Finished α} (h : Ends m s f) :
    f.state.active = s.active ∧ s.heap.scopes.size ≤ f.state.heap.scopes.size := by
  obtain ⟨fuel, hfuel⟩ := h
  have hrestored := (hm fuel).finish hfuel
  exact ⟨hrestored.active, hrestored.scopes.size_le⟩

/-- The task executes statements in the active scope. -/
def Task.Executes : Task → Prop
  | .execute _ => True
  | .executeAll _ => True
  | _ => False

/-- Statements begin in the scope of the statement they are part of or in one that is new. -/
theorem Starts.scope {m n : Moment} (h : Starts m n) :
    m.state.heap.scopes.size ≤ n.state.heap.scopes.size ∧
      (n.task.Executes → m.task.Executes ∧ n.state.active = m.state.active ∨
        m.state.heap.scopes.size ≤ n.state.active) := by
  have hevaluate : ∀ {e : Expr} {s : State} {f : Finished Value}, Ends (evaluate · e) s f →
      f.state.active = s.active ∧ s.heap.scopes.size ≤ f.state.heap.scopes.size :=
    fun h => restored_of_ends (fun fuel => (runs_restore fuel).evaluate _) h
  have hevaluateAll : ∀ {es : List Expr} {s : State} {f : Finished (List Value)},
      Ends (evaluateAll · es) s f →
      f.state.active = s.active ∧ s.heap.scopes.size ≤ f.state.heap.scopes.size :=
    fun h => restored_of_ends (fun fuel => (runs_restore fuel).evaluateAll _) h
  have hexecute : ∀ {statement : Stmt} {s : State} {f : Finished Flow},
      Ends (execute · statement) s f →
      f.state.active = s.active ∧ s.heap.scopes.size ≤ f.state.heap.scopes.size :=
    fun h => restored_of_ends (fun fuel => (runs_restore fuel).execute _) h
  cases h with
  | inner | operand | left | decision | assigned | callee | firstValue | expression | printed
  | initial | condition | test | returned => exact ⟨Nat.le_refl _, False.elim⟩
  | right hfirst | alternative hfirst | arguments hfirst | moreValues hfirst =>
    exact ⟨(hevaluate hfirst).2, False.elim⟩
  | call hcallee harguments =>
    exact ⟨Nat.le_trans (hevaluate hcallee).2 (hevaluateAll harguments).2, False.elim⟩
  | @body function values s =>
    have hsize := s.heap.size_addScope function.closure (function.bindings values)
    exact ⟨Nat.le_of_lt (Nat.lt_of_succ_le (Nat.le_of_eq hsize.symm)),
      fun _ => .inr (Nat.le_refl _)⟩
  | @block body s =>
    have hsize := s.heap.size_addScope s.active []
    exact ⟨Nat.le_of_lt (Nat.lt_of_succ_le (Nat.le_of_eq hsize.symm)),
      fun _ => .inr (Nat.le_refl _)⟩
  | thenBranch hcondition | elseBranch hcondition | round hcondition =>
    obtain ⟨hactive, hsize⟩ := hevaluate hcondition
    exact ⟨hsize, fun _ => .inl ⟨trivial, hactive⟩⟩
  | again hcondition _ hbody =>
    obtain ⟨hactive, hsize⟩ := hevaluate hcondition
    obtain ⟨hactive', hsize'⟩ := hexecute hbody
    exact ⟨Nat.le_trans hsize hsize', fun _ => .inl ⟨trivial, hactive'.trans hactive⟩⟩
  | first => exact ⟨Nat.le_refl _, fun _ => .inl ⟨trivial, rfl⟩⟩
  | more hfirst =>
    obtain ⟨hactive, hsize⟩ := hexecute hfirst
    exact ⟨hsize, fun _ => .inl ⟨trivial, hactive⟩⟩

/-- What the task executes, it executes in scopes of its own. -/
inductive Task.Enclosed : Task → Prop
  | evaluate (e : Expr) : Enclosed (.evaluate e)
  | evaluateAll (es : List Expr) : Enclosed (.evaluateAll es)
  | call (function : Function) (values : List Value) : Enclosed (.call function values)
  | block (body : List Stmt) : Enclosed (.execute (.block body))

/-- While an expression, a call or a block runs, no scope that was there before is active where a
statement begins. -/
theorem Within.scope {m n : Moment} (h : Within m n) (hm : m.task.Enclosed) :
    m.state.heap.scopes.size ≤ n.state.heap.scopes.size ∧
      (n.task.Executes → m.state.heap.scopes.size ≤ n.state.active) := by
  induction h with
  | single hstart =>
    obtain ⟨hsize, hscope⟩ := hstart.scope
    refine ⟨hsize, fun hn => ?_⟩
    obtain ⟨task, s⟩ := m
    cases hm with
    | block body =>
      cases hstart
      exact Nat.le_refl _
    | _ =>
      rcases hscope hn with ⟨hexecutes, _⟩ | hnew
      · exact hexecutes.elim
      · exact hnew
  | tail _ hstart ih =>
    obtain ⟨hsize, hscope⟩ := hstart.scope
    refine ⟨Nat.le_trans ih.1 hsize, fun hn => ?_⟩
    rcases hscope hn with ⟨hexecutes, hactive⟩ | hnew
    · exact hactive ▸ ih.2 hexecutes
    · exact Nat.le_trans ih.1 hnew

end TreeWalk
