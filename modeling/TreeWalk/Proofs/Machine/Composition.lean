import TreeWalk.Proofs.Machine.Moments

/-!
What holds of the steps on the state and is kept when runs are put together holds of every run.
The rules of the evaluator are gone through here once, for all properties of that kind.
-/

namespace TreeWalk

open Run

/-- The steps from which runs are built have the property, and so has what is built from runs that
have it. -/
structure Compositional (T : {α : Type} → Run α → Prop) : Prop where
  pure : ∀ {α : Type} (a : α), T (pure a : Run α)
  bind : ∀ {α β : Type} {m : Run α} {next : α → Run β}, T m → (∀ a, T (next a)) → T (m >>= next)
  outOfFuel : ∀ {α : Type}, T (outOfFuel : Run α)
  failAt : ∀ {α : Type} (token : Token) (fault : RuntimeFault), T (failAt token fault : Run α)
  read : ∀ name : Token, T (read name)
  define : ∀ (name : Token) (value : Value), T (define name value)
  assign : ∀ (name : Token) (value : Value), T (assign name value)
  declare : ∀ declaration : FunDecl, T (declare declaration)
  printLine : ∀ text : String, T (printLine text)
  inside : ∀ {α : Type} (outer : ScopeId) (bindings : List (String × Value)) {body : Run α},
    T body → T (inside outer bindings body)
  nested : ∀ {α : Type} {body : Run α}, T body → T (nested body)

namespace Compositional

variable {T : {α : Type} → Run α → Prop} (steps : Compositional T)
include steps

theorem ofOperation {α : Type} (operator : Token) (result : Except RuntimeFault α) :
    T (Run.ofOperation operator result) := by
  cases result with
  | ok a => exact steps.pure a
  | error fault => exact steps.failAt operator fault

variable {fuel : Nat} (ih : ∀ task : Task, T (task.run fuel))
include ih

theorem evaluate (e : Expr) : T (TreeWalk.evaluate (fuel + 1) e) := by
  have hvalue : ∀ e : Expr, T (TreeWalk.evaluate fuel e) := fun e => ih (.evaluate e)
  cases e with
  | literal value =>
    rw [TreeWalk.evaluate]
    exact steps.pure _
  | group inner =>
    rw [TreeWalk.evaluate]
    exact hvalue inner
  | unary operator right =>
    rw [TreeWalk.evaluate]
    exact steps.bind (hvalue right) fun _ => steps.ofOperation operator _
  | binary left operator right =>
    rw [TreeWalk.evaluate]
    apply steps.bind (hvalue left)
    intro value
    exact steps.bind (hvalue right) fun _ => steps.ofOperation operator _
  | logical left operator right =>
    rw [TreeWalk.evaluate]
    apply steps.bind (hvalue left)
    intro value
    split
    · exact steps.pure value
    · exact hvalue right
  | reference name =>
    rw [TreeWalk.evaluate]
    exact steps.read name
  | assign name value =>
    rw [TreeWalk.evaluate]
    apply steps.bind (hvalue value)
    intro value
    exact steps.bind (steps.assign name value) fun _ => steps.pure value
  | call callee paren arguments =>
    rw [evaluate_call]
    apply steps.bind (hvalue callee)
    intro callee
    apply steps.bind (ih (.evaluateAll arguments))
    intro values
    cases callee with
    | function function =>
      dsimp only [applied]
      split
      · exact ih (.call function values)
      · exact steps.failAt paren _
    | _ => exact steps.failAt paren _

theorem evaluateAll (es : List Expr) : T (TreeWalk.evaluateAll (fuel + 1) es) := by
  cases es with
  | nil =>
    rw [TreeWalk.evaluateAll]
    exact steps.pure _
  | cons e es =>
    rw [TreeWalk.evaluateAll]
    apply steps.bind (ih (.evaluate e))
    intro value
    exact steps.bind (ih (.evaluateAll es)) fun _ => steps.pure _

theorem call (function : Function) (values : List Value) :
    T (TreeWalk.call (fuel + 1) function values) := by
  rw [call_succ]
  apply steps.bind (steps.inside _ _ (ih (.executeAll function.declaration.body)))
  intro flow
  exact steps.pure _

theorem execute (s : Stmt) : T (TreeWalk.execute (fuel + 1) s) := by
  have hvalue : ∀ e : Expr, T (TreeWalk.evaluate fuel e) := fun e => ih (.evaluate e)
  have hdone : ∀ flow : Flow, T (Pure.pure flow : Run Flow) := steps.pure
  cases s with
  | expression value =>
    rw [TreeWalk.execute]
    exact steps.bind (hvalue value) fun _ => hdone .normal
  | print value =>
    rw [TreeWalk.execute]
    apply steps.bind (hvalue value)
    intro value
    exact steps.bind (steps.printLine value.text) fun _ => hdone .normal
  | varDecl name initial =>
    cases initial with
    | none =>
      rw [TreeWalk.execute]
      exact steps.bind (steps.define name .nil) fun _ => hdone .normal
    | some initial =>
      rw [TreeWalk.execute]
      apply steps.bind (hvalue initial)
      intro value
      exact steps.bind (steps.define name value) fun _ => hdone .normal
  | block body =>
    rw [TreeWalk.execute]
    exact steps.nested (ih (.executeAll body))
  | ifElse condition thenBranch elseBranch =>
    rw [execute_ifElse]
    apply steps.bind (hvalue condition)
    intro test
    split
    · exact ih (.execute thenBranch)
    · cases elseBranch with
      | none => exact hdone .normal
      | some elseBranch => exact ih (.execute elseBranch)
  | whileLoop condition body =>
    rw [TreeWalk.execute]
    apply steps.bind (hvalue condition)
    intro test
    split
    · apply steps.bind (ih (.execute body))
      intro flow
      cases flow with
      | returned value => exact hdone (.returned value)
      | normal => exact ih (.execute (.whileLoop condition body))
    · exact hdone .normal
  | funDecl declaration =>
    rw [TreeWalk.execute]
    exact steps.bind (steps.declare declaration) fun _ => hdone .normal
  | returnValue keyword value =>
    cases value with
    | none =>
      rw [TreeWalk.execute]
      exact hdone (.returned .nil)
    | some value =>
      rw [TreeWalk.execute]
      exact steps.bind (hvalue value) fun value => hdone (.returned value)
  | classDecl name superclass methods =>
    rw [TreeWalk.execute]
    exact steps.bind (steps.define name .nil) fun _ => hdone .normal

theorem executeAll (ss : List Stmt) : T (TreeWalk.executeAll (fuel + 1) ss) := by
  cases ss with
  | nil =>
    rw [TreeWalk.executeAll]
    exact steps.pure Flow.normal
  | cons s ss =>
    rw [executeAll_cons]
    apply steps.bind (ih (.execute s))
    intro flow
    cases flow with
    | returned value => exact steps.pure (Flow.returned value)
    | normal => exact ih (.executeAll ss)

omit ih

theorem run (fuel : Nat) (task : Task) : T (task.run fuel) := by
  induction fuel generalizing task with
  | zero => cases task <;> exact steps.outOfFuel
  | succ fuel ih =>
    cases task with
    | evaluate e => exact steps.evaluate ih e
    | evaluateAll es => exact steps.evaluateAll ih es
    | call function values => exact steps.call ih function values
    | execute s => exact steps.execute ih s
    | executeAll ss => exact steps.executeAll ih ss

end Compositional

end TreeWalk
