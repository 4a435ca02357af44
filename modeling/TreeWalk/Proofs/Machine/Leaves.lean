import TreeWalk.Session

/-!
Relations between the state before a run and the state it leaves, whichever way it ends. What
every step on the state keeps, every expression, statement and call keeps: the induction over the
evaluator is here, once for all such relations.
-/

namespace TreeWalk

namespace Run

variable {α β : Type}

/-- The state a run leaves, however it ends. -/
def after (m : Run α) (s : State) : State :=
  match m s with
  | .ok _ t => t
  | .error _ t => t

def Leaves (R : State → State → Prop) (m : Run α) : Prop := ∀ s, R s (m.after s)

variable {R : State → State → Prop}

theorem Leaves.bind {m : Run α} {f : α → Run β}
    (htrans : ∀ s t u : State, R s t → R t u → R s u) (hm : Leaves R m)
    (hf : ∀ a, Leaves R (f a)) : Leaves R (m >>= f) := by
  intro s
  have hs := hm s
  unfold after at hs ⊢
  change R s (match EStateM.bind m f s with | .ok _ t => t | .error _ t => t)
  unfold EStateM.bind
  rcases hrun : m s with ⟨a, t⟩ | ⟨e, t⟩ <;> rw [hrun] at hs
  · exact htrans s t _ hs (hf a t)
  · exact hs

theorem Leaves.finish {m : Run α} {s : State} {f : Finished α} (hm : Leaves R m)
    (hf : m.finish s = some f) : R s f.state := by
  have hs := hm s
  unfold after at hs
  unfold Run.finish at hf
  rcases hrun : m s with ⟨a, t⟩ | ⟨⟨failure⟩ | _, t⟩ <;> rw [hrun] at hs hf
  · cases hf
    exact hs
  · cases hf
    exact hs
  · cases hf

theorem after_bind (m : Run α) (f : α → Run β) (s : State) :
    (m >>= f).after s = match m s with
      | .ok a t => (f a).after t
      | .error _ t => t := by
  change (match EStateM.bind m f s with | .ok _ t => t | .error _ t => t) = _
  unfold EStateM.bind after
  rcases m s with ⟨a, t⟩ | ⟨e, t⟩ <;> rfl

theorem leaves_pure (hrefl : ∀ s, R s s) (a : α) : Leaves R (pure a : Run α) := hrefl

theorem leaves_failAt (hrefl : ∀ s, R s s) (token : Token) (fault : RuntimeFault) :
    Leaves R (failAt token fault : Run α) := hrefl

theorem leaves_outOfFuel (hrefl : ∀ s, R s s) : Leaves R (outOfFuel : Run α) := hrefl

theorem leaves_ofOperation (hrefl : ∀ s, R s s) (operator : Token)
    (result : Except RuntimeFault α) : Leaves R (ofOperation operator result) := by
  cases result with
  | ok a => exact leaves_pure hrefl a
  | error fault => exact leaves_failAt hrefl operator fault

theorem leaves_read (hrefl : ∀ s, R s s) (name : Token) : Leaves R (read name) := by
  intro s
  unfold after read
  cases s.heap.get? s.active name.lexeme <;> exact hrefl s

theorem leaves_flush (hrefl : ∀ s, R s s) : Leaves R flush := by
  intro s
  unfold after flush
  cases s.sink.flushFails <;> exact hrefl s

end Run

open Run

/-- The rule for `if`, with or without an `else`. -/
theorem execute_ifElse (fuel : Nat) (condition : Expr) (thenBranch : Stmt)
    (elseBranch : Option Stmt) :
    execute (fuel + 1) (.ifElse condition thenBranch elseBranch) = (do
      let test ← evaluate fuel condition
      if test.isTruthy then execute fuel thenBranch
      else match elseBranch with
        | some elseBranch => execute fuel elseBranch
        | none => return .normal) := rfl

/-- What the steps have to keep: expressions keep `E`, which is the stronger relation, statements
keep `X`, and a body that runs in a scope of its own and keeps `X` keeps `E` on the whole. -/
structure KeptBySteps (E X : State → State → Prop) : Prop where
  refl : ∀ s, E s s
  trans : ∀ s t u : State, E s t → E t u → E s u
  stmt_trans : ∀ s t u : State, X s t → X t u → X s u
  stmt_of_expr : ∀ s t : State, E s t → X s t
  assign : ∀ (name : Token) (value : Value), Leaves E (assign name value)
  define : ∀ (name : Token) (value : Value), Leaves X (define name value)
  declare : ∀ declaration : FunDecl, Leaves X (declare declaration)
  printLine : ∀ text : String, Leaves X (printLine text)
  inside : ∀ (outer : ScopeId) (bindings : List (String × Value)) (body : Run Flow),
    Leaves X body → Leaves E (inside outer bindings body)

structure KeptByRuns (E X : State → State → Prop) (fuel : Nat) : Prop where
  evaluate : ∀ e : Expr, Leaves E (evaluate fuel e)
  evaluateAll : ∀ es : List Expr, Leaves E (evaluateAll fuel es)
  call : ∀ (function : Function) (values : List Value), Leaves E (call fuel function values)
  execute : ∀ s : Stmt, Leaves X (execute fuel s)
  executeAll : ∀ ss : List Stmt, Leaves X (executeAll fuel ss)

section

variable {E X : State → State → Prop} (steps : KeptBySteps E X)
include steps

theorem KeptBySteps.stmt_refl (s : State) : X s s := steps.stmt_of_expr _ _ (steps.refl s)

/-- An expression in a statement. -/
theorem KeptBySteps.bindExpr {α β : Type} {m : Run α} {f : α → Run β} (hm : Leaves E m)
    (hf : ∀ a, Leaves X (f a)) : Leaves X (m >>= f) :=
  Leaves.bind steps.stmt_trans (fun s => steps.stmt_of_expr _ _ (hm s)) hf

variable {fuel : Nat} (ih : KeptByRuns E X fuel)
include ih

theorem evaluate_leaves (e : Expr) : Leaves E (evaluate (fuel + 1) e) := by
  cases e with
  | literal value =>
    rw [evaluate]
    exact leaves_pure steps.refl _
  | group inner =>
    rw [evaluate]
    exact ih.evaluate inner
  | unary operator right =>
    have hright := ih.evaluate right
    rw [evaluate]
    apply hright.bind steps.trans
    intro value
    exact leaves_ofOperation steps.refl operator _
  | binary left operator right =>
    have hleft := ih.evaluate left
    have hright := ih.evaluate right
    rw [evaluate]
    apply hleft.bind steps.trans
    intro value
    apply hright.bind steps.trans
    intro other
    exact leaves_ofOperation steps.refl operator _
  | logical left operator right =>
    have hleft := ih.evaluate left
    rw [evaluate]
    apply hleft.bind steps.trans
    intro value
    split
    · exact leaves_pure steps.refl value
    · exact ih.evaluate right
  | reference name =>
    rw [evaluate]
    exact leaves_read steps.refl name
  | assign name value =>
    have hvalue := ih.evaluate value
    rw [evaluate]
    apply hvalue.bind steps.trans
    intro value
    apply (steps.assign name value).bind steps.trans
    intro _
    exact leaves_pure steps.refl value
  | call callee paren arguments =>
    have hcallee := ih.evaluate callee
    have harguments := ih.evaluateAll arguments
    rw [evaluate]
    apply hcallee.bind steps.trans
    intro callee
    apply harguments.bind steps.trans
    intro values
    cases callee with
    | function function =>
      dsimp only
      split
      · exact ih.call function values
      · exact leaves_failAt steps.refl paren _
    | _ => exact leaves_failAt steps.refl paren _

theorem evaluateAll_leaves (es : List Expr) : Leaves E (evaluateAll (fuel + 1) es) := by
  cases es with
  | nil =>
    rw [evaluateAll]
    exact leaves_pure steps.refl _
  | cons e es =>
    have hfirst := ih.evaluate e
    have hmore := ih.evaluateAll es
    rw [evaluateAll]
    apply hfirst.bind steps.trans
    intro value
    apply hmore.bind steps.trans
    intro values
    exact leaves_pure steps.refl _

theorem call_leaves (function : Function) (values : List Value) :
    Leaves E (call (fuel + 1) function values) := by
  have hbody := ih.executeAll function.declaration.body
  rw [call]
  apply (steps.inside _ _ _ hbody).bind steps.trans
  intro flow
  cases flow <;> exact leaves_pure steps.refl _

theorem execute_leaves (s : Stmt) : Leaves X (execute (fuel + 1) s) := by
  have hdone : ∀ flow : Flow, Leaves X (pure flow) := leaves_pure steps.stmt_refl
  cases s with
  | expression value =>
    have hvalue := ih.evaluate value
    rw [execute]
    exact steps.bindExpr hvalue fun _ => hdone .normal
  | print value =>
    have hvalue := ih.evaluate value
    rw [execute]
    apply steps.bindExpr hvalue
    intro value
    exact (steps.printLine value.text).bind steps.stmt_trans fun _ => hdone .normal
  | varDecl name initial =>
    cases initial with
    | none =>
      rw [execute]
      exact (steps.define name .nil).bind steps.stmt_trans fun _ => hdone .normal
    | some initial =>
      have hinitial := ih.evaluate initial
      rw [execute]
      apply steps.bindExpr hinitial
      intro value
      exact (steps.define name value).bind steps.stmt_trans fun _ => hdone .normal
  | block body =>
    have hbody := ih.executeAll body
    rw [execute]
    intro s
    exact steps.stmt_of_expr _ _ (steps.inside s.active [] _ hbody s)
  | ifElse condition thenBranch elseBranch =>
    have hcondition := ih.evaluate condition
    rw [execute_ifElse]
    apply steps.bindExpr hcondition
    intro test
    split
    · exact ih.execute thenBranch
    · cases elseBranch with
      | none => exact hdone .normal
      | some elseBranch => exact ih.execute elseBranch
  | whileLoop condition body =>
    have hcondition := ih.evaluate condition
    have hbody := ih.execute body
    rw [execute]
    apply steps.bindExpr hcondition
    intro test
    split
    · apply hbody.bind steps.stmt_trans
      intro flow
      cases flow with
      | returned value => exact hdone (.returned value)
      | normal => exact ih.execute (.whileLoop condition body)
    · exact hdone .normal
  | funDecl declaration =>
    rw [execute]
    exact (steps.declare declaration).bind steps.stmt_trans fun _ => hdone .normal
  | returnValue keyword value =>
    cases value with
    | none =>
      rw [execute]
      exact hdone (.returned .nil)
    | some value =>
      have hvalue := ih.evaluate value
      rw [execute]
      exact steps.bindExpr hvalue fun value => hdone (.returned value)
  | classDecl name superclass methods =>
    rw [execute]
    exact (steps.define name .nil).bind steps.stmt_trans fun _ => hdone .normal

theorem executeAll_leaves (ss : List Stmt) : Leaves X (executeAll (fuel + 1) ss) := by
  cases ss with
  | nil =>
    rw [executeAll]
    exact leaves_pure steps.stmt_refl Flow.normal
  | cons s ss =>
    have hfirst := ih.execute s
    rw [executeAll]
    apply hfirst.bind steps.stmt_trans
    intro flow
    cases flow with
    | returned value => exact leaves_pure steps.stmt_refl (Flow.returned value)
    | normal => exact ih.executeAll ss

end

/-- What every step keeps, every run keeps. -/
theorem KeptBySteps.runs {E X : State → State → Prop} (steps : KeptBySteps E X) (fuel : Nat) :
    KeptByRuns E X fuel := by
  induction fuel with
  | zero =>
    have hstmt := steps.stmt_refl
    refine ⟨?_, ?_, ?_, ?_, ?_⟩ <;> intros
    · exact leaves_outOfFuel steps.refl
    · exact leaves_outOfFuel steps.refl
    · exact leaves_outOfFuel steps.refl
    · exact leaves_outOfFuel hstmt
    · exact leaves_outOfFuel hstmt
  | succ fuel ih =>
    exact ⟨evaluate_leaves steps ih, evaluateAll_leaves steps ih, call_leaves steps ih,
      execute_leaves steps ih, executeAll_leaves steps ih⟩

theorem KeptByRuns.interpret {E X : State → State → Prop} {fuel : Nat}
    (steps : KeptBySteps E X) (runs : KeptByRuns E X fuel) (program : List Stmt) :
    Leaves X (interpret fuel program) :=
  (runs.executeAll program).bind steps.stmt_trans fun _ => leaves_flush steps.stmt_refl

/-- What every program leaves, every unit leaves. -/
theorem Session.run_leaves {R : State → State → Prop} (hrefl : ∀ s, R s s) {fuel : Nat}
    (hprogram : ∀ program, Leaves R (TreeWalk.interpret fuel program)) {s t : State}
    {source : String} {diagnostics : Diagnostics}
    (h : run fuel s source = some (diagnostics, t)) : R s t := by
  have hrun := hprogram (Reading.program source).tree
  unfold run at h
  dsimp only at h
  split at h
  · cases h
    exact hrefl s
  · split at h
    · next hf =>
      cases h
      exact hrun.finish hf
    · next hf =>
      cases h
      exact hrun.finish hf
    · cases h

end TreeWalk
