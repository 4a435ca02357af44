import TreeWalk.Proofs.Machine.Sequence

/-!
Calls. A call runs the body of a function in a new scope, and whatever way the body ends, the call
has a value: the one that was returned, or `nil` if the body ran through.
-/

namespace TreeWalk

open Run

/-- The value of a call whose body ended so. -/
def Flow.result : Flow → Value
  | .normal => .nil
  | .returned value => value

/-- The parameters with their arguments; of parameters with one name the last counts. -/
def Function.bindings (function : Function) (values : List Value) : List (String × Value) :=
  ((function.declaration.params.map (·.lexeme)).zip values).foldl
    (fun bs b => Scope.put b.1 b.2 bs) []

/-- The state in which a body starts when the function is called from `s`. -/
def Function.entered (function : Function) (values : List Value) (s : State) : State :=
  ⟨s.heap.addScope function.closure (function.bindings values), s.heap.nextScope, s.sink⟩

/-- What a call from `s` comes to when the body ended as `f`. -/
def Finished.left (s : State) (f : Finished Flow) : Finished Value :=
  ⟨f.result.map Flow.result, { f.state with active := s.active }⟩

/-- The end of a run inside a new scope, in the scope that was active before. -/
theorem finish_inside {α : Type} {body : Run α} {outer : ScopeId}
    {bindings : List (String × Value)} {s : State} {f : Finished α} :
    (inside outer bindings body).finish s = some f ↔
      ∃ t, body.finish ⟨s.heap.addScope outer bindings, s.heap.nextScope, s.sink⟩ =
          some ⟨f.result, t⟩ ∧ f.state = { t with active := s.active } := by
  obtain ⟨heap, active, sink⟩ := s
  obtain ⟨result, u⟩ := f
  have hdone : ∀ (r : Except Failure α) (t : State),
      some (Finished.mk r { t with active := active }) = some ⟨result, u⟩ ↔
        ∃ v, some (Finished.mk r t) = some ⟨result, v⟩ ∧ u = { v with active := active } := by
    intro r t
    constructor
    · rintro ⟨⟩
      exact ⟨t, rfl, rfl⟩
    · rintro ⟨_, ⟨⟩, rfl⟩
      rfl
  unfold Run.finish inside within
  dsimp only
  rcases body ⟨heap.addScope outer bindings, heap.nextScope, sink⟩ with
    ⟨a, t⟩ | ⟨⟨failure⟩ | _, t⟩
  · exact hdone (.ok a) t
  · exact hdone (.error failure) t
  · simp

theorem ends_inside {α : Type} {body : Nat → Run α} {outer : ScopeId}
    {bindings : List (String × Value)} {s : State} {f : Finished α} :
    Ends (fun fuel => inside outer bindings (body fuel)) s f ↔
      ∃ t, Ends body ⟨s.heap.addScope outer bindings, s.heap.nextScope, s.sink⟩ ⟨f.result, t⟩ ∧
        f.state = { t with active := s.active } := by
  constructor
  · rintro ⟨fuel, h⟩
    obtain ⟨t, hbody, hstate⟩ := finish_inside.1 h
    exact ⟨t, ⟨fuel, hbody⟩, hstate⟩
  · rintro ⟨t, ⟨fuel, hbody⟩, hstate⟩
    exact ⟨fuel, finish_inside.2 ⟨t, hbody, hstate⟩⟩

theorem ends_pure {α : Type} {a : α} {s : State} {f : Finished α} :
    Ends (fun _ => pure a) s f ↔ f = ⟨.ok a, s⟩ := by
  constructor
  · rintro ⟨_, h⟩
    cases h
    rfl
  · rintro rfl
    exact ⟨0, rfl⟩

theorem call_succ (fuel : Nat) (function : Function) (values : List Value) :
    call (fuel + 1) function values =
      inside function.closure (function.bindings values)
        (executeAll fuel function.declaration.body) >>= fun flow => pure flow.result := by
  rw [call]
  congr 1
  funext flow
  cases flow <;> rfl

/-- A call ends as the body does, but for a `return`. -/
theorem ends_call {function : Function} {values : List Value} {s : State} {f : Finished Value} :
    Ends (call · function values) s f ↔
      ∃ g, Executes (function.entered values s) function.declaration.body g ∧ f = g.left s := by
  have hgrowing : Growing fun fuel => inside function.closure (function.bindings values)
      (executeAll fuel function.declaration.body) :=
    fun few many h => ((fuelExtends h).executeAll _).inside _ _
  rw [ends_succ rfl]
  simp only [call_succ]
  rw [ends_bind hgrowing fun flow => growing_const (pure flow.result)]
  simp only [ends_inside, ends_pure, ends_executeAll]
  constructor
  · rintro (⟨flow, u, ⟨t, hbody, rfl⟩, rfl⟩ | ⟨failure, u, ⟨t, hbody, rfl⟩, rfl⟩)
    · exact ⟨_, hbody, rfl⟩
    · exact ⟨_, hbody, rfl⟩
  · rintro ⟨⟨failure | flow, t⟩, hbody, rfl⟩
    · exact .inr ⟨failure, _, ⟨t, hbody, rfl⟩, rfl⟩
    · exact .inl ⟨flow, _, ⟨t, hbody, rfl⟩, rfl⟩

/-- What a call expression does with the callee and the arguments. -/
def applied (paren : Token) (values : List Value) (fuel : Nat) : Value → Run Value
  | .function function =>
    if values.length = function.arity then call fuel function values
    else failAt paren (.arity function.arity values.length)
  | _ => failAt paren .notCallable

theorem evaluate_call (fuel : Nat) (callee : Expr) (paren : Token) (arguments : List Expr) :
    evaluate (fuel + 1) (.call callee paren arguments) =
      evaluate fuel callee >>= fun value =>
        evaluateAll fuel arguments >>= fun values => applied paren values fuel value := by
  rw [evaluate]
  congr 1

theorem growing_applied (paren : Token) (values : List Value) (value : Value) :
    Growing (applied paren values · value) := by
  intro few many h
  cases value with
  | function function =>
    dsimp only [applied]
    split
    · exact growing_call function values few many h
    · exact .refl _
  | _ => exact .refl _

theorem ends_applied {paren : Token} {values : List Value} {callee value : Value} {s t : State} :
    Ends (applied paren values · callee) s ⟨.ok value, t⟩ ↔
      ∃ function, callee = .function function ∧ values.length = function.arity ∧
        Ends (call · function values) s ⟨.ok value, t⟩ := by
  have hfailed : ∀ fault : RuntimeFault,
      ¬ Ends (fun _ => failAt paren fault) s (⟨.ok value, t⟩ : Finished Value) := by
    rintro fault ⟨_, ⟨⟩⟩
  constructor
  · intro h
    cases callee with
    | function function =>
      by_cases harity : values.length = function.arity
      · simp only [applied, if_pos harity] at h
        exact ⟨function, rfl, harity, h⟩
      · simp only [applied, if_neg harity] at h
        exact (hfailed _ h).elim
    | _ => exact (hfailed _ h).elim
  · rintro ⟨function, rfl, harity, h⟩
    simp only [applied, if_pos harity]
    exact h

/-- A call expression has a value if the callee and the arguments have theirs and the body ends
without a failure. It is the value that the body returned. -/
theorem ends_evaluate_call {callee : Expr} {paren : Token} {arguments : List Expr} {s t : State}
    {value : Value} :
    Ends (evaluate · (.call callee paren arguments)) s ⟨.ok value, t⟩ ↔
      ∃ function u values v flow w, Ends (evaluate · callee) s ⟨.ok (.function function), u⟩ ∧
        Ends (evaluateAll · arguments) u ⟨.ok values, v⟩ ∧ values.length = function.arity ∧
        Executes (function.entered values v) function.declaration.body ⟨.ok flow, w⟩ ∧
        value = flow.result ∧ t = { w with active := v.active } := by
  have hgrowing : ∀ value, Growing fun fuel =>
      evaluateAll fuel arguments >>= fun values => applied paren values fuel value :=
    fun value => (growing_evaluateAll arguments).bind fun values =>
      growing_applied paren values value
  have hvalues : ∀ callee u, Ends (fun fuel => evaluateAll fuel arguments >>= fun values =>
      applied paren values fuel callee) u ⟨.ok value, t⟩ ↔
        ∃ values v, Ends (evaluateAll · arguments) u ⟨.ok values, v⟩ ∧
          Ends (applied paren values · callee) v ⟨.ok value, t⟩ := by
    intro callee u
    rw [ends_bind (growing_evaluateAll arguments) fun values => growing_applied paren values callee]
    simp
  rw [ends_succ rfl]
  simp only [evaluate_call]
  rw [ends_bind (growing_evaluate callee) hgrowing]
  simp only [hvalues, ends_applied, ends_call]
  constructor
  · rintro (⟨_, u, hcallee, values, v, harguments, function, rfl, harity, g, hbody, hleft⟩ | h)
    · obtain ⟨failure | flow, w⟩ := g
      · cases hleft
      · cases hleft
        exact ⟨function, u, values, v, flow, w, hcallee, harguments, harity, hbody, rfl, rfl⟩
    · obtain ⟨failure, u, _, ⟨⟩⟩ := h
  · rintro ⟨function, u, values, v, flow, w, hcallee, harguments, harity, hbody, rfl, rfl⟩
    exact .inl ⟨_, u, hcallee, values, v, harguments, function, rfl, harity, _, hbody, rfl⟩

end TreeWalk
