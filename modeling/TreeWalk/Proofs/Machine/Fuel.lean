import TreeWalk.Proofs.Machine.Leaves

/-!
More fuel changes nothing about a run that finishes. So how a program runs is told without fuel:
`Ends run s f` says that with enough of it the run from `s` finishes as `f`.
-/

namespace TreeWalk

namespace Run

variable {α β : Type}

/-- Wherever `m` does not run out of fuel, `n` does the same. -/
def Extends (m n : Run α) : Prop := ∀ s, (∃ t, m s = .error .outOfFuel t) ∨ n s = m s

theorem Extends.refl (m : Run α) : Extends m m := fun _ => .inr rfl

theorem outOfFuel_extends (m : Run α) : Extends outOfFuel m := fun s => .inl ⟨s, rfl⟩

theorem Extends.bind {m n : Run α} {f g : α → Run β} (hm : Extends m n)
    (hf : ∀ a, Extends (f a) (g a)) : Extends (m >>= f) (n >>= g) := by
  intro s
  change (∃ t, EStateM.bind m f s = _) ∨ EStateM.bind n g s = EStateM.bind m f s
  unfold EStateM.bind
  rcases hm s with ⟨t, hout⟩ | hsame
  · left
    rw [hout]
    exact ⟨t, rfl⟩
  · rw [hsame]
    cases m s with
    | ok a t => exact hf a t
    | error e t => exact .inr rfl

theorem Extends.inside {m n : Run α} (h : Extends m n) (outer : ScopeId)
    (bindings : List (String × Value)) :
    Extends (inside outer bindings m) (inside outer bindings n) := by
  rintro ⟨heap, active, sink⟩
  unfold Run.inside within
  dsimp only
  rcases h ⟨heap.addScope outer bindings, heap.nextScope, sink⟩ with ⟨t, hout⟩ | hsame
  · left
    rw [hout]
    exact ⟨_, rfl⟩
  · right
    rw [hsame]

theorem Extends.nested {m n : Run α} (h : Extends m n) : Extends (nested m) (nested n) :=
  fun s => h.inside s.active [] s

theorem Extends.finish {m n : Run α} (h : Extends m n) {s : State} {f : Finished α}
    (hf : m.finish s = some f) : n.finish s = some f := by
  rcases h s with ⟨t, hout⟩ | hsame
  · rw [Run.finish, hout] at hf
    cases hf
  · rw [Run.finish, hsame]
    exact hf

end Run

open Run

/-- Every rule with fuel `many` extends itself with fuel `few`. -/
structure FuelExtends (few many : Nat) : Prop where
  evaluate : ∀ e : Expr, Extends (evaluate few e) (evaluate many e)
  evaluateAll : ∀ es : List Expr, Extends (evaluateAll few es) (evaluateAll many es)
  call : ∀ (function : Function) (values : List Value),
    Extends (call few function values) (call many function values)
  execute : ∀ s : Stmt, Extends (execute few s) (execute many s)
  executeAll : ∀ ss : List Stmt, Extends (executeAll few ss) (executeAll many ss)

section

variable {few many : Nat} (ih : FuelExtends few many)
include ih

theorem evaluate_extends (e : Expr) : Extends (evaluate (few + 1) e) (evaluate (many + 1) e) := by
  cases e with
  | literal value => exact .refl _
  | group inner => exact ih.evaluate inner
  | unary operator right => exact (ih.evaluate right).bind fun _ => .refl _
  | binary left operator right =>
    exact (ih.evaluate left).bind fun _ => (ih.evaluate right).bind fun _ => .refl _
  | logical left operator right =>
    apply (ih.evaluate left).bind
    intro value
    split
    · exact .refl _
    · exact ih.evaluate right
  | reference name => exact .refl _
  | assign name value => exact (ih.evaluate value).bind fun _ => .refl _
  | call callee paren arguments =>
    apply (ih.evaluate callee).bind
    intro callee
    apply (ih.evaluateAll arguments).bind
    intro values
    cases callee with
    | function function =>
      dsimp only
      split
      · exact ih.call function values
      · exact .refl _
    | _ => exact .refl _

theorem evaluateAll_extends (es : List Expr) :
    Extends (evaluateAll (few + 1) es) (evaluateAll (many + 1) es) := by
  cases es with
  | nil => exact .refl _
  | cons e es => exact (ih.evaluate e).bind fun _ => (ih.evaluateAll es).bind fun _ => .refl _

theorem call_extends (function : Function) (values : List Value) :
    Extends (call (few + 1) function values) (call (many + 1) function values) :=
  ((ih.executeAll function.declaration.body).inside _ _).bind fun _ => .refl _

theorem execute_extends (s : Stmt) : Extends (execute (few + 1) s) (execute (many + 1) s) := by
  cases s with
  | expression value => exact (ih.evaluate value).bind fun _ => .refl _
  | print value => exact (ih.evaluate value).bind fun _ => .refl _
  | varDecl name initial =>
    cases initial with
    | none => exact .refl _
    | some initial => exact (ih.evaluate initial).bind fun _ => .refl _
  | block body => exact (ih.executeAll body).nested
  | ifElse condition thenBranch elseBranch =>
    rw [execute_ifElse, execute_ifElse]
    apply (ih.evaluate condition).bind
    intro test
    split
    · exact ih.execute thenBranch
    · cases elseBranch with
      | none => exact .refl _
      | some elseBranch => exact ih.execute elseBranch
  | whileLoop condition body =>
    apply (ih.evaluate condition).bind
    intro test
    split
    · apply (ih.execute body).bind
      intro flow
      cases flow with
      | returned value => exact .refl _
      | normal => exact ih.execute (.whileLoop condition body)
    · exact .refl _
  | funDecl declaration => exact .refl _
  | returnValue keyword value =>
    cases value with
    | none => exact .refl _
    | some value => exact (ih.evaluate value).bind fun _ => .refl _
  | classDecl name superclass methods => exact .refl _

theorem executeAll_extends (ss : List Stmt) :
    Extends (executeAll (few + 1) ss) (executeAll (many + 1) ss) := by
  cases ss with
  | nil => exact .refl _
  | cons s ss =>
    apply (ih.execute s).bind
    intro flow
    cases flow with
    | returned value => exact .refl _
    | normal => exact ih.executeAll ss

end

theorem fuelExtends {few many : Nat} (h : few ≤ many) : FuelExtends few many := by
  induction few generalizing many with
  | zero =>
    constructor <;> intros
    all_goals exact outOfFuel_extends _
  | succ few ih =>
    obtain ⟨many, rfl⟩ := Nat.exists_eq_add_of_le' h
    have hless : FuelExtends few (many + few) := ih (Nat.le_add_left few many)
    exact ⟨evaluate_extends hless, evaluateAll_extends hless, call_extends hless,
      execute_extends hless, executeAll_extends hless⟩

/-! ## Runs with fuel enough -/

namespace Run

variable {α β : Type}

/-- With enough fuel the run from `s` finishes as `f`. -/
def Ends (m : Nat → Run α) (s : State) (f : Finished α) : Prop :=
  ∃ fuel, (m fuel).finish s = some f

/-- More fuel extends the run. -/
def Growing (m : Nat → Run α) : Prop := ∀ few many, few ≤ many → Extends (m few) (m many)

theorem growing_const (m : Run α) : Growing fun _ => m := fun _ _ _ => .refl m

theorem Growing.bind {m : Nat → Run α} {next : Nat → α → Run β} (hm : Growing m)
    (hnext : ∀ a, Growing (next · a)) : Growing fun fuel => m fuel >>= next fuel :=
  fun few many h => (hm few many h).bind fun a => hnext a few many h

theorem growing_evaluate (e : Expr) : Growing (evaluate · e) :=
  fun _ _ h => (fuelExtends h).evaluate e

theorem growing_evaluateAll (es : List Expr) : Growing (evaluateAll · es) :=
  fun _ _ h => (fuelExtends h).evaluateAll es

theorem growing_call (function : Function) (values : List Value) :
    Growing (call · function values) :=
  fun _ _ h => (fuelExtends h).call function values

theorem growing_execute (s : Stmt) : Growing (execute · s) :=
  fun _ _ h => (fuelExtends h).execute s

theorem growing_executeAll (ss : List Stmt) : Growing (executeAll · ss) :=
  fun _ _ h => (fuelExtends h).executeAll ss

theorem growing_interpret (program : List Stmt) : Growing (interpret · program) :=
  fun _ _ h => ((fuelExtends h).executeAll program).bind fun _ => .refl _

/-- A run finishes in one way only. -/
theorem Growing.ends_unique {m : Nat → Run α} (hm : Growing m) {s : State} {f g : Finished α}
    (hf : Ends m s f) (hg : Ends m s g) : f = g := by
  obtain ⟨few, hf⟩ := hf
  obtain ⟨many, hg⟩ := hg
  have hf' := (hm few (max few many) (Nat.le_max_left _ _)).finish hf
  have hg' := (hm many (max few many) (Nat.le_max_right _ _)).finish hg
  exact Option.some.inj (hf'.symm.trans hg')

/-- All fuels from one on let the run finish so. -/
theorem Growing.ends_from {m : Nat → Run α} (hm : Growing m) {s : State} {f : Finished α}
    (hf : Ends m s f) : ∃ few, ∀ fuel, few ≤ fuel → (m fuel).finish s = some f := by
  obtain ⟨few, hf⟩ := hf
  exact ⟨few, fun fuel h => (hm few fuel h).finish hf⟩

theorem finish_bind {m : Run α} {next : α → Run β} {s : State} {f : Finished β} :
    (m >>= next).finish s = some f ↔
      (∃ a t, m.finish s = some ⟨.ok a, t⟩ ∧ (next a).finish t = some f) ∨
      ∃ failure t, m.finish s = some ⟨.error failure, t⟩ ∧ f = ⟨.error failure, t⟩ := by
  have hbind : (m >>= next) s = EStateM.bind m next s := rfl
  unfold Run.finish
  rw [hbind, EStateM.bind]
  rcases m s with ⟨a, t⟩ | ⟨⟨failure⟩ | _, t⟩
  · simp only [Option.some.injEq, Finished.mk.injEq, Except.ok.injEq, reduceCtorEq, false_and,
      exists_false, or_false]
    constructor
    · exact fun h => ⟨a, t, ⟨rfl, rfl⟩, h⟩
    · rintro ⟨_, _, ⟨rfl, rfl⟩, h⟩
      exact h
  · simp only [Option.some.injEq, Finished.mk.injEq, Except.error.injEq, reduceCtorEq, false_and,
      exists_false, false_or]
    constructor
    · rintro rfl
      exact ⟨failure, t, ⟨rfl, rfl⟩, rfl⟩
    · rintro ⟨_, _, ⟨rfl, rfl⟩, rfl⟩
      rfl
  · simp

/-- A sequence of two runs ends as its second part does, or as its first if that fails. -/
theorem ends_bind {m : Nat → Run α} {next : Nat → α → Run β} (hm : Growing m)
    (hnext : ∀ a, Growing (next · a)) {s : State} {f : Finished β} :
    Ends (fun fuel => m fuel >>= next fuel) s f ↔
      (∃ a t, Ends m s ⟨.ok a, t⟩ ∧ Ends (next · a) t f) ∨
      ∃ failure t, Ends m s ⟨.error failure, t⟩ ∧ f = ⟨.error failure, t⟩ := by
  constructor
  · rintro ⟨fuel, h⟩
    rcases finish_bind.1 h with ⟨a, t, hfirst, hsecond⟩ | ⟨failure, t, hfirst, rfl⟩
    · exact .inl ⟨a, t, ⟨fuel, hfirst⟩, fuel, hsecond⟩
    · exact .inr ⟨failure, t, ⟨fuel, hfirst⟩, rfl⟩
  · rintro (⟨a, t, ⟨few, hfirst⟩, many, hsecond⟩ | ⟨failure, t, ⟨fuel, hfirst⟩, rfl⟩)
    · have hfirst' := (hm few (max few many) (Nat.le_max_left _ _)).finish hfirst
      have hsecond' := (hnext a many (max few many) (Nat.le_max_right _ _)).finish hsecond
      exact ⟨max few many, finish_bind.2 (.inl ⟨a, t, hfirst', hsecond'⟩)⟩
    · exact ⟨fuel, finish_bind.2 (.inr ⟨failure, t, hfirst, rfl⟩)⟩

end Run

end TreeWalk
