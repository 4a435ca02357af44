import TreeWalk.Proofs.Machine.Fuel

/-!
Statements one after another. A list of statements runs as its statements do in order, up to the
first that does not end normally; so a list in two parts runs as the second part does after the
first, and a program that fails has one statement at which it does.
-/

namespace TreeWalk

open Run

/-- Executing the statements in order from `s` finishes as `f`. -/
inductive Executes : State → List Stmt → Finished Flow → Prop
  | done {s : State} : Executes s [] ⟨.ok .normal, s⟩
  | next {s t : State} {first : Stmt} {more : List Stmt} {f : Finished Flow} :
    Ends (execute · first) s ⟨.ok .normal, t⟩ → Executes t more f → Executes s (first :: more) f
  | stop {s : State} {first : Stmt} {more : List Stmt} {f : Finished Flow} :
    Ends (execute · first) s f → f.result ≠ .ok .normal → Executes s (first :: more) f

theorem ends_succ {α : Type} {m : Nat → Run α} (hm : m 0 = outOfFuel) {s : State}
    {f : Finished α} : Ends m s f ↔ Ends (fun fuel => m (fuel + 1)) s f := by
  constructor
  · rintro ⟨fuel, h⟩
    cases fuel with
    | zero =>
      rw [hm] at h
      cases h
    | succ fuel => exact ⟨fuel, h⟩
  · rintro ⟨fuel, h⟩
    exact ⟨fuel + 1, h⟩

/-- What `executeAll` does after the first statement. -/
def afterFirst (more : List Stmt) (fuel : Nat) : Flow → Run Flow
  | .returned value => return .returned value
  | .normal => executeAll fuel more

theorem executeAll_cons (fuel : Nat) (first : Stmt) (more : List Stmt) :
    executeAll (fuel + 1) (first :: more) = execute fuel first >>= afterFirst more fuel := by
  rw [executeAll]
  congr 1

theorem ends_executeAll {s : State} {ss : List Stmt} {f : Finished Flow} :
    Ends (executeAll · ss) s f ↔ Executes s ss f := by
  induction ss generalizing s f with
  | nil =>
    rw [ends_succ rfl]
    constructor
    · rintro ⟨fuel, h⟩
      cases h
      exact .done
    · rintro ⟨⟩
      exact ⟨0, rfl⟩
  | cons first more ih =>
    have hgrowing : ∀ flow, Growing (afterFirst more · flow) := by
      intro flow few many h
      cases flow with
      | returned value => exact .refl _
      | normal => exact growing_executeAll more few many h
    rw [ends_succ rfl]
    simp only [executeAll_cons]
    rw [ends_bind (growing_execute first) hgrowing]
    constructor
    · rintro (⟨flow, t, hfirst, hmore⟩ | ⟨failure, t, hfirst, rfl⟩)
      · cases flow with
        | normal => exact .next hfirst (ih.1 hmore)
        | returned value =>
          obtain ⟨fuel, hmore⟩ := hmore
          cases hmore
          exact .stop hfirst (by simp)
      · exact .stop hfirst (by simp)
    · intro h
      cases h with
      | next hfirst hmore => exact .inl ⟨.normal, _, hfirst, ih.2 hmore⟩
      | stop hfirst hne =>
        obtain ⟨result, t⟩ := f
        rcases result with failure | _ | value
        · exact .inr ⟨failure, t, hfirst, rfl⟩
        · exact absurd rfl hne
        · exact .inl ⟨.returned value, t, hfirst, 0, rfl⟩

/-- The statements of a list in two parts are executed part by part. -/
theorem executes_append {s : State} {ps qs : List Stmt} {f : Finished Flow} :
    Executes s (ps ++ qs) f ↔
      (∃ t, Executes s ps ⟨.ok .normal, t⟩ ∧ Executes t qs f) ∨
      f.result ≠ .ok .normal ∧ Executes s ps f := by
  constructor
  · intro h
    induction ps generalizing s with
    | nil => exact .inl ⟨s, .done, h⟩
    | cons first more ih =>
      cases h with
      | next hfirst hmore =>
        rcases ih hmore with ⟨t, hpart, hrest⟩ | ⟨hne, hpart⟩
        · exact .inl ⟨t, .next hfirst hpart, hrest⟩
        · exact .inr ⟨hne, .next hfirst hpart⟩
      | stop hfirst hne => exact .inr ⟨hne, .stop hfirst hne⟩
  · rintro (⟨t, hpart, hrest⟩ | ⟨hne, hpart⟩)
    · induction ps generalizing s with
      | nil =>
        cases hpart
        exact hrest
      | cons first more ih =>
        cases hpart with
        | next hfirst hmore => exact .next hfirst (ih hmore)
        | stop _ hne => exact absurd rfl hne
    · induction ps generalizing s with
      | nil =>
        cases hpart
        exact absurd rfl hne
      | cons first more ih =>
        cases hpart with
        | next hfirst hmore => exact .next hfirst (ih hmore)
        | stop hfirst _ => exact .stop hfirst hne

theorem Executes.unique {s : State} {ss : List Stmt} {f g : Finished Flow}
    (hf : Executes s ss f) (hg : Executes s ss g) : f = g :=
  (growing_executeAll ss).ends_unique (ends_executeAll.2 hf) (ends_executeAll.2 hg)

/-- What stands behind statements that end normally is executed in the state they leave. -/
theorem executes_append_of_normal {s t : State} {ps qs : List Stmt} {f : Finished Flow}
    (h : Executes s ps ⟨.ok .normal, t⟩) : Executes s (ps ++ qs) f ↔ Executes t qs f := by
  rw [executes_append]
  constructor
  · rintro (⟨u, hu, hmore⟩ | ⟨hne, hf⟩)
    · cases h.unique hu
      exact hmore
    · cases h.unique hf
      exact absurd rfl hne
  · exact fun hmore => .inl ⟨t, h, hmore⟩

/-- What stands behind a failure is not executed. -/
theorem executes_append_of_error {s t : State} {ps qs : List Stmt} {failure : Failure}
    {f : Finished Flow} (h : Executes s ps ⟨.error failure, t⟩) :
    Executes s (ps ++ qs) f ↔ f = ⟨.error failure, t⟩ := by
  rw [executes_append]
  constructor
  · rintro (⟨u, hu, _⟩ | ⟨_, hf⟩)
    · cases h.unique hu
    · exact (h.unique hf).symm
  · rintro rfl
    exact .inr ⟨by simp, h⟩

/-- A failure has its statement: those before it ended normally, those behind it are not
executed. -/
theorem executes_error {s t : State} {ss : List Stmt} {failure : Failure}
    (h : Executes s ss ⟨.error failure, t⟩) :
    ∃ before first after, ∃ u : State, ss = before ++ first :: after ∧
      Executes s before ⟨.ok .normal, u⟩ ∧ Ends (execute · first) u ⟨.error failure, t⟩ := by
  generalize hf : (⟨.error failure, t⟩ : Finished Flow) = f at h
  induction h with
  | done => cases hf
  | @next s u first more f hfirst _ ih =>
    obtain ⟨before, failing, after, v, rfl, hbefore, hfailing⟩ := ih hf
    exact ⟨first :: before, failing, after, v, rfl, .next hfirst hbefore, hfailing⟩
  | @stop s first more f hfirst _ =>
    subst hf
    exact ⟨[], first, more, s, rfl, .done, hfirst⟩

/-- The end of a program whose statements ended normally. -/
def flushed (t : State) : Finished Unit :=
  if t.sink.flushFails then ⟨.error (.sink .flush), t⟩ else ⟨.ok (), t⟩

theorem ends_interpret {s : State} {program : List Stmt} {f : Finished Unit} :
    Ends (interpret · program) s f ↔
      (∃ flow t, Executes s program ⟨.ok flow, t⟩ ∧ f = flushed t) ∨
      ∃ failure t, Executes s program ⟨.error failure, t⟩ ∧ f = ⟨.error failure, t⟩ := by
  have hflush : ∀ {t : State}, Ends (fun _ => flush) t f ↔ f = flushed t := by
    intro t
    have hfinish : flush.finish t = some (flushed t) := by
      unfold Run.finish flush flushed
      cases t.sink.flushFails <;> rfl
    constructor
    · rintro ⟨_, h⟩
      exact Option.some.inj (h.symm.trans hfinish)
    · rintro rfl
      exact ⟨0, hfinish⟩
  have hflushing : ∀ _ : Flow, Growing fun _ => flush := fun _ _ _ _ => .refl _
  have hbind := ends_bind (f := f) (s := s) (growing_executeAll program) hflushing
  simp only [ends_executeAll, hflush] at hbind
  exact hbind

/-- A program behind statements that end normally runs as it does alone. -/
theorem ends_interpret_append {s t : State} {ps qs : List Stmt} {f : Finished Unit}
    (h : Executes s ps ⟨.ok .normal, t⟩) :
    Ends (interpret · (ps ++ qs)) s f ↔ Ends (interpret · qs) t f := by
  simp only [ends_interpret, executes_append_of_normal h]

/-- A program fails where its first part does. -/
theorem ends_interpret_of_error {s t : State} {ps qs : List Stmt} {failure : Failure}
    {f : Finished Unit} (h : Executes s ps ⟨.error failure, t⟩) :
    Ends (interpret · (ps ++ qs)) s f ↔ f = ⟨.error failure, t⟩ := by
  simp only [ends_interpret, executes_append_of_error h, Finished.mk.injEq, Except.error.injEq,
    reduceCtorEq, false_and, exists_false, false_or]
  constructor
  · rintro ⟨_, _, ⟨rfl, rfl⟩, rfl⟩
    rfl
  · rintro rfl
    exact ⟨failure, t, ⟨rfl, rfl⟩, rfl⟩

end TreeWalk
