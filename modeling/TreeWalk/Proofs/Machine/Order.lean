import TreeWalk.Proofs.Machine.Composition
import TreeWalk.Proofs.Machine.InFlight
import TreeWalk.Proofs.Machine.Names

/-!
Moments in their order. A moment comes after another if a task in which the other came has ended by
then: a later part of the same statement, a later statement or a later unit has begun. From the one
to the other the heap has only grown.
-/

namespace TreeWalk

open Run

/-! ## Heaps that grow -/

/-- Every scope is still there, inside the same scope and with the names it bound. -/
abbrev Heap.Grows (h k : Heap) : Prop := h.Declares (fun _ => True) k

theorem Heap.Grows.size_le {h k : Heap} (hk : h.Grows k) : h.scopes.size ≤ k.scopes.size := by
  apply Keeps.size_le
  intro i scope hi
  obtain ⟨kept, hkept, henclosing, _⟩ := hk i scope hi
  exact ⟨kept, hkept, henclosing⟩

theorem Heap.Declares.grows {h k : Heap} {places : ScopeId → Prop} (hk : h.Declares places k) :
    h.Grows k := hk.mono fun _ _ _ => trivial

def State.Grows (s t : State) : Prop := s.heap.Grows t.heap

theorem State.Grows.refl (s : State) : s.Grows s := Heap.Declares.refl _ _

theorem State.Grows.trans (s t u : State) (hst : s.Grows t) (htu : t.Grows u) : s.Grows u :=
  Heap.Declares.trans hst htu

theorem inside_grows {α : Type} (outer : ScopeId) (bindings : List (String × Value))
    {body : Run α} (hbody : Leaves State.Grows body) :
    Leaves State.Grows (inside outer bindings body) := by
  intro s
  have hrun : (inside outer bindings body).after s =
      (within s.heap.nextScope body).after { s with heap := s.heap.addScope outer bindings } := rfl
  rw [hrun, after_within]
  have hadded := (s.heap.sameNames_addScope outer bindings).grows
  exact hadded.trans (hbody ⟨s.heap.addScope outer bindings, s.heap.nextScope, s.sink⟩)

theorem grows_steps : Compositional fun {_} m => Leaves State.Grows m where
  pure := leaves_pure State.Grows.refl
  bind := fun hm hnext => hm.bind State.Grows.trans hnext
  outOfFuel := leaves_outOfFuel State.Grows.refl
  failAt := leaves_failAt State.Grows.refl
  read := leaves_read State.Grows.refl
  define := fun name value s => (s.heap.declares_define s.active name.lexeme value).grows
  assign := fun name value s => (assign_sameNames name value s).names.grows
  declare := fun declaration s => (declare_declares declaration s).names.grows
  printLine := fun text s => (printLine_sameNames text s).names.grows
  inside := inside_grows
  nested := fun hbody s => inside_grows s.active [] hbody s

theorem interpret_grows (fuel : Nat) (program : List Stmt) :
    Leaves State.Grows (interpret fuel program) :=
  grows_steps.bind (grows_steps.run fuel (.executeAll program)) fun _ =>
    leaves_flush State.Grows.refl

theorem ends_grows (task : Task) {s : State} {f : Finished task.Result}
    (h : Ends (task.run ·) s f) : s.Grows f.state := by
  obtain ⟨fuel, hfuel⟩ := h
  exact (grows_steps.run fuel task).finish hfuel

/-- A part begins in a heap that has grown. -/
theorem Starts.grows {m n : Moment} (h : Starts m n) : m.state.Grows n.state := by
  cases h with
  | inner | operand | left | decision | assigned | callee | firstValue | expression | printed
  | initial | condition | test | returned | first => exact .refl _
  | right hfirst | alternative hfirst | arguments hfirst | moreValues hfirst
  | thenBranch hfirst | elseBranch hfirst | round hfirst => exact ends_grows (.evaluate _) hfirst
  | call hcallee harguments =>
    have hgrows := ends_grows (.evaluate _) hcallee
    exact hgrows.trans _ _ _ (ends_grows (.evaluateAll _) harguments)
  | body | block => exact (Heap.sameNames_addScope _ _ _).grows
  | again hcondition _ hbody =>
    have hgrows := ends_grows (.evaluate _) hcondition
    exact hgrows.trans _ _ _ (ends_grows (.execute _) hbody)
  | more hfirst => exact ends_grows (.execute _) hfirst

theorem Begins.grows {m n : Moment} (h : Begins m n) : m.state.Grows n.state := by
  induction h with
  | refl => exact .refl _
  | tail _ hstarts ih => exact ih.trans _ _ _ hstarts.grows

theorem Leads.grows {s t : State} {vs ws : List Value} (h : Leads s vs t ws) : s.Grows t := by
  induction h with
  | start => exact .refl _
  | unit _ hrun ih =>
    exact ih.trans _ _ _ (Session.run_leaves State.Grows.refl (interpret_grows _) hrun)
  | interpret fuel program _ ih => exact ih.trans _ _ _ (interpret_grows fuel program _)
  | evaluate fuel e _ ih => exact ih.trans _ _ _ (grows_steps.run fuel (.evaluate e) _)
  | evaluateAll fuel es _ ih => exact ih.trans _ _ _ (grows_steps.run fuel (.evaluateAll es) _)
  | execute fuel statement _ ih =>
    exact ih.trans _ _ _ (grows_steps.run fuel (.execute statement) _)
  | call fuel _ _ _ ih => exact ih.trans _ _ _ (grows_steps.run fuel (.call _ _) _)

/-! ## Parts that have ended -/

/-- The task has ended, and since then the heap has grown to that of `s`. -/
def Moment.EndsBefore (m : Moment) (s : State) : Prop :=
  ∃ f, Ends (m.task.run ·) m.state f ∧ f.state.Grows s

section

variable {β : Type} {s : State} {f : Finished β} {fuel : Nat}

/-- Of a run in two parts that ends, the first part has ended. -/
theorem endsBefore_of_first (task : Task) {next : task.Result → Run β}
    (hnext : ∀ a, Leaves State.Grows (next a)) (h : (task.run fuel >>= next).finish s = some f) :
    Moment.EndsBefore ⟨task, s⟩ f.state := by
  rcases finish_bind.1 h with ⟨a, t, hfirst, hsecond⟩ | ⟨failure, t, hfirst, rfl⟩
  · exact ⟨_, ⟨fuel, hfirst⟩, (hnext a).finish hsecond⟩
  · exact ⟨_, ⟨fuel, hfirst⟩, .refl t⟩

/-- If the first part has a result, the second ends as the whole does. -/
theorem finish_second {α : Type} {m : Nat → Run α} (hm : Growing m) {a : α} {t : State}
    (hfirst : Ends m s ⟨.ok a, t⟩) {next : α → Run β}
    (h : (m fuel >>= next).finish s = some f) : (next a).finish t = some f := by
  rcases finish_bind.1 h with ⟨b, u, hdone, hsecond⟩ | ⟨failure, u, hfailed, _⟩
  · cases hm.ends_unique hfirst ⟨fuel, hdone⟩
    exact hsecond
  · cases hm.ends_unique hfirst ⟨fuel, hfailed⟩

/-- A body that runs in a new scope has ended when the whole has. -/
theorem endsBefore_of_inside {outer : ScopeId} {bindings : List (String × Value)}
    {body : List Stmt} {f : Finished Flow}
    (h : (inside outer bindings (executeAll fuel body)).finish s = some f) :
    Moment.EndsBefore
      ⟨.executeAll body, ⟨s.heap.addScope outer bindings, s.heap.nextScope, s.sink⟩⟩ f.state := by
  obtain ⟨t, hbody, hstate⟩ := finish_inside.1 h
  refine ⟨⟨f.result, t⟩, ⟨fuel, hbody⟩, ?_⟩
  rw [hstate]
  exact Heap.Declares.refl _ _

theorem applied_grows (paren : Token) (values : List Value) (fuel : Nat) (callee : Value) :
    Leaves State.Grows (applied paren values fuel callee) := by
  cases callee with
  | function function =>
    dsimp only [applied]
    split
    · exact grows_steps.run fuel (.call function values)
    · exact grows_steps.failAt paren _
  | _ => exact grows_steps.failAt paren _

theorem afterFirst_grows (more : List Stmt) (fuel : Nat) (flow : Flow) :
    Leaves State.Grows (afterFirst more fuel flow) := by
  cases flow with
  | returned value => exact grows_steps.pure (Flow.returned value)
  | normal => exact grows_steps.run fuel (.executeAll more)

end

section

variable {s : State} {n : Moment} {fuel : Nat}

theorem evaluate_endsBefore {e : Expr} {f : Finished Value} (h : Starts ⟨.evaluate e, s⟩ n)
    (hf : (evaluate (fuel + 1) e).finish s = some f) : n.EndsBefore f.state := by
  have hrun := grows_steps.run fuel
  have hoperation : ∀ operator result,
      Leaves State.Grows (ofOperation operator result : Run Value) := grows_steps.ofOperation
  cases h with
  | inner => exact ⟨f, ⟨fuel, hf⟩, .refl _⟩
  | operand => exact endsBefore_of_first (.evaluate _) (fun _ => hoperation _ _) hf
  | @left left right operator =>
    refine endsBefore_of_first (.evaluate left) (fun _ => ?_) hf
    exact grows_steps.bind (hrun (.evaluate right)) fun _ => hoperation _ _
  | right hleft =>
    have hright := finish_second (growing_evaluate _) hleft hf
    exact endsBefore_of_first (.evaluate _) (fun _ => hoperation _ _) hright
  | @decision left right =>
    refine endsBefore_of_first (.evaluate left) (fun value => ?_) hf
    split
    · exact grows_steps.pure value
    · exact hrun (.evaluate right)
  | alternative hleft hdecides =>
    have hright := finish_second (growing_evaluate _) hleft hf
    rw [if_neg (by simp [hdecides])] at hright
    exact ⟨f, ⟨fuel, hright⟩, .refl _⟩
  | assigned =>
    refine endsBefore_of_first (.evaluate _) (fun value => ?_) hf
    exact grows_steps.bind (grows_steps.assign _ _) fun _ => grows_steps.pure value
  | @callee callee paren arguments =>
    rw [evaluate_call] at hf
    refine endsBefore_of_first (.evaluate callee) (fun value => ?_) hf
    exact grows_steps.bind (hrun (.evaluateAll arguments)) fun values =>
      applied_grows paren values fuel value
  | @arguments callee paren arguments value _ _ hcallee =>
    rw [evaluate_call] at hf
    have hrest := finish_second (growing_evaluate _) hcallee hf
    refine endsBefore_of_first (.evaluateAll arguments) (fun values => ?_) hrest
    exact applied_grows paren values fuel value
  | call hcallee harguments harity =>
    rw [evaluate_call] at hf
    have hrest := finish_second (growing_evaluate _) hcallee hf
    have hcall := finish_second (growing_evaluateAll _) harguments hrest
    simp only [applied, if_pos harity] at hcall
    exact ⟨f, ⟨fuel, hcall⟩, .refl _⟩

theorem evaluateAll_endsBefore {es : List Expr} {f : Finished (List Value)}
    (h : Starts ⟨.evaluateAll es, s⟩ n) (hf : (evaluateAll (fuel + 1) es).finish s = some f) :
    n.EndsBefore f.state := by
  cases h with
  | @firstValue e es =>
    refine endsBefore_of_first (.evaluate e) (fun value => ?_) hf
    exact grows_steps.bind (grows_steps.run fuel (.evaluateAll es)) fun _ => grows_steps.pure _
  | moreValues hfirst =>
    have hmore := finish_second (growing_evaluate _) hfirst hf
    exact endsBefore_of_first (.evaluateAll _) (fun _ => grows_steps.pure _) hmore

theorem call_endsBefore {function : Function} {values : List Value} {f : Finished Value}
    (h : Starts ⟨.call function values, s⟩ n)
    (hf : (call (fuel + 1) function values).finish s = some f) : n.EndsBefore f.state := by
  cases h with
  | body =>
    rw [call_succ] at hf
    rcases finish_bind.1 hf with ⟨flow, t, hbody, hdone⟩ | ⟨failure, t, hbody, rfl⟩
    · cases hdone
      exact endsBefore_of_inside hbody
    · exact endsBefore_of_inside hbody

theorem execute_endsBefore {statement : Stmt} {f : Finished Flow}
    (h : Starts ⟨.execute statement, s⟩ n)
    (hf : (execute (fuel + 1) statement).finish s = some f) : n.EndsBefore f.state := by
  have hrun := grows_steps.run fuel
  have hdone : ∀ flow : Flow, Leaves State.Grows (pure flow) := grows_steps.pure
  cases h with
  | expression => exact endsBefore_of_first (.evaluate _) (fun _ => hdone .normal) hf
  | printed =>
    refine endsBefore_of_first (.evaluate _) (fun value => ?_) hf
    exact grows_steps.bind (grows_steps.printLine value.text) fun _ => hdone .normal
  | @initial name =>
    refine endsBefore_of_first (.evaluate _) (fun value => ?_) hf
    exact grows_steps.bind (grows_steps.define name value) fun _ => hdone .normal
  | block => exact endsBefore_of_inside hf
  | @condition condition thenBranch elseBranch =>
    rw [execute_ifElse] at hf
    refine endsBefore_of_first (.evaluate condition) (fun test => ?_) hf
    split
    · exact hrun (.execute thenBranch)
    · cases elseBranch with
      | none => exact hdone .normal
      | some elseBranch => exact hrun (.execute elseBranch)
  | thenBranch hcondition htest =>
    rw [execute_ifElse] at hf
    have hbranch := finish_second (growing_evaluate _) hcondition hf
    rw [if_pos htest] at hbranch
    exact ⟨f, ⟨fuel, hbranch⟩, .refl _⟩
  | elseBranch hcondition htest =>
    rw [execute_ifElse] at hf
    have hbranch := finish_second (growing_evaluate _) hcondition hf
    rw [if_neg (by simp [htest])] at hbranch
    exact ⟨f, ⟨fuel, hbranch⟩, .refl _⟩
  | @test condition body =>
    refine endsBefore_of_first (.evaluate condition) (fun test => ?_) hf
    split
    · refine grows_steps.bind (hrun (.execute body)) fun flow => ?_
      cases flow with
      | returned value => exact hdone (.returned value)
      | normal => exact hrun (.execute (.whileLoop condition body))
    · exact hdone .normal
  | @round condition body _ _ _ hcondition htest =>
    have hrest := finish_second (growing_evaluate _) hcondition hf
    rw [if_pos htest] at hrest
    refine endsBefore_of_first (.execute body) (fun flow => ?_) hrest
    cases flow with
    | returned value => exact hdone (.returned value)
    | normal => exact hrun (.execute (.whileLoop condition body))
  | again hcondition htest hbody =>
    have hrest := finish_second (growing_evaluate _) hcondition hf
    rw [if_pos htest] at hrest
    have hagain := finish_second (growing_execute _) hbody hrest
    exact ⟨f, ⟨fuel, hagain⟩, .refl _⟩
  | returned => exact endsBefore_of_first (.evaluate _) (fun value => hdone (.returned value)) hf

theorem executeAll_endsBefore {statements : List Stmt} {f : Finished Flow}
    (h : Starts ⟨.executeAll statements, s⟩ n)
    (hf : (executeAll (fuel + 1) statements).finish s = some f) : n.EndsBefore f.state := by
  cases h with
  | @first first more =>
    rw [executeAll_cons] at hf
    exact endsBefore_of_first (.execute first) (afterFirst_grows more fuel) hf
  | more hfirst =>
    rw [executeAll_cons] at hf
    have hmore := finish_second (growing_execute _) hfirst hf
    exact ⟨f, ⟨fuel, hmore⟩, .refl _⟩

end

/-- What a task starts has ended when the task has. -/
theorem Starts.endsBefore {m n : Moment} (h : Starts m n) {f : Finished m.task.Result}
    (hf : Ends (m.task.run ·) m.state f) : n.EndsBefore f.state := by
  obtain ⟨task, s⟩ := m
  cases task with
  | evaluate e =>
    obtain ⟨fuel, hfuel⟩ := (ends_succ rfl).1 hf
    exact evaluate_endsBefore h hfuel
  | evaluateAll es =>
    obtain ⟨fuel, hfuel⟩ := (ends_succ rfl).1 hf
    exact evaluateAll_endsBefore h hfuel
  | call function values =>
    obtain ⟨fuel, hfuel⟩ := (ends_succ rfl).1 hf
    exact call_endsBefore h hfuel
  | execute statement =>
    obtain ⟨fuel, hfuel⟩ := (ends_succ rfl).1 hf
    exact execute_endsBefore h hfuel
  | executeAll statements =>
    obtain ⟨fuel, hfuel⟩ := (ends_succ rfl).1 hf
    exact executeAll_endsBefore h hfuel

theorem Begins.endsBefore {m n : Moment} (h : Begins m n) {f : Finished m.task.Result}
    (hf : Ends (m.task.run ·) m.state f) : n.EndsBefore f.state := by
  induction h with
  | refl => exact ⟨f, hf, .refl _⟩
  | tail _ hstarts ih =>
    obtain ⟨g, hg, hgrows⟩ := ih
    obtain ⟨k, hk, hgrows'⟩ := hstarts.endsBefore hg
    exact ⟨k, hk, hgrows'.trans _ _ _ hgrows⟩

/-! ## Later moments -/

/-- The second moment comes after the first: a task that was still running at the first, its own or
one around it, has ended, and after any steps from there another has begun in which the second
comes. -/
def Follows (k n : Moment) : Prop :=
  ∃ (m : Moment) (f : Finished m.task.Result) (vs ws : List Value) (u : State) (task : Task),
    Begins m k ∧ Ends (m.task.run ·) m.state f ∧ Leads f.state vs u ws ∧ Begins ⟨task, u⟩ n

/-- By then the first task has ended too. -/
theorem Follows.endsBefore {k n : Moment} (h : Follows k n) : k.EndsBefore n.state := by
  obtain ⟨m, f, vs, ws, u, task, hk, hf, hleads, hn⟩ := h
  obtain ⟨g, hg, hgrows⟩ := hk.endsBefore hf
  have hsteps := hgrows.trans _ _ _ hleads.grows
  exact ⟨g, hg, hsteps.trans _ _ _ hn.grows⟩

end TreeWalk
