import TreeWalk.Proofs.Machine.Allocation

/-!
Values in flight. While one part of an expression runs, the values of the parts before it wait for
it: the left operand, the function that is to be called, the arguments that are there already. They
are in no scope, so that what is said of the scopes at a moment says nothing of them; here they are
carried along with the moments.
-/

namespace TreeWalk

open Run

/-- While the first task runs it starts the second, and what it still needs of the parts before is
held meanwhile. -/
inductive Holding : Moment → List Value → Moment → Prop
  | none {m n : Moment} : Starts m n → Holding m [] n
  | left {left right : Expr} {operator : Token} {value : Value} {s t : State} :
    Ends (evaluate · left) s ⟨.ok value, t⟩ →
    Holding ⟨.evaluate (.binary left operator right), s⟩ [value] ⟨.evaluate right, t⟩
  | decision {left right : Expr} {operator : Token} {value : Value} {s t : State} :
    Ends (evaluate · left) s ⟨.ok value, t⟩ → Operation.decides operator value = false →
    Holding ⟨.evaluate (.logical left operator right), s⟩ [value] ⟨.evaluate right, t⟩
  | callee {callee : Expr} {paren : Token} {arguments : List Expr} {value : Value}
    {s t : State} : Ends (evaluate · callee) s ⟨.ok value, t⟩ →
    Holding ⟨.evaluate (.call callee paren arguments), s⟩ [value] ⟨.evaluateAll arguments, t⟩
  | argument {e : Expr} {es : List Expr} {value : Value} {s t : State} :
    Ends (evaluate · e) s ⟨.ok value, t⟩ →
    Holding ⟨.evaluateAll (e :: es), s⟩ [value] ⟨.evaluateAll es, t⟩

/-- The moments there are after any steps from the start, whether the run they are in ends or not,
each with the values in flight: those at hand, those that wait for the task, and its own. -/
inductive Occurs (sink : Sink) : Moment → List Value → Prop
  | task {s : State} {vs : List Value} (task : Task) : Leads (.initial sink) [] s vs →
    (∀ v ∈ task.values, v ∈ vs) → Occurs sink ⟨task, s⟩ vs
  | part {m n : Moment} {vs ws : List Value} : Occurs sink m vs → Holding m ws n →
    Occurs sink n (n.task.values ++ ws ++ vs)

/-- The values in flight at a moment are with those the task is given. -/
theorem Occurs.given {sink : Sink} {m : Moment} {vs : List Value} (h : Occurs sink m vs) :
    ∀ v ∈ m.task.values, v ∈ vs := by
  cases h with
  | task task _ hvalues => exact hvalues
  | part _ _ => exact fun v hv => List.mem_append_left _ (List.mem_append_left _ hv)

/-- The statements that the task executes are such as may stand there. -/
def Task.Stands (A : Stmt → Prop) : Task → Prop
  | .execute statement => A statement
  | .executeAll statements => ∀ statement ∈ statements, A statement
  | _ => True

namespace Sustained

variable {W : Type} {G E : W → W → Prop} {S : W → State → Prop} {V : W → Value → Prop}

section

variable {A : W → Stmt → Prop} (sus : Sustained G E S V A) {w : W}
include sus

theorem evaluated {e : Expr} {value : Value} {s t : State} (hs : S w s)
    (h : Ends (evaluate · e) s ⟨.ok value, t⟩) : ∃ x, G w x ∧ S x t ∧ V x value := by
  obtain ⟨fuel, hfuel⟩ := h
  exact ((sus.runs fuel).evaluate w e).finish hs hfuel

theorem evaluatedAll {es : List Expr} {values : List Value} {s t : State} (hs : S w s)
    (h : Ends (evaluateAll · es) s ⟨.ok values, t⟩) :
    ∃ x, G w x ∧ S x t ∧ ∀ v ∈ values, V x v := by
  obtain ⟨fuel, hfuel⟩ := h
  exact ((sus.runs fuel).evaluateAll w es).finish hs hfuel

theorem executed {statement : Stmt} {flow : Flow} {s t : State} (hs : S w s)
    (hstands : A w statement) (h : Ends (execute · statement) s ⟨.ok flow, t⟩) :
    ∃ x, G w x ∧ S x t ∧ Flow.Of V x flow := by
  obtain ⟨fuel, hfuel⟩ := h
  exact ((sus.runs fuel).execute w statement hstands).finish hs hfuel

/-- Where a part begins the properties hold, also of what it is given, and it may stand there. -/
theorem starts {m n : Moment} (h : Starts m n) (hs : S w m.state)
    (hvalues : ∀ v ∈ m.task.values, V w v) (hstands : m.task.Stands (A w)) :
    ∃ x, (∀ v, V w v → V x v) ∧ S x n.state ∧ (∀ v ∈ n.task.values, V x v) ∧
      n.task.Stands (A x) := by
  have hgrows : ∀ {x : W}, G w x → ∀ v, V w v → V x v := fun hwx _ hv => sus.grows hwx hv
  cases h with
  | inner | operand | left | decision | assigned | callee | firstValue | expression | printed
  | initial | condition | test | returned => exact ⟨w, fun _ hv => hv, hs, nofun, trivial⟩
  | right hfirst | alternative hfirst | arguments hfirst | moreValues hfirst =>
    obtain ⟨x, hwx, ht, _⟩ := sus.evaluated hs hfirst
    exact ⟨x, hgrows hwx, ht, nofun, trivial⟩
  | call hcallee harguments =>
    obtain ⟨x, hwx, ht, hfunction⟩ := sus.evaluated hs hcallee
    obtain ⟨y, hxy, hu, hvalues⟩ := sus.evaluatedAll ht harguments
    have hgiven := List.forall_mem_cons.2 ⟨sus.grows hxy hfunction, hvalues⟩
    exact ⟨y, hgrows (sus.trans hwx hxy), hu, hgiven, trivial⟩
  | body =>
    obtain ⟨hfunction, hvalues⟩ := List.forall_mem_cons.1 hvalues
    obtain ⟨x, hwx, hx, hbody⟩ := sus.body hs hfunction hvalues
    exact ⟨x, fun _ hv => sus.enters hwx hv, hx, nofun, hbody⟩
  | block =>
    obtain ⟨x, hwx, hx, hbody⟩ := sus.block hs hstands
    exact ⟨x, fun _ hv => sus.enters hwx hv, hx, nofun, hbody⟩
  | thenBranch hcondition =>
    obtain ⟨x, hwx, ht, _⟩ := sus.evaluated hs hcondition
    exact ⟨x, hgrows hwx, ht, nofun, (sus.branches (sus.stands hwx hstands)).1⟩
  | elseBranch hcondition =>
    obtain ⟨x, hwx, ht, _⟩ := sus.evaluated hs hcondition
    exact ⟨x, hgrows hwx, ht, nofun, (sus.branches (sus.stands hwx hstands)).2 _ rfl⟩
  | round hcondition =>
    obtain ⟨x, hwx, ht, _⟩ := sus.evaluated hs hcondition
    exact ⟨x, hgrows hwx, ht, nofun, sus.round (sus.stands hwx hstands)⟩
  | again hcondition _ hbody =>
    obtain ⟨x, hwx, ht, _⟩ := sus.evaluated hs hcondition
    have hloop := sus.stands hwx hstands
    obtain ⟨y, hxy, hu, _⟩ := sus.executed ht (sus.round hloop) hbody
    exact ⟨y, hgrows (sus.trans hwx hxy), hu, nofun, sus.stands hxy hloop⟩
  | first =>
    exact ⟨w, fun _ hv => hv, hs, nofun, hstands _ List.mem_cons_self⟩
  | more hfirst =>
    obtain ⟨hstatement, hmore⟩ := List.forall_mem_cons.1 hstands
    obtain ⟨x, hwx, ht, _⟩ := sus.executed hs hstatement hfirst
    exact ⟨x, hgrows hwx, ht, nofun, fun s hs => sus.stands hwx (hmore s hs)⟩

theorem begins {m n : Moment} (h : Begins m n) (hs : S w m.state)
    (hvalues : ∀ v ∈ m.task.values, V w v) (hstands : m.task.Stands (A w)) :
    ∃ x, S x n.state ∧ (∀ v ∈ n.task.values, V x v) ∧ n.task.Stands (A x) := by
  induction h with
  | refl => exact ⟨w, hs, hvalues, hstands⟩
  | tail _ hstart ih =>
    obtain ⟨x, hx, hgiven, hpart⟩ := ih
    obtain ⟨y, _, hy⟩ := sus.starts hstart hx hgiven hpart
    exact ⟨y, hy⟩

end

section

variable (sus : Sustained G E S V fun _ _ => True) {w : W}
include sus

/-- The properties hold where a part begins, also of what is held meanwhile. -/
theorem holding {m n : Moment} {ws : List Value} (h : Holding m ws n) (hs : S w m.state)
    (hvalues : ∀ v ∈ m.task.values, V w v) :
    ∃ x, (∀ v, V w v → V x v) ∧ S x n.state ∧ ∀ v ∈ n.task.values ++ ws, V x v := by
  cases h with
  | none hstart =>
    rw [List.append_nil]
    have hstands : m.task.Stands fun _ => True := by
      cases m.task <;> simp [Task.Stands]
    obtain ⟨x, hkept, hx, hgiven, _⟩ := sus.starts hstart hs hvalues hstands
    exact ⟨x, hkept, hx, hgiven⟩
  | left hfirst | decision hfirst | callee hfirst | argument hfirst =>
    obtain ⟨x, hwx, ht, hvalue⟩ := sus.evaluated hs hfirst
    exact ⟨x, fun _ hv => sus.grows hwx hv, ht, List.forall_mem_singleton.2 hvalue⟩

/-- At every moment the state has its property and the values in flight have theirs. -/
theorem occurs {sink : Sink} {m : Moment} {vs : List Value} (h : Occurs sink m vs)
    (hs : S w (.initial sink)) : ∃ x, S x m.state ∧ ∀ v ∈ vs, V x v := by
  induction h with
  | task task hleads _ =>
    obtain ⟨x, _, ht, hvs⟩ := sus.leads hleads hs (by simp)
    exact ⟨x, ht, hvs⟩
  | part hbefore hholding ih =>
    obtain ⟨x, hx, hvs⟩ := ih
    obtain ⟨y, hkept, hy, hws⟩ := sus.holding hholding hx fun v hv => hvs v (hbefore.given v hv)
    refine ⟨y, hy, fun v hv => ?_⟩
    rcases List.mem_append.1 hv with hv | hv
    · exact hws v hv
    · exact hkept v (hvs v hv)

end

end Sustained

end TreeWalk
