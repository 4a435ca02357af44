import TreeWalk.Proofs.Machine.Worlds

/-!
Runs keep the scopes a tree. Whatever is evaluated, executed or called and however it ends, the
heap it leaves is a tree, and the functions among the values it gives close over scopes of that
heap. A value that is at hand while other things run stays good, as the heap only grows.
-/

namespace TreeWalk

/-- A state whose scopes are a tree of at least `n` scopes, one of which is active. -/
structure State.Sound (n : Nat) (s : State) : Prop where
  tree : s.heap.Tree
  active : s.active < s.heap.scopes.size
  size : n ≤ s.heap.scopes.size

theorem State.Sound.weaken {n k : Nat} {s : State} (h : s.Sound k) (hn : n ≤ k) : s.Sound n :=
  ⟨h.tree, h.active, Nat.le_trans hn h.size⟩

open Run

/-- A new scope inside one that is there. -/
theorem State.Sound.entered {n : Nat} {s : State} (hs : s.Sound n) {outer : ScopeId}
    (houter : outer < s.heap.scopes.size) {bindings : List (String × Value)}
    (hbindings : ∀ b ∈ bindings, b.2.Below s.heap.scopes.size) :
    State.Sound (s.heap.scopes.size + 1)
      ⟨s.heap.addScope outer bindings, s.heap.nextScope, s.sink⟩ :=
  have hsize := s.heap.size_addScope outer bindings
  ⟨hs.tree.addScope houter hbindings, hsize ▸ Nat.lt_succ_self _, Nat.le_of_eq hsize.symm⟩

/-- Making functions and scopes keeps the scopes a tree, with all functions in it closing over
scopes of it. A world is how many scopes there are. -/
theorem sound_sustained : Sustained (W := Nat) (· ≤ ·) (· ≤ ·)
    (fun n s => s.Sound n ∧ s.heap.scopes.size = n) (fun n v => v.Below n) (fun _ _ => True) where
  refl := Nat.le_refl
  trans := Nat.le_trans
  grows := fun hnk hv => hv.mono hnk
  enters := fun hnk hv => hv.mono hnk
  stands := fun _ _ => trivial
  branches := fun _ => ⟨trivial, fun _ _ => trivial⟩
  round := fun _ => trivial
  plain := by
    rintro n v hplain i hi
    cases v with
    | function f => exact hplain.elim
    | _ => exact hi.elim
  found := by
    rintro n s name v ⟨hs, rfl⟩ hget
    exact hs.tree.get?_below hget
  define := by
    rintro n s i name v ⟨hs, rfl⟩ hv _
    have hsize := s.heap.size_define i name v
    exact ⟨⟨hs.tree.define i name hv, hsize ▸ hs.active, Nat.le_of_eq hsize.symm⟩, hsize⟩
  declare := by
    rintro n s declaration ⟨hs, rfl⟩ _
    have hsize : (s.heap.declare s.active declaration).scopes.size = s.heap.scopes.size :=
      Heap.size_define _ _ _ _
    exact ⟨_, Nat.le_refl _, ⟨hs.tree.declare hs.active declaration, hsize ▸ hs.active,
      Nat.le_of_eq hsize.symm⟩, hsize⟩
  sink := fun _ hs => ⟨⟨hs.1.tree, hs.1.active, hs.1.size⟩, hs.2⟩
  block := by
    rintro n s body ⟨hs, rfl⟩ _
    exact ⟨_, Nat.le_succ _, ⟨hs.entered hs.active (by simp), s.heap.size_addScope s.active []⟩,
      fun _ _ => trivial⟩
  body := by
    rintro n s function values ⟨hs, rfl⟩ hfunction hvalues
    have hsize := s.heap.size_addScope function.closure (function.bindings values)
    exact ⟨_, Nat.le_succ _,
      ⟨hs.entered (hfunction _ rfl) (Scope.mem_putAll _ hvalues), hsize⟩, fun _ _ => trivial⟩
  back := by
    -- The scope that was active is still there when it is active again.
    rintro n k l s t ⟨hs, rfl⟩ hnk hkl ⟨ht, rfl⟩
    have hle := Nat.le_trans hnk hkl
    exact ⟨_, hle, ⟨⟨ht.tree, Nat.lt_of_lt_of_le hs.active hle, ht.size⟩, rfl⟩, fun _ hv => hv⟩

/-! ## Steps on the interpreter -/

/-- The values that a run gives, if it ends with a result. -/
def Run.values {α : Type} (f : α → List Value) (m : Run α) (s : State) : List Value :=
  match m s with
  | .ok a _ => f a
  | .error _ _ => []

def Flow.values : Flow → List Value
  | .normal => []
  | .returned value => [value]

namespace Task

/-- What the task is given: a call has the function and the arguments. -/
def values : Task → List Value
  | call function values => .function function :: values
  | _ => []

/-- What the task gives. -/
def given : (task : Task) → task.Result → List Value
  | evaluate _ => fun value => [value]
  | evaluateAll _ => fun values => values
  | call _ _ => fun value => [value]
  | execute _ => Flow.values
  | executeAll _ => Flow.values

end Task

/-- Where steps lead from a state with values at hand: units of source, and programs, expressions,
statements and calls of functions at hand with arguments at hand. A step may end in any way, also
for want of fuel, so that what is there in the middle of a run counts too. -/
inductive Leads (s : State) (vs : List Value) : State → List Value → Prop
  | start : Leads s vs s vs
  | unit {t u : State} {ws : List Value} {fuel : Nat} {source : String} {ds : Diagnostics} :
    Leads s vs t ws → Session.run fuel t source = some (ds, u) → Leads s vs u ws
  | interpret {t : State} {ws : List Value} (fuel : Nat) (program : List Stmt) :
    Leads s vs t ws → Leads s vs ((interpret fuel program).after t) ws
  | evaluate {t : State} {ws : List Value} (fuel : Nat) (e : Expr) : Leads s vs t ws →
    Leads s vs ((evaluate fuel e).after t) ((evaluate fuel e).values ([·]) t ++ ws)
  | evaluateAll {t : State} {ws : List Value} (fuel : Nat) (es : List Expr) : Leads s vs t ws →
    Leads s vs ((evaluateAll fuel es).after t) ((evaluateAll fuel es).values id t ++ ws)
  | execute {t : State} {ws : List Value} (fuel : Nat) (statement : Stmt) : Leads s vs t ws →
    Leads s vs ((execute fuel statement).after t)
      ((execute fuel statement).values Flow.values t ++ ws)
  | call {t : State} {ws : List Value} {function : Function} {arguments : List Value}
    (fuel : Nat) : Leads s vs t ws → .function function ∈ ws → (∀ v ∈ arguments, v ∈ ws) →
    Leads s vs ((call fuel function arguments).after t)
      ((call fuel function arguments).values ([·]) t ++ ws)

/-- A sound state, and values at hand that close over scopes of it. -/
structure State.Holds (s : State) (vs : List Value) : Prop where
  sound : s.Sound 0
  values : ∀ v ∈ vs, v.Below s.heap.scopes.size

namespace Sustained

variable {W : Type} {G E : W → W → Prop} {S : W → State → Prop} {V : W → Value → Prop}
  (sus : Sustained G E S V fun _ _ => True) {w : W}
include sus

/-- A task that is given values with the property gives such values. -/
theorem task (fuel : Nat) (task : Task) (h : ∀ v ∈ task.values, V w v) :
    Holds G S w (fun x a => ∀ v ∈ task.given a, V x v) (task.run fuel) := by
  have hone : ∀ (x : W) (v : Value), V x v → ∀ u ∈ [v], V x u :=
    fun _ _ => List.forall_mem_singleton.2
  have hflow : ∀ x flow, Flow.Of V x flow → ∀ v ∈ flow.values, V x v := by
    intro x flow hflow
    cases flow with
    | normal => exact nofun
    | returned value => exact hone x value hflow
  have runs := sus.runs fuel
  cases task with
  | evaluate e => exact (runs.evaluate w e).imp hone
  | evaluateAll es => exact runs.evaluateAll w es
  | call function values =>
    obtain ⟨hfunction, hvalues⟩ := List.forall_mem_cons.1 h
    exact (runs.call w function values hfunction hvalues).imp hone
  | execute statement => exact (runs.execute w statement trivial).imp hflow
  | executeAll ss => exact (runs.executeAll w ss fun _ _ => trivial).imp hflow

/-- What is at hand beside a task keeps the property, and what the task gives has it. -/
theorem step (fuel : Nat) (task : Task) {s : State} {vs : List Value} (hs : S w s)
    (hvs : ∀ v ∈ vs, V w v) (hvalues : ∀ v ∈ task.values, V w v) :
    ∃ x, G w x ∧ S x ((task.run fuel).after s) ∧
      ∀ v ∈ (task.run fuel).values task.given s ++ vs, V x v := by
  have hrun := sus.task fuel task hvalues s hs
  unfold after Run.values
  rcases hresult : task.run fuel s with ⟨a, t⟩ | ⟨e, t⟩ <;> rw [hresult] at hrun
  · obtain ⟨x, hwx, ht, ha⟩ := hrun
    refine ⟨x, hwx, ht, fun v hv => ?_⟩
    rcases List.mem_append.1 hv with hv | hv
    · exact ha v hv
    · exact sus.grows hwx (hvs v hv)
  · obtain ⟨x, hwx, ht⟩ := hrun
    exact ⟨x, hwx, ht, fun v hv => sus.grows hwx (hvs v hv)⟩

theorem interpret_leaves (fuel : Nat) (program : List Stmt) :
    Leaves (fun t u => ∀ x, S x t → ∃ y, G x y ∧ S y u) (TreeWalk.interpret fuel program) := by
  intro t x ht
  have hrun := sus.interpret fuel x program (fun _ _ => trivial) t ht
  unfold after
  rcases hresult : TreeWalk.interpret fuel program t with ⟨a, u⟩ | ⟨e, u⟩ <;>
    rw [hresult] at hrun
  · obtain ⟨y, hxy, hu, _⟩ := hrun
    exact ⟨y, hxy, hu⟩
  · exact hrun

/-- What every step holds to, all steps one after another do. -/
theorem leads {s t : State} {vs ws : List Value} (h : Leads s vs t ws) (hs : S w s)
    (hvs : ∀ v ∈ vs, V w v) : ∃ x, G w x ∧ S x t ∧ ∀ v ∈ ws, V x v := by
  -- A step that follows on others ends in a world that is later than where those began.
  have hthen : ∀ {t u : State} {ws us : List Value}, (∃ x, G w x ∧ S x t ∧ ∀ v ∈ ws, V x v) →
      (∀ x, S x t → (∀ v ∈ ws, V x v) → ∃ y, G x y ∧ S y u ∧ ∀ v ∈ us, V y v) →
      ∃ x, G w x ∧ S x u ∧ ∀ v ∈ us, V x v := by
    rintro t u ws us ⟨x, hwx, ht, hws⟩ hstep
    obtain ⟨y, hxy, hu, hus⟩ := hstep x ht hws
    exact ⟨y, sus.trans hwx hxy, hu, hus⟩
  induction h with
  | start => exact ⟨w, sus.refl w, hs, hvs⟩
  | unit _ hrun ih =>
    refine hthen ih fun x ht hws => ?_
    obtain ⟨y, hxy, hu⟩ := Session.run_leaves (fun _ x hx => ⟨x, sus.refl x, hx⟩)
      (sus.interpret_leaves _) hrun x ht
    exact ⟨y, hxy, hu, fun v hv => sus.grows hxy (hws v hv)⟩
  | interpret fuel program _ ih =>
    refine hthen ih fun x ht hws => ?_
    obtain ⟨y, hxy, hu⟩ := sus.interpret_leaves fuel program _ x ht
    exact ⟨y, hxy, hu, fun v hv => sus.grows hxy (hws v hv)⟩
  | evaluate fuel e _ ih =>
    exact hthen ih fun x ht hws => sus.step fuel (.evaluate e) ht hws nofun
  | evaluateAll fuel es _ ih =>
    exact hthen ih fun x ht hws => sus.step fuel (.evaluateAll es) ht hws nofun
  | execute fuel statement _ ih =>
    exact hthen ih fun x ht hws => sus.step fuel (.execute statement) ht hws nofun
  | @call t ws function arguments fuel _ hfunction harguments ih =>
    refine hthen ih fun x ht hws => sus.step fuel (.call function arguments) ht hws ?_
    exact List.forall_mem_cons.2 ⟨hws _ hfunction, fun v hv => hws v (harguments v hv)⟩

end Sustained

theorem Leads.holds {s t : State} {vs ws : List Value} (h : Leads s vs t ws) (hs : s.Holds vs) :
    t.Holds ws := by
  obtain ⟨n, _, ⟨ht, rfl⟩, hws⟩ := sound_sustained.leads h
    ⟨⟨hs.sound.tree, hs.sound.active, Nat.le_refl _⟩, rfl⟩ hs.values
  exact ⟨ht.weaken (Nat.zero_le _), hws⟩

theorem Leads.keeps {s t : State} {vs ws : List Value} (h : Leads s vs t ws) :
    s.heap.Keeps t.heap := by
  induction h with
  | start => exact Heap.Keeps.refl _
  | unit _ hrun ih => exact ih.trans (Session.run_restored hrun).scopes
  | interpret fuel program _ ih =>
    exact ih.trans ((runs_restore fuel).interpret steps_restore program _).scopes
  | evaluate fuel e _ ih => exact ih.trans ((runs_restore fuel).evaluate e _).scopes
  | evaluateAll fuel es _ ih => exact ih.trans ((runs_restore fuel).evaluateAll es _).scopes
  | execute fuel statement _ ih => exact ih.trans ((runs_restore fuel).execute statement _).scopes
  | call fuel _ _ _ ih => exact ih.trans ((runs_restore fuel).call _ _ _).scopes

theorem holds_initial (sink : Sink) : (State.initial sink).Holds [] :=
  ⟨⟨Heap.tree_empty, Nat.one_pos, Nat.zero_le _⟩, by simp⟩

/-- Whatever steps were made, the scopes are a tree under the global one whose links are final, and
all functions, in scopes or at hand, close over scopes of it. So each way outward ends at the global
scope, and reading and assigning a name enter no scope that they are in already. -/
theorem scopes_stay_tree (sink : Sink) {s : State} {vs : List Value}
    (h : Leads (.initial sink) [] s vs) :
    s.heap.Tree ∧ s.active < s.heap.scopes.size ∧ (∀ v ∈ vs, v.Below s.heap.scopes.size) ∧
    (∀ t ws, Leads s vs t ws → s.heap.Keeps t.heap) ∧
    (∀ i, i < s.heap.scopes.size → ∃ chain, s.heap.Chain i chain) ∧
    (∀ i chain, s.heap.Chain i chain → chain.getLast? = some Heap.globals ∧ chain.Nodup) ∧
    ∀ i name, i < s.heap.scopes.size →
      ∃ entered owner, s.heap.Search name i entered owner ∧ entered.Nodup ∧
        s.heap.get? i name = owner.bind (fun o => s.heap.scopes[o]?.bind (·.lookup name)) ∧
        ∀ value, s.heap.assign? i name value = owner.map (s.heap.define · name value) := by
  obtain ⟨⟨htree, hactive, _⟩, hvalues⟩ := h.holds (holds_initial sink)
  exact ⟨htree, hactive, hvalues, fun _ _ hlater => hlater.keeps, htree.exists_chain,
    fun _ _ hchain => ⟨htree.chain_last hchain, htree.chain_nodup hchain⟩,
    fun _ name hi => htree.search hi name⟩

/-- A function that returns its argument. -/
def identity : FunDecl :=
  ⟨⟨.symbol .identifier, "id", 1⟩, [⟨.symbol .identifier, "x", 1⟩],
    [.returnValue ⟨.symbol (.keyword .returnWord), "return", 1⟩
      (some (.reference ⟨.symbol .identifier, "x", 1⟩))]⟩

/-- The function is declared, read and called with itself, which leaves a second scope. -/
theorem identity_called : ∃ (s : State) (f : Function),
    Leads (.initial .unlimited) [] s [.function f, .function f] ∧ s.heap.scopes.size = 2 ∧
    s.heap.Tree ∧ f.closure < s.heap.scopes.size ∧
    ∃ entered owner, s.heap.Search "id" 1 entered owner ∧ entered.Nodup := by
  have hdeclared := (@Leads.start (.initial .unlimited) []).execute 1 (.funDecl identity)
  have hread := hdeclared.evaluate 1 (.reference identity.name)
  have hcalled := hread.call 4 (List.mem_singleton.2 rfl)
    (List.forall_mem_singleton.2 (List.mem_singleton.2 rfl))
  obtain ⟨htree, _, hvalues, _, _, _, hsearch⟩ := scopes_stay_tree .unlimited hcalled
  obtain ⟨entered, owner, hfound, hdistinct, _⟩ := hsearch 1 "id" (by decide)
  exact ⟨_, ⟨0, identity, 0⟩, hcalled, rfl, htree, hvalues _ List.mem_cons_self _ rfl, entered,
    owner, hfound, hdistinct⟩

end TreeWalk
