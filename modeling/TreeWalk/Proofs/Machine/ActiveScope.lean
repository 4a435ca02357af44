import TreeWalk.Proofs.Machine.Leaves
import TreeWalk.Proofs.Machine.Scopes

/-!
The active scope is restored on every way out of a run, so that each unit of a session starts and
ends in the global scope. The links between scopes that exist are never changed, and the global
scope stays the one that has no scope around it.
-/

namespace TreeWalk

/-- Every scope of `h` is in `k`, with the same scope around it. -/
def Heap.Keeps (h k : Heap) : Prop :=
  ∀ (i : ScopeId) (scope : Scope), h.scopes[i]? = some scope →
    ∃ kept : Scope, k.scopes[i]? = some kept ∧ kept.enclosing = scope.enclosing

namespace Heap

theorem Keeps.refl (h : Heap) : h.Keeps h := fun _ scope hi => ⟨scope, hi, rfl⟩

theorem Keeps.trans {h k l : Heap} (hk : h.Keeps k) (kl : k.Keeps l) : h.Keeps l := by
  intro i scope hi
  obtain ⟨kept, hkept, hsame⟩ := hk i scope hi
  obtain ⟨last, hlast, hsame'⟩ := kl i kept hkept
  exact ⟨last, hlast, hsame'.trans hsame⟩

theorem keeps_define (h : Heap) (s : ScopeId) (name : String) (value : Value) :
    h.Keeps (h.define s name value) := by
  intro i scope hi
  refine ⟨if s = i then scope.define name value else scope, ?_, ?_⟩
  · rw [getElem?_define, hi]
    split <;> rfl
  · split <;> rfl

theorem keeps_addScope (h : Heap) (outer : ScopeId) (bindings : List (String × Value)) :
    h.Keeps (h.addScope outer bindings) := by
  intro i scope hi
  have hlt : i < h.scopes.size := (Array.getElem?_eq_some_iff.mp hi).1
  have hne : i ≠ h.scopes.size := Nat.ne_of_lt hlt
  exact ⟨scope, by rw [getElem?_addScope, if_neg hne, hi], rfl⟩

end Heap

/-- The same scope is active, and the scopes that were there are linked as before. -/
structure State.Restored (s t : State) : Prop where
  active : t.active = s.active
  scopes : s.heap.Keeps t.heap

namespace State.Restored

theorem refl (s : State) : Restored s s := ⟨rfl, Heap.Keeps.refl s.heap⟩

theorem trans (s t u : State) (hst : Restored s t) (htu : Restored t u) : Restored s u :=
  ⟨htu.active.trans hst.active, hst.scopes.trans htu.scopes⟩

end State.Restored

open Run State

theorem assign_restored (name : Token) (value : Value) : Leaves Restored (assign name value) := by
  rintro ⟨heap, active, sink⟩
  unfold after assign
  dsimp only
  cases heap.owner? active name.lexeme with
  | none => exact Restored.refl _
  | some owner => exact ⟨rfl, heap.keeps_define owner name.lexeme value⟩

theorem printLine_restored (text : String) : Leaves Restored (printLine text) := by
  rintro ⟨heap, active, sink⟩
  unfold after printLine
  dsimp only
  cases sink.fits (text ++ "\n").toUTF8 <;> exact ⟨rfl, Heap.Keeps.refl heap⟩

/-- The scope that was active comes back, whatever `body` does and however it ends. -/
theorem after_within {α : Type} (scope : ScopeId) (body : Run α) (s : State) :
    (within scope body).after s =
      { body.after { s with active := scope } with active := s.active } := by
  unfold after within
  dsimp only
  cases body { s with active := scope } <;> rfl

theorem inside_restored {α : Type} (outer : ScopeId) (bindings : List (String × Value))
    (body : Run α) (hbody : Leaves Restored body) :
    Leaves Restored (inside outer bindings body) := by
  intro s
  have hrun : (inside outer bindings body).after s =
      (within s.heap.nextScope body).after { s with heap := s.heap.addScope outer bindings } := rfl
  rw [hrun, after_within]
  have hkept := hbody ⟨s.heap.addScope outer bindings, s.heap.nextScope, s.sink⟩
  exact ⟨rfl, (s.heap.keeps_addScope outer bindings).trans hkept.scopes⟩

theorem steps_restore : KeptBySteps Restored Restored where
  refl := Restored.refl
  trans := Restored.trans
  stmt_trans := Restored.trans
  stmt_of_expr := fun _ _ h => h
  assign := assign_restored
  define := fun name value s => ⟨rfl, s.heap.keeps_define s.active name.lexeme value⟩
  declare := fun _ s => ⟨rfl, Heap.keeps_define ⟨s.heap.scopes, s.heap.functions + 1⟩ _ _ _⟩
  printLine := printLine_restored
  inside := inside_restored

theorem runs_restore (fuel : Nat) : KeptByRuns Restored Restored fuel := steps_restore.runs fuel

theorem within_restored (fuel : Nat) (scope : ScopeId) (body : List Stmt) :
    Leaves Restored (within scope (executeAll fuel body)) := by
  intro s
  rw [after_within]
  have hkept := (runs_restore fuel).executeAll body ⟨s.heap, scope, s.sink⟩
  exact ⟨rfl, hkept.scopes⟩

namespace Session

/-- The states between the units of a session, whatever came of the units before. -/
inductive Reaches (start : State) : State → Prop
  | start : Reaches start start
  | unit {s t : State} {fuel : Nat} {source : String} {diagnostics : Diagnostics} :
    Reaches start s → run fuel s source = some (diagnostics, t) → Reaches start t

theorem run_restored {fuel : Nat} {s t : State} {source : String} {diagnostics : Diagnostics}
    (h : run fuel s source = some (diagnostics, t)) : Restored s t :=
  run_leaves Restored.refl ((runs_restore fuel).interpret steps_restore) h

theorem Reaches.restored {start s : State} (h : Reaches start s) : Restored start s := by
  induction h with
  | start => exact Restored.refl start
  | unit _ hrun ih => exact Restored.trans _ _ _ ih (run_restored hrun)

end Session

/-- Whenever the run finishes, with a result or with a failure, the scope that was active before
it is active again. -/
def Run.RestoresScope {α : Type} (m : Run α) : Prop :=
  ∀ (s : State) (f : Finished α), m.finish s = some f → f.state.active = s.active

theorem Run.Leaves.restoresScope {α : Type} {m : Run α} (hm : Leaves Restored m) :
    m.RestoresScope := fun _ _ hf => (hm.finish hf).active

/-- The global scope is there, and no scope is around it. -/
def Heap.Rooted (h : Heap) : Prop :=
  ∃ scope, h.scopes[Heap.globals]? = some scope ∧ scope.enclosing = none

theorem Heap.Keeps.rooted {h k : Heap} (hk : h.Keeps k) (hroot : h.Rooted) : k.Rooted := by
  obtain ⟨scope, hscope, hnone⟩ := hroot
  obtain ⟨kept, hkept, hsame⟩ := hk globals scope hscope
  exact ⟨kept, hkept, hsame.trans hnone⟩

/-- However a run ends, it gives the active scope back. So a session is in the global scope before
and after each unit. -/
theorem active_scope_restored :
    (∀ fuel : Nat,
      (∀ e : Expr, (evaluate fuel e).RestoresScope) ∧
      (∀ es : List Expr, (evaluateAll fuel es).RestoresScope) ∧
      (∀ statement : Stmt, (execute fuel statement).RestoresScope) ∧
      (∀ body : List Stmt, (executeAll fuel body).RestoresScope) ∧
      (∀ (scope : ScopeId) (body : List Stmt),
        (within scope (executeAll fuel body)).RestoresScope) ∧
      (∀ (function : Function) (values : List Value),
        (call fuel function values).RestoresScope) ∧
      (∀ program : List Stmt, (interpret fuel program).RestoresScope)) ∧
    (∀ (sink : Sink) (s : State), Session.Reaches (.initial sink) s →
      s.active = Heap.globals ∧ s.heap.Rooted) := by
  constructor
  · intro fuel
    have runs := runs_restore fuel
    exact ⟨fun e => (runs.evaluate e).restoresScope,
      fun es => (runs.evaluateAll es).restoresScope,
      fun statement => (runs.execute statement).restoresScope,
      fun body => (runs.executeAll body).restoresScope,
      fun scope body => (within_restored fuel scope body).restoresScope,
      fun function values => (runs.call function values).restoresScope,
      fun program => (runs.interpret steps_restore program).restoresScope⟩
  · intro sink s hreach
    have hrestored := hreach.restored
    exact ⟨hrestored.active, hrestored.scopes.rooted ⟨⟨[], none⟩, rfl, rfl⟩⟩

section

open Session

/-- A unit that fails inside a block. -/
def failingBlock : String := "\x7bnil();\x7d"

theorem items_failingBlock : Scan.items failingBlock =
    [.token ⟨.symbol .leftBrace, "\x7b", 1⟩, .token ⟨.symbol (.keyword .nilWord), "nil", 1⟩,
      .token ⟨.symbol .leftParen, "(", 1⟩, .token ⟨.symbol .rightParen, ")", 1⟩,
      .token ⟨.symbol .semicolon, ";", 1⟩, .token ⟨.symbol .rightBrace, "\x7d", 1⟩,
      .token (.endOfInput 1)] := by
  have hchars : failingBlock.toList = ['{', 'n', 'i', 'l', '(', ')', ';', '}'] := by decide
  rw [Scan.items, hchars]
  rfl

theorem reading_failingBlock : Reading.program failingBlock =
    ⟨[.block [.expression (.call (.literal .nil) ⟨.symbol .rightParen, ")", 1⟩ [])]], []⟩ := by
  rw [Reading.program, Reading.ofSource, Scan.tokens, Scan.reports, items_failingBlock]
  rfl

theorem run_failingBlock (s : State) :
    ∃ t, run 10 s failingBlock =
      some ([.runtime "Can only call functions and classes." 1], t) := by
  simp only [run, reading_failingBlock]
  exact ⟨_, rfl⟩

theorem failingBlock_restored :
    ∃ t u : State,
      run 10 (.initial .unlimited) failingBlock =
        some ([.runtime "Can only call functions and classes." 1], t) ∧
      run 10 t failingBlock = some ([.runtime "Can only call functions and classes." 1], u) ∧
      u.active = Heap.globals ∧ u.heap.Rooted := by
  obtain ⟨t, hfirst⟩ := run_failingBlock (.initial .unlimited)
  obtain ⟨u, hsecond⟩ := run_failingBlock t
  have hreach : Reaches (.initial .unlimited) u := .unit (.unit .start hfirst) hsecond
  exact ⟨t, u, hfirst, hsecond, active_scope_restored.2 .unlimited u hreach⟩

end

end TreeWalk
