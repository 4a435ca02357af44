import TreeWalk.Proofs.Machine.Moments
import TreeWalk.Proofs.Machine.Names
import TreeWalk.Proofs.Machine.Noninterference

/-!
Declarations are local. What a block or the body of a function declares is bound in a scope that was
made for it: it cannot be seen from the scopes that were there before, where every name resolves as
it did, and it replaces nothing there, however the block or the call ends.
-/

namespace TreeWalk

open Run State

/-- The statement is a declaration, of a variable with an initial value if there is an
expression. -/
inductive Stmt.DeclaresWith : Stmt → Option Expr → Prop
  | varDecl (name : Token) (initial : Option Expr) : DeclaresWith (.varDecl name initial) initial
  | funDecl (declaration : FunDecl) : DeclaresWith (.funDecl declaration) none
  | classDecl (name : Token) (superclass : Option Expr) (methods : List FunDecl) :
    DeclaresWith (.classDecl name superclass methods) none

theorem getElem?_after_define (name : Token) (value : Value) {s : State} {i : ScopeId}
    (hi : i ≠ s.active) :
    ((define name value).after s).heap.scopes[i]? = s.heap.scopes[i]? := by
  change (s.heap.define s.active name.lexeme value).scopes[i]? = _
  rw [Heap.getElem?_define, if_neg hi.symm]

theorem getElem?_after_declare (declaration : FunDecl) {s : State} {i : ScopeId}
    (hi : i ≠ s.active) :
    ((declare declaration).after s).heap.scopes[i]? = s.heap.scopes[i]? := by
  change (s.heap.declare s.active declaration).scopes[i]? = _
  rw [Heap.declare, Heap.getElem?_define, if_neg hi.symm]

theorem after_bind_pure {α β : Type} (m : Run α) (b : β) (s : State) :
    (m >>= fun _ => pure b).after s = m.after s := by
  rw [after_bind]
  rfl

/-- Apart from what its initial value does, a declaration changes the active scope alone. -/
theorem getElem?_after_declaration {statement : Stmt} {initial : Option Expr}
    (h : statement.DeclaresWith initial) (fuel : Nat) {s : State} {i : ScopeId}
    (hi : i ≠ s.active) :
    ((execute (fuel + 1) statement).after s).heap.scopes[i]? =
      (initial.elim s fun e => (evaluate fuel e).after s).heap.scopes[i]? := by
  cases h with
  | varDecl name initial =>
    cases initial with
    | none =>
      rw [execute, after_bind_pure]
      exact getElem?_after_define name .nil hi
    | some initial =>
      have hactive := ((runs_restore fuel).evaluate initial s).active
      have hdefined : ∀ (value : Value) (t : State), t.active = s.active →
          ((define name value >>= fun _ => pure Flow.normal).after t).heap.scopes[i]? =
            t.heap.scopes[i]? := by
        intro value t ht
        rw [after_bind_pure]
        exact getElem?_after_define name value (ht ▸ hi)
      rw [execute, after_bind, Option.elim_some]
      unfold after at hactive ⊢
      rcases hrun : evaluate fuel initial s with ⟨value, t⟩ | ⟨e, t⟩
      · rw [hrun] at hactive
        exact hdefined value t hactive
      · rfl
  | funDecl declaration =>
    rw [execute, after_bind_pure]
    exact getElem?_after_declare declaration hi
  | classDecl name superclass methods =>
    rw [execute, after_bind_pure]
    exact getElem?_after_define name .nil hi

/-- No run unbinds a name or changes a link. Expressions, calls and blocks bind the names that were
bound, in the scopes that were there, and a statement does so in all but the active one, so that
from every such scope names resolve after a block or a call as they did before it. What is declared
within leaves all these scopes as it found them. -/
theorem declarations_stay_local :
    (∀ fuel : Nat,
      (∀ e : Expr, Leaves SameNames (evaluate fuel e)) ∧
      (∀ es : List Expr, Leaves SameNames (evaluateAll fuel es)) ∧
      (∀ (function : Function) (values : List Value),
        Leaves SameNames (call fuel function values)) ∧
      (∀ body : List Stmt, Leaves SameNames (execute fuel (.block body))) ∧
      (∀ statement : Stmt, Leaves Declares (execute fuel statement)) ∧
      (∀ statements : List Stmt, Leaves Declares (executeAll fuel statements)) ∧
      (∀ program : List Stmt, Leaves Declares (interpret fuel program))) ∧
    (∀ s t : State, SameNames s t → s.heap.Founded → ∀ (i : ScopeId) (name : String),
      i < s.heap.scopes.size → t.heap.owner? i name = s.heap.owner? i name) ∧
    (∀ (m : Moment) (statement : Stmt) (initial : Option Expr) (u : State), m.task.Enclosed →
      Within m ⟨.execute statement, u⟩ → statement.DeclaresWith initial →
      ∀ (fuel : Nat) (i : ScopeId), i < m.state.heap.scopes.size →
        ((execute (fuel + 1) statement).after u).heap.scopes[i]? =
          (initial.elim u fun e => (evaluate fuel e).after u).heap.scopes[i]?) := by
  refine ⟨?_, ?_, ?_⟩
  · intro fuel
    have runs := runs_declare fuel
    exact ⟨runs.evaluate, runs.evaluateAll, runs.call, block_sameNames fuel, runs.execute,
      runs.executeAll, runs.interpret steps_declare⟩
  · intro s t hst hfounded i name hi
    exact hst.names.owner?_eq hfounded name hi
  · intro m statement initial u hm hwithin hdeclares fuel i hi
    have hnew : m.state.heap.scopes.size ≤ u.active := (hwithin.scope hm).2 trivial
    exact getElem?_after_declaration hdeclares fuel (Nat.ne_of_lt (Nat.lt_of_lt_of_le hi hnew))

/-- A state where `x` is bound among the globals, and nothing else. -/
def shadowedState : State :=
  ⟨⟨#[⟨[("x", .bool true)], none⟩], 0⟩, Heap.globals, .unlimited⟩

/-- The declaration of another `x`. -/
def shadowingX : Stmt := .varDecl (named "x") (some (.reference (named "x")))

/-- A block that declares `x` and `f`, and fails. -/
def shadowingBlock : Stmt :=
  .block [shadowingX, .funDecl ⟨named "f", [], []⟩,
    .expression (.call (.literal .nil) (named ")") [])]

/-- The block fails behind its declarations: `x` still is the global one, and `f` is unbound. -/
theorem shadowingBlock_local :
    ∃ t : State, (execute 10 shadowingBlock).finish shadowedState =
        some ⟨.error (.runtime .notCallable 1), t⟩ ∧
      t.heap.owner? 0 "x" = some 0 ∧ t.heap.owner? 0 "f" = none ∧
      ((execute 10 shadowingX).after shadowedState.nested).heap.scopes[0]? =
        ((evaluate 9 (.reference (named "x"))).after shadowedState.nested).heap.scopes[0]? := by
  obtain ⟨hruns, howners, hwithin⟩ := declarations_stay_local
  have hnames : SameNames shadowedState ((execute 10 shadowingBlock).after shadowedState) :=
    (hruns 10).2.2.2.1 _ shadowedState
  have hfounded : shadowedState.heap.Founded := by
    intro i outer scope hi houter
    cases i with
    | zero =>
      cases hi
      cases houter
    | succ i => simp [shadowedState] at hi
  have howner := howners _ _ hnames hfounded 0
  have hdeclared : Within ⟨.execute shadowingBlock, shadowedState⟩
      ⟨.execute shadowingX, shadowedState.nested⟩ := .tail (.single .block) .first
  exact ⟨_, rfl, (howner "x" Nat.one_pos).trans rfl, (howner "f" Nat.one_pos).trans rfl,
    hwithin _ _ _ _ (.block _) hdeclared (.varDecl _ _) 9 0 Nat.one_pos⟩

end TreeWalk
