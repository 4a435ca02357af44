import TreeWalk.Proofs.Machine.Inheritance
import TreeWalk.Proofs.Machine.Moments
import TreeWalk.Proofs.Machine.Names

/-!
Properties of states and values that grow with what has come about. Which scopes there are, or
which functions were made, is a world: a run starts in one world and ends in a later one, and what
was said of a value stays true in all later worlds. So a value that is at hand while other things
run keeps its property, and the state has its own at every moment of the run. A property may depend
on the code that is executed: which statements may stand in a world is part of it.
-/

namespace TreeWalk

open Run

variable {W : Type}

/-- The name gets a value in the scope: it has one there that is found, or a statement that may
stand here declares it, in the active scope. -/
def State.Binding (s : State) (A : Stmt → Prop) (name : String) (i : ScopeId) : Prop :=
  s.heap.owner? s.active name = some i ∨ i = s.active ∧ ∃ statement, A statement ∧
    statement.Binds name

/-- `S` of states and `V` of values hold in worlds, and `A` says which statements may stand in one.
`G` says that a world is a later one, and `E` that it is one in which a new scope is entered. Values
that are no functions have `V`, what is found in a state with `S` has it, and steps with values that
have it lead to states with `S`, in a later world if a function is made. -/
structure Sustained (G E : W → W → Prop) (S : W → State → Prop) (V : W → Value → Prop)
    (A : W → Stmt → Prop) : Prop where
  refl : ∀ w, G w w
  trans : ∀ {w x y : W}, G w x → G x y → G w y
  grows : ∀ {w x : W} {v : Value}, G w x → V w v → V x v
  enters : ∀ {w x : W} {v : Value}, E w x → V w v → V x v
  stands : ∀ {w x : W} {statement : Stmt}, G w x → A w statement → A x statement
  branches : ∀ {w : W} {condition : Expr} {thenBranch : Stmt} {elseBranch : Option Stmt},
    A w (.ifElse condition thenBranch elseBranch) → A w thenBranch ∧ ∀ s ∈ elseBranch, A w s
  round : ∀ {w : W} {condition : Expr} {body : Stmt}, A w (.whileLoop condition body) → A w body
  plain : ∀ (w : W) {v : Value}, v.Plain → V w v
  found : ∀ {w : W} {s : State} {name : String} {v : Value}, S w s →
    s.heap.get? s.active name = some v → V w v
  define : ∀ {w : W} {s : State} {i : ScopeId} {name : String} {v : Value}, S w s → V w v →
    s.Binding (A w) name i → S w { s with heap := s.heap.define i name v }
  declare : ∀ {w : W} {s : State} {declaration : FunDecl}, S w s → A w (.funDecl declaration) →
    ∃ x, G w x ∧ S x { s with heap := s.heap.declare s.active declaration }
  sink : ∀ {w : W} {s : State} (sink : Sink), S w s → S w { s with sink }
  block : ∀ {w : W} {s : State} {body : List Stmt}, S w s → A w (.block body) →
    ∃ x, E w x ∧ S x s.nested ∧ ∀ statement ∈ body, A x statement
  body : ∀ {w : W} {s : State} {function : Function} {values : List Value}, S w s →
    V w (.function function) → (∀ v ∈ values, V w v) →
    ∃ x, E w x ∧ S x (function.entered values s) ∧
      ∀ statement ∈ function.declaration.body, A x statement
  back : ∀ {w x y : W} {s t : State}, S w s → E w x → G x y → S y t →
    ∃ z, G w z ∧ S z { t with active := s.active } ∧ ∀ v, V y v → V z v

namespace Run

section

variable {α β : Type} (G : W → W → Prop) (S : W → State → Prop)

/-- A state with `S` in a later world, and with it a value with `P`. -/
def Held (w : W) (P : W → α → Prop) : EStateM.Result Interrupt State α → Prop
  | .ok a t => ∃ x, G w x ∧ S x t ∧ P x a
  | .error _ t => ∃ x, G w x ∧ S x t

def Holds (w : W) (P : W → α → Prop) (m : Run α) : Prop := ∀ s, S w s → Held G S w P (m s)

end

section

variable {α : Type} {G : W → W → Prop} {S : W → State → Prop} {w : W} {P Q : W → α → Prop}
  {m : Run α}

theorem Holds.imp (h : Holds G S w P m) (hPQ : ∀ x a, P x a → Q x a) : Holds G S w Q m := by
  intro s hs
  have hrun := h s hs
  cases hresult : m s with
  | ok a t =>
    rw [hresult] at hrun
    obtain ⟨x, hwx, ht, ha⟩ := hrun
    exact ⟨x, hwx, ht, hPQ x a ha⟩
  | error e t =>
    rw [hresult] at hrun
    exact hrun

theorem Holds.finish (h : Holds G S w P m) {s t : State} {a : α} (hs : S w s)
    (hfinish : m.finish s = some ⟨.ok a, t⟩) : ∃ x, G w x ∧ S x t ∧ P x a := by
  have hrun := h s hs
  unfold Run.finish at hfinish
  rcases hresult : m s with ⟨b, u⟩ | ⟨⟨failure⟩ | _, u⟩ <;> rw [hresult] at hrun hfinish
  · cases hfinish
    exact hrun
  · cases hfinish
  · cases hfinish

end

end Run

/-- The value on its way to a call, if there is one, has the property. -/
def Flow.Of (V : W → Value → Prop) (w : W) : Flow → Prop
  | .normal => True
  | .returned value => V w value

namespace Sustained

variable {G E : W → W → Prop} {S : W → State → Prop} {V : W → Value → Prop}
  {A : W → Stmt → Prop} (sus : Sustained G E S V A)
  {α β : Type} {P : W → α → Prop} {Q : W → β → Prop} {w x : W}
include sus

/-! ## Steps -/

theorem later {result : EStateM.Result Interrupt State α} (hwx : G w x)
    (h : Held G S x P result) : Held G S w P result := by
  cases result with
  | ok a t =>
    obtain ⟨y, hxy, ht, ha⟩ := h
    exact ⟨y, sus.trans hwx hxy, ht, ha⟩
  | error e t =>
    obtain ⟨y, hxy, ht⟩ := h
    exact ⟨y, sus.trans hwx hxy, ht⟩

/-- What comes second may rely on the world and the value there are after the first. -/
theorem bind {m : Run α} {f : α → Run β} (hm : Holds G S w P m)
    (hf : ∀ x a, G w x → P x a → Holds G S x Q (f a)) : Holds G S w Q (m >>= f) := by
  intro s hs
  have hfirst := hm s hs
  change Held G S w Q (EStateM.bind m f s)
  unfold EStateM.bind
  rcases hrun : m s with ⟨a, t⟩ | ⟨e, t⟩ <;> rw [hrun] at hfirst
  · obtain ⟨x, hwx, ht, ha⟩ := hfirst
    exact sus.later hwx (hf x a hwx ha t ht)
  · exact hfirst

theorem pure {a : α} (ha : P w a) : Holds G S w P (Pure.pure a) :=
  fun _ hs => ⟨w, sus.refl w, hs, ha⟩

theorem outOfFuel : Holds G S w P outOfFuel := fun _ hs => ⟨w, sus.refl w, hs⟩

theorem failAt (token : Token) (fault : RuntimeFault) : Holds G S w P (failAt token fault) :=
  fun _ hs => ⟨w, sus.refl w, hs⟩

theorem ofOperation (operator : Token) {result : Except RuntimeFault Value}
    (hplain : ∀ v, result = .ok v → v.Plain) : Holds G S w V (ofOperation operator result) := by
  cases result with
  | ok value => exact sus.pure (sus.plain w (hplain value rfl))
  | error fault => exact sus.failAt operator fault

theorem read (name : Token) : Holds G S w V (read name) := by
  intro s hs
  unfold Run.read
  cases hget : s.heap.get? s.active name.lexeme with
  | none => exact ⟨w, sus.refl w, hs⟩
  | some value => exact ⟨w, sus.refl w, hs, sus.found hs hget⟩

theorem defines {name : Token} {value : Value} (hvalue : V w value) {statement : Stmt}
    (hstatement : A w statement) (hbinds : statement.Binds name.lexeme) :
    Holds G S w (fun _ _ => True) (Run.define name value) := fun _ hs =>
  ⟨w, sus.refl w, sus.define hs hvalue (.inr ⟨rfl, statement, hstatement, hbinds⟩), trivial⟩

theorem assigns (name : Token) {value : Value} (hvalue : V w value) :
    Holds G S w (fun _ _ => True) (assign name value) := by
  intro s hs
  unfold assign
  dsimp only
  cases howner : s.heap.owner? s.active name.lexeme with
  | none => exact ⟨w, sus.refl w, hs⟩
  | some owner => exact ⟨w, sus.refl w, sus.define hs hvalue (.inl howner), trivial⟩

theorem declares {declaration : FunDecl} (hstands : A w (.funDecl declaration)) :
    Holds G S w (fun _ _ => True) (Run.declare declaration) := by
  intro s hs
  obtain ⟨x, hwx, hx⟩ := sus.declare hs hstands
  exact ⟨x, hwx, hx, trivial⟩

theorem printLine (text : String) : Holds G S w (fun _ _ => True) (printLine text) := by
  intro s hs
  have hwritten := sus.sink (s.sink.write (text ++ "\n").toUTF8) hs
  unfold Run.printLine
  dsimp only
  cases s.sink.fits (text ++ "\n").toUTF8 with
  | true => exact ⟨w, sus.refl w, hwritten, trivial⟩
  | false => exact ⟨w, sus.refl w, hwritten⟩

theorem flush : Holds G S w (fun _ _ => True) flush := by
  intro s hs
  unfold Run.flush
  split
  · exact ⟨w, sus.refl w, hs⟩
  · exact ⟨w, sus.refl w, hs, trivial⟩

/-- A run that enters a new scope and comes back to the one it was called from. -/
theorem inside {outer : ScopeId} {bindings : List (String × Value)} {run : Run Flow} {s : State}
    (hs : S w s) (hwx : E w x)
    (hx : S x ⟨s.heap.addScope outer bindings, s.heap.nextScope, s.sink⟩)
    (hrun : Holds G S x (Flow.Of V) run) :
    Held G S w (Flow.Of V) (Run.inside outer bindings run s) := by
  have hended := hrun _ hx
  unfold Run.inside within
  dsimp only
  rcases hresult : run ⟨s.heap.addScope outer bindings, s.heap.nextScope, s.sink⟩ with
    ⟨flow, t⟩ | ⟨e, t⟩ <;> rw [hresult] at hended
  · obtain ⟨y, hxy, ht, hflow⟩ := hended
    obtain ⟨z, hwz, hz, hvalue⟩ := sus.back hs hwx hxy ht
    refine ⟨z, hwz, hz, ?_⟩
    cases flow with
    | normal => trivial
    | returned value => exact hvalue value hflow
  · obtain ⟨y, hxy, ht⟩ := hended
    obtain ⟨z, hwz, hz, _⟩ := sus.back hs hwx hxy ht
    exact ⟨z, hwz, hz⟩

end Sustained

/-! ## Runs -/

/-- What every rule with the given fuel holds to. -/
structure RunsHold (G : W → W → Prop) (S : W → State → Prop) (V : W → Value → Prop)
    (A : W → Stmt → Prop) (fuel : Nat) : Prop where
  evaluate : ∀ (w : W) (e : Expr), Holds G S w V (evaluate fuel e)
  evaluateAll : ∀ (w : W) (es : List Expr),
    Holds G S w (fun x values => ∀ v ∈ values, V x v) (evaluateAll fuel es)
  call : ∀ (w : W) (function : Function) (values : List Value), V w (.function function) →
    (∀ v ∈ values, V w v) → Holds G S w V (call fuel function values)
  execute : ∀ (w : W) (s : Stmt), A w s → Holds G S w (Flow.Of V) (execute fuel s)
  executeAll : ∀ (w : W) (ss : List Stmt), (∀ s ∈ ss, A w s) →
    Holds G S w (Flow.Of V) (executeAll fuel ss)

section

variable {G E : W → W → Prop} {S : W → State → Prop} {V : W → Value → Prop}
  {A : W → Stmt → Prop} (sus : Sustained G E S V A) {fuel : Nat} (ih : RunsHold G S V A fuel)
  (w : W)
include sus ih

theorem evaluate_holds (e : Expr) : Holds G S w V (evaluate (fuel + 1) e) := by
  cases e with
  | literal value =>
    rw [evaluate]
    exact sus.pure (sus.plain w (Value.plain_ofLiteral value))
  | group inner =>
    rw [evaluate]
    exact ih.evaluate w inner
  | unary operator right =>
    rw [evaluate]
    apply sus.bind (ih.evaluate w right)
    intro x value _ _
    exact sus.ofOperation operator fun _ => Operation.unary_plain
  | binary left operator right =>
    rw [evaluate]
    apply sus.bind (ih.evaluate w left)
    intro x value _ _
    apply sus.bind (ih.evaluate x right)
    intro y other _ _
    exact sus.ofOperation operator fun _ => Operation.binary_plain
  | logical left operator right =>
    rw [evaluate]
    apply sus.bind (ih.evaluate w left)
    intro x value _ hvalue
    split
    · exact sus.pure hvalue
    · exact ih.evaluate x right
  | reference name =>
    rw [evaluate]
    exact sus.read name
  | assign name value =>
    rw [evaluate]
    apply sus.bind (ih.evaluate w value)
    intro x value _ hvalue
    apply sus.bind (sus.assigns name hvalue)
    intro y _ hxy _
    exact sus.pure (sus.grows hxy hvalue)
  | call callee paren arguments =>
    rw [evaluate]
    apply sus.bind (ih.evaluate w callee)
    intro x callee _ hcallee
    apply sus.bind (ih.evaluateAll x arguments)
    intro y values hxy hvalues
    cases callee with
    | function function =>
      dsimp only
      split
      · exact ih.call y function values (sus.grows hxy hcallee) hvalues
      · exact sus.failAt paren _
    | _ => exact sus.failAt paren _

theorem evaluateAll_holds (es : List Expr) :
    Holds G S w (fun x values => ∀ v ∈ values, V x v) (evaluateAll (fuel + 1) es) := by
  cases es with
  | nil =>
    rw [evaluateAll]
    exact sus.pure (by simp)
  | cons e es =>
    rw [evaluateAll]
    apply sus.bind (ih.evaluate w e)
    intro x value _ hvalue
    apply sus.bind (ih.evaluateAll x es)
    intro y values hxy hvalues
    exact sus.pure (List.forall_mem_cons.2 ⟨sus.grows hxy hvalue, hvalues⟩)

theorem call_holds (function : Function) (values : List Value)
    (hfunction : V w (.function function)) (hvalues : ∀ v ∈ values, V w v) :
    Holds G S w V (call (fuel + 1) function values) := by
  rw [call_succ]
  have hbody : Holds G S w (Flow.Of V) (Run.inside function.closure (function.bindings values)
      (executeAll fuel function.declaration.body)) := by
    intro s hs
    obtain ⟨x, hwx, hx, hstand⟩ := sus.body hs hfunction hvalues
    exact sus.inside hs hwx hx (ih.executeAll x _ hstand)
  apply sus.bind hbody
  intro x flow _ hflow
  cases flow with
  | returned value => exact sus.pure hflow
  | normal => exact sus.pure (sus.plain x trivial)

theorem execute_holds (s : Stmt) (hstands : A w s) :
    Holds G S w (Flow.Of V) (execute (fuel + 1) s) := by
  have hdone : ∀ x, Holds G S x (Flow.Of V) (pure .normal) := fun _ => sus.pure trivial
  have hnil : V w .nil := sus.plain w trivial
  cases s with
  | expression value =>
    rw [execute]
    exact sus.bind (ih.evaluate w value) fun x _ _ _ => hdone x
  | print value =>
    rw [execute]
    apply sus.bind (ih.evaluate w value)
    intro x value _ _
    exact sus.bind (sus.printLine value.text) fun y _ _ _ => hdone y
  | varDecl name initial =>
    cases initial with
    | none =>
      rw [execute]
      exact sus.bind (sus.defines hnil hstands (.varDecl name none)) fun x _ _ _ => hdone x
    | some initial =>
      rw [execute]
      apply sus.bind (ih.evaluate w initial)
      intro x value hwx hvalue
      have hdefines := sus.defines hvalue (sus.stands hwx hstands) (.varDecl name (some initial))
      exact sus.bind hdefines fun y _ _ _ => hdone y
  | block body =>
    rw [execute]
    intro s hs
    obtain ⟨x, hwx, hx, hbody⟩ := sus.block hs hstands
    exact sus.inside hs hwx hx (ih.executeAll x body hbody)
  | ifElse condition thenBranch elseBranch =>
    rw [execute_ifElse]
    apply sus.bind (ih.evaluate w condition)
    intro x test hwx _
    obtain ⟨hthen, helse⟩ := sus.branches (sus.stands hwx hstands)
    split
    · exact ih.execute x thenBranch hthen
    · cases elseBranch with
      | none => exact hdone x
      | some elseBranch => exact ih.execute x elseBranch (helse _ rfl)
  | whileLoop condition body =>
    rw [execute]
    apply sus.bind (ih.evaluate w condition)
    intro x test hwx _
    have hloop := sus.stands hwx hstands
    split
    · apply sus.bind (ih.execute x body (sus.round hloop))
      intro y flow hxy hflow
      cases flow with
      | returned value => exact sus.pure hflow
      | normal => exact ih.execute y (.whileLoop condition body) (sus.stands hxy hloop)
    · exact hdone x
  | funDecl declaration =>
    rw [execute]
    exact sus.bind (sus.declares hstands) fun x _ _ _ => hdone x
  | returnValue keyword value =>
    cases value with
    | none =>
      rw [execute]
      exact sus.pure hnil
    | some value =>
      rw [execute]
      apply sus.bind (ih.evaluate w value)
      intro x value _ hvalue
      exact sus.pure hvalue
  | classDecl name superclass methods =>
    rw [execute]
    have hdefines := sus.defines hnil hstands (.classDecl name superclass methods)
    exact sus.bind hdefines fun x _ _ _ => hdone x

theorem executeAll_holds (ss : List Stmt) (hstand : ∀ s ∈ ss, A w s) :
    Holds G S w (Flow.Of V) (executeAll (fuel + 1) ss) := by
  cases ss with
  | nil =>
    rw [executeAll]
    exact sus.pure trivial
  | cons s ss =>
    obtain ⟨hfirst, hmore⟩ := List.forall_mem_cons.1 hstand
    rw [executeAll]
    apply sus.bind (ih.execute w s hfirst)
    intro x flow hwx hflow
    cases flow with
    | returned value => exact sus.pure hflow
    | normal => exact ih.executeAll x ss fun s hs => sus.stands hwx (hmore s hs)

end

namespace Sustained

variable {G E : W → W → Prop} {S : W → State → Prop} {V : W → Value → Prop}
  {A : W → Stmt → Prop} (sus : Sustained G E S V A)
include sus

theorem runs (fuel : Nat) : RunsHold G S V A fuel := by
  induction fuel with
  | zero =>
    constructor <;> intros
    all_goals exact sus.outOfFuel
  | succ fuel ih =>
    exact ⟨evaluate_holds sus ih, evaluateAll_holds sus ih, call_holds sus ih,
      execute_holds sus ih, executeAll_holds sus ih⟩

theorem interpret (fuel : Nat) (w : W) (program : List Stmt)
    (hstand : ∀ statement ∈ program, A w statement) :
    Holds G S w (fun _ _ => True) (interpret fuel program) :=
  sus.bind ((sus.runs fuel).executeAll w program hstand) fun _ _ _ _ => sus.flush

end Sustained

end TreeWalk
