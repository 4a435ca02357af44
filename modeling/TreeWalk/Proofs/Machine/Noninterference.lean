import Mathlib.Data.List.Forall2
import TreeWalk.Proofs.Machine.Leaves
import TreeWalk.Proofs.Machine.Reach

/-!
Lexical scoping, as what a run cannot depend on and cannot change. Two runs of one statement from
states that agree on the scopes in reach of the active one go step by step alike, and neither
touches a scope out of reach. A call starts at the scope its function closes over and at its
arguments, not at the scope of the caller.
-/

namespace TreeWalk

/-- Results of the same kind: values in relation, or one and the same fault. -/
inductive SameResult {ε α β : Type} (V : α → β → Prop) : Except ε α → Except ε β → Prop
  | ok {a : α} {b : β} : V a b → SameResult V (.ok a) (.ok b)
  | error (e : ε) : SameResult V (.error e) (.error e)

inductive Flow.Rel (V : Value → Value → Prop) : Flow → Flow → Prop
  | normal : Rel V .normal .normal
  | returned {v w : Value} : V v w → Rel V (.returned v) (.returned w)

namespace Run

variable {α β γ δ : Type}

/-- Runs that end alike, in states that are in relation. -/
inductive SameEnd (P : State → State → Prop) (V : α → β → Prop) :
    EStateM.Result Interrupt State α → EStateM.Result Interrupt State β → Prop
  | ok {a : α} {b : β} {s t : State} : V a b → P s t → SameEnd P V (.ok a s) (.ok b t)
  | error (e : Interrupt) {s t : State} : P s t → SameEnd P V (.error e s) (.error e t)

/-- From states in relation, both runs end alike and in states in relation again. -/
def Related (P : State → State → Prop) (V : α → β → Prop) (m : Run α) (n : Run β) : Prop :=
  ∀ s t, P s t → SameEnd P V (m s) (n t)

variable {P : State → State → Prop} {V : α → β → Prop} {W : γ → δ → Prop}

theorem Related.bind {m : Run α} {n : Run β} {f : α → Run γ} {g : β → Run δ}
    (hm : Related P V m n) (hf : ∀ a b, V a b → Related P W (f a) (g b)) :
    Related P W (m >>= f) (n >>= g) := by
  intro s t hst
  have hrun := hm s t hst
  change SameEnd P W (EStateM.bind m f s) (EStateM.bind n g t)
  unfold EStateM.bind
  generalize m s = r, n t = q at hrun
  cases hrun with
  | ok hab hst => exact hf _ _ hab _ _ hst
  | error e hst => exact .error e hst

/-- Both runs take the same branch. -/
theorem Related.ite {p q : Prop} [Decidable p] [Decidable q] {m m' : Run α} {n n' : Run β}
    (hpq : p ↔ q) (hm : Related P V m n) (hm' : Related P V m' n') :
    Related P V (if p then m else m') (if q then n else n') := by
  by_cases hp : p
  · rw [if_pos hp, if_pos (hpq.mp hp)]
    exact hm
  · rw [if_neg hp, if_neg fun hq => hp (hpq.mpr hq)]
    exact hm'

theorem related_pure {a : α} {b : β} (hab : V a b) : Related P V (pure a) (pure b) :=
  fun _ _ hst => .ok hab hst

theorem related_failAt (token : Token) (fault : RuntimeFault) :
    Related P V (failAt token fault) (failAt token fault) := fun _ _ hst => .error _ hst

theorem related_outOfFuel : Related P V outOfFuel outOfFuel := fun _ _ hst => .error _ hst

theorem related_ofOperation (operator : Token) {x : Except RuntimeFault α}
    {y : Except RuntimeFault β} (hxy : SameResult V x y) :
    Related P V (ofOperation operator x) (ofOperation operator y) := by
  cases hxy with
  | ok hab => exact related_pure hab
  | error fault => exact related_failAt operator fault

end Run

open Run

variable {ρ : Nat → Nat → Prop} {R : ScopeId → Prop} {base : Heap}

section

variable {v w v' w' : Value}

theorem Value.shared_nil : Value.nil.Shared ρ R .nil := ⟨.nil, nofun⟩

theorem Value.shared_bool (b : Bool) : (Value.bool b).Shared ρ R (.bool b) := ⟨.bool b, nofun⟩

theorem Value.shared_number (x : Float) : (Value.number x).Shared ρ R (.number x) :=
  ⟨.number x, nofun⟩

theorem Value.shared_string (contents : String) :
    (Value.string contents).Shared ρ R (.string contents) := ⟨.string contents, nofun⟩

theorem Value.shared_ofLiteral (literal : Literal) :
    (Value.ofLiteral literal).Shared ρ R (.ofLiteral literal) := by
  cases literal with
  | number x => exact shared_number x
  | string contents => exact shared_string contents
  | bool b => exact shared_bool b
  | nil => exact shared_nil

open Value

theorem unary_alike (operator : Token) (h : v.Matches ρ w) :
    SameResult (Value.Shared ρ R) (Operation.unary operator v) (Operation.unary operator w) := by
  unfold Operation.unary
  split
  · cases h with
    | number x => exact .ok (shared_number _)
    | _ => exact .error _
  · rw [h.isTruthy_eq]
    exact .ok (shared_bool _)
  · exact .error _

theorem add_alike (h : v.Matches ρ w) (h' : v'.Matches ρ w') :
    SameResult (Value.Shared ρ R) (Operation.add v v') (Operation.add w w') := by
  cases h <;> cases h' <;>
    first
    | exact .ok (shared_number _)
    | exact .ok (shared_string _)
    | exact .error _

theorem onNumbers_alike (h : v.Matches ρ w) (h' : v'.Matches ρ w')
    {f : Float → Float → Except RuntimeFault Value}
    (hf : ∀ a b, SameResult (Value.Shared ρ R) (f a b) (f a b)) :
    SameResult (Value.Shared ρ R) (Operation.onNumbers v v' f) (Operation.onNumbers w w' f) := by
  cases h with
  | number a =>
    cases h' with
    | number b => exact hf a b
    | _ => exact .error _
  | _ => exact .error _

theorem divide_alike (a b : Float) :
    SameResult (Value.Shared ρ R) (Operation.divide a b) (Operation.divide a b) := by
  unfold Operation.divide
  split
  · exact .error _
  · exact .ok (shared_number _)

theorem binary_alike (operator : Token) (hρ : Relator.BiUnique ρ) (h : v.Matches ρ w)
    (h' : v'.Matches ρ w') :
    SameResult (Value.Shared ρ R) (Operation.binary operator v v')
      (Operation.binary operator w w') := by
  unfold Operation.binary
  rw [h.equal_eq hρ h']
  split
  · exact add_alike h h'
  · exact onNumbers_alike h h' fun _ _ => .ok (shared_number _)
  · exact onNumbers_alike h h' fun _ _ => .ok (shared_number _)
  · exact onNumbers_alike h h' divide_alike
  · exact onNumbers_alike h h' fun _ _ => .ok (shared_bool _)
  · exact onNumbers_alike h h' fun _ _ => .ok (shared_bool _)
  · exact onNumbers_alike h h' fun _ _ => .ok (shared_bool _)
  · exact onNumbers_alike h h' fun _ _ => .ok (shared_bool _)
  · exact .ok (shared_bool _)
  · exact .ok (shared_bool _)
  · exact .error _

theorem decides_eq (operator : Token) (h : v.Matches ρ w) :
    Operation.decides operator v = Operation.decides operator w := by
  unfold Operation.decides
  rw [h.isTruthy_eq]

end

/-- What both runs keep: heaps that share `R`, one output, and each run its own active scope. -/
inductive Linked (ρ : Nat → Nat → Prop) (R : ScopeId → Prop) (base : Heap) (a b : ScopeId) :
    State → State → Prop
  | intro {h k : Heap} {sink : Sink} :
    Heap.Shared ρ R base h k → Linked ρ R base a b ⟨h, a, sink⟩ ⟨k, b, sink⟩

section

variable {a b : ScopeId} {v w : Value}

theorem read_related (ha : R a) (name : Token) :
    Related (Linked ρ R base a a) (Value.Shared ρ R) (read name) (read name) := by
  rintro _ _ ⟨hheap⟩
  unfold Run.read
  obtain ⟨hv, kv⟩ | ⟨v, w, hv, kv, hvw⟩ := rel_cases (hheap.get? name.lexeme ha)
  · simp only [hv, kv]
    exact .error _ ⟨hheap⟩
  · simp only [hv, kv]
    exact .ok hvw ⟨hheap⟩

theorem define_related (ha : R a) (name : Token) (hvw : v.Shared ρ R w) :
    Related (Linked ρ R base a a) Eq (define name v) (define name w) := by
  rintro _ _ ⟨hheap⟩
  exact .ok rfl ⟨hheap.define ha name.lexeme hvw⟩

theorem assign_related (ha : R a) (name : Token) (hvw : v.Shared ρ R w) :
    Related (Linked ρ R base a a) Eq (assign name v) (assign name w) := by
  rintro _ _ ⟨hheap⟩
  obtain ⟨hsame, hin⟩ := hheap.owner? name.lexeme ha
  unfold assign
  dsimp only
  rw [← hsame]
  split
  · next owner howner =>
    exact .ok rfl ⟨hheap.define (hin owner howner) name.lexeme hvw⟩
  · exact .error _ ⟨hheap⟩

theorem declare_related (ha : R a) (declaration : FunDecl) :
    Related (Linked ρ R base a a) Eq (declare declaration) (declare declaration) := by
  rintro _ _ ⟨hheap⟩
  exact .ok rfl ⟨hheap.declare ha declaration⟩

theorem printLine_related (text : String) :
    Related (Linked ρ R base a b) Eq (printLine text) (printLine text) := by
  rintro _ _ ⟨hheap⟩
  unfold printLine
  dsimp only
  split
  · exact .ok rfl ⟨hheap⟩
  · exact .error _ ⟨hheap⟩

theorem within_related {α β : Type} {V : α → β → Prop} {c d : ScopeId} {m : Run α} {n : Run β}
    (hmn : Related (Linked ρ R base c d) V m n) :
    Related (Linked ρ R base a b) V (within c m) (within d n) := by
  rintro _ _ @⟨h, k, sink, hheap⟩
  have hrun := hmn ⟨h, c, sink⟩ ⟨k, d, sink⟩ ⟨hheap⟩
  unfold within
  dsimp only
  generalize m ⟨h, c, sink⟩ = r, n ⟨k, d, sink⟩ = q at hrun
  cases hrun with
  | ok hab hst =>
    obtain ⟨hheap⟩ := hst
    exact .ok hab ⟨hheap⟩
  | error e hst =>
    obtain ⟨hheap⟩ := hst
    exact .error e ⟨hheap⟩

/-- Both runs get the same new scope, so whatever scopes were active, the bodies run in one. -/
theorem inside_related {α β : Type} {V : α → β → Prop} {outer : ScopeId}
    {bs cs : List (String × Value)} {m : Run α} {n : Run β} (hout : R outer)
    (hbs : Scope.SharedBindings ρ R bs cs)
    (hmn : ∀ c, R c → Related (Linked ρ R base c c) V m n) :
    Related (Linked ρ R base a b) V (inside outer bs m) (inside outer cs n) := by
  rintro _ _ @⟨h, k, sink, hheap⟩
  have hfresh : h.nextScope = k.nextScope := hheap.size
  have hin : R h.nextScope := hheap.unmade _ (Nat.le_refl _)
  unfold inside
  dsimp only
  rw [← hfresh]
  exact within_related (hmn _ hin) _ _ ⟨hheap.addScope hout hbs⟩

end

/-- The bindings of a call's new scope. -/
theorem sharedBindings_arguments (params : List Token) {vs ws : List Value}
    (hvs : List.Forall₂ (Value.Shared ρ R) vs ws) {bs cs : List (String × Value)}
    (hbs : Scope.SharedBindings ρ R bs cs) :
    Scope.SharedBindings ρ R
      (((params.map (·.lexeme)).zip vs).foldl (fun bs b => Scope.put b.1 b.2 bs) bs)
      (((params.map (·.lexeme)).zip ws).foldl (fun bs b => Scope.put b.1 b.2 bs) cs) := by
  induction hvs generalizing params bs cs with
  | nil => simpa only [List.zip_nil_right, List.foldl_nil] using hbs
  | cons hv _ ihs =>
    cases params with
    | nil => simpa only [List.map_nil, List.zip_nil_left, List.foldl_nil] using hbs
    | cons param params => exact ihs params (hbs.put param.lexeme hv)

/-- Runs with this fuel go alike from linked states, in any active scope within `R`; calls do in
any two active scopes. -/
structure RunsAlike (ρ : Nat → Nat → Prop) (R : ScopeId → Prop) (base : Heap) (fuel : Nat) :
    Prop where
  evaluate : ∀ (e : Expr) {a : ScopeId}, R a →
    Related (Linked ρ R base a a) (Value.Shared ρ R) (evaluate fuel e) (evaluate fuel e)
  evaluateAll : ∀ (es : List Expr) {a : ScopeId}, R a →
    Related (Linked ρ R base a a) (List.Forall₂ (Value.Shared ρ R)) (evaluateAll fuel es)
      (evaluateAll fuel es)
  call : ∀ {f g : Function} {vs ws : List Value} (a b : ScopeId),
    (Value.function f).Shared ρ R (.function g) → List.Forall₂ (Value.Shared ρ R) vs ws →
    Related (Linked ρ R base a b) (Value.Shared ρ R) (call fuel f vs) (call fuel g ws)
  execute : ∀ (s : Stmt) {a : ScopeId}, R a →
    Related (Linked ρ R base a a) (Flow.Rel (Value.Shared ρ R)) (execute fuel s) (execute fuel s)
  executeAll : ∀ (ss : List Stmt) {a : ScopeId}, R a →
    Related (Linked ρ R base a a) (Flow.Rel (Value.Shared ρ R)) (executeAll fuel ss)
      (executeAll fuel ss)

section

variable {fuel : Nat} (ih : RunsAlike ρ R base fuel) {a : ScopeId} (ha : R a)
include ih

theorem call_alike {f g : Function} {vs ws : List Value} (a b : ScopeId)
    (hfg : (Value.function f).Shared ρ R (.function g))
    (hvs : List.Forall₂ (Value.Shared ρ R) vs ws) :
    Related (Linked ρ R base a b) (Value.Shared ρ R) (call (fuel + 1) f vs)
      (call (fuel + 1) g ws) := by
  obtain ⟨hsame, hwithin⟩ := hfg
  cases hsame with
  | function declaration closure hid =>
    have hclosure : R closure := hwithin closure rfl
    have hnone : Scope.SharedBindings ρ R [] [] := fun _ => .none
    have hbindings := sharedBindings_arguments declaration.params hvs hnone
    rw [call, call]
    apply (inside_related hclosure hbindings fun c hc => ih.executeAll declaration.body hc).bind
    rintro _ _ (_ | hvw)
    · exact related_pure Value.shared_nil
    · exact related_pure hvw

include ha

theorem evaluateAll_alike (es : List Expr) :
    Related (Linked ρ R base a a) (List.Forall₂ (Value.Shared ρ R)) (evaluateAll (fuel + 1) es)
      (evaluateAll (fuel + 1) es) := by
  cases es with
  | nil =>
    rw [evaluateAll]
    exact related_pure .nil
  | cons e es =>
    have hfirst := ih.evaluate e ha
    have hmore := ih.evaluateAll es ha
    rw [evaluateAll]
    apply hfirst.bind
    intro v w hvw
    apply hmore.bind
    intro vs ws hvs
    exact related_pure (.cons hvw hvs)

theorem evaluate_alike (hρ : Relator.BiUnique ρ) (e : Expr) :
    Related (Linked ρ R base a a) (Value.Shared ρ R) (evaluate (fuel + 1) e)
      (evaluate (fuel + 1) e) := by
  cases e with
  | literal value =>
    rw [evaluate]
    exact related_pure (Value.shared_ofLiteral value)
  | group inner =>
    rw [evaluate]
    exact ih.evaluate inner ha
  | unary operator right =>
    have hright := ih.evaluate right ha
    rw [evaluate]
    apply hright.bind
    intro v w hvw
    exact related_ofOperation operator (unary_alike operator hvw.same)
  | binary left operator right =>
    have hleft := ih.evaluate left ha
    have hright := ih.evaluate right ha
    rw [evaluate]
    apply hleft.bind
    intro v w hvw
    apply hright.bind
    intro v' w' hvw'
    exact related_ofOperation operator (binary_alike operator hρ hvw.same hvw'.same)
  | logical left operator right =>
    have hleft := ih.evaluate left ha
    rw [evaluate]
    apply hleft.bind
    intro v w hvw
    apply Related.ite (by rw [decides_eq operator hvw.same])
    · exact related_pure hvw
    · exact ih.evaluate right ha
  | reference name =>
    rw [evaluate]
    exact read_related ha name
  | assign name value =>
    have hvalue := ih.evaluate value ha
    rw [evaluate]
    apply hvalue.bind
    intro v w hvw
    exact (assign_related ha name hvw).bind fun _ _ _ => related_pure hvw
  | call callee paren arguments =>
    have hcallee := ih.evaluate callee ha
    have harguments := ih.evaluateAll arguments ha
    rw [evaluate]
    apply hcallee.bind
    intro v w hvw
    apply harguments.bind
    intro vs ws hvs
    obtain ⟨hsame, hwithin⟩ := hvw
    cases hsame with
    | function declaration closure hid =>
      have hcall := ih.call a a ⟨.function declaration closure hid, hwithin⟩ hvs
      rw [hvs.length_eq]
      exact Related.ite Iff.rfl hcall (related_failAt _ _)
    | _ => exact related_failAt _ _

theorem execute_alike (s : Stmt) :
    Related (Linked ρ R base a a) (Flow.Rel (Value.Shared ρ R)) (execute (fuel + 1) s)
      (execute (fuel + 1) s) := by
  cases s with
  | expression value =>
    have hvalue := ih.evaluate value ha
    rw [execute]
    exact hvalue.bind fun _ _ _ => related_pure .normal
  | print value =>
    have hvalue := ih.evaluate value ha
    rw [execute]
    apply hvalue.bind
    intro v w hvw
    rw [hvw.same.text_eq]
    exact (printLine_related w.text).bind fun _ _ _ => related_pure .normal
  | varDecl name initial =>
    cases initial with
    | none =>
      rw [execute]
      exact (define_related ha name Value.shared_nil).bind fun _ _ _ => related_pure .normal
    | some initial =>
      have hinitial := ih.evaluate initial ha
      rw [execute]
      apply hinitial.bind
      intro v w hvw
      exact (define_related ha name hvw).bind fun _ _ _ => related_pure .normal
  | block body =>
    have hnone : Scope.SharedBindings ρ R [] [] := fun _ => .none
    rw [execute]
    rintro _ _ ⟨hheap⟩
    exact inside_related ha hnone (fun c hc => ih.executeAll body hc) _ _ ⟨hheap⟩
  | ifElse condition thenBranch elseBranch =>
    have hcondition := ih.evaluate condition ha
    rw [execute_ifElse]
    apply hcondition.bind
    intro v w hvw
    apply Related.ite (by rw [hvw.same.isTruthy_eq])
    · exact ih.execute thenBranch ha
    · cases elseBranch with
      | none => exact related_pure .normal
      | some elseBranch => exact ih.execute elseBranch ha
  | whileLoop condition body =>
    have hcondition := ih.evaluate condition ha
    have hbody := ih.execute body ha
    rw [execute]
    apply hcondition.bind
    intro v w hvw
    apply Related.ite (by rw [hvw.same.isTruthy_eq])
    · apply hbody.bind
      rintro _ _ (_ | hvw)
      · exact ih.execute (.whileLoop condition body) ha
      · exact related_pure (.returned hvw)
    · exact related_pure .normal
  | funDecl declaration =>
    rw [execute]
    exact (declare_related ha declaration).bind fun _ _ _ => related_pure .normal
  | returnValue keyword value =>
    cases value with
    | none =>
      rw [execute]
      exact related_pure (.returned Value.shared_nil)
    | some value =>
      have hvalue := ih.evaluate value ha
      rw [execute]
      exact hvalue.bind fun _ _ hvw => related_pure (.returned hvw)
  | classDecl name superclass methods =>
    rw [execute]
    exact (define_related ha name Value.shared_nil).bind fun _ _ _ => related_pure .normal

theorem executeAll_alike (ss : List Stmt) :
    Related (Linked ρ R base a a) (Flow.Rel (Value.Shared ρ R)) (executeAll (fuel + 1) ss)
      (executeAll (fuel + 1) ss) := by
  cases ss with
  | nil =>
    rw [executeAll]
    exact related_pure .normal
  | cons s ss =>
    have hfirst := ih.execute s ha
    rw [executeAll]
    apply hfirst.bind
    rintro _ _ (_ | hvw)
    · exact ih.executeAll ss ha
    · exact related_pure (.returned hvw)

end

theorem runs_alike (hρ : Relator.BiUnique ρ) (fuel : Nat) : RunsAlike ρ R base fuel := by
  induction fuel with
  | zero => constructor <;> intros <;> exact related_outOfFuel
  | succ fuel ih =>
    exact ⟨fun e _ ha => evaluate_alike ih ha hρ e, fun es _ ha => evaluateAll_alike ih ha es,
      fun a b hfg hvs => call_alike ih a b hfg hvs, fun s _ ha => execute_alike ih ha s,
      fun ss _ ha => executeAll_alike ih ha ss⟩

theorem Run.SameEnd.finish {α β : Type} {P : State → State → Prop} {V : α → β → Prop}
    {m : Run α} {n : Run β} {s t : State} {f : Finished α} (hrun : SameEnd P V (m s) (n t))
    (hf : m.finish s = some f) :
    ∃ g, n.finish t = some g ∧ SameResult V f.result g.result ∧ P f.state g.state := by
  unfold Run.finish at hf ⊢
  generalize m s = r, n t = q at hf hrun
  cases hrun with
  | ok hab hst =>
    cases hf
    exact ⟨_, rfl, .ok hab, hst⟩
  | error e hst =>
    cases e with
    | failure failure =>
      cases hf
      exact ⟨_, rfl, .error failure, hst⟩
    | outOfFuel => cases hf

theorem Run.Related.finish {α β : Type} {P : State → State → Prop} {V : α → β → Prop}
    {m : Run α} {n : Run β} {s t : State} {f : Finished α} (hmn : Related P V m n)
    (hst : P s t) (hf : m.finish s = some f) :
    ∃ g, n.finish t = some g ∧ SameResult V f.result g.result ∧ P f.state g.state :=
  (hmn s t hst).finish hf

/-- The scope that a flow keeps in reach, by the value it returns. -/
def Flow.ClosesOver : Flow → ScopeId → Prop
  | .returned value, i => value.ClosesOver i
  | .normal, _ => False

/-- Two runs came to the same: the same result and output, and heaps that agree on what the roots
and the result lead to. Each has its own active scope again. -/
structure CameAlike {α : Type} (ρ : Nat → Nat → Prop) (V : α → α → Prop)
    (closes : α → ScopeId → Prop) (roots : ScopeId → Prop) (s t : State) (f g : Finished α) :
    Prop where
  result : SameResult V f.result g.result
  output : f.state.sink = g.state.sink
  heaps : Heap.Agree ρ
    (Heap.Reach f.state.heap fun i => roots i ∨ ∃ a, f.result = .ok a ∧ closes a i)
    f.state.heap g.state.heap
  left : f.state.active = s.active
  right : g.state.active = t.active

/-- The scopes in the heap that are not in `R` are as they were. -/
def Heap.Untouched (R : ScopeId → Prop) (h k : Heap) : Prop :=
  ∀ i, i < h.scopes.size → ¬R i → k.scopes[i]? = h.scopes[i]?

/-- What a call starts from: the scope its function closes over, and those its arguments do. -/
def callRoots (function : Function) (values : List Value) (i : ScopeId) : Prop :=
  function.closure = i ∨ ∃ value ∈ values, value.ClosesOver i

section

variable {α : Type} {V : (ScopeId → Prop) → α → α → Prop} {V' : α → α → Prop}
  {closes : α → ScopeId → Prop} {roots : ScopeId → Prop} {m n : Run α} {s t : State}
  {f : Finished α}

/-- From runs related on every set that holds the roots to what the two come to. -/
theorem cameAlike_of_related
    (hmn : ∀ (R : ScopeId → Prop) (base : Heap), (∀ i, roots i → R i) →
      Related (Linked ρ R base s.active t.active) (V R) m n)
    (hV : ∀ (R : ScopeId → Prop) (a b : α), V R a b → V' a b ∧ ∀ i, closes a i → R i)
    (hsink : s.sink = t.sink) (hagree : Heap.Agree ρ (Heap.Reach s.heap roots) s.heap t.heap)
    (hf : m.finish s = some f) :
    Heap.Untouched (Heap.Reach s.heap roots) s.heap f.state.heap ∧
      ∃ g, n.finish t = some g ∧ CameAlike ρ V' closes roots s t f g := by
  obtain ⟨h, a, sink⟩ := s
  obtain ⟨k, b, _⟩ := t
  cases hsink
  have hroots : ∀ i, roots i → Heap.Reach h roots i ∨ h.scopes.size ≤ i :=
    fun i hi => .inl (.root hi)
  obtain ⟨g, hg, hresult, hend⟩ := (hmn _ h hroots).finish ⟨hagree.shared⟩ hf
  obtain ⟨result, _⟩ := f
  obtain ⟨result', _⟩ := g
  obtain ⟨hheap⟩ := hend
  have hsame : SameResult V' result result' := by
    cases hresult with
    | ok hab => exact .ok (hV _ _ _ hab).1
    | error e => exact .error e
  -- What is in reach now was in reach before or is new.
  have hkept : ∀ i, (roots i ∨ ∃ a, result = .ok a ∧ closes a i) →
      Heap.Reach h roots i ∨ h.scopes.size ≤ i := by
    rintro i (hi | ⟨a, ha, hi⟩)
    · exact hroots i hi
    · cases hresult with
      | ok hab =>
        cases ha
        exact (hV _ _ _ hab).2 i hi
      | error e => cases ha
  constructor
  · intro i hi hout
    exact hheap.outside i fun hin => hin.elim hout (Nat.not_le_of_lt hi)
  · exact ⟨_, hg, hsame, rfl, hheap.agree hkept, rfl, rfl⟩

end

theorem Flow.Rel.split {f g : Flow} (h : Flow.Rel (Value.Shared ρ R) f g) :
    Flow.Rel (Value.Matches ρ) f g ∧ ∀ i, f.ClosesOver i → R i := by
  cases h with
  | normal => exact ⟨.normal, nofun⟩
  | returned hvw => exact ⟨.returned hvw.same, hvw.within⟩

theorem shared_arguments {vs ws : List Value} (h : List.Forall₂ (Value.Matches ρ) vs ws)
    (hin : ∀ v ∈ vs, ∀ i, v.ClosesOver i → R i) : List.Forall₂ (Value.Shared ρ R) vs ws :=
  ((List.forall₂_and_left _ _).mpr ⟨hin, h⟩).imp fun _ _ hvw => ⟨hvw.2, hvw.1⟩

section

variable (fuel : Nat) {s t : State}

theorem execute_confined (statement : Stmt) {f : Finished Flow} (hactive : s.active = t.active)
    (hsink : s.sink = t.sink)
    (hagree : Heap.Agree ρ (Heap.Reach s.heap (· = s.active)) s.heap t.heap)
    (hf : (execute fuel statement).finish s = some f) :
    Heap.Untouched (Heap.Reach s.heap (· = s.active)) s.heap f.state.heap ∧
      ∃ g, (execute fuel statement).finish t = some g ∧
        CameAlike ρ (Flow.Rel (Value.Matches ρ)) Flow.ClosesOver (· = s.active) s t f g := by
  refine cameAlike_of_related ?_ (fun _ _ _ => Flow.Rel.split) hsink hagree hf
  intro R base hroots
  rw [← hactive]
  exact (runs_alike hagree.pairing.unique fuel).execute statement (hroots _ rfl)

theorem call_confined {function function' : Function} {values values' : List Value}
    {f : Finished Value} (hfunction : (Value.function function).Matches ρ (.function function'))
    (hvalues : List.Forall₂ (Value.Matches ρ) values values') (hsink : s.sink = t.sink)
    (hagree : Heap.Agree ρ (Heap.Reach s.heap (callRoots function values)) s.heap t.heap)
    (hf : (call fuel function values).finish s = some f) :
    Heap.Untouched (Heap.Reach s.heap (callRoots function values)) s.heap f.state.heap ∧
      ∃ g, (call fuel function' values').finish t = some g ∧
        CameAlike ρ (Value.Matches ρ) Value.ClosesOver (callRoots function values) s t f g := by
  refine cameAlike_of_related ?_ (fun R v w (h : v.Shared ρ R w) => ⟨h.same, h.within⟩) hsink
    hagree hf
  intro R base hroots
  have hshared : (Value.function function).Shared ρ R (.function function') :=
    ⟨hfunction, fun i hi => hroots i (.inl hi)⟩
  have hvalues' : List.Forall₂ (Value.Shared ρ R) values values' :=
    shared_arguments hvalues fun v hv i hi => hroots i (.inr ⟨v, hv, hi⟩)
  exact (runs_alike hagree.pairing.unique fuel).call s.active t.active hshared hvalues'

end

/-- A statement depends on and changes only what the active scope leads to. A call does only what
its function and its arguments lead to, whatever scopes the callers are in. -/
theorem lexical_scoping (fuel : Nat) :
    (∀ (statement : Stmt) (s : State) (f : Finished Flow),
      (execute fuel statement).finish s = some f →
      Heap.Untouched (Heap.Reach s.heap (· = s.active)) s.heap f.state.heap) ∧
    (∀ (ρ : Nat → Nat → Prop) (statement : Stmt) (s t : State) (f : Finished Flow),
      s.active = t.active → s.sink = t.sink →
      Heap.Agree ρ (Heap.Reach s.heap (· = s.active)) s.heap t.heap →
      (execute fuel statement).finish s = some f →
      ∃ g, (execute fuel statement).finish t = some g ∧
        CameAlike ρ (Flow.Rel (Value.Matches ρ)) Flow.ClosesOver (· = s.active) s t f g) ∧
    (∀ (function : Function) (values : List Value) (s : State) (f : Finished Value),
      (call fuel function values).finish s = some f →
      Heap.Untouched (Heap.Reach s.heap (callRoots function values)) s.heap f.state.heap) ∧
    (∀ (ρ : Nat → Nat → Prop) (function function' : Function) (values values' : List Value)
      (s t : State) (f : Finished Value),
      (Value.function function).Matches ρ (.function function') →
      List.Forall₂ (Value.Matches ρ) values values' → s.sink = t.sink →
      Heap.Agree ρ (Heap.Reach s.heap (callRoots function values)) s.heap t.heap →
      (call fuel function values).finish s = some f →
      ∃ g, (call fuel function' values').finish t = some g ∧
        CameAlike ρ (Value.Matches ρ) Value.ClosesOver (callRoots function values) s t f g) := by
  refine ⟨?_, ?_, ?_, ?_⟩
  · intro statement s f hf
    exact (execute_confined fuel statement rfl rfl (Heap.Agree.refl _ _) hf).1
  · intro ρ statement s t f hactive hsink hagree hf
    exact (execute_confined fuel statement hactive hsink hagree hf).2
  · intro function values s f hf
    have hsame : List.Forall₂ (Value.Matches Eq) values values :=
      List.forall₂_same.mpr fun v _ => Value.Matches.refl v
    exact (call_confined fuel (Value.Matches.refl _) hsame rfl (Heap.Agree.refl _ _) hf).1
  · intro ρ function function' values values' s t f hfunction hvalues hsink hagree hf
    exact (call_confined fuel hfunction hvalues hsink hagree hf).2

def named (text : String) : Token := ⟨.symbol .identifier, text, 1⟩

/-- A function made while its maker runs. -/
def made : FunDecl :=
  ⟨named "made", [], [.returnValue (named "return") (some (.reference (named "maker")))]⟩

def maker : FunDecl :=
  ⟨named "maker", [],
    [.funDecl made, .returnValue (named "return") (some (.reference (named "made")))]⟩

def makerCall : Stmt :=
  .returnValue (named "return") (some (.call (.reference (named "maker")) (named ")") []))

def makerScope : Scope := ⟨[("maker", .function ⟨0, maker, 0⟩)], none⟩

theorem lookup_makerScope (name : String) : makerScope.lookup name =
    if name = "maker" then some (.function ⟨0, maker, 0⟩) else none := by
  rw [makerScope, Scope.lookup, Scope.lookup_cons, List.lookup_nil]

/-- The maker among the globals, and a second scope, out of its reach, where its name has another
value. -/
def makerState (functions : Nat) (hidden : Value) (active : ScopeId) : State :=
  ⟨⟨#[makerScope, ⟨[("maker", hidden)], some 0⟩], functions⟩, active, .unlimited⟩

theorem reach_makerState {functions : Nat} {hidden : Value} {active i : ScopeId}
    {roots : ScopeId → Prop} (hroots : ∀ i, roots i → i = 0)
    (h : Heap.Reach (makerState functions hidden active).heap roots i) : i = 0 := by
  induction h with
  | root hi => exact hroots _ hi
  | enclosing _ hs hout ih =>
    subst ih
    cases hs
    cases hout
  | @closure i j scope name value _ hs hv hj ih =>
    subst ih
    cases hs
    change makerScope.lookup name = some value at hv
    rw [lookup_makerScope] at hv
    split at hv
    · cases hv
      exact hj.symm
    · cases hv

theorem makerState_agree (hidden hidden' : Value) (active active' : ScopeId)
    {roots : ScopeId → Prop} (hroots : ∀ i, roots i → i = 0) :
    Heap.Agree (Pairing.Shifted 1 5) (Heap.Reach (makerState 1 hidden active).heap roots)
      (makerState 1 hidden active).heap (makerState 5 hidden' active').heap := by
  refine ⟨Pairing.shifted 1 5, rfl, fun i hi => ?_⟩
  cases reach_makerState hroots hi
  refine .some ⟨rfl, fun name => ?_⟩
  change Option.Rel _ (makerScope.lookup name) (makerScope.lookup name)
  rw [lookup_makerScope]
  split
  · exact .some (.function maker 0 (.inl (by decide)))
  · exact .none

/-- What both states have in common decides what the maker makes, also for a caller in the second
scope. -/
theorem maker_confined :
    (∃ f g : Finished Flow,
      (execute 10 makerCall).finish (makerState 1 (.bool true) 0) = some f ∧
      (execute 10 makerCall).finish (makerState 5 .nil 0) = some g ∧
      f.result = .ok (.returned (.function ⟨1, made, 2⟩)) ∧
      Heap.Untouched (Heap.Reach (makerState 1 (.bool true) 0).heap (· = 0))
        (makerState 1 (.bool true) 0).heap f.state.heap ∧
      CameAlike (Pairing.Shifted 1 5) (Flow.Rel (Value.Matches (Pairing.Shifted 1 5)))
        Flow.ClosesOver (· = 0) (makerState 1 (.bool true) 0) (makerState 5 .nil 0) f g) ∧
    (∃ f g : Finished Value,
      (call 10 ⟨0, maker, 0⟩ []).finish (makerState 1 (.bool true) 1) = some f ∧
      (call 10 ⟨0, maker, 0⟩ []).finish (makerState 5 .nil 0) = some g ∧
      f.result = .ok (.function ⟨1, made, 2⟩) ∧
      Heap.Untouched (Heap.Reach (makerState 1 (.bool true) 1).heap (callRoots ⟨0, maker, 0⟩ []))
        (makerState 1 (.bool true) 1).heap f.state.heap ∧
      CameAlike (Pairing.Shifted 1 5) (Value.Matches (Pairing.Shifted 1 5)) Value.ClosesOver
        (callRoots ⟨0, maker, 0⟩ []) (makerState 1 (.bool true) 1) (makerState 5 .nil 0) f g) := by
  obtain ⟨hexecuteTouches, hexecute, hcallTouches, hcall⟩ := lexical_scoping 10
  constructor
  · obtain ⟨f, hf, hresult⟩ : ∃ f, (execute 10 makerCall).finish (makerState 1 (.bool true) 0) =
        some f ∧ f.result = .ok (.returned (.function ⟨1, made, 2⟩)) := ⟨_, rfl, rfl⟩
    have hagree := makerState_agree (.bool true) .nil 0 0 (fun i (hi : i = 0) => hi)
    obtain ⟨g, hg, halike⟩ := hexecute (Pairing.Shifted 1 5) makerCall
      (makerState 1 (.bool true) 0) (makerState 5 .nil 0) f rfl rfl hagree hf
    exact ⟨f, g, hf, hg, hresult, hexecuteTouches _ _ f hf, halike⟩
  · obtain ⟨f, hf, hresult⟩ : ∃ f, (call 10 ⟨0, maker, 0⟩ []).finish
        (makerState 1 (.bool true) 1) = some f ∧ f.result = .ok (.function ⟨1, made, 2⟩) :=
      ⟨_, rfl, rfl⟩
    have hroots : ∀ i, callRoots ⟨0, maker, 0⟩ [] i → i = 0 := by
      rintro i (hi | ⟨_, hnone, _⟩)
      · exact hi.symm
      · cases hnone
    have hagree := makerState_agree (.bool true) .nil 1 0 hroots
    obtain ⟨g, hg, halike⟩ := hcall (Pairing.Shifted 1 5) ⟨0, maker, 0⟩ ⟨0, maker, 0⟩ [] []
      (makerState 1 (.bool true) 1) (makerState 5 .nil 0) f
      (.function maker 0 (.inl (by decide))) .nil rfl hagree hf
    exact ⟨f, g, hf, hg, hresult, hcallTouches _ _ _ f hf, halike⟩

end TreeWalk
