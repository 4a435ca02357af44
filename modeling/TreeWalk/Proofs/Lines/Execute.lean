import TreeWalk.Proofs.Lines.Bare
import TreeWalk.Proofs.Machine.Leaves

/-!
Execution does not look at lines. A bare tree runs from a bare state as the tree runs from the
state, step by step and with the same fuel, and all it leaves is bare.
-/

namespace TreeWalk

def Failure.bare : Failure → Failure
  | .runtime fault _ => .runtime fault 0
  | .sink fault => .sink fault

def Interrupt.bare : Interrupt → Interrupt
  | .failure cause => .failure cause.bare
  | .outOfFuel => .outOfFuel

def Flow.bare : Flow → Flow
  | .normal => .normal
  | .returned value => .returned value.bare

namespace Run

variable {α β : Type}

/-- What a run came to, with its value changed by `F` and all else bare. -/
def bareResult (F : α → β) : EStateM.Result Interrupt State α → EStateM.Result Interrupt State β
  | .ok a t => .ok (F a) t.bare
  | .error e t => .error e.bare t.bare

/-- From the bare state, `n` does what `m` does from the state. -/
def Bares (F : α → β) (m : Run α) (n : Run β) : Prop := ∀ s, n s.bare = bareResult F (m s)

theorem Bares.bind {γ δ : Type} {F : α → β} {G : γ → δ} {m : Run α} {n : Run β}
    {f : α → Run γ} {g : β → Run δ} (hm : Bares F m n) (hf : ∀ a, Bares G (f a) (g (F a))) :
    Bares G (m >>= f) (n >>= g) := by
  intro s
  change EStateM.bind n g s.bare = bareResult G (EStateM.bind m f s)
  unfold EStateM.bind
  rw [hm s]
  cases m s with
  | ok a t => exact hf a t
  | error e t => rfl

theorem bares_pure (F : α → β) (a : α) : Bares F (pure a) (pure (F a)) := fun _ => rfl

theorem bares_outOfFuel (F : α → β) : Bares F outOfFuel outOfFuel := fun _ => rfl

theorem bares_failAt (F : α → β) (token : Token) (fault : RuntimeFault) :
    Bares F (failAt token fault) (failAt token.bare fault) := fun _ => rfl

theorem bares_ofOperation (operator : Token) (result : Except RuntimeFault Value) :
    Bares Value.bare (ofOperation operator result)
      (ofOperation operator.bare (result.map Value.bare)) := by
  cases result with
  | ok value => exact bares_pure _ value
  | error fault => exact bares_failAt _ operator fault

theorem bares_read (name : Token) : Bares Value.bare (read name) (read name.bare) := by
  intro s
  unfold read
  rw [show s.bare.heap = s.heap.bare from rfl, show s.bare.active = s.active from rfl,
    Heap.get?_bare, Token.lexeme_bare]
  cases s.heap.get? s.active name.lexeme <;> rfl

theorem bares_define (name : Token) (value : Value) :
    Bares id (define name value) (define name.bare value.bare) := by
  rintro ⟨heap, active, sink⟩
  unfold define State.bare
  dsimp only
  rw [Token.lexeme_bare, Heap.define_bare]
  rfl

theorem bares_assign (name : Token) (value : Value) :
    Bares id (assign name value) (assign name.bare value.bare) := by
  rintro ⟨heap, active, sink⟩
  unfold assign State.bare
  dsimp only
  rw [Token.lexeme_bare, Heap.owner?_bare]
  cases heap.owner? active name.lexeme with
  | none => rfl
  | some owner =>
    dsimp only
    rw [Heap.define_bare]
    rfl

theorem bares_declare (declaration : FunDecl) :
    Bares id (declare declaration) (declare declaration.bare) := by
  rintro ⟨heap, active, sink⟩
  unfold declare State.bare
  dsimp only
  rw [Heap.declare_bare]
  rfl

theorem bares_printLine (text : String) : Bares id (printLine text) (printLine text) := by
  rintro ⟨heap, active, sink⟩
  unfold printLine State.bare
  dsimp only
  cases sink.fits (text ++ "\n").toUTF8 <;> rfl

theorem bares_flush : Bares id flush flush := by
  rintro ⟨heap, active, sink⟩
  unfold flush State.bare
  dsimp only
  cases sink.flushFails <;> rfl

theorem Bares.inside {F : α → β} {m : Run α} {n : Run β} (h : Bares F m n) (outer : ScopeId)
    (bindings : List (String × Value)) :
    Bares F (inside outer bindings m) (inside outer (Scope.bareBindings bindings) n) := by
  rintro ⟨heap, active, sink⟩
  have hbody := h ⟨heap.addScope outer bindings, heap.nextScope, sink⟩
  unfold Run.inside within
  unfold State.bare at hbody ⊢
  dsimp only at hbody ⊢
  rw [Heap.addScope_bare, Heap.nextScope_bare, hbody]
  cases m ⟨heap.addScope outer bindings, heap.nextScope, sink⟩ <;> rfl

theorem Bares.nested {F : α → β} {m : Run α} {n : Run β} (h : Bares F m n) :
    Bares F (nested m) (nested n) := fun s => h.inside s.active [] s

end Run

open Run

namespace Operation

theorem unary_bare (operator : Token) (right : Value) :
    unary operator.bare right.bare = (unary operator right).map Value.bare := by
  unfold unary
  rw [Token.kind_bare]
  split
  · cases right <;> rfl
  · rw [Value.isTruthy_bare]
    rfl
  · rfl

theorem add_bare (left right : Value) :
    add left.bare right.bare = (add left right).map Value.bare := by
  cases left <;> cases right <;> simp [add, Value.bare, Value.text, Function.text, Function.name,
    Function.bare, Except.map]

theorem onNumbers_bare {f : Float → Float → Except RuntimeFault Value} (left right : Value)
    (hf : ∀ a b, (f a b).map Value.bare = f a b) :
    onNumbers left.bare right.bare f = (onNumbers left right f).map Value.bare := by
  cases left <;> cases right <;> first | rfl | exact (hf _ _).symm

theorem binary_bare (operator : Token) (left right : Value) :
    binary operator.bare left.bare right.bare =
      (binary operator left right).map Value.bare := by
  unfold binary
  rw [Token.kind_bare]
  split
  · exact add_bare left right
  · exact onNumbers_bare left right fun _ _ => rfl
  · exact onNumbers_bare left right fun _ _ => rfl
  · apply onNumbers_bare
    intro a b
    unfold divide
    split <;> rfl
  · exact onNumbers_bare left right fun _ _ => rfl
  · exact onNumbers_bare left right fun _ _ => rfl
  · exact onNumbers_bare left right fun _ _ => rfl
  · exact onNumbers_bare left right fun _ _ => rfl
  · rw [Value.equal_bare]
    rfl
  · rw [Value.equal_bare]
    rfl
  · rfl

theorem decides_bare (operator : Token) (left : Value) :
    decides operator.bare left.bare = decides operator left := by
  rw [decides, decides, Token.is_bare, Value.isTruthy_bare]

end Operation

/-- Every rule with the given fuel does the same on bare trees. -/
structure BareRuns (fuel : Nat) : Prop where
  evaluate : ∀ e : Expr, Bares Value.bare (evaluate fuel e) (evaluate fuel e.bare)
  evaluateAll : ∀ es : List Expr,
    Bares (List.map Value.bare) (evaluateAll fuel es) (evaluateAll fuel (es.map Expr.bare))
  call : ∀ (function : Function) (values : List Value),
    Bares Value.bare (call fuel function values)
      (call fuel function.bare (values.map Value.bare))
  execute : ∀ s : Stmt, Bares Flow.bare (execute fuel s) (execute fuel s.bare)
  executeAll : ∀ ss : List Stmt,
    Bares Flow.bare (executeAll fuel ss) (executeAll fuel (ss.map Stmt.bare))

section

variable {fuel : Nat} (ih : BareRuns fuel)
include ih

theorem evaluate_bares (e : Expr) :
    Bares Value.bare (evaluate (fuel + 1) e) (evaluate (fuel + 1) e.bare) := by
  cases e with
  | literal value =>
    have hpure := bares_pure Value.bare (.ofLiteral value)
    rwa [Value.bare_ofLiteral] at hpure
  | group inner => exact ih.evaluate inner
  | unary operator right =>
    apply (ih.evaluate right).bind
    intro value
    rw [Operation.unary_bare]
    exact bares_ofOperation operator _
  | binary left operator right =>
    apply (ih.evaluate left).bind
    intro value
    apply (ih.evaluate right).bind
    intro other
    rw [Operation.binary_bare]
    exact bares_ofOperation operator _
  | logical left operator right =>
    apply (ih.evaluate left).bind
    intro value
    rw [Operation.decides_bare]
    split
    · exact bares_pure _ value
    · exact ih.evaluate right
  | reference name => exact bares_read name
  | assign name value =>
    apply (ih.evaluate value).bind
    intro value
    exact (bares_assign name value).bind fun _ => bares_pure _ value
  | call callee paren arguments =>
    rw [Expr.bare, Expr.bareAll_eq]
    apply (ih.evaluate callee).bind
    intro callee
    apply (ih.evaluateAll arguments).bind
    intro values
    cases callee with
    | function function =>
      have harity : function.bare.arity = function.arity := function.declaration.arity_bare
      simp only [Value.bare, List.length_map, harity]
      split
      · exact ih.call function values
      · exact bares_failAt _ paren _
    | _ => exact bares_failAt _ paren _

theorem evaluateAll_bares (es : List Expr) :
    Bares (List.map Value.bare) (evaluateAll (fuel + 1) es)
      (evaluateAll (fuel + 1) (es.map Expr.bare)) := by
  cases es with
  | nil => exact bares_pure _ []
  | cons e es =>
    apply (ih.evaluate e).bind
    intro value
    apply (ih.evaluateAll es).bind
    intro values
    exact bares_pure _ (value :: values)

theorem call_bares (function : Function) (values : List Value) :
    Bares Value.bare (call (fuel + 1) function values)
      (call (fuel + 1) function.bare (values.map Value.bare)) := by
  have hnames : function.bare.declaration.params.map (·.lexeme) =
      function.declaration.params.map (·.lexeme) := by
    simp [Function.bare]
  have hbody : function.bare.declaration.body = function.declaration.body.map Stmt.bare :=
    function.declaration.body_bare
  rw [call, call, hnames, hbody, Scope.bindAll_bare]
  apply (ih.executeAll function.declaration.body).inside _ _ |>.bind
  intro flow
  cases flow with
  | returned value => exact bares_pure _ value
  | normal => exact bares_pure _ Value.nil

theorem execute_bares (s : Stmt) :
    Bares Flow.bare (execute (fuel + 1) s) (execute (fuel + 1) s.bare) := by
  have hdone : ∀ flow : Flow, Bares Flow.bare (pure flow) (pure flow.bare) := bares_pure Flow.bare
  cases s with
  | expression value => exact (ih.evaluate value).bind fun _ => hdone .normal
  | print value =>
    apply (ih.evaluate value).bind
    intro value
    rw [Value.text_bare]
    exact (bares_printLine value.text).bind fun _ => hdone .normal
  | varDecl name initial =>
    cases initial with
    | none => exact (bares_define name .nil).bind fun _ => hdone .normal
    | some initial =>
      apply (ih.evaluate initial).bind
      intro value
      exact (bares_define name value).bind fun _ => hdone .normal
  | block body =>
    rw [Stmt.bare, Stmt.bareAll_eq]
    exact (ih.executeAll body).nested
  | ifElse condition thenBranch elseBranch =>
    rw [Stmt.bare_ifElse, execute_ifElse, execute_ifElse]
    apply (ih.evaluate condition).bind
    intro test
    rw [Value.isTruthy_bare]
    split
    · exact ih.execute thenBranch
    · cases elseBranch with
      | none => exact hdone .normal
      | some elseBranch => exact ih.execute elseBranch
  | whileLoop condition body =>
    apply (ih.evaluate condition).bind
    intro test
    rw [Value.isTruthy_bare]
    split
    · apply (ih.execute body).bind
      intro flow
      cases flow with
      | returned value => exact hdone (.returned value)
      | normal => exact ih.execute (.whileLoop condition body)
    · exact hdone .normal
  | funDecl declaration => exact (bares_declare declaration).bind fun _ => hdone .normal
  | returnValue keyword value =>
    cases value with
    | none => exact hdone (.returned .nil)
    | some value => exact (ih.evaluate value).bind fun value => hdone (.returned value)
  | classDecl name superclass methods =>
    exact (bares_define name .nil).bind fun _ => hdone .normal

theorem executeAll_bares (ss : List Stmt) :
    Bares Flow.bare (executeAll (fuel + 1) ss) (executeAll (fuel + 1) (ss.map Stmt.bare)) := by
  cases ss with
  | nil => exact bares_pure _ Flow.normal
  | cons s ss =>
    apply (ih.execute s).bind
    intro flow
    cases flow with
    | returned value => exact bares_pure _ (Flow.returned value)
    | normal => exact ih.executeAll ss

end

theorem bareRuns (fuel : Nat) : BareRuns fuel := by
  induction fuel with
  | zero =>
    constructor <;> intros
    all_goals exact bares_outOfFuel _
  | succ fuel ih =>
    exact ⟨evaluate_bares ih, evaluateAll_bares ih, call_bares ih, execute_bares ih,
      executeAll_bares ih⟩

/-! ## Finished runs -/

def Finished.bare (f : Finished Unit) : Finished Unit :=
  ⟨match f.result with
    | .ok () => .ok ()
    | .error failure => .error failure.bare, f.state.bare⟩

theorem finish_interpret_bare (fuel : Nat) (program : List Stmt) (s : State) :
    (interpret fuel (program.map Stmt.bare)).finish s.bare =
      ((interpret fuel program).finish s).map Finished.bare := by
  have hbares : Bares id (interpret fuel program) (interpret fuel (program.map Stmt.bare)) :=
    ((bareRuns fuel).executeAll program).bind fun _ => bares_flush
  rw [Run.finish, hbares s, Run.finish]
  rcases interpret fuel program s with ⟨⟨⟩, t⟩ | ⟨⟨failure⟩ | _, t⟩ <;> rfl

/-- Programs and states that are the same up to lines run alike. -/
theorem finish_interpret_alike {fuel : Nat} {p q : List Stmt} {s t : State} {f : Finished Unit}
    (hprograms : p.map Stmt.bare = q.map Stmt.bare) (hstates : s.bare = t.bare)
    (hf : (interpret fuel p).finish s = some f) :
    ∃ g, (interpret fuel q).finish t = some g ∧ g.bare = f.bare := by
  have hq := finish_interpret_bare fuel q t
  rw [← hprograms, ← hstates, finish_interpret_bare fuel p s, hf] at hq
  obtain ⟨g, hg, hbare⟩ := Option.map_eq_some_iff.1 hq.symm
  exact ⟨g, hg, hbare⟩

end TreeWalk
