import TreeWalk.Proofs.Machine.Loops

/-!
How far a `return` goes. It ends the lists of statements, blocks, branches and loops around it, all
the way out to the body of the function: nothing behind it in its list is executed and no loop tests
its condition again. The call around it takes the value as it is, and goes no further.
-/

namespace TreeWalk

open Run

/-! ## Statements with a hole -/

mutual

/-- Statements with a hole for a list of statements. -/
inductive ListContext
  | hole
  | among (before : List Stmt) (inner : StmtContext) (after : List Stmt)

/-- A statement with such a hole inside, in the body of no function. -/
inductive StmtContext
  | block (inner : ListContext)
  | thenBranch (condition : Expr) (inner : StmtContext) (elseBranch : Option Stmt)
  | elseBranch (condition : Expr) (thenBranch : Stmt) (inner : StmtContext)
  | whileBody (condition : Expr) (inner : StmtContext)

end

mutual

def ListContext.fill (body : List Stmt) : ListContext → List Stmt
  | .hole => body
  | .among before inner after => before ++ inner.fill body :: after

def StmtContext.fill (body : List Stmt) : StmtContext → Stmt
  | .block inner => .block (inner.fill body)
  | .thenBranch condition inner elseBranch => .ifElse condition (inner.fill body) elseBranch
  | .elseBranch condition thenBranch inner => .ifElse condition thenBranch (some (inner.fill body))
  | .whileBody condition inner => .whileLoop condition (inner.fill body)

end

/-! ## Behind a `return` -/

/-- Lists that run alike run alike behind other statements. -/
theorem executeAll_behind {ss ts : List Stmt} (h : ∀ fuel, executeAll fuel ss = executeAll fuel ts)
    (before : List Stmt) (fuel : Nat) :
    executeAll fuel (before ++ ss) = executeAll fuel (before ++ ts) := by
  induction before generalizing fuel with
  | nil => exact h fuel
  | cons first before ih =>
    cases fuel with
    | zero => rfl
    | succ fuel =>
      have hmore : afterFirst (before ++ ss) fuel = afterFirst (before ++ ts) fuel := by
        funext flow
        cases flow with
        | returned value => rfl
        | normal => exact ih fuel
      simp only [List.cons_append, executeAll_cons, hmore]

/-- With any fuel, what stands behind a `return` changes nothing. -/
theorem executeAll_returnValue (keyword : Token) (value : Option Expr) (before after : List Stmt)
    (fuel : Nat) :
    executeAll fuel (before ++ .returnValue keyword value :: after) =
      executeAll fuel (before ++ [.returnValue keyword value]) := by
  apply executeAll_behind
  intro fuel
  cases fuel with
  | zero => rfl
  | succ fuel =>
    rw [executeAll_cons, executeAll_cons]
    cases fuel with
    | zero => rfl
    | succ fuel =>
      cases value with
      | none => rfl
      | some value =>
        rw [execute, bind_assoc, bind_assoc]
        rfl

section

variable {body other : List Stmt}

theorem StmtContext.among_same {inner : StmtContext}
    (h : ∀ fuel, execute fuel (inner.fill body) = execute fuel (inner.fill other))
    (before after : List Stmt) (fuel : Nat) :
    executeAll fuel ((ListContext.among before inner after).fill body) =
      executeAll fuel ((ListContext.among before inner after).fill other) := by
  apply executeAll_behind
  intro fuel
  cases fuel with
  | zero => rfl
  | succ fuel => rw [executeAll_cons, executeAll_cons, h]

theorem StmtContext.whileBody_same {inner : StmtContext}
    (h : ∀ fuel, execute fuel (inner.fill body) = execute fuel (inner.fill other))
    (condition : Expr) (fuel : Nat) :
    execute fuel ((StmtContext.whileBody condition inner).fill body) =
      execute fuel ((StmtContext.whileBody condition inner).fill other) := by
  induction fuel with
  | zero => rfl
  | succ fuel ih =>
    have hafter : afterBody condition (inner.fill body) fuel =
        afterBody condition (inner.fill other) fuel := by
      funext flow
      cases flow with
      | returned value => rfl
      | normal => exact ih
    have htest : afterTest condition (inner.fill body) fuel =
        afterTest condition (inner.fill other) fuel := by
      funext test
      rw [afterTest, afterTest, h, hafter]
    rw [StmtContext.fill, StmtContext.fill, execute_whileLoop, execute_whileLoop, htest]

end

mutual

/-- Lists that run alike with any fuel do so in any context. -/
theorem ListContext.fill_same {body other : List Stmt}
    (h : ∀ fuel, executeAll fuel body = executeAll fuel other) :
    ∀ (c : ListContext) (fuel : Nat), executeAll fuel (c.fill body) = executeAll fuel (c.fill other)
  | .hole => h
  | .among before inner after => StmtContext.among_same (inner.fill_same h) before after

theorem StmtContext.fill_same {body other : List Stmt}
    (h : ∀ fuel, executeAll fuel body = executeAll fuel other) :
    ∀ (c : StmtContext) (fuel : Nat), execute fuel (c.fill body) = execute fuel (c.fill other)
  | _, 0 => rfl
  | .block inner, fuel + 1 => congrArg nested (inner.fill_same h fuel)
  | .thenBranch condition inner elseBranch, fuel + 1 => by
    simp only [StmtContext.fill, execute_ifElse, inner.fill_same h fuel]
  | .elseBranch condition thenBranch inner, fuel + 1 => by
    simp only [StmtContext.fill, execute_ifElse, inner.fill_same h fuel]
  | .whileBody condition inner, fuel + 1 =>
    StmtContext.whileBody_same (inner.fill_same h) condition (fuel + 1)

end

/-! ## On the way out -/

mutual

/-- While the filled context is executed from the first state, the hole begins in the second. -/
inductive ListContext.Arrives (body : List Stmt) : ListContext → State → State → Prop
  | hole {s : State} : ListContext.Arrives body .hole s s
  | among {before after : List Stmt} {inner : StmtContext} {s t u : State} :
    Executes s before ⟨.ok .normal, t⟩ → StmtContext.Arrives body inner t u →
    ListContext.Arrives body (.among before inner after) s u

inductive StmtContext.Arrives (body : List Stmt) : StmtContext → State → State → Prop
  | block {inner : ListContext} {s t : State} :
    ListContext.Arrives body inner s.nested t → StmtContext.Arrives body (.block inner) s t
  | thenBranch {condition : Expr} {inner : StmtContext} {elseBranch : Option Stmt}
    {s t u : State} : Tests (some condition) s ⟨.ok true, t⟩ →
    StmtContext.Arrives body inner t u →
    StmtContext.Arrives body (.thenBranch condition inner elseBranch) s u
  | elseBranch {condition : Expr} {thenBranch : Stmt} {inner : StmtContext} {s t u : State} :
    Tests (some condition) s ⟨.ok false, t⟩ → StmtContext.Arrives body inner t u →
    StmtContext.Arrives body (.elseBranch condition thenBranch inner) s u
  | round {condition : Expr} {inner : StmtContext} {s t u : State} :
    Tests (some condition) s ⟨.ok true, t⟩ → StmtContext.Arrives body inner t u →
    StmtContext.Arrives body (.whileBody condition inner) s u
  | again {condition : Expr} {inner : StmtContext} {s t u v : State} :
    Tests (some condition) s ⟨.ok true, t⟩ →
    Ends (execute · (inner.fill body)) t ⟨.ok .normal, u⟩ →
    StmtContext.Arrives body (.whileBody condition inner) u v →
    StmtContext.Arrives body (.whileBody condition inner) s v

end

/-- How the value of a `return` comes out. It is `nil` if none is given. -/
def Gives (value : Option Expr) (s : State) (g : Finished Value) : Prop :=
  match value with
  | none => g = ⟨.ok .nil, s⟩
  | some e => Ends (evaluate · e) s g

/-- The end of a `return`, in a list of statements that began with the scope `active`. -/
def Finished.returning (active : ScopeId) (g : Finished Value) : Finished Flow :=
  ⟨g.result.map Flow.returned, { g.state with active := active }⟩

theorem Finished.returning_ne (active : ScopeId) (g : Finished Value) :
    (g.returning active).result ≠ .ok .normal := by
  obtain ⟨failure | value, t⟩ := g <;> rintro ⟨⟩

theorem active_of_executes {s : State} {ss : List Stmt} {f : Finished Flow}
    (h : Executes s ss f) : f.state.active = s.active :=
  (restored_of_ends (fun fuel => (runs_restore fuel).executeAll ss) (ends_executeAll.2 h)).1

theorem active_of_evaluate {s : State} {e : Expr} {g : Finished Value}
    (h : Ends (evaluate · e) s g) : g.state.active = s.active :=
  (restored_of_ends (fun fuel => (runs_restore fuel).evaluate e) h).1

theorem active_of_tests {condition : Expr} {s t : State} {b : Bool}
    (h : Tests (some condition) s ⟨.ok b, t⟩) : t.active = s.active := by
  obtain ⟨test, htest, -⟩ := tests_some_ok.1 h
  exact active_of_evaluate htest

theorem active_of_gives {value : Option Expr} {s : State} {g : Finished Value}
    (h : Gives value s g) : g.state.active = s.active := by
  cases value with
  | none =>
    cases h
    rfl
  | some e => exact active_of_evaluate h

theorem ends_returnValue {keyword : Token} {value : Option Expr} {s : State} {g : Finished Value}
    (h : Gives value s g) :
    Ends (execute · (.returnValue keyword value)) s (g.returning s.active) := by
  have hactive := active_of_gives h
  obtain ⟨result, t⟩ := g
  rw [ends_succ rfl, ← hactive]
  cases value with
  | none =>
    cases h
    exact ⟨0, rfl⟩
  | some e =>
    simp only [execute]
    rw [ends_bind (growing_evaluate e) fun value => growing_const (pure (Flow.returned value))]
    cases result with
    | error failure => exact .inr ⟨failure, t, h, rfl⟩
    | ok value => exact .inl ⟨value, t, h, 0, rfl⟩

/-- An `if` runs the branch that its condition is for. -/
theorem ends_ifElse {condition : Expr} {thenBranch : Stmt} {elseBranch : Option Stmt}
    {chosen : Stmt} {b : Bool} {s t : State} {f : Finished Flow}
    (htest : Tests (some condition) s ⟨.ok b, t⟩)
    (hchosen : (if b then some thenBranch else elseBranch) = some chosen)
    (hf : Ends (execute · chosen) t f) :
    Ends (execute · (.ifElse condition thenBranch elseBranch)) s f := by
  obtain ⟨test, hvalue, rfl⟩ := tests_some_ok.1 htest
  obtain ⟨few, hfew⟩ := (growing_evaluate condition).ends_from hvalue
  obtain ⟨many, hmany⟩ := (growing_execute chosen).ends_from hf
  have hbranch := hmany (max few many) (Nat.le_max_right _ _)
  refine ⟨max few many + 1, ?_⟩
  dsimp only at hbranch ⊢
  rw [execute_ifElse]
  refine finish_bind.2 (.inl ⟨test, t, hfew _ (Nat.le_max_left _ _), ?_⟩)
  cases htruthy : test.isTruthy with
  | true =>
    rw [htruthy] at hchosen
    cases hchosen
    exact hbranch
  | false =>
    rw [htruthy] at hchosen
    cases hchosen
    exact hbranch

section

variable {body : List Stmt} {g : Finished Value}

mutual

/-- A `return` in the hole ends the list around it, in the scope in which that began. -/
theorem ListContext.Arrives.unwinds : ∀ {c : ListContext} {s t : State}, c.Arrives body s t →
    Executes t body (g.returning t.active) → Executes s (c.fill body) (g.returning s.active)
  | _, _, _, .hole, hbody => hbody
  | _, _, _, .among hbefore hinner, hbody => by
    have hstop := hinner.unwinds hbody
    rw [active_of_executes hbefore] at hstop
    exact (executes_append_of_normal hbefore).2 (.stop hstop (g.returning_ne _))

theorem StmtContext.Arrives.unwinds : ∀ {c : StmtContext} {s t : State}, c.Arrives body s t →
    Executes t body (g.returning t.active) →
    Ends (execute · (c.fill body)) s (g.returning s.active)
  | _, _, _, .block hinner, hbody => ends_block.2 ⟨_, hinner.unwinds hbody, rfl⟩
  | _, _, _, .thenBranch htest hinner, hbody => by
    rw [← active_of_tests htest]
    exact ends_ifElse htest rfl (hinner.unwinds hbody)
  | _, _, _, .elseBranch htest hinner, hbody => by
    rw [← active_of_tests htest]
    exact ends_ifElse htest rfl (hinner.unwinds hbody)
  | _, _, _, .round htest hinner, hbody => by
    rw [← active_of_tests htest]
    exact ends_whileLoop.2 (.stopped htest (hinner.unwinds hbody) (g.returning_ne _))
  | _, _, _, .again htest hround hmore, hbody => by
    have hactive := (restored_of_ends (fun fuel => (runs_restore fuel).execute _) hround).1
    rw [← active_of_tests htest, ← hactive]
    exact ends_whileLoop.2 (.again htest hround (ends_whileLoop.1 (hmore.unwinds hbody)))

end

end

/-- The function with other statements to run. -/
def Function.withBody (function : Function) (body : List Stmt) : Function :=
  { function with declaration := { function.declaration with body := body } }

theorem call_same {body other : List Stmt}
    (h : ∀ fuel, executeAll fuel body = executeAll fuel other) (function : Function)
    (values : List Value) (fuel : Nat) :
    call fuel (function.withBody body) values = call fuel (function.withBody other) values := by
  cases fuel with
  | zero => rfl
  | succ fuel =>
    rw [call_succ, call_succ]
    congr 2
    exact h fuel

/-- What stands behind a `return` in its list changes no run, whatever blocks, branches, loops and
lists are around it and in whatever state they begin. A `return` that is come to ends all of them,
in any round of the loops: the state left is the one in which its value came out, but for the active
scope. The call whose body this is has that value. -/
theorem return_ends_call (keyword : Token) (value : Option Expr) (before after : List Stmt) :
    (∀ (c : ListContext) (fuel : Nat),
      executeAll fuel (c.fill (before ++ .returnValue keyword value :: after)) =
        executeAll fuel (c.fill (before ++ [.returnValue keyword value]))) ∧
    (∀ (c : StmtContext) (fuel : Nat),
      execute fuel (c.fill (before ++ .returnValue keyword value :: after)) =
        execute fuel (c.fill (before ++ [.returnValue keyword value]))) ∧
    (∀ (c : ListContext) (function : Function) (values : List Value) (fuel : Nat),
      call fuel
          (function.withBody (c.fill (before ++ .returnValue keyword value :: after))) values =
        call fuel (function.withBody (c.fill (before ++ [.returnValue keyword value]))) values) ∧
    (∀ (c : ListContext) (s t u : State) (g : Finished Value),
      c.Arrives (before ++ .returnValue keyword value :: after) s t →
      Executes t before ⟨.ok .normal, u⟩ → Gives value u g →
        Executes s (c.fill (before ++ .returnValue keyword value :: after))
          ⟨g.result.map Flow.returned, { g.state with active := s.active }⟩) ∧
    (∀ (c : ListContext) (function : Function) (values : List Value) (s t u : State)
      (g : Finished Value),
      c.Arrives (before ++ .returnValue keyword value :: after) (function.entered values s) t →
      Executes t before ⟨.ok .normal, u⟩ → Gives value u g →
        Ends (call · (function.withBody
            (c.fill (before ++ .returnValue keyword value :: after))) values) s
          ⟨g.result, { g.state with active := s.active }⟩) := by
  have hsame := executeAll_returnValue keyword value before after
  have hunwinds : ∀ (c : ListContext) (s t u : State) (g : Finished Value),
      c.Arrives (before ++ .returnValue keyword value :: after) s t →
      Executes t before ⟨.ok .normal, u⟩ → Gives value u g →
        Executes s (c.fill (before ++ .returnValue keyword value :: after))
          (g.returning s.active) := by
    intro c s t u g hc hbefore hvalue
    apply hc.unwinds
    rw [← active_of_executes hbefore]
    exact (executes_append_of_normal hbefore).2
      (.stop (ends_returnValue hvalue) (g.returning_ne _))
  refine ⟨ListContext.fill_same hsame, StmtContext.fill_same hsame, ?_, hunwinds, ?_⟩
  · exact fun c => call_same (c.fill_same hsame)
  · intro c function values s t u g hc hbefore hvalue
    refine ends_call.2 ⟨_, hunwinds c _ t u g hc hbefore hvalue, ?_⟩
    obtain ⟨failure | value, v⟩ := g <;> rfl

/-- A state in which the global `x` is `false`. -/
def unsetState : State := ⟨⟨#[⟨[("x", .bool false)], none⟩], 0⟩, Heap.globals, .unlimited⟩

/-- `while (true) { if (x) { … } x = true; } print nil;` -/
def secondRound : ListContext :=
  .among []
    (.whileBody (.literal (.bool true)) (.block (.among []
      (.thenBranch (.reference (named "x")) (.block .hole) none)
      [.expression (.assign (named "x") (.literal (.bool true)))])))
    [.print (.literal .nil)]

/-- `print x; return x; print nil;` -/
def returningX : List Stmt :=
  [.print (.reference (named "x"))] ++
    .returnValue (named "return") (some (.reference (named "x"))) :: [.print (.literal .nil)]

def idle : Function := ⟨0, ⟨named "f", [], []⟩, Heap.globals⟩

/-- The `return` is come to in the second round of a loop that has no other end. -/
theorem secondRound_returned :
    (∃ t, secondRound.Arrives returningX (idle.entered [] unsetState) t) ∧
    call 40 (idle.withBody (secondRound.fill returningX)) [] =
      call 40 (idle.withBody (secondRound.fill ([.print (.reference (named "x"))] ++
        [.returnValue (named "return") (some (.reference (named "x")))]))) [] ∧
    ∃ t : State, Ends (call · (idle.withBody (secondRound.fill returningX)) []) unsetState
        ⟨.ok (.bool true), t⟩ ∧
      t.sink.written = "true\n".toUTF8 ∧ t.active = Heap.globals := by
  obtain ⟨-, -, hcalls, -, hreturned⟩ := return_ends_call (named "return")
    (some (.reference (named "x"))) [.print (.reference (named "x"))] [.print (.literal .nil)]
  have htest : ∀ s, Tests (some (.literal (.bool true))) s ⟨.ok true, s⟩ :=
    fun s => tests_some_ok.2 ⟨_, ⟨1, rfl⟩, rfl⟩
  have harrives : secondRound.Arrives returningX (idle.entered [] unsetState) _ :=
    .among .done (.again (htest _) ⟨10, rfl⟩ (.round (htest _) (.block (.among .done
      (.thenBranch (tests_some_ok.2 ⟨_, ⟨1, rfl⟩, rfl⟩) (.block .hole))))))
  have hvalue := hreturned secondRound idle [] unsetState _ _ ⟨.ok (.bool true), _⟩ harrives
    (ends_executeAll.1 ⟨3, rfl⟩) ⟨1, rfl⟩
  exact ⟨⟨_, harrives⟩, hcalls secondRound idle [] 40, _, hvalue, by decide, rfl⟩

end TreeWalk
