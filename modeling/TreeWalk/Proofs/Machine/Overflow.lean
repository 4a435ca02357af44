import TreeWalk.Proofs.Machine.Moments

/-!
Where a sink gets full. Nothing writes but `print`, so a run that a full sink stops has come to a
print statement whose value is known and whose line does not fit.
-/

namespace TreeWalk

open Run

/-- A print statement begins within the moment, its expression has a value and leaves `heap`, and
the line with the value does not fit in. -/
def Overflows (m : Moment) (heap : Heap) : Prop :=
  ∃ (printed : Expr) (value : Value) (u v : State), Begins m ⟨.execute (.print printed), u⟩ ∧
    Ends (evaluate · printed) u ⟨.ok value, v⟩ ∧
    v.sink.fits (value.text ++ "\n").toUTF8 = false ∧ v.heap = heap

theorem Starts.overflows {m n : Moment} {heap : Heap} (h : Starts m n) (hn : Overflows n heap) :
    Overflows m heap := by
  obtain ⟨printed, value, u, v, hbegins, hrest⟩ := hn
  exact ⟨printed, value, u, v, hbegins.head h, hrest⟩

namespace Run

variable {α β : Type}

/-- The run is not stopped by the sink. -/
def Silent (m : Run α) : Prop :=
  ∀ (s t : State) (fault : SinkFault), m.finish s ≠ some ⟨.error (.sink fault), t⟩

theorem silent_pure (a : α) : Silent (pure a : Run α) := nofun

theorem silent_failAt (token : Token) (fault : RuntimeFault) :
    Silent (failAt token fault : Run α) := nofun

theorem silent_ofOperation (operator : Token) (result : Except RuntimeFault α) :
    Silent (ofOperation operator result) := by
  cases result with
  | ok a => exact silent_pure a
  | error fault => exact silent_failAt operator fault

theorem silent_read (name : Token) : Silent (read name) := by
  intro s t fault h
  unfold finish read at h
  cases hget : s.heap.get? s.active name.lexeme <;> rw [hget] at h <;> cases h

theorem silent_assign (name : Token) (value : Value) : Silent (assign name value) := by
  rintro ⟨heap, active, sink⟩ t fault h
  unfold finish assign at h
  dsimp only at h
  cases howner : heap.owner? active name.lexeme <;> rw [howner] at h <;> cases h

theorem silent_define (name : Token) (value : Value) : Silent (define name value) := nofun

theorem silent_declare (declaration : FunDecl) : Silent (declare declaration) := nofun

/-- Of two runs in a row the sink stops the first, or the second after a value of the first. -/
theorem finish_bind_sink {m : Run α} {next : α → Run β} {s t : State} {fault : SinkFault}
    (h : (m >>= next).finish s = some ⟨.error (.sink fault), t⟩) :
    m.finish s = some ⟨.error (.sink fault), t⟩ ∨
      ∃ a u, m.finish s = some ⟨.ok a, u⟩ ∧
        (next a).finish u = some ⟨.error (.sink fault), t⟩ := by
  rcases finish_bind.1 h with ⟨a, u, hfirst, hsecond⟩ | ⟨failure, u, hfirst, ⟨⟩⟩
  · exact .inr ⟨a, u, hfirst, hsecond⟩
  · exact .inl hfirst

theorem Silent.bind {m : Run α} {next : α → Run β} (hm : Silent m)
    (hnext : ∀ a, Silent (next a)) : Silent (m >>= next) := by
  intro s t fault h
  rcases finish_bind_sink h with hfirst | ⟨a, u, _, hsecond⟩
  · exact hm s t fault hfirst
  · exact hnext a u t fault hsecond

theorem finish_inside_sink {body : Run α} {outer : ScopeId} {bindings : List (String × Value)}
    {s t : State} {fault : SinkFault}
    (h : (inside outer bindings body).finish s = some ⟨.error (.sink fault), t⟩) :
    ∃ u, body.finish ⟨s.heap.addScope outer bindings, s.heap.nextScope, s.sink⟩ =
      some ⟨.error (.sink fault), u⟩ ∧ t.heap = u.heap := by
  obtain ⟨u, hbody, hstate⟩ := finish_inside.1 h
  have hleft : t = { u with active := s.active } := hstate
  exact ⟨u, hbody, by rw [hleft]⟩

theorem finish_printLine_sink {text : String} {s t : State} {fault : SinkFault}
    (h : (printLine text).finish s = some ⟨.error (.sink fault), t⟩) :
    s.sink.fits (text ++ "\n").toUTF8 = false ∧ t.heap = s.heap := by
  obtain ⟨heap, active, sink⟩ := s
  unfold finish printLine at h
  dsimp only at h ⊢
  cases hfits : sink.fits (text ++ "\n").toUTF8 with
  | true =>
    rw [hfits] at h
    cases h
  | false =>
    rw [hfits] at h
    cases h
    exact ⟨rfl, rfl⟩

end Run

section

variable {fuel : Nat} {s t : State} {fault : SinkFault}
  (ih : ∀ (task : Task) {s : State} {t : State}, (task.run fuel).finish s =
    some ⟨.error (.sink fault), t⟩ → Overflows ⟨task, s⟩ t.heap)
include ih

theorem evaluate_overflows (e : Expr)
    (h : (evaluate (fuel + 1) e).finish s = some ⟨.error (.sink fault), t⟩) :
    Overflows ⟨.evaluate e, s⟩ t.heap := by
  cases e with
  | literal value => cases h
  | group inner => exact Starts.inner.overflows (ih (.evaluate inner) h)
  | unary operator right =>
    rcases finish_bind_sink h with hright | ⟨value, u, _, hrest⟩
    · exact Starts.operand.overflows (ih (.evaluate right) hright)
    · exact absurd hrest (silent_ofOperation operator _ _ _ _)
  | binary left operator right =>
    rcases finish_bind_sink h with hleft | ⟨value, u, hleft, hrest⟩
    · exact Starts.left.overflows (ih (.evaluate left) hleft)
    rcases finish_bind_sink hrest with hright | ⟨other, v, _, hrest⟩
    · exact (Starts.right ⟨fuel, hleft⟩).overflows (ih (.evaluate right) hright)
    · exact absurd hrest (silent_ofOperation operator _ _ _ _)
  | logical left operator right =>
    rcases finish_bind_sink h with hleft | ⟨value, u, hleft, hrest⟩
    · exact Starts.decision.overflows (ih (.evaluate left) hleft)
    cases hdecides : Operation.decides operator value with
    | true =>
      rw [if_pos hdecides] at hrest
      exact absurd hrest (silent_pure value _ _ _)
    | false =>
      rw [if_neg (by simp [hdecides])] at hrest
      exact (Starts.alternative ⟨fuel, hleft⟩ hdecides).overflows (ih (.evaluate right) hrest)
  | reference name => exact absurd h (silent_read name _ _ _)
  | assign name value =>
    rcases finish_bind_sink h with hvalue | ⟨value, u, _, hrest⟩
    · exact Starts.assigned.overflows (ih (.evaluate _) hvalue)
    · exact absurd hrest ((silent_assign name value).bind (fun _ => silent_pure value) _ _ _)
  | call callee paren arguments =>
    rw [evaluate_call] at h
    rcases finish_bind_sink h with hcallee | ⟨value, u, hcallee, hrest⟩
    · exact Starts.callee.overflows (ih (.evaluate callee) hcallee)
    rcases finish_bind_sink hrest with harguments | ⟨values, v, harguments, hrest⟩
    · exact (Starts.arguments ⟨fuel, hcallee⟩).overflows (ih (.evaluateAll arguments) harguments)
    cases value with
    | function function =>
      by_cases harity : values.length = function.arity
      · simp only [applied, if_pos harity] at hrest
        exact (Starts.call ⟨fuel, hcallee⟩ ⟨fuel, harguments⟩ harity).overflows
          (ih (.call function values) hrest)
      · simp only [applied, if_neg harity] at hrest
        exact absurd hrest (silent_failAt paren _ _ _ _)
    | _ => exact absurd hrest (silent_failAt paren _ _ _ _)

theorem evaluateAll_overflows (es : List Expr)
    (h : (evaluateAll (fuel + 1) es).finish s = some ⟨.error (.sink fault), t⟩) :
    Overflows ⟨.evaluateAll es, s⟩ t.heap := by
  cases es with
  | nil => cases h
  | cons e es =>
    rcases finish_bind_sink h with hfirst | ⟨value, u, hfirst, hrest⟩
    · exact Starts.firstValue.overflows (ih (.evaluate e) hfirst)
    rcases finish_bind_sink hrest with hmore | ⟨values, v, _, hrest⟩
    · exact (Starts.moreValues ⟨fuel, hfirst⟩).overflows (ih (.evaluateAll es) hmore)
    · exact absurd hrest (silent_pure _ _ _ _)

theorem call_overflows (function : Function) (values : List Value)
    (h : (call (fuel + 1) function values).finish s = some ⟨.error (.sink fault), t⟩) :
    Overflows ⟨.call function values, s⟩ t.heap := by
  rw [call_succ] at h
  rcases finish_bind_sink h with hbody | ⟨flow, u, _, hrest⟩
  · obtain ⟨u, hbody, hheap⟩ := finish_inside_sink hbody
    rw [hheap]
    exact Starts.body.overflows (ih (.executeAll function.declaration.body) hbody)
  · exact absurd hrest (silent_pure _ _ _ _)

theorem execute_overflows (statement : Stmt)
    (h : (execute (fuel + 1) statement).finish s = some ⟨.error (.sink fault), t⟩) :
    Overflows ⟨.execute statement, s⟩ t.heap := by
  cases statement with
  | expression value =>
    rcases finish_bind_sink h with hvalue | ⟨value, u, _, hrest⟩
    · exact Starts.expression.overflows (ih (.evaluate _) hvalue)
    · exact absurd hrest (silent_pure Flow.normal _ _ _)
  | print printed =>
    rcases finish_bind_sink h with hvalue | ⟨value, u, hvalue, hrest⟩
    · exact Starts.printed.overflows (ih (.evaluate printed) hvalue)
    rcases finish_bind_sink hrest with hline | ⟨_, v, _, hrest⟩
    · obtain ⟨hfits, hheap⟩ := finish_printLine_sink hline
      exact ⟨printed, value, s, u, .refl, ⟨fuel, hvalue⟩, hfits, hheap.symm⟩
    · exact absurd hrest (silent_pure Flow.normal _ _ _)
  | varDecl name initial =>
    have hdefine : ∀ value, Silent (define name value >>= fun _ => pure Flow.normal) :=
      fun value => (silent_define name value).bind fun _ => silent_pure Flow.normal
    cases initial with
    | none => exact absurd h (hdefine .nil _ _ _)
    | some initial =>
      rcases finish_bind_sink h with hinitial | ⟨value, u, _, hrest⟩
      · exact Starts.initial.overflows (ih (.evaluate initial) hinitial)
      · exact absurd hrest (hdefine value _ _ _)
  | block body =>
    obtain ⟨u, hbody, hheap⟩ := finish_inside_sink h
    rw [hheap]
    exact Starts.block.overflows (ih (.executeAll body) hbody)
  | ifElse condition thenBranch elseBranch =>
    rw [execute_ifElse] at h
    rcases finish_bind_sink h with hcondition | ⟨test, u, hcondition, hrest⟩
    · exact Starts.condition.overflows (ih (.evaluate condition) hcondition)
    cases htest : test.isTruthy with
    | true =>
      rw [if_pos htest] at hrest
      exact (Starts.thenBranch ⟨fuel, hcondition⟩ htest).overflows (ih (.execute _) hrest)
    | false =>
      rw [if_neg (by simp [htest])] at hrest
      cases elseBranch with
      | none => exact absurd hrest (silent_pure Flow.normal _ _ _)
      | some elseBranch =>
        exact (Starts.elseBranch ⟨fuel, hcondition⟩ htest).overflows (ih (.execute _) hrest)
  | whileLoop condition body =>
    rcases finish_bind_sink h with hcondition | ⟨test, u, hcondition, hrest⟩
    · exact Starts.test.overflows (ih (.evaluate condition) hcondition)
    cases htest : test.isTruthy with
    | true =>
      rw [if_pos htest] at hrest
      rcases finish_bind_sink hrest with hbody | ⟨flow, v, hbody, hrest⟩
      · exact (Starts.round ⟨fuel, hcondition⟩ htest).overflows (ih (.execute body) hbody)
      cases flow with
      | returned value => exact absurd hrest (silent_pure (Flow.returned value) _ _ _)
      | normal =>
        exact (Starts.again ⟨fuel, hcondition⟩ htest ⟨fuel, hbody⟩).overflows
          (ih (.execute _) hrest)
    | false =>
      rw [if_neg (by simp [htest])] at hrest
      exact absurd hrest (silent_pure Flow.normal _ _ _)
  | funDecl declaration =>
    exact absurd h ((silent_declare declaration).bind (fun _ => silent_pure Flow.normal) _ _ _)
  | returnValue keyword value =>
    cases value with
    | none => exact absurd h (silent_pure (Flow.returned .nil) _ _ _)
    | some value =>
      rcases finish_bind_sink h with hvalue | ⟨value, u, _, hrest⟩
      · exact Starts.returned.overflows (ih (.evaluate _) hvalue)
      · exact absurd hrest (silent_pure (Flow.returned value) _ _ _)
  | classDecl name superclass methods =>
    exact absurd h ((silent_define name .nil).bind (fun _ => silent_pure Flow.normal) _ _ _)

theorem executeAll_overflows (statements : List Stmt)
    (h : (executeAll (fuel + 1) statements).finish s = some ⟨.error (.sink fault), t⟩) :
    Overflows ⟨.executeAll statements, s⟩ t.heap := by
  cases statements with
  | nil => cases h
  | cons first more =>
    rw [executeAll_cons] at h
    rcases finish_bind_sink h with hfirst | ⟨flow, u, hfirst, hrest⟩
    · exact Starts.first.overflows (ih (.execute first) hfirst)
    cases flow with
    | returned value => exact absurd hrest (silent_pure (Flow.returned value) _ _ _)
    | normal => exact (Starts.more ⟨fuel, hfirst⟩).overflows (ih (.executeAll more) hrest)

end

theorem run_overflows {fuel : Nat} {task : Task} {s t : State} {fault : SinkFault}
    (h : (task.run fuel).finish s = some ⟨.error (.sink fault), t⟩) :
    Overflows ⟨task, s⟩ t.heap := by
  induction fuel generalizing task s t with
  | zero => cases task <;> cases h
  | succ fuel ih =>
    have ih' : ∀ (task : Task) {s t : State}, (task.run fuel).finish s =
        some ⟨.error (.sink fault), t⟩ → Overflows ⟨task, s⟩ t.heap := fun _ _ _ h => ih h
    cases task with
    | evaluate e => exact evaluate_overflows ih' e h
    | evaluateAll es => exact evaluateAll_overflows ih' es h
    | call function values => exact call_overflows ih' function values h
    | execute statement => exact execute_overflows ih' statement h
    | executeAll statements => exact executeAll_overflows ih' statements h

end TreeWalk
