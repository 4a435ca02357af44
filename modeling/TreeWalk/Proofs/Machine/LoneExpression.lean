import TreeWalk.Proofs.Machine.Calls
import TreeWalk.Proofs.Machine.Inheritance

/-!
Expressions on their own. Where no name is bound there is no function to be called, so that an
expression has no effect, and what it comes to is told by the expression alone: without a state and
without fuel.
-/

namespace TreeWalk

open Run

/-- A failure at the line of a token. -/
def faultAt {α : Type} (token : Token) (fault : RuntimeFault) : Except Failure α :=
  .error (.runtime fault token.line)

namespace Expr

mutual

/-- The value of an expression where no name is bound. -/
def alone : Expr → Except Failure Value
  | literal value => return .ofLiteral value
  | group inner => alone inner
  | unary operator right => do
    let value ← alone right
    (Operation.unary operator value).mapError (.runtime · operator.line)
  | binary left operator right => do
    let value ← alone left
    let other ← alone right
    (Operation.binary operator value other).mapError (.runtime · operator.line)
  | logical left operator right => do
    let value ← alone left
    if Operation.decides operator value then return value else alone right
  | reference name => faultAt name (.undefined name.lexeme)
  | assign name value => do
    let _ ← alone value
    faultAt name (.undefined name.lexeme)
  | call callee paren arguments => do
    let _ ← alone callee
    let _ ← aloneAll arguments
    faultAt paren .notCallable

def aloneAll : List Expr → Except Failure (List Value)
  | [] => return []
  | e :: es => do
    let value ← alone e
    let values ← aloneAll es
    return value :: values

end

end Expr

/-- No name is bound where the state is active. -/
def State.Unbound (s : State) : Prop := ∀ name, s.heap.owner? s.active name = none

theorem State.unbound_initial (sink : Sink) : (State.initial sink).Unbound := fun _ => rfl

namespace Run

variable {α β : Type}

/-- Runs that change nothing, one after the other. -/
theorem Ends.bind_same {m : Nat → Run α} {next : Nat → α → Run β} (hm : Growing m)
    (hnext : ∀ a, Growing (next · a)) {s : State} {r : Except Failure α}
    {q : α → Except Failure β} (h : Ends m s ⟨r, s⟩)
    (hq : ∀ a, r = .ok a → Ends (next · a) s ⟨q a, s⟩) :
    Ends (fun fuel => m fuel >>= next fuel) s ⟨r >>= q, s⟩ := by
  rw [ends_bind hm hnext]
  cases r with
  | ok a => exact .inl ⟨a, s, h, hq a rfl⟩
  | error failure => exact .inr ⟨failure, s, h, rfl⟩

theorem ends_failAt (token : Token) (fault : RuntimeFault) (s : State) :
    Ends (fun _ => failAt token fault) s (⟨faultAt token fault, s⟩ : Finished α) := ⟨0, rfl⟩

theorem ends_ofOperation (operator : Token) (result : Except RuntimeFault Value) (s : State) :
    Ends (fun _ => ofOperation operator result) s
      ⟨result.mapError (.runtime · operator.line), s⟩ := by
  cases result <;> exact ⟨0, rfl⟩

end Run

/-! ## Values and failures -/

theorem ok_of_bind {α β : Type} {x : Except Failure α} {f : α → Except Failure β} {b : β}
    (h : x >>= f = .ok b) : ∃ a, x = .ok a ∧ f a = .ok b := by
  cases x with
  | error failure => cases h
  | ok a => exact ⟨a, rfl, h⟩

theorem ok_of_mapError {result : Except RuntimeFault Value} {line : Nat} {value : Value}
    (h : result.mapError (Failure.runtime · line) = .ok value) : result = .ok value := by
  cases result <;> cases h
  rfl

/-- No value is a function, since none was declared. -/
theorem Expr.alone_plain : ∀ (e : Expr) (value : Value), e.alone = .ok value → value.Plain
  | .literal value, _, h => by
    cases h
    exact Value.plain_ofLiteral value
  | .group inner, value, h => alone_plain inner value h
  | .unary operator right, value, h => by
    rw [alone] at h
    obtain ⟨_, _, h⟩ := ok_of_bind h
    exact Operation.unary_plain (ok_of_mapError h)
  | .binary left operator right, value, h => by
    rw [alone] at h
    obtain ⟨_, _, h⟩ := ok_of_bind h
    obtain ⟨_, _, h⟩ := ok_of_bind h
    exact Operation.binary_plain (ok_of_mapError h)
  | .logical left operator right, value, h => by
    rw [alone] at h
    obtain ⟨first, hfirst, h⟩ := ok_of_bind h
    split at h
    · cases h
      exact alone_plain left _ hfirst
    · exact alone_plain right value h
  | .reference _, _, h => nomatch h
  | .assign _ value, _, h => by
    rw [alone] at h
    obtain ⟨_, _, h⟩ := ok_of_bind h
    cases h
  | .call callee _ arguments, _, h => by
    rw [alone] at h
    obtain ⟨_, _, h⟩ := ok_of_bind h
    obtain ⟨_, _, h⟩ := ok_of_bind h
    cases h

/-- The failure is a fault of the program at a line, and not one of the sink. -/
def Failure.IsRuntime (failure : Failure) : Prop := ∃ fault line, failure = .runtime fault line

theorem isRuntime_of_bind {α β : Type} {x : Except Failure α} {f : α → Except Failure β}
    (hx : ∀ failure, x = .error failure → failure.IsRuntime)
    (hf : ∀ a, x = .ok a → ∀ failure, f a = .error failure → failure.IsRuntime)
    (failure : Failure) (h : x >>= f = .error failure) : failure.IsRuntime := by
  cases x with
  | error failure =>
    cases h
    exact hx failure rfl
  | ok a => exact hf a rfl failure h

theorem isRuntime_of_faultAt {α : Type} {token : Token} {fault : RuntimeFault} :
    ∀ failure, (faultAt token fault : Except Failure α) = .error failure → failure.IsRuntime := by
  rintro _ ⟨⟩
  exact ⟨fault, token.line, rfl⟩

theorem isRuntime_of_mapError {result : Except RuntimeFault Value} {line : Nat} :
    ∀ failure, result.mapError (Failure.runtime · line) = .error failure →
      failure.IsRuntime := by
  cases result with
  | ok value => rintro _ ⟨⟩
  | error fault =>
    rintro _ ⟨⟩
    exact ⟨fault, line, rfl⟩

namespace Expr

mutual

theorem alone_isRuntime : ∀ (e : Expr) (failure : Failure), e.alone = .error failure →
    failure.IsRuntime
  | .literal _, _, h => nomatch h
  | .group inner, failure, h => alone_isRuntime inner failure h
  | .unary _ right, failure, h => by
    rw [alone] at h
    exact isRuntime_of_bind (alone_isRuntime right) (fun _ _ => isRuntime_of_mapError) failure h
  | .binary left _ right, failure, h => by
    rw [alone] at h
    refine isRuntime_of_bind (alone_isRuntime left) (fun _ _ => ?_) failure h
    exact isRuntime_of_bind (alone_isRuntime right) fun _ _ => isRuntime_of_mapError
  | .logical left operator right, failure, h => by
    rw [alone] at h
    refine isRuntime_of_bind (alone_isRuntime left) (fun value _ later hlater => ?_) failure h
    split at hlater
    · cases hlater
    · exact alone_isRuntime right later hlater
  | .reference _, failure, h => isRuntime_of_faultAt failure h
  | .assign _ value, failure, h => by
    rw [alone] at h
    exact isRuntime_of_bind (alone_isRuntime value) (fun _ _ => isRuntime_of_faultAt) failure h
  | .call callee _ arguments, failure, h => by
    rw [alone] at h
    refine isRuntime_of_bind (alone_isRuntime callee) (fun _ _ => ?_) failure h
    exact isRuntime_of_bind (aloneAll_isRuntime arguments) fun _ _ => isRuntime_of_faultAt

theorem aloneAll_isRuntime : ∀ (es : List Expr) (failure : Failure),
    aloneAll es = .error failure → failure.IsRuntime
  | [], _, h => nomatch h
  | e :: es, failure, h => by
    rw [aloneAll] at h
    refine isRuntime_of_bind (alone_isRuntime e) (fun _ _ => ?_) failure h
    refine isRuntime_of_bind (aloneAll_isRuntime es) (fun _ _ => ?_)
    rintro _ ⟨⟩

end

end Expr

/-! ## Evaluation -/

section

variable {s : State} (hs : s.Unbound)
include hs

theorem State.Unbound.read (name : Token) :
    Ends (fun _ => read name) s ⟨faultAt name (.undefined name.lexeme), s⟩ := by
  have hget : s.heap.get? s.active name.lexeme = none := by simp [Heap.get?, hs name.lexeme]
  refine ⟨0, ?_⟩
  simp only [Run.finish, Run.read, hget]
  rfl

theorem State.Unbound.assign (name : Token) (value : Value) :
    Ends (fun _ => Run.assign name value >>= fun _ => pure value) s
      ⟨faultAt name (.undefined name.lexeme), s⟩ := by
  obtain ⟨heap, active, sink⟩ := s
  have howner : heap.owner? active name.lexeme = none := hs name.lexeme
  have hfailed : (Run.assign name value).finish ⟨heap, active, sink⟩ =
      some ⟨.error (.runtime (.undefined name.lexeme) name.line), ⟨heap, active, sink⟩⟩ := by
    simp only [Run.finish, Run.assign, howner]
    rfl
  exact ⟨0, finish_bind.2 (.inr ⟨_, _, hfailed, rfl⟩)⟩

end

mutual

/-- The state stays as it is, with enough fuel. -/
theorem ends_alone {s : State} (hs : s.Unbound) : ∀ e : Expr,
    Ends (evaluate · e) s ⟨e.alone, s⟩
  | .literal value => ⟨1, rfl⟩
  | .group inner => (ends_succ rfl).2 (ends_alone hs inner)
  | .unary operator right => by
    rw [ends_succ rfl, Expr.alone]
    refine Ends.bind_same (growing_evaluate right) ?_ (ends_alone hs right) ?_
    · exact fun value => growing_const _
    · exact fun value _ => ends_ofOperation operator (Operation.unary operator value) s
  | .binary left operator right => by
    rw [ends_succ rfl, Expr.alone]
    refine Ends.bind_same (growing_evaluate left) ?_ (ends_alone hs left) ?_
    · exact fun value => (growing_evaluate right).bind fun other => growing_const _
    · intro value _
      refine Ends.bind_same (growing_evaluate right) ?_ (ends_alone hs right) ?_
      · exact fun other => growing_const _
      · exact fun other _ => ends_ofOperation operator (Operation.binary operator value other) s
  | .logical left operator right => by
    rw [ends_succ rfl, Expr.alone]
    refine Ends.bind_same (growing_evaluate left) ?_ (ends_alone hs left) ?_
    · intro value
      split
      · exact growing_const _
      · exact growing_evaluate right
    · intro value _
      split
      · exact ⟨0, rfl⟩
      · exact ends_alone hs right
  | .reference name => (ends_succ rfl).2 (hs.read name)
  | .assign name value => by
    rw [ends_succ rfl, Expr.alone]
    refine Ends.bind_same (growing_evaluate value) ?_ (ends_alone hs value) ?_
    · exact fun value => growing_const _
    · exact fun value _ => hs.assign name value
  | .call callee paren arguments => by
    rw [ends_succ rfl, Expr.alone]
    simp only [evaluate_call]
    refine Ends.bind_same (growing_evaluate callee) ?_ (ends_alone hs callee) ?_
    · exact fun value => (growing_evaluateAll arguments).bind fun values =>
        growing_applied paren values value
    · intro value hvalue
      refine Ends.bind_same (growing_evaluateAll arguments) ?_ (ends_aloneAll hs arguments) ?_
      · exact fun values => growing_applied paren values value
      · intro values _
        have hplain := callee.alone_plain value hvalue
        cases value with
        | function function => exact hplain.elim
        | _ => exact ends_failAt paren .notCallable s

theorem ends_aloneAll {s : State} (hs : s.Unbound) : ∀ es : List Expr,
    Ends (evaluateAll · es) s ⟨Expr.aloneAll es, s⟩
  | [] => ⟨1, rfl⟩
  | e :: es => by
    rw [ends_succ rfl, Expr.aloneAll]
    refine Ends.bind_same (growing_evaluate e) ?_ (ends_alone hs e) ?_
    · exact fun value => (growing_evaluateAll es).bind fun values => growing_const _
    · intro value _
      refine Ends.bind_same (growing_evaluateAll es) ?_ (ends_aloneAll hs es) ?_
      · exact fun values => growing_const _
      · exact fun values _ => ⟨0, rfl⟩

end

end TreeWalk
