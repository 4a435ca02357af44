import TreeWalk.Proofs.Machine.LoneExpression
import TreeWalk.Proofs.Machine.Moments

/-!
The moments of an expression on its own. Where no name is bound, whatever an expression comes to
evaluate is evaluated in the state it began in, and the first part that fails ends the whole. So an
expression that comes to a variable fails for that variable, and one that comes to a call fails.
-/

namespace TreeWalk

open Run

namespace Task

/-- The task is on expressions, and on no function or statement. -/
def Evaluates : Task → Prop
  | evaluate _ => True
  | evaluateAll _ => True
  | _ => False

/-- Where no name is bound, the task ends with the failure. -/
def FailsAlone (failure : Failure) : Task → Prop
  | evaluate e => e.alone = .error failure
  | evaluateAll es => Expr.aloneAll es = .error failure
  | _ => False

end Task

/-! ## Failures of parts -/

section

variable {failure : Failure}

theorem error_bind {α β : Type} {x : Except Failure α} (h : x = .error failure)
    (f : α → Except Failure β) : x >>= f = .error failure := by
  rw [h]
  rfl

theorem ok_bind {α β : Type} {x : Except Failure α} {a : α} (h : x = .ok a)
    (f : α → Except Failure β) : x >>= f = f a := by
  rw [h]
  rfl

end

section

variable {s : State} (hs : s.Unbound)
include hs

theorem State.Unbound.alone_of_ends {e : Expr} {value : Value} {t : State}
    (h : Ends (evaluate · e) s ⟨.ok value, t⟩) : e.alone = .ok value ∧ t = s := by
  have hsame := (growing_evaluate e).ends_unique h (ends_alone hs e)
  rw [Finished.mk.injEq] at hsame
  exact ⟨hsame.1.symm, hsame.2⟩

/-- An expression starts the evaluation of its parts in its own state, and fails as they do. -/
theorem State.Unbound.starts {m n : Moment} (hm : m.task.Evaluates) (hstate : m.state = s)
    (h : Starts m n) : n.task.Evaluates ∧ n.state = s ∧
      ∀ failure, n.task.FailsAlone failure → m.task.FailsAlone failure := by
  cases h with
  | inner => exact ⟨trivial, hstate, fun _ hfails => hfails⟩
  | operand => exact ⟨trivial, hstate, fun _ hfails => error_bind hfails _⟩
  | left => exact ⟨trivial, hstate, fun _ hfails => error_bind hfails _⟩
  | right hleft =>
    cases hstate
    obtain ⟨hvalue, rfl⟩ := hs.alone_of_ends hleft
    refine ⟨trivial, rfl, fun _ hfails => ?_⟩
    exact (ok_bind hvalue _).trans (error_bind hfails _)
  | decision => exact ⟨trivial, hstate, fun _ hfails => error_bind hfails _⟩
  | @alternative left right operator value _ t hleft hdecides =>
    cases hstate
    obtain ⟨hvalue, rfl⟩ := hs.alone_of_ends hleft
    refine ⟨trivial, rfl, fun failure hfails => ?_⟩
    change (left.alone >>= fun value =>
      if Operation.decides operator value then pure value else right.alone) = .error failure
    rw [ok_bind hvalue, hdecides]
    exact hfails
  | assigned => exact ⟨trivial, hstate, fun _ hfails => error_bind hfails _⟩
  | callee => exact ⟨trivial, hstate, fun _ hfails => error_bind hfails _⟩
  | arguments hcallee =>
    cases hstate
    obtain ⟨hvalue, rfl⟩ := hs.alone_of_ends hcallee
    refine ⟨trivial, rfl, fun _ hfails => ?_⟩
    exact (ok_bind hvalue _).trans (error_bind hfails _)
  | @call callee _ _ _ _ _ _ _ hcallee =>
    -- The callee would be a function, and there is none.
    cases hstate
    obtain ⟨hvalue, _⟩ := hs.alone_of_ends hcallee
    exact (callee.alone_plain _ hvalue).elim
  | firstValue => exact ⟨trivial, hstate, fun _ hfails => error_bind hfails _⟩
  | moreValues hfirst =>
    cases hstate
    obtain ⟨hvalue, rfl⟩ := hs.alone_of_ends hfirst
    refine ⟨trivial, rfl, fun _ hfails => ?_⟩
    exact (ok_bind hvalue _).trans (error_bind hfails _)
  | body | expression | printed | initial | block | condition | thenBranch | elseBranch | test
  | round | again | returned | first | more => exact hm.elim

/-- So does it with all that begins while it is evaluated. -/
theorem State.Unbound.begins {e : Expr} {n : Moment} (h : Begins ⟨.evaluate e, s⟩ n) :
    n.task.Evaluates ∧ n.state = s ∧
      ∀ failure, n.task.FailsAlone failure → e.alone = .error failure := by
  induction h with
  | refl => exact ⟨trivial, rfl, fun _ hfails => hfails⟩
  | tail _ hstart ih =>
    obtain ⟨hevaluates, hstate, hfails⟩ := ih
    obtain ⟨hevaluates', hstate', hfails'⟩ := hs.starts hevaluates hstate hstart
    exact ⟨hevaluates', hstate', fun failure h => hfails failure (hfails' failure h)⟩

end

/-- A call fails: for its callee, for an argument, or because no value is a function. -/
theorem Expr.alone_call (callee : Expr) (paren : Token) (arguments : List Expr) :
    ∃ failure, (Expr.call callee paren arguments).alone = .error failure := by
  rw [alone]
  cases callee.alone with
  | error failure => exact ⟨failure, rfl⟩
  | ok value =>
    cases aloneAll arguments with
    | error failure => exact ⟨failure, rfl⟩
    | ok values => exact ⟨_, rfl⟩

/-- An expression on its own comes to an end in the state it began in, and so does all that begins
while it is evaluated, among which there is no function and no statement. Its value is no function,
and a failure is a fault of the program. If it comes to a variable, to an assignment that has its
value, or to a call, it ends in a fault, which for the first two is that the name is undefined. -/
theorem lone_expression_effectless (e : Expr) (sink : Sink) :
    ∃ result : Except Failure Value,
      (∃ few, ∀ fuel, few ≤ fuel →
        (evaluate fuel e).finish (.initial sink) = some ⟨result, .initial sink⟩) ∧
      (∀ value, result = .ok value → value.Plain) ∧
      (∀ failure, result = .error failure → failure.IsRuntime) ∧
      (∀ n, Begins ⟨.evaluate e, .initial sink⟩ n →
        n.task.Evaluates ∧ n.state = .initial sink) ∧
      (∀ name t, Begins ⟨.evaluate e, .initial sink⟩ ⟨.evaluate (.reference name), t⟩ →
        result = .error (.runtime (.undefined name.lexeme) name.line)) ∧
      (∀ name source t, Begins ⟨.evaluate e, .initial sink⟩ ⟨.evaluate (.assign name source), t⟩ →
        ∀ value u, Ends (evaluate · source) t ⟨.ok value, u⟩ →
          result = .error (.runtime (.undefined name.lexeme) name.line)) ∧
      (∀ callee paren arguments t,
        Begins ⟨.evaluate e, .initial sink⟩ ⟨.evaluate (.call callee paren arguments), t⟩ →
          ∃ fault line, result = .error (.runtime fault line)) := by
  have hs := State.unbound_initial sink
  refine ⟨e.alone, (growing_evaluate e).ends_from (ends_alone hs e), e.alone_plain,
    e.alone_isRuntime, ?_, ?_, ?_, ?_⟩
  · intro n hn
    obtain ⟨hevaluates, hstate, _⟩ := hs.begins hn
    exact ⟨hevaluates, hstate⟩
  · intro name t hread
    obtain ⟨_, _, hfails⟩ := hs.begins hread
    exact hfails _ rfl
  · intro name source t hassign value u hvalue
    obtain ⟨_, rfl, hfails⟩ := hs.begins hassign
    obtain ⟨hsource, _⟩ := hs.alone_of_ends hvalue
    exact hfails _ (ok_bind hsource _)
  · intro callee paren arguments t hcall
    obtain ⟨_, _, hfails⟩ := hs.begins hcall
    obtain ⟨failure, hfailure⟩ := Expr.alone_call callee paren arguments
    have hresult := hfails failure hfailure
    obtain ⟨fault, line, rfl⟩ := e.alone_isRuntime failure hresult
    exact ⟨fault, line, hresult⟩

/-- `nil or nil(x = true)` -/
def assigningArgument : Expr :=
  .logical (.literal .nil) ⟨.symbol (.keyword .orWord), "or", 1⟩
    (.call (.literal .nil) ⟨.symbol .rightParen, ")", 3⟩
      [.assign ⟨.symbol .identifier, "x", 2⟩ (.literal (.bool true))])

/-- The second operand is come to, and in it the assignment, before the call. -/
theorem assigningArgument_undefined :
    ∃ few, ∀ fuel, few ≤ fuel → (evaluate fuel assigningArgument).finish (.initial .unlimited) =
      some ⟨.error (.runtime (.undefined "x") 2), .initial .unlimited⟩ := by
  obtain ⟨result, hends, _, _, _, _, hassigned, _⟩ :=
    lone_expression_effectless assigningArgument .unlimited
  have hcomes : Begins ⟨.evaluate assigningArgument, .initial .unlimited⟩
      ⟨.evaluate (.assign ⟨.symbol .identifier, "x", 2⟩ (.literal (.bool true))),
        .initial .unlimited⟩ :=
    (((Relation.ReflTransGen.refl.tail (.alternative ⟨1, rfl⟩ rfl)).tail
      (.arguments ⟨1, rfl⟩)).tail .firstValue)
  rwa [hassigned _ _ _ hcomes (.bool true) _ ⟨1, rfl⟩] at hends

end TreeWalk
