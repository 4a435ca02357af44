import TreeWalk.Proofs.Machine.Calls
import TreeWalk.Proofs.Session.Outcomes

/-!
Where a `return` may be and how far it goes. A program that parses without a fault has one only in
the bodies of functions, so that its statements never end by one and all of them are executed; and
no call passes one on.
-/

namespace TreeWalk

open Run

theorem execute_normal {statement : Stmt} (h : statement.Returnless) {s : State}
    {f : Finished Flow} (hends : Ends (execute · statement) s f) :
    f.result = .ok .normal ∨ ∃ failure, f.result = .error failure := by
  obtain ⟨result, t⟩ := f
  cases result with
  | error failure => exact .inr ⟨failure, rfl⟩
  | ok flow =>
    have halone : ∀ s ∈ [statement], s.Returnless := List.forall_mem_singleton.2 h
    left
    cases flow with
    | normal => rfl
    | returned value => exact congrArg _ (Session.executes_normal halone (.stop hends (by simp)))

/-- No statement of the list ends by a `return` after those before it have ended normally. -/
theorem not_returned {ss : List Stmt} (hss : ∀ statement ∈ ss, statement.Returnless) (s : State) :
    ¬ ∃ before first after u value t, ss = before ++ first :: after ∧
      Executes s before ⟨.ok .normal, u⟩ ∧
      Ends (execute · first) u ⟨.ok (.returned value), t⟩ := by
  rintro ⟨before, first, after, u, value, t, rfl, _, hfirst⟩
  have hreturnless := hss first (List.mem_append_right _ List.mem_cons_self)
  rcases execute_normal hreturnless hfirst with h | ⟨_, h⟩ <;> cases h

theorem interpret_ok {ss : List Stmt} (hss : ∀ statement ∈ ss, statement.Returnless) {s t : State}
    (h : Ends (interpret · ss) s ⟨.ok (), t⟩) : Executes s ss ⟨.ok .normal, t⟩ := by
  rcases ends_interpret.1 h with ⟨flow, u, hexecuted, hflushed⟩ | ⟨failure, u, _, hfailed⟩
  · obtain rfl := Session.executes_normal hss hexecuted
    unfold flushed at hflushed
    split at hflushed
    · cases hflushed
    · cases hflushed
      exact hexecuted
  · cases hfailed

/-- Of a program without faults no statement ends by a `return`, so that all of them are executed if
it succeeds. A call takes the value that its body returns, or `nil` if the body runs through. -/
theorem returns_end_in_calls :
    (∀ ts : List Token, (Grammar.program ts).faults = [] →
      (∀ statement ∈ (Grammar.program ts).tree, statement.Returnless ∧
        ∀ s f, Ends (execute · statement) s f →
          f.result = .ok .normal ∨ ∃ failure, f.result = .error failure) ∧
      ∀ s : State,
        (¬ ∃ before first after u value t, (Grammar.program ts).tree = before ++ first :: after ∧
          Executes s before ⟨.ok .normal, u⟩ ∧
          Ends (execute · first) u ⟨.ok (.returned value), t⟩) ∧
        ∀ t, Ends (interpret · (Grammar.program ts).tree) s ⟨.ok (), t⟩ →
          Executes s (Grammar.program ts).tree ⟨.ok .normal, t⟩) ∧
    ∀ (callee : Expr) (paren : Token) (arguments : List Expr) (s t : State) (value : Value),
      Ends (evaluate · (.call callee paren arguments)) s ⟨.ok value, t⟩ ↔
        ∃ function u values v flow w, Ends (evaluate · callee) s ⟨.ok (.function function), u⟩ ∧
          Ends (evaluateAll · arguments) u ⟨.ok values, v⟩ ∧ values.length = function.arity ∧
          Executes (function.entered values v) function.declaration.body ⟨.ok flow, w⟩ ∧
          value = flow.result ∧ t = { w with active := v.active } := by
  constructor
  · intro ts hfaults
    have hreturnless := Session.program_returnless hfaults
    constructor
    · intro statement hmem
      exact ⟨hreturnless statement hmem, fun s f => execute_normal (hreturnless statement hmem)⟩
    · exact fun s => ⟨not_returned hreturnless s, fun t => interpret_ok hreturnless⟩
  · exact fun callee paren arguments s t value => ends_evaluate_call

/-- The tokens of `fun f(a) { return a; } f(true);`. -/
def returningCalled : List Token :=
  [⟨.symbol (.keyword .funWord), "fun", 1⟩, ⟨.symbol .identifier, "f", 1⟩,
    ⟨.symbol .leftParen, "(", 1⟩, ⟨.symbol .identifier, "a", 1⟩, ⟨.symbol .rightParen, ")", 1⟩,
    ⟨.symbol .leftBrace, "\x7b", 1⟩, ⟨.symbol (.keyword .returnWord), "return", 1⟩,
    ⟨.symbol .identifier, "a", 1⟩, ⟨.symbol .semicolon, ";", 1⟩, ⟨.symbol .rightBrace, "\x7d", 1⟩,
    ⟨.symbol .identifier, "f", 1⟩, ⟨.symbol .leftParen, "(", 1⟩,
    ⟨.symbol (.keyword .trueWord), "true", 1⟩, ⟨.symbol .rightParen, ")", 1⟩,
    ⟨.symbol .semicolon, ";", 1⟩, .endOfInput 1]

/-- Both statements are executed, and the call among them has the value that was returned. -/
theorem returningCalled_executed :
    (Grammar.program returningCalled).faults = [] ∧
    (∃ t, Ends (interpret · (Grammar.program returningCalled).tree) (.initial .unlimited)
        ⟨.ok (), t⟩ ∧
      Executes (.initial .unlimited) (Grammar.program returningCalled).tree ⟨.ok .normal, t⟩) ∧
    ∃ declaration callee paren arguments s t,
      (Grammar.program returningCalled).tree =
        [.funDecl declaration, .expression (.call callee paren arguments)] ∧
      Ends (execute · (.funDecl declaration)) (.initial .unlimited) ⟨.ok .normal, s⟩ ∧
      Ends (evaluate · (.call callee paren arguments)) s ⟨.ok (.bool true), t⟩ ∧
      ∃ (function : Function) (values : List Value) (flow : Flow) (v w : State),
        Executes (function.entered values v) function.declaration.body ⟨.ok flow, w⟩ ∧
        .bool true = flow.result := by
  have hfaults : (Grammar.program returningCalled).faults = [] := rfl
  have hends : Ends (interpret · (Grammar.program returningCalled).tree) (.initial .unlimited)
      ⟨.ok (), _⟩ := ⟨10, rfl⟩
  have hcalled : ∃ declaration callee paren arguments s t,
      (Grammar.program returningCalled).tree =
        [.funDecl declaration, .expression (.call callee paren arguments)] ∧
      Ends (execute · (.funDecl declaration)) (.initial .unlimited) ⟨.ok .normal, s⟩ ∧
      Ends (evaluate · (.call callee paren arguments)) s ⟨.ok (.bool true), t⟩ :=
    ⟨_, _, _, _, _, _, rfl, ⟨1, rfl⟩, ⟨10, rfl⟩⟩
  obtain ⟨declaration, callee, paren, arguments, s, t, htree, hdeclared, hvalue⟩ := hcalled
  obtain ⟨function, _, values, v, flow, w, _, _, _, hbody, hresult, _⟩ :=
    (returns_end_in_calls.2 callee paren arguments s t (.bool true)).1 hvalue
  exact ⟨hfaults, ⟨_, hends, ((returns_end_in_calls.1 _ hfaults).2 _).2 _ hends⟩, declaration,
    callee, paren, arguments, s, t, htree, hdeclared, hvalue, function, values, flow, v, w, hbody,
    hresult⟩

end TreeWalk
