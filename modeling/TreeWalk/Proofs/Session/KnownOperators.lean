import TreeWalk.Proofs.Grammar.Shape
import TreeWalk.Proofs.Machine.Inheritance
import TreeWalk.Proofs.Session.Outcomes

/-!
Operators that are unknown to the evaluator do not come from the parser. All trees it makes are well
formed, the bodies of functions with them, so that no unit of a session stops at such an operator,
not even in a function that an earlier unit declared.
-/

namespace TreeWalk

/-! ## Faults of well-formed code -/

/-- The fault is not at an operator that has no meaning. -/
def RuntimeFault.Known (fault : RuntimeFault) : Prop :=
  fault ≠ .unknownUnary ∧ fault ≠ .unknownBinary

/-- The reports of operators without a meaning. -/
def RuntimeFault.unknownMessages : List String :=
  [RuntimeFault.unknownUnary.message, RuntimeFault.unknownBinary.message]

theorem not_mem_of_start {start : String} {texts : List String} (rest : String)
    (h : ∀ t ∈ texts, ¬ start.toList <+: t.toList) : start ++ rest ∉ texts := by
  intro hmem
  refine h _ hmem ?_
  rw [String.toList_append]
  exact List.prefix_append _ _

theorem RuntimeFault.Known.message {fault : RuntimeFault} (h : fault.Known) :
    fault.message ∉ unknownMessages := by
  cases fault with
  | unknownUnary => exact absurd rfl h.1
  | unknownBinary => exact absurd rfl h.2
  | undefined name =>
    change "Undefined variable '" ++ name ++ "'." ∉ unknownMessages
    rw [String.append_assoc]
    exact not_mem_of_start _ (by decide)
  | arity expected got =>
    change "Expected " ++ toString expected ++ " arguments but got " ++ toString got ++ "." ∉ _
    simp only [String.append_assoc]
    exact not_mem_of_start _ (by decide)
  | _ => decide

namespace Operation

theorem unary_known {operator : Token} (h : operator.OneOf [.bang, .minus]) {value : Value}
    {fault : RuntimeFault} (hfault : unary operator value = .error fault) : fault.Known := by
  obtain ⟨s, hs, hkind⟩ := h
  unfold unary at hfault
  split at hfault
  · split at hfault <;> cases hfault
    exact ⟨nofun, nofun⟩
  · cases hfault
  · next hminus hbang =>
    simp_all

theorem add_known {left right : Value} {fault : RuntimeFault}
    (h : add left right = .error fault) : fault.Known := by
  unfold add at h
  split at h <;> cases h
  exact ⟨nofun, nofun⟩

theorem onNumbers_known {left right : Value} {f : Float → Float → Except RuntimeFault Value}
    {fault : RuntimeFault} (h : onNumbers left right f = .error fault)
    (hf : ∀ a b e, f a b = .error e → e.Known) : fault.Known := by
  unfold onNumbers at h
  split at h
  · exact hf _ _ _ h
  · cases h
    exact ⟨nofun, nofun⟩

theorem divide_known {a b : Float} {fault : RuntimeFault} (h : divide a b = .error fault) :
    fault.Known := by
  unfold divide at h
  split at h <;> cases h
  exact ⟨nofun, nofun⟩

theorem binary_known {operator : Token} (h : operator.OneOf Expr.binaryOperators)
    {left right : Value} {fault : RuntimeFault}
    (hfault : binary operator left right = .error fault) : fault.Known := by
  have hnumbers : ∀ {g : Float → Float → Value},
      onNumbers left right (fun a b => .ok (g a b)) = .error fault → fault.Known :=
    fun h => onNumbers_known h nofun
  obtain ⟨s, hs, hkind⟩ := h
  unfold binary at hfault
  split at hfault
  · exact add_known hfault
  · exact hnumbers hfault
  · exact hnumbers hfault
  · exact onNumbers_known hfault fun _ _ _ => divide_known
  · exact hnumbers hfault
  · exact hnumbers hfault
  · exact hnumbers hfault
  · exact hnumbers hfault
  · cases hfault
  · cases hfault
  · simp_all [Expr.binaryOperators]

end Operation

theorem wellFormed_inherited :
    Inherited Expr.WellFormed Stmt.WellFormed fun fault _ => fault.Known where
  group := by
    intro _ h
    cases h with
    | group hinner => exact hinner
  unary := by
    intro _ _ h
    cases h with
    | unary hoperator hright _ => exact ⟨hright, fun _ _ => Operation.unary_known hoperator⟩
  binary := by
    intro _ _ _ h
    cases h with
    | binary hoperator hleft _ hright _ =>
      exact ⟨hleft, hright, fun _ _ _ => Operation.binary_known hoperator⟩
  logical := by
    intro _ _ _ h
    cases h with
    | logical _ hleft _ hright _ => exact ⟨hleft, hright⟩
  reference := fun _ => ⟨nofun, nofun⟩
  assign := by
    intro _ _ h
    cases h with
    | assign _ hvalue => exact ⟨hvalue, nofun, nofun⟩
  call := by
    intro _ _ _ h
    cases h with
    | call hcallee _ harguments =>
      exact ⟨hcallee, harguments, ⟨nofun, nofun⟩, fun _ _ => ⟨nofun, nofun⟩⟩
  expression := by
    intro _ h
    cases h with
    | expression hvalue => exact hvalue
  print := by
    intro _ h
    cases h with
    | print hvalue => exact hvalue
  varDecl := by
    intro _ _ h
    cases h with
    | varDecl _ hinitial => exact hinitial
  block := by
    intro _ h
    cases h with
    | block hbody => exact hbody
  ifElse := by
    intro _ _ _ h
    cases h with
    | ifElse hcondition hthen helse => exact ⟨hcondition, hthen, helse⟩
  whileLoop := by
    intro _ _ h
    cases h with
    | whileLoop hcondition hbody => exact ⟨hcondition, hbody⟩
  funDecl := by
    intro _ h
    cases h with
    | funDecl hdeclaration =>
      cases hdeclaration with
      | mk _ _ hbody => exact hbody
  returnValue := by
    intro _ _ h
    cases h with
    | returnValue hvalue => exact hvalue

namespace Session

/-! ## Units -/

/-- A finished run left functions that have `S`, and a failure it came to is allowed. -/
theorem carried_finish {α : Type} {S : Stmt → Prop} {F : RuntimeFault → Nat → Prop} {P : α → Prop}
    {m : Run α} {s : State} {f : Finished α} (h : Run.Carried S F P (m s))
    (hfinish : m.finish s = some f) :
    f.state.heap.Every (Value.Runs S) ∧
      ∀ failure, f.result = .error failure → Run.Allowed F (.failure failure) := by
  unfold Run.finish at hfinish
  split at hfinish
  · next hok =>
    cases hfinish
    rw [hok] at h
    exact ⟨h.1, nofun⟩
  · next failure _ herror =>
    cases hfinish
    rw [herror] at h
    refine ⟨h.1, ?_⟩
    rintro _ ⟨⟩
    exact h.2
  · cases hfinish

/-- What the code of a unit and of the heap has in all its parts, the heap has after the unit. A
runtime report tells of a fault that is allowed. -/
theorem run_inherits {E : Expr → Prop} {S : Stmt → Prop} {F : RuntimeFault → Nat → Prop}
    (code : Inherited E S F) {fuel : Nat} {s t : State} {source : String} {ds : Diagnostics}
    (htree : ∀ statement ∈ (Reading.program source).tree, S statement)
    (hs : s.heap.Every (Value.Runs S)) (hrun : run fuel s source = some (ds, t)) :
    t.heap.Every (Value.Runs S) ∧
      ∀ message line, .runtime message line ∈ ds →
        ∃ fault : RuntimeFault, fault.message = message ∧ F fault line := by
  by_cases hreading : (Reading.program source).diagnostics = []
  · rw [run_accepted hreading] at hrun
    obtain ⟨⟨result, _⟩, hfinish, hrun⟩ := Option.map_eq_some_iff.1 hrun
    cases hrun
    obtain ⟨ht, hallowed⟩ := carried_finish (code.interpret fuel htree s hs) hfinish
    refine ⟨ht, ?_⟩
    intro message line hmem
    cases result with
    | ok _ => cases hmem
    | error failure =>
      have hfailure := hallowed failure rfl
      cases failure with
      | runtime fault at_ =>
        cases List.mem_singleton.1 hmem
        exact ⟨fault, rfl, hfailure⟩
      | sink fault => cases List.mem_singleton.1 hmem
  · rw [run_rejected hreading] at hrun
    cases hrun
    refine ⟨hs, ?_⟩
    intro message line hmem
    cases (reading_aboutText source).isSyntax _ hmem

theorem Reaches.inherits {E : Expr → Prop} {S : Stmt → Prop} {F : RuntimeFault → Nat → Prop}
    (code : Inherited E S F)
    (htrees : ∀ source, ∀ statement ∈ (Reading.program source).tree, S statement) {sink : Sink}
    {s : State} (h : Reaches (.initial sink) s) : s.heap.Every (Value.Runs S) := by
  induction h with
  | start => exact Heap.every_empty
  | unit _ hrun ih => exact (run_inherits code (htrees _) ih hrun).1

/-- Whatever is parsed is well formed, with faults or without, so that no unit of a session ends at
an operator that has no meaning. -/
theorem parsed_wellFormed :
    (∀ ts : List Token, (∀ statement ∈ (Grammar.program ts).tree, statement.WellFormed) ∧
      ∀ e ∈ (Grammar.soleExpression ts).tree, e.WellFormed) ∧
    ∀ (sink : Sink) (s : State), Reaches (.initial sink) s →
      ∀ (fuel : Nat) (source : String) (ds : Diagnostics) (t : State),
        run fuel s source = some (ds, t) → ∀ line : Nat,
          .runtime "Unknown unary operator." line ∉ ds ∧
          .runtime "Unknown binary operator." line ∉ ds := by
  have htrees : ∀ source, ∀ statement ∈ (Reading.program source).tree, statement.WellFormed :=
    fun source => Grammar.program_wellFormed (Scan.tokens source)
  constructor
  · exact fun ts => ⟨Grammar.program_wellFormed ts, Grammar.soleExpression_wellFormed ts⟩
  · intro sink s hreach fuel source ds t hrun line
    have hfaults := (run_inherits wellFormed_inherited (htrees source)
      (hreach.inherits wellFormed_inherited htrees) hrun).2
    have hunknown : ∀ message ∈ RuntimeFault.unknownMessages, .runtime message line ∉ ds := by
      intro message hmessage hmem
      obtain ⟨fault, rfl, hknown⟩ := hfaults message line hmem
      exact hknown.message hmessage
    exact ⟨hunknown _ List.mem_cons_self, hunknown _ (List.mem_cons_of_mem _ List.mem_cons_self)⟩

/-- A sum, which cannot be assigned to but is kept. -/
def assignedSum : String := "-a+b=c;"

def declaringNegation : String := "fun f(a)\x7breturn -a;\x7d"

def negatingNothing : String := "f(nil);"

theorem tokens_assignedSum : Scan.tokens assignedSum =
    [⟨.symbol .minus, "-", 1⟩, ⟨.symbol .identifier, "a", 1⟩, ⟨.symbol .plus, "+", 1⟩,
      ⟨.symbol .identifier, "b", 1⟩, ⟨.symbol .equal, "=", 1⟩, ⟨.symbol .identifier, "c", 1⟩,
      ⟨.symbol .semicolon, ";", 1⟩, .endOfInput 1] := by
  have hchars : assignedSum.toList = ['-', 'a', '+', 'b', '=', 'c', ';'] := by decide
  rw [Scan.tokens, Scan.items, hchars]
  rfl

theorem reading_declaringNegation : Reading.program declaringNegation =
    ⟨[.funDecl ⟨⟨.symbol .identifier, "f", 1⟩, [⟨.symbol .identifier, "a", 1⟩],
      [.returnValue ⟨.symbol (.keyword .returnWord), "return", 1⟩
        (some (.unary ⟨.symbol .minus, "-", 1⟩ (.reference ⟨.symbol .identifier, "a", 1⟩)))]⟩],
      []⟩ := by
  have hchars : declaringNegation.toList = ['f', 'u', 'n', ' ', 'f', '(', 'a', ')', '{', 'r', 'e',
      't', 'u', 'r', 'n', ' ', '-', 'a', ';', '}'] := by decide
  rw [Reading.program, Reading.ofSource, Scan.tokens, Scan.reports, Scan.items, hchars]
  rfl

theorem reading_negatingNothing : Reading.program negatingNothing =
    ⟨[.expression (.call (.reference ⟨.symbol .identifier, "f", 1⟩)
      ⟨.symbol .rightParen, ")", 1⟩ [.literal .nil])], []⟩ := by
  have hchars : negatingNothing.toList = ['f', '(', 'n', 'i', 'l', ')', ';'] := by decide
  rw [Reading.program, Reading.ofSource, Scan.tokens, Scan.reports, Scan.items, hchars]
  rfl

/-- A tree with a fault, and a function of an earlier unit that stops at its operand and not at its
operator. -/
theorem negation_known :
    ((Grammar.program (Scan.tokens assignedSum)).faults ≠ [] ∧
      (Grammar.program (Scan.tokens assignedSum)).tree = [.expression (.binary
        (.unary ⟨.symbol .minus, "-", 1⟩ (.reference ⟨.symbol .identifier, "a", 1⟩))
        ⟨.symbol .plus, "+", 1⟩ (.reference ⟨.symbol .identifier, "b", 1⟩))] ∧
      ∀ statement ∈ (Grammar.program (Scan.tokens assignedSum)).tree, statement.WellFormed) ∧
    ∃ s t : State, ∃ ds : Diagnostics, Reaches (.initial .unlimited) s ∧
      run 10 s negatingNothing = some (ds, t) ∧
      ds = [.runtime "Operand must be a number." 1] ∧
      .runtime "Unknown unary operator." 1 ∉ ds := by
  refine ⟨⟨?_, ?_, (parsed_wellFormed.1 _).1⟩, ?_⟩
  · rw [tokens_assignedSum]
    exact List.cons_ne_nil _ _
  · rw [tokens_assignedSum]
    rfl
  · have hruns : ∃ s t, run 10 (.initial .unlimited) declaringNegation = some ([], s) ∧
        run 10 s negatingNothing = some ([.runtime "Operand must be a number." 1], t) := by
      simp only [run, reading_declaringNegation, reading_negatingNothing]
      exact ⟨_, _, rfl, rfl⟩
    obtain ⟨s, t, hdeclared, hcalled⟩ := hruns
    have hreach : Reaches (.initial .unlimited) s := .unit .start hdeclared
    exact ⟨s, t, _, hreach, hcalled, rfl,
      (parsed_wellFormed.2 .unlimited s hreach _ _ _ _ hcalled 1).1⟩

end Session

end TreeWalk
