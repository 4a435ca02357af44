import TreeWalk.Proofs.Machine.Leaves
import TreeWalk.Proofs.Machine.ScopeTree

/-!
Properties that code has in all its parts, and what they keep from happening. A function in a scope
is code that was executed some time before, so that the property is carried by the heap: if all code
that is there has it, the code that runs always does, and stops only with faults that it allows.
-/

namespace TreeWalk

/-- All parts of an expression with `E` have `E`, all parts of a statement with `S` have `E` or `S`,
and an expression with `E` itself stops only with faults, at their lines, that `F` allows. -/
structure Inherited (E : Expr → Prop) (S : Stmt → Prop) (F : RuntimeFault → Nat → Prop) :
    Prop where
  group : ∀ {inner : Expr}, E (.group inner) → E inner
  unary : ∀ {operator : Token} {right : Expr}, E (.unary operator right) → E right ∧
    ∀ value fault, Operation.unary operator value = .error fault → F fault operator.line
  binary : ∀ {left : Expr} {operator : Token} {right : Expr}, E (.binary left operator right) →
    E left ∧ E right ∧
    ∀ value other fault, Operation.binary operator value other = .error fault →
      F fault operator.line
  logical : ∀ {left : Expr} {operator : Token} {right : Expr}, E (.logical left operator right) →
    E left ∧ E right
  reference : ∀ {name : Token}, E (.reference name) → F (.undefined name.lexeme) name.line
  assign : ∀ {name : Token} {value : Expr}, E (.assign name value) →
    E value ∧ F (.undefined name.lexeme) name.line
  call : ∀ {callee : Expr} {paren : Token} {arguments : List Expr},
    E (.call callee paren arguments) → E callee ∧ (∀ e ∈ arguments, E e) ∧
    F .notCallable paren.line ∧ ∀ expected got, F (.arity expected got) paren.line
  expression : ∀ {value : Expr}, S (.expression value) → E value
  print : ∀ {value : Expr}, S (.print value) → E value
  varDecl : ∀ {name : Token} {initial : Option Expr}, S (.varDecl name initial) →
    ∀ e ∈ initial, E e
  block : ∀ {body : List Stmt}, S (.block body) → ∀ s ∈ body, S s
  ifElse : ∀ {condition : Expr} {thenBranch : Stmt} {elseBranch : Option Stmt},
    S (.ifElse condition thenBranch elseBranch) →
    E condition ∧ S thenBranch ∧ ∀ s ∈ elseBranch, S s
  whileLoop : ∀ {condition : Expr} {body : Stmt}, S (.whileLoop condition body) →
    E condition ∧ S body
  funDecl : ∀ {declaration : FunDecl}, S (.funDecl declaration) → ∀ s ∈ declaration.body, S s
  returnValue : ∀ {keyword : Token} {value : Option Expr}, S (.returnValue keyword value) →
    ∀ e ∈ value, E e

/-! ## Values in scopes -/

/-- The value is no function, or one whose body has `S`. -/
def Value.Runs (S : Stmt → Prop) (v : Value) : Prop :=
  ∀ f, v = .function f → ∀ s ∈ f.declaration.body, S s

namespace Heap

/-- All values in all scopes have `P`. -/
def Every (P : Value → Prop) (h : Heap) : Prop :=
  ∀ (i : ScopeId) (scope : Scope), h.scopes[i]? = some scope → ∀ b ∈ scope.bindings, P b.2

variable {P : Value → Prop} {h : Heap}

theorem every_empty : empty.Every P := by
  intro i scope hi b hb
  cases i with
  | zero =>
    cases hi
    cases hb
  | succ i => simp [empty] at hi

theorem Every.define (hh : h.Every P) (s : ScopeId) (name : String) {value : Value}
    (hvalue : P value) : (h.define s name value).Every P := by
  intro i scope hi b hb
  rw [getElem?_define] at hi
  split at hi
  · obtain ⟨old, hold, rfl⟩ := Option.map_eq_some_iff.1 hi
    rcases Scope.mem_put hb with rfl | hb
    · exact hvalue
    · exact hh i old hold b hb
  · exact hh i scope hi b hb

theorem Every.addScope (hh : h.Every P) (outer : ScopeId) {bindings : List (String × Value)}
    (hbindings : ∀ b ∈ bindings, P b.2) : (h.addScope outer bindings).Every P := by
  intro i scope hi b hb
  rw [getElem?_addScope] at hi
  split at hi
  · cases hi
    exact hbindings b hb
  · exact hh i scope hi b hb

theorem Every.get? (hh : h.Every P) {s : ScopeId} {name : String} {value : Value}
    (hget : h.get? s name = some value) : P value := by
  unfold Heap.get? at hget
  obtain ⟨owner, _, hget⟩ := Option.bind_eq_some_iff.1 hget
  obtain ⟨scope, hscope, hlookup⟩ := Option.bind_eq_some_iff.1 hget
  exact hh owner scope hscope _ (Scope.mem_of_lookup hlookup)

end Heap

/-! ## What operations give -/

/-- The value is no function. -/
def Value.Plain : Value → Prop
  | .function _ => False
  | _ => True

theorem Value.plain_ofLiteral (literal : Literal) : (ofLiteral literal).Plain := by
  cases literal <;> exact trivial

theorem Value.Plain.runs {S : Stmt → Prop} {v : Value} (h : v.Plain) : v.Runs S := by
  rintro f rfl
  exact h.elim

namespace Operation

theorem unary_plain {operator : Token} {right value : Value}
    (h : unary operator right = .ok value) : value.Plain := by
  unfold unary at h
  split at h
  · split at h <;> cases h
    exact trivial
  · cases h
    exact trivial
  · cases h

theorem add_plain {left right value : Value} (h : add left right = .ok value) : value.Plain := by
  unfold add at h
  split at h <;> cases h <;> exact trivial

theorem onNumbers_plain {left right value : Value} {f : Float → Float → Except RuntimeFault Value}
    (h : onNumbers left right f = .ok value) (hf : ∀ a b v, f a b = .ok v → v.Plain) :
    value.Plain := by
  unfold onNumbers at h
  split at h
  · exact hf _ _ _ h
  · cases h

theorem divide_plain {a b : Float} {value : Value} (h : divide a b = .ok value) :
    value.Plain := by
  unfold divide at h
  split at h <;> cases h
  exact trivial

theorem binary_plain {operator : Token} {left right value : Value}
    (h : binary operator left right = .ok value) : value.Plain := by
  have hnumbers : ∀ {g : Float → Float → Value},
      onNumbers left right (fun a b => .ok (g a b)) = .ok value → (∀ a b, (g a b).Plain) →
      value.Plain := fun h hg => onNumbers_plain h fun a b v hv => Except.ok.inj hv ▸ hg a b
  unfold binary at h
  split at h
  · exact add_plain h
  · exact hnumbers h fun _ _ => trivial
  · exact hnumbers h fun _ _ => trivial
  · exact onNumbers_plain h fun _ _ _ => divide_plain
  · exact hnumbers h fun _ _ => trivial
  · exact hnumbers h fun _ _ => trivial
  · exact hnumbers h fun _ _ => trivial
  · exact hnumbers h fun _ _ => trivial
  · cases h
    exact trivial
  · cases h
    exact trivial
  · cases h

end Operation

/-! ## Steps -/

namespace Run

variable {α β : Type} {S : Stmt → Prop} {F : RuntimeFault → Nat → Prop} {P : α → Prop}
  {Q : β → Prop}

/-- If the interrupt is a fault, it is allowed. -/
def Allowed (F : RuntimeFault → Nat → Prop) : Interrupt → Prop
  | .failure (.runtime fault line) => F fault line
  | _ => True

/-- A result with `P` or an allowed interrupt, and functions in scopes whose bodies have `S`. -/
def Carried (S : Stmt → Prop) (F : RuntimeFault → Nat → Prop) (P : α → Prop) :
    EStateM.Result Interrupt State α → Prop
  | .ok a t => t.heap.Every (Value.Runs S) ∧ P a
  | .error e t => t.heap.Every (Value.Runs S) ∧ Allowed F e

def Carries (S : Stmt → Prop) (F : RuntimeFault → Nat → Prop) (P : α → Prop) (m : Run α) : Prop :=
  ∀ s : State, s.heap.Every (Value.Runs S) → Carried S F P (m s)

theorem Carries.bind {m : Run α} {f : α → Run β} (hm : Carries S F P m)
    (hf : ∀ a, P a → Carries S F Q (f a)) : Carries S F Q (m >>= f) := by
  intro s hs
  have hfirst := hm s hs
  change Carried S F Q (EStateM.bind m f s)
  unfold EStateM.bind
  rcases hrun : m s with ⟨a, t⟩ | ⟨e, t⟩ <;> rw [hrun] at hfirst
  · obtain ⟨ht, ha⟩ := hfirst
    exact hf a ha t ht
  · exact hfirst

theorem carries_pure {a : α} (ha : P a) : Carries S F P (pure a) := fun _ hs => ⟨hs, ha⟩

theorem carries_outOfFuel : Carries S F P outOfFuel := fun _ hs => ⟨hs, trivial⟩

theorem carries_failAt {token : Token} {fault : RuntimeFault} (h : F fault token.line) :
    Carries S F P (failAt token fault) := fun _ hs => ⟨hs, h⟩

theorem carries_ofOperation {operator : Token} {result : Except RuntimeFault Value}
    (hplain : ∀ v, result = .ok v → v.Plain)
    (hfault : ∀ fault, result = .error fault → F fault operator.line) :
    Carries S F (Value.Runs S) (ofOperation operator result) := by
  cases result with
  | ok value => exact carries_pure (hplain value rfl).runs
  | error fault => exact carries_failAt (hfault fault rfl)

theorem carries_read {name : Token} (h : F (.undefined name.lexeme) name.line) :
    Carries S F (Value.Runs S) (read name) := by
  intro s hs
  unfold read
  cases hget : s.heap.get? s.active name.lexeme with
  | none => exact ⟨hs, h⟩
  | some value => exact ⟨hs, hs.get? hget⟩

theorem carries_define (name : Token) {value : Value} (hvalue : value.Runs S) :
    Carries S F (fun _ => True) (define name value) := fun s hs =>
  ⟨hs.define s.active name.lexeme hvalue, trivial⟩

theorem carries_assign {name : Token} {value : Value} (hvalue : value.Runs S)
    (h : F (.undefined name.lexeme) name.line) :
    Carries S F (fun _ => True) (assign name value) := by
  rintro ⟨heap, active, sink⟩ hs
  unfold assign
  dsimp only
  cases heap.owner? active name.lexeme with
  | none => exact ⟨hs, h⟩
  | some owner => exact ⟨hs.define owner name.lexeme hvalue, trivial⟩

theorem carries_declare {declaration : FunDecl} (h : ∀ s ∈ declaration.body, S s) :
    Carries S F (fun _ => True) (declare declaration) := by
  rintro ⟨heap, active, sink⟩ hs
  have hcounted : Heap.Every (Value.Runs S) { heap with functions := heap.functions + 1 } := hs
  refine ⟨hcounted.define active _ ?_, trivial⟩
  rintro f ⟨⟩
  exact h

theorem carries_printLine (text : String) : Carries S F (fun _ => True) (printLine text) := by
  rintro ⟨heap, active, sink⟩ hs
  unfold printLine
  dsimp only
  cases sink.fits (text ++ "\n").toUTF8 <;> exact ⟨hs, trivial⟩

theorem carries_flush : Carries S F (fun _ => True) flush := by
  intro s hs
  unfold flush
  split <;> exact ⟨hs, trivial⟩

theorem Carries.inside {body : Run α} (hbody : Carries S F P body) (outer : ScopeId)
    {bindings : List (String × Value)} (hbindings : ∀ b ∈ bindings, b.2.Runs S) :
    Carries S F P (inside outer bindings body) := by
  rintro ⟨heap, active, sink⟩ hs
  have hrun := hbody ⟨heap.addScope outer bindings, heap.nextScope, sink⟩
    (hs.addScope outer hbindings)
  unfold Run.inside within
  dsimp only
  rcases hresult : body ⟨heap.addScope outer bindings, heap.nextScope, sink⟩ with
    ⟨a, t⟩ | ⟨e, t⟩ <;> rw [hresult] at hrun <;> exact hrun

theorem Carries.nested {body : Run α} (hbody : Carries S F P body) :
    Carries S F P (nested body) := fun s hs => hbody.inside s.active (by simp) s hs

end Run

open Run

/-! ## Runs -/

/-- The value on its way to a call, if there is one, has the property of values. -/
def Flow.Runs (S : Stmt → Prop) : Flow → Prop
  | .normal => True
  | .returned value => value.Runs S

/-- What every rule with the given fuel carries, on code with the properties. -/
structure RunsCarry (E : Expr → Prop) (S : Stmt → Prop) (F : RuntimeFault → Nat → Prop)
    (fuel : Nat) : Prop where
  evaluate : ∀ e, E e → Carries S F (Value.Runs S) (evaluate fuel e)
  evaluateAll : ∀ es, (∀ e ∈ es, E e) →
    Carries S F (fun values => ∀ v ∈ values, v.Runs S) (evaluateAll fuel es)
  call : ∀ (function : Function) (values : List Value), (Value.function function).Runs S →
    (∀ v ∈ values, v.Runs S) → Carries S F (Value.Runs S) (call fuel function values)
  execute : ∀ s, S s → Carries S F (Flow.Runs S) (execute fuel s)
  executeAll : ∀ ss, (∀ s ∈ ss, S s) → Carries S F (Flow.Runs S) (executeAll fuel ss)

section

variable {E : Expr → Prop} {S : Stmt → Prop} {F : RuntimeFault → Nat → Prop} {fuel : Nat}
  (ih : RunsCarry E S F fuel)
include ih

theorem evaluateAll_carries (es : List Expr) (hes : ∀ e ∈ es, E e) :
    Carries S F (fun values => ∀ v ∈ values, v.Runs S) (evaluateAll (fuel + 1) es) := by
  cases es with
  | nil =>
    rw [evaluateAll]
    exact carries_pure (by simp)
  | cons e es =>
    obtain ⟨he, hes⟩ := List.forall_mem_cons.1 hes
    rw [evaluateAll]
    refine (ih.evaluate e he).bind fun value hvalue => ?_
    refine (ih.evaluateAll es hes).bind fun values hvalues => ?_
    exact carries_pure (List.forall_mem_cons.2 ⟨hvalue, hvalues⟩)

theorem call_carries (function : Function) (values : List Value)
    (hfunction : (Value.function function).Runs S) (hvalues : ∀ v ∈ values, v.Runs S) :
    Carries S F (Value.Runs S) (call (fuel + 1) function values) := by
  have hbody := ih.executeAll function.declaration.body (hfunction function rfl)
  rw [call]
  refine (hbody.inside function.closure (Scope.mem_putAll _ hvalues)).bind fun flow hflow => ?_
  cases flow with
  | returned value => exact carries_pure hflow
  | normal => exact carries_pure (Value.Plain.runs trivial)

theorem executeAll_carries (ss : List Stmt) (hss : ∀ s ∈ ss, S s) :
    Carries S F (Flow.Runs S) (executeAll (fuel + 1) ss) := by
  cases ss with
  | nil =>
    rw [executeAll]
    exact carries_pure trivial
  | cons s ss =>
    obtain ⟨hs, hss⟩ := List.forall_mem_cons.1 hss
    rw [executeAll]
    refine (ih.execute s hs).bind fun flow hflow => ?_
    cases flow with
    | returned value => exact carries_pure hflow
    | normal => exact ih.executeAll ss hss

variable (code : Inherited E S F)
include code

theorem evaluate_carries (e : Expr) (he : E e) :
    Carries S F (Value.Runs S) (evaluate (fuel + 1) e) := by
  cases e with
  | literal value =>
    rw [evaluate]
    exact carries_pure (Value.plain_ofLiteral value).runs
  | group inner =>
    rw [evaluate]
    exact ih.evaluate inner (code.group he)
  | unary operator right =>
    obtain ⟨hright, hfault⟩ := code.unary he
    rw [evaluate]
    refine (ih.evaluate right hright).bind fun value _ => ?_
    exact carries_ofOperation (fun _ => Operation.unary_plain) (hfault value)
  | binary left operator right =>
    obtain ⟨hleft, hright, hfault⟩ := code.binary he
    rw [evaluate]
    refine (ih.evaluate left hleft).bind fun value _ => ?_
    refine (ih.evaluate right hright).bind fun other _ => ?_
    exact carries_ofOperation (fun _ => Operation.binary_plain) (hfault value other)
  | logical left operator right =>
    obtain ⟨hleft, hright⟩ := code.logical he
    rw [evaluate]
    refine (ih.evaluate left hleft).bind fun value hvalue => ?_
    split
    · exact carries_pure hvalue
    · exact ih.evaluate right hright
  | reference name =>
    rw [evaluate]
    exact carries_read (code.reference he)
  | assign name value =>
    obtain ⟨hvalue, hfault⟩ := code.assign he
    rw [evaluate]
    refine (ih.evaluate value hvalue).bind fun value hvalue => ?_
    exact (carries_assign hvalue hfault).bind fun _ _ => carries_pure hvalue
  | call callee paren arguments =>
    obtain ⟨hcallee, harguments, hnot, harity⟩ := code.call he
    rw [evaluate]
    refine (ih.evaluate callee hcallee).bind fun callee hcallee => ?_
    refine (ih.evaluateAll arguments harguments).bind fun values hvalues => ?_
    cases callee with
    | function function =>
      dsimp only
      split
      · exact ih.call function values hcallee hvalues
      · exact carries_failAt (harity _ _)
    | _ => exact carries_failAt hnot

theorem execute_carries (s : Stmt) (hs : S s) :
    Carries S F (Flow.Runs S) (execute (fuel + 1) s) := by
  have hdone : Carries S F (Flow.Runs S) (pure .normal) := carries_pure trivial
  have hnil : Value.nil.Runs S := Value.Plain.runs trivial
  cases s with
  | expression value =>
    rw [execute]
    exact (ih.evaluate value (code.expression hs)).bind fun _ _ => hdone
  | print value =>
    rw [execute]
    refine (ih.evaluate value (code.print hs)).bind fun value _ => ?_
    exact (carries_printLine value.text).bind fun _ _ => hdone
  | varDecl name initial =>
    cases initial with
    | none =>
      rw [execute]
      exact (carries_define name hnil).bind fun _ _ => hdone
    | some initial =>
      rw [execute]
      refine (ih.evaluate initial (code.varDecl hs initial rfl)).bind fun value hvalue => ?_
      exact (carries_define name hvalue).bind fun _ _ => hdone
  | block body =>
    rw [execute]
    exact (ih.executeAll body (code.block hs)).nested
  | ifElse condition thenBranch elseBranch =>
    obtain ⟨hcondition, hthen, helse⟩ := code.ifElse hs
    rw [execute_ifElse]
    refine (ih.evaluate condition hcondition).bind fun test _ => ?_
    split
    · exact ih.execute thenBranch hthen
    · cases elseBranch with
      | none => exact hdone
      | some elseBranch => exact ih.execute elseBranch (helse elseBranch rfl)
  | whileLoop condition body =>
    obtain ⟨hcondition, hbody⟩ := code.whileLoop hs
    rw [execute]
    refine (ih.evaluate condition hcondition).bind fun test _ => ?_
    split
    · refine (ih.execute body hbody).bind fun flow hflow => ?_
      cases flow with
      | returned value => exact carries_pure hflow
      | normal => exact ih.execute (.whileLoop condition body) hs
    · exact hdone
  | funDecl declaration =>
    rw [execute]
    exact (carries_declare (code.funDecl hs)).bind fun _ _ => hdone
  | returnValue keyword value =>
    cases value with
    | none =>
      rw [execute]
      exact carries_pure hnil
    | some value =>
      rw [execute]
      refine (ih.evaluate value (code.returnValue hs value rfl)).bind fun value hvalue => ?_
      exact carries_pure hvalue
  | classDecl name superclass methods =>
    rw [execute]
    exact (carries_define name hnil).bind fun _ _ => hdone

end

theorem Inherited.runs {E : Expr → Prop} {S : Stmt → Prop} {F : RuntimeFault → Nat → Prop}
    (code : Inherited E S F) (fuel : Nat) : RunsCarry E S F fuel := by
  induction fuel with
  | zero =>
    constructor <;> intros
    all_goals exact carries_outOfFuel
  | succ fuel ih =>
    exact ⟨evaluate_carries ih code, evaluateAll_carries ih, call_carries ih,
      execute_carries ih code, executeAll_carries ih⟩

theorem Inherited.interpret {E : Expr → Prop} {S : Stmt → Prop} {F : RuntimeFault → Nat → Prop}
    (code : Inherited E S F) (fuel : Nat) {program : List Stmt} (h : ∀ s ∈ program, S s) :
    Carries S F (fun _ => True) (interpret fuel program) :=
  ((code.runs fuel).executeAll program h).bind fun _ _ => carries_flush

end TreeWalk
