import TreeWalk.Proofs.Machine.Calls
import TreeWalk.Proofs.Machine.Correspondence
import TreeWalk.Proofs.Machine.Noninterference

/-!
Runs that go on in corresponding heaps. From counterparts, a statement runs alike in both. From
scopes that are counterparts but for gaps so do expressions and statements that declare nothing;
a declaration would be bound in the gap.
-/

namespace TreeWalk

/-- States with corresponding heaps and one output, each with its own active scope. -/
inductive State.Alike (w : Matching) (a b : ScopeId) : State → State → Prop
  | intro {h k : Heap} {sink : Sink} : h.Alike w k → Alike w a b ⟨h, a, sink⟩ ⟨k, b, sink⟩

namespace Run

variable {α β γ δ : Type}

/-- Both runs came to corresponding results or to one failure, and new scopes are matched too. -/
inductive EndsAlike (w : Matching) (a b : ScopeId) (V : Matching → α → β → Prop) :
    EStateM.Result Interrupt State α → EStateM.Result Interrupt State β → Prop
  | ok {x : Matching} {u : α} {v : β} {s t : State} : w.Grows x → V x u v → s.Alike x a b t →
    EndsAlike w a b V (.ok u s) (.ok v t)
  | error {x : Matching} (e : Interrupt) {s t : State} : w.Grows x → s.Alike x a b t →
    EndsAlike w a b V (.error e s) (.error e t)

/-- Wherever more than `w` is matched, both runs end alike. -/
def Parallel (w : Matching) (a b : ScopeId) (V : Matching → α → β → Prop) (m : Run α)
    (n : Run β) : Prop :=
  ∀ x, w.Grows x → ∀ s t, s.Alike x a b t → EndsAlike x a b V (m s) (n t)

variable {w : Matching} {a b : ScopeId} {V : Matching → α → β → Prop}
  {W : Matching → γ → δ → Prop}

theorem EndsAlike.weaken {x : Matching} {r : EStateM.Result Interrupt State α}
    {q : EStateM.Result Interrupt State β} (h : EndsAlike x a b V r q) (hw : w.Grows x) :
    EndsAlike w a b V r q := by
  cases h with
  | ok hgrows hV hst => exact .ok (hw.trans hgrows) hV hst
  | error e hgrows hst => exact .error e (hw.trans hgrows) hst

/-- What comes second starts with all that is matched after the first. -/
theorem Parallel.bind {m : Run α} {n : Run β} {f : α → Run γ} {g : β → Run δ}
    (hm : Parallel w a b V m n)
    (hf : ∀ x, w.Grows x → ∀ u v, V x u v → Parallel x a b W (f u) (g v)) :
    Parallel w a b W (m >>= f) (n >>= g) := by
  intro x hx s t hst
  have hrun := hm x hx s t hst
  change EndsAlike x a b W (EStateM.bind m f s) (EStateM.bind n g t)
  unfold EStateM.bind
  generalize m s = r, n t = q at hrun
  cases hrun with
  | @ok y u v s' t' hy hV hst =>
    exact (hf y (hx.trans hy) u v hV y (.refl y) s' t' hst).weaken hy
  | error e hy hst => exact .error e hy hst

theorem Parallel.ite {p q : Prop} [Decidable p] [Decidable q] {m m' : Run α} {n n' : Run β}
    (hpq : p ↔ q) (hm : Parallel w a b V m n) (hm' : Parallel w a b V m' n') :
    Parallel w a b V (if p then m else m') (if q then n else n') := by
  by_cases hp : p
  · rw [if_pos hp, if_pos (hpq.mp hp)]
    exact hm
  · rw [if_neg hp, if_neg fun hq => hp (hpq.mpr hq)]
    exact hm'

theorem parallel_pure {u : α} {v : β} (huv : ∀ x, w.Grows x → V x u v) :
    Parallel w a b V (pure u) (pure v) := fun x hx _ _ hst => .ok (.refl x) (huv x hx) hst

theorem parallel_failAt (token : Token) (fault : RuntimeFault) :
    Parallel w a b V (failAt token fault) (failAt token fault) :=
  fun x _ _ _ hst => .error _ (.refl x) hst

theorem parallel_outOfFuel : Parallel w a b V outOfFuel outOfFuel :=
  fun x _ _ _ hst => .error _ (.refl x) hst

theorem parallel_value {u v : Value} (huv : u.Alike w v) :
    Parallel w a b Value.Alike (pure u) (pure v) := parallel_pure fun _ hx => huv.mono hx

/-- The results of operations hold no scope. -/
theorem parallel_ofOperation (operator : Token) {result : Except RuntimeFault Value}
    (hplain : ∀ value, result = .ok value → value.Plain) :
    Parallel w a b Value.Alike (ofOperation operator result) (ofOperation operator result) := by
  cases result with
  | ok value => exact parallel_value (hplain value rfl).alike
  | error fault => exact parallel_failAt operator fault

/-! ## The steps -/

theorem parallel_read (hab : w.Behind a b) (name : Token) :
    Parallel w a b Value.Alike (read name) (read name) := by
  rintro x hx _ _ ⟨hheap⟩
  unfold read
  obtain ⟨hu, hv⟩ | ⟨u, v, hu, hv, huv⟩ := rel_cases (hheap.get? name.lexeme (hab.mono hx))
  · simp only [hu, hv]
    exact .error _ (.refl x) ⟨hheap⟩
  · simp only [hu, hv]
    exact .ok (.refl x) huv ⟨hheap⟩

/-- Runs for their effects. -/
abbrev Done : Matching → Unit → Unit → Prop := fun _ _ _ => True

theorem parallel_define (hab : w.pair a b) (name : Token) {u v : Value} (huv : u.Alike w v) :
    Parallel w a b Done (define name u) (define name v) := by
  rintro x hx _ _ ⟨hheap⟩
  exact .ok (.refl x) trivial ⟨hheap.define (hx.pair a b hab) name.lexeme (huv.mono hx)⟩

theorem parallel_assign (hab : w.Behind a b) (name : Token) {u v : Value} (huv : u.Alike w v) :
    Parallel w a b Done (assign name u) (assign name v) := by
  rintro x hx _ _ ⟨hheap⟩
  unfold assign
  obtain ⟨hi, hj⟩ | ⟨i, j, hi, hj, hij⟩ := rel_cases (hheap.owner? name.lexeme (hab.mono hx))
  · simp only [hi, hj]
    exact .error _ (.refl x) ⟨hheap⟩
  · simp only [hi, hj]
    exact .ok (.refl x) trivial ⟨hheap.define hij name.lexeme (huv.mono hx)⟩

theorem parallel_declare (hab : w.pair a b) (declaration : FunDecl) :
    Parallel w a b Done (declare declaration) (declare declaration) := by
  rintro x hx _ _ ⟨hheap⟩
  exact .ok (.refl x) trivial ⟨hheap.declare (hx.pair a b hab) declaration⟩

theorem parallel_printLine (text : String) :
    Parallel w a b Done (printLine text) (printLine text) := by
  rintro x hx _ _ ⟨hheap⟩
  unfold printLine
  dsimp only
  split
  · exact .ok (.refl x) trivial ⟨hheap⟩
  · exact .error _ (.refl x) ⟨hheap⟩

/-- The new scopes are counterparts, so the bodies may declare what they like. -/
theorem parallel_inside {i j : ScopeId} (hij : w.Behind i j) {bs cs : List (String × Value)}
    (hbs : Scope.AlikeBindings w bs cs) {m : Run α} {n : Run β}
    (hmn : ∀ x c d, w.Grows x → x.pair c d → Parallel x c d V m n) :
    Parallel w a b V (inside i bs m) (inside j cs n) := by
  rintro x hx _ _ @⟨h, k, sink, hheap⟩
  have hgrows := x.grows_addPair h.nextScope k.nextScope
  have hrun := hmn _ h.nextScope k.nextScope (hx.trans hgrows) (.inr ⟨rfl, rfl⟩) _ (.refl _)
    ⟨h.addScope i bs, h.nextScope, sink⟩ ⟨k.addScope j cs, k.nextScope, sink⟩
    ⟨hheap.addPair (hij.mono hx) (hbs.mono hx)⟩
  unfold inside within
  dsimp only
  generalize m ⟨h.addScope i bs, h.nextScope, sink⟩ = r,
    n ⟨k.addScope j cs, k.nextScope, sink⟩ = q at hrun
  cases hrun with
  | ok hy hV hst =>
    obtain ⟨hheap⟩ := hst
    exact .ok (hgrows.trans hy) hV ⟨hheap⟩
  | error e hy hst =>
    obtain ⟨hheap⟩ := hst
    exact .error e (hgrows.trans hy) ⟨hheap⟩

end Run

open Run

/-- Flows that return corresponding values. -/
abbrev Flow.Alike (w : Matching) : Flow → Flow → Prop := Flow.Rel (Value.Alike w)

/-- The statement may run in these scopes: they are counterparts, or it declares nothing in them. -/
def Stmt.Fits (w : Matching) (a b : ScopeId) (s : Stmt) : Prop :=
  w.pair a b ∨ w.Behind a b ∧ s.Undeclaring

namespace Stmt.Fits

variable {w x : Matching} {a b : ScopeId}

theorem mono {s : Stmt} (h : s.Fits w a b) (hx : w.Grows x) : s.Fits x a b :=
  h.imp (hx.pair a b) fun ⟨hab, hs⟩ => ⟨hab.mono hx, hs⟩

theorem behind {s : Stmt} (h : s.Fits w a b) : w.Behind a b :=
  h.elim .pair And.left

theorem thenBranch {condition : Expr} {thenBranch : Stmt} {elseBranch : Option Stmt}
    (h : (Stmt.ifElse condition thenBranch elseBranch).Fits w a b) : thenBranch.Fits w a b := by
  refine h.imp id fun ⟨hab, hs⟩ => ⟨hab, ?_⟩
  cases hs with
  | ifElse _ hthen _ => exact hthen

theorem elseBranch {condition : Expr} {thenBranch elseBranch : Stmt}
    (h : (Stmt.ifElse condition thenBranch (some elseBranch)).Fits w a b) :
    elseBranch.Fits w a b := by
  refine h.imp id fun ⟨hab, hs⟩ => ⟨hab, ?_⟩
  cases hs with
  | ifElse _ _ helse => exact helse elseBranch rfl

theorem body {condition : Expr} {body : Stmt}
    (h : (Stmt.whileLoop condition body).Fits w a b) : body.Fits w a b := by
  refine h.imp id fun ⟨hab, hs⟩ => ⟨hab, ?_⟩
  cases hs with
  | whileLoop _ hbody => exact hbody

end Stmt.Fits

/-- With this fuel runs go on in parallel, from any scopes that correspond well enough. -/
structure RunsParallel (fuel : Nat) : Prop where
  evaluate : ∀ (e : Expr) {w : Matching} {a b : ScopeId}, w.Behind a b →
    Parallel w a b Value.Alike (evaluate fuel e) (evaluate fuel e)
  evaluateAll : ∀ (es : List Expr) {w : Matching} {a b : ScopeId}, w.Behind a b →
    Parallel w a b (fun x => List.Forall₂ (Value.Alike x)) (evaluateAll fuel es)
      (evaluateAll fuel es)
  call : ∀ {f g : Function} {us vs : List Value} {w : Matching} (a b : ScopeId),
    (Value.function f).Alike w (.function g) → List.Forall₂ (Value.Alike w) us vs →
    Parallel w a b Value.Alike (call fuel f us) (call fuel g vs)
  execute : ∀ (s : Stmt) {w : Matching} {a b : ScopeId}, s.Fits w a b →
    Parallel w a b Flow.Alike (execute fuel s) (execute fuel s)
  executeAll : ∀ (ss : List Stmt) {w : Matching} {a b : ScopeId}, w.pair a b →
    Parallel w a b Flow.Alike (executeAll fuel ss) (executeAll fuel ss)

section

variable {fuel : Nat} (ih : RunsParallel fuel) {w : Matching} {a b : ScopeId}
include ih

theorem call_parallel {f g : Function} {us vs : List Value} (a b : ScopeId)
    (hfg : (Value.function f).Alike w (.function g)) (hus : List.Forall₂ (Value.Alike w) us vs) :
    Parallel w a b Value.Alike (call (fuel + 1) f us) (call (fuel + 1) g vs) := by
  cases hfg with
  | function id declaration hij =>
    have hnone : Scope.AlikeBindings w [] [] := fun _ => .none
    have hbindings := Scope.alikeBindings_arguments declaration.params hus hnone
    rw [call, call]
    apply (parallel_inside (.pair hij) hbindings fun x c d _ hcd =>
      ih.executeAll declaration.body hcd).bind
    rintro x hx _ _ (_ | huv)
    · exact parallel_value .nil
    · exact parallel_value huv

theorem evaluate_parallel (e : Expr) (hab : w.Behind a b) :
    Parallel w a b Value.Alike (evaluate (fuel + 1) e) (evaluate (fuel + 1) e) := by
  cases e with
  | literal value =>
    rw [evaluate]
    exact parallel_value (Value.plain_ofLiteral value).alike
  | group inner =>
    rw [evaluate]
    exact ih.evaluate inner hab
  | unary operator right =>
    rw [evaluate]
    apply (ih.evaluate right hab).bind
    intro x hx u v huv
    rw [huv.unary_eq operator]
    exact parallel_ofOperation operator fun _ => Operation.unary_plain
  | binary left operator right =>
    rw [evaluate]
    apply (ih.evaluate left hab).bind
    intro x hx u v huv
    apply (ih.evaluate right (hab.mono hx)).bind
    intro y hy u' v' huv'
    rw [(huv.mono hy).binary_eq operator huv']
    exact parallel_ofOperation operator fun _ => Operation.binary_plain
  | logical left operator right =>
    rw [evaluate]
    apply (ih.evaluate left hab).bind
    intro x hx u v huv
    apply Parallel.ite (by rw [huv.decides_eq operator])
    · exact parallel_value huv
    · exact ih.evaluate right (hab.mono hx)
  | reference name =>
    rw [evaluate]
    exact parallel_read hab name
  | assign name value =>
    rw [evaluate]
    apply (ih.evaluate value hab).bind
    intro x hx u v huv
    apply (parallel_assign (hab.mono hx) name huv).bind
    intro y hy _ _ _
    exact parallel_value (huv.mono hy)
  | call callee paren arguments =>
    rw [evaluate_call]
    apply (ih.evaluate callee hab).bind
    intro x hx u v huv
    apply (ih.evaluateAll arguments (hab.mono hx)).bind
    intro y hy us vs hus
    cases huv with
    | function id declaration hij =>
      dsimp only [applied]
      rw [hus.length_eq]
      apply Parallel.ite Iff.rfl
      · exact ih.call a b (.function id declaration (hy.pair _ _ hij)) hus
      · exact parallel_failAt _ _
    | _ => exact parallel_failAt _ _

theorem evaluateAll_parallel (es : List Expr) (hab : w.Behind a b) :
    Parallel w a b (fun x => List.Forall₂ (Value.Alike x)) (evaluateAll (fuel + 1) es)
      (evaluateAll (fuel + 1) es) := by
  cases es with
  | nil =>
    rw [evaluateAll]
    exact parallel_pure fun _ _ => .nil
  | cons e es =>
    rw [evaluateAll]
    apply (ih.evaluate e hab).bind
    intro x hx u v huv
    apply (ih.evaluateAll es (hab.mono hx)).bind
    intro y hy us vs hus
    refine parallel_pure fun z hz => .cons (huv.mono (hy.trans hz)) ?_
    exact hus.imp fun _ _ h => h.mono hz

theorem execute_parallel (s : Stmt) (hs : s.Fits w a b) :
    Parallel w a b Flow.Alike (execute (fuel + 1) s) (execute (fuel + 1) s) := by
  have hab := hs.behind
  have hnormal : ∀ {x : Matching}, Parallel x a b Flow.Alike (pure .normal) (pure .normal) :=
    parallel_pure fun _ _ => .normal
  have hreturned : ∀ {x : Matching} {u v : Value}, u.Alike x v →
      Parallel x a b Flow.Alike (pure (.returned u)) (pure (.returned v)) :=
    fun huv => parallel_pure fun _ hy => .returned (huv.mono hy)
  -- A statement that declares runs in counterparts only.
  have hpair : ¬s.Undeclaring → w.pair a b := fun hne => hs.resolve_right fun h => hne h.2
  cases s with
  | expression value =>
    rw [execute]
    exact (ih.evaluate value hab).bind fun _ _ _ _ _ => hnormal
  | print value =>
    rw [execute]
    apply (ih.evaluate value hab).bind
    intro x hx u v huv
    rw [huv.text_eq]
    exact (parallel_printLine v.text).bind fun _ _ _ _ _ => hnormal
  | varDecl name initial =>
    have hdeclares : w.pair a b := hpair (by rintro ⟨⟩)
    cases initial with
    | none =>
      rw [execute]
      exact (parallel_define hdeclares name .nil).bind fun _ _ _ _ _ => hnormal
    | some initial =>
      rw [execute]
      apply (ih.evaluate initial hab).bind
      intro x hx u v huv
      exact (parallel_define (hx.pair a b hdeclares) name huv).bind fun _ _ _ _ _ => hnormal
  | block body =>
    have hnone : ∀ {x : Matching}, Scope.AlikeBindings x [] [] := fun _ => .none
    rw [execute]
    rintro x hx _ _ ⟨hheap⟩
    exact parallel_inside (hab.mono hx) hnone (fun y c d _ hcd => ih.executeAll body hcd) x
      (.refl x) _ _ ⟨hheap⟩
  | ifElse condition thenBranch elseBranch =>
    rw [execute_ifElse]
    apply (ih.evaluate condition hab).bind
    intro x hx u v huv
    apply Parallel.ite (by rw [huv.isTruthy_eq])
    · exact ih.execute thenBranch (hs.thenBranch.mono hx)
    · cases elseBranch with
      | none => exact hnormal
      | some elseBranch => exact ih.execute elseBranch (hs.elseBranch.mono hx)
  | whileLoop condition body =>
    rw [execute]
    apply (ih.evaluate condition hab).bind
    intro x hx u v huv
    apply Parallel.ite (by rw [huv.isTruthy_eq])
    · apply (ih.execute body (hs.body.mono hx)).bind
      rintro y hy _ _ (_ | huv)
      · exact ih.execute (.whileLoop condition body) (hs.mono (hx.trans hy))
      · exact hreturned huv
    · exact hnormal
  | funDecl declaration =>
    rw [execute]
    have hdeclares : w.pair a b := hpair (by rintro ⟨⟩)
    exact (parallel_declare hdeclares declaration).bind fun _ _ _ _ _ => hnormal
  | returnValue keyword value =>
    cases value with
    | none =>
      rw [execute]
      exact hreturned .nil
    | some value =>
      rw [execute]
      exact (ih.evaluate value hab).bind fun _ _ _ _ huv => hreturned huv
  | classDecl name superclass methods =>
    rw [execute]
    have hdeclares : w.pair a b := hpair (by rintro ⟨⟩)
    exact (parallel_define hdeclares name .nil).bind fun _ _ _ _ _ => hnormal

theorem executeAll_parallel (ss : List Stmt) (hab : w.pair a b) :
    Parallel w a b Flow.Alike (executeAll (fuel + 1) ss) (executeAll (fuel + 1) ss) := by
  cases ss with
  | nil =>
    rw [executeAll]
    exact parallel_pure fun _ _ => .normal
  | cons s ss =>
    rw [executeAll]
    apply (ih.execute s (.inl hab)).bind
    rintro x hx _ _ (_ | huv)
    · exact ih.executeAll ss (hx.pair a b hab)
    · exact parallel_pure fun _ hy => .returned (huv.mono hy)

end

theorem runsParallel (fuel : Nat) : RunsParallel fuel := by
  induction fuel with
  | zero =>
    constructor <;> intros
    all_goals exact parallel_outOfFuel
  | succ fuel ih =>
    exact ⟨fun e _ _ _ => evaluate_parallel ih e, fun es _ _ _ => evaluateAll_parallel ih es,
      call_parallel ih, fun s _ _ _ => execute_parallel ih s,
      fun ss _ _ _ => executeAll_parallel ih ss⟩

end TreeWalk
