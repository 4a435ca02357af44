import TreeWalk.Proofs.Machine.Moments
import TreeWalk.Proofs.Machine.Parallel

/-!
Loops as rounds. A `for` loop runs its start once in a new scope and then, as long as its condition
holds there, its body and its step. This is compared with the `while` loop in blocks that it is the
same as but for the scopes: those that the blocks make stay empty.
-/

namespace TreeWalk

open Run

/-! ## The rules -/

/-- How a condition comes out. One that is absent holds. -/
def Tests (condition : Option Expr) (s : State) (f : Finished Bool) : Prop :=
  match condition with
  | none => f = ⟨.ok true, s⟩
  | some e => ∃ g, Ends (evaluate · e) s g ∧ f = ⟨g.result.map Value.isTruthy, g.state⟩

/-- Rounds as long as the condition holds, up to one that does not end normally. -/
inductive Rounds (condition : Option Expr) (round : State → Finished Flow → Prop) :
    State → Finished Flow → Prop
  | failed {s t : State} {failure : Failure} : Tests condition s ⟨.error failure, t⟩ →
    Rounds condition round s ⟨.error failure, t⟩
  | done {s t : State} : Tests condition s ⟨.ok false, t⟩ →
    Rounds condition round s ⟨.ok .normal, t⟩
  | stopped {s t : State} {f : Finished Flow} : Tests condition s ⟨.ok true, t⟩ → round t f →
    f.result ≠ .ok .normal → Rounds condition round s f
  | again {s t u : State} {f : Finished Flow} : Tests condition s ⟨.ok true, t⟩ →
    round t ⟨.ok .normal, u⟩ → Rounds condition round u f → Rounds condition round s f

/-- One round: the body and then the step, which is left out if the body does not end normally. -/
def Round (body : Stmt) (step : Option Expr) (s : State) (f : Finished Flow) : Prop :=
  Executes s (body :: (step.map Stmt.expression).toList) f

/-- The start, and rounds if it ends normally. -/
def Looping (start : Option Stmt) (condition : Option Expr)
    (round : State → Finished Flow → Prop) (s : State) (f : Finished Flow) : Prop :=
  (∃ t, Executes s start.toList ⟨.ok .normal, t⟩ ∧ Rounds condition round t f) ∨
    f.result ≠ .ok .normal ∧ Executes s start.toList f

/-- The same in a new scope, which is left at the end. -/
def Nested {α : Type} (runs : State → Finished α → Prop) (s : State) (f : Finished α) : Prop :=
  ∃ t, runs s.nested ⟨f.result, t⟩ ∧ f.state = { t with active := s.active }

/-- A `for` loop: all of it runs in one new scope. -/
def ForRuns (start : Option Stmt) (condition step : Option Expr) (body : Stmt) :
    State → Finished Flow → Prop :=
  Nested (Looping start condition (Round body step))

/-! ## The rules of the tree -/

theorem executes_one {s : State} {statement : Stmt} {f : Finished Flow} :
    Executes s [statement] f ↔ Ends (execute · statement) s f := by
  constructor
  · intro h
    cases h with
    | next hfirst hmore =>
      cases hmore
      exact hfirst
    | stop hfirst _ => exact hfirst
  · intro h
    by_cases hf : f.result = .ok .normal
    · obtain ⟨result, t⟩ := f
      cases hf
      exact .next h .done
    · exact .stop h hf

theorem ends_block {body : List Stmt} {s : State} {f : Finished Flow} :
    Ends (execute · (.block body)) s f ↔ Nested (Executes · body) s f := by
  rw [ends_succ rfl]
  simp only [execute]
  change Ends (fun fuel => inside s.active [] (executeAll fuel body)) s f ↔ _
  rw [ends_inside]
  simp only [ends_executeAll]
  rfl

/-- What a `while` loop does after its body. -/
def afterBody (condition : Expr) (body : Stmt) (fuel : Nat) : Flow → Run Flow
  | .returned value => return .returned value
  | .normal => execute fuel (.whileLoop condition body)

/-- What a `while` loop does after its test. -/
def afterTest (condition : Expr) (body : Stmt) (fuel : Nat) (test : Value) : Run Flow :=
  if test.isTruthy then execute fuel body >>= afterBody condition body fuel else return .normal

theorem execute_whileLoop (fuel : Nat) (condition : Expr) (body : Stmt) :
    execute (fuel + 1) (.whileLoop condition body) =
      evaluate fuel condition >>= afterTest condition body fuel := by
  rw [execute]
  congr 1

theorem growing_afterBody (condition : Expr) (body : Stmt) (flow : Flow) :
    Growing (afterBody condition body · flow) := by
  intro few many h
  cases flow with
  | returned value => exact .refl _
  | normal => exact growing_execute _ few many h

theorem growing_afterTest (condition : Expr) (body : Stmt) (test : Value) :
    Growing (afterTest condition body · test) := by
  unfold afterTest
  split
  · exact (growing_execute body).bind (growing_afterBody condition body)
  · exact growing_const _

theorem tests_some_ok {condition : Expr} {s t : State} {b : Bool} :
    Tests (some condition) s ⟨.ok b, t⟩ ↔
      ∃ test : Value, Ends (evaluate · condition) s ⟨.ok test, t⟩ ∧ test.isTruthy = b := by
  constructor
  · rintro ⟨⟨failure | test, u⟩, htest, ⟨⟩⟩
    exact ⟨test, htest, rfl⟩
  · rintro ⟨test, htest, rfl⟩
    exact ⟨_, htest, rfl⟩

theorem tests_some_error {condition : Expr} {s t : State} {failure : Failure} :
    Tests (some condition) s ⟨.error failure, t⟩ ↔
      Ends (evaluate · condition) s ⟨.error failure, t⟩ := by
  constructor
  · rintro ⟨⟨failure | test, u⟩, htest, ⟨⟩⟩
    exact htest
  · exact fun htest => ⟨_, htest, rfl⟩

/-- A `while` loop runs in rounds of its body. -/
theorem ends_whileLoop {condition : Expr} {body : Stmt} {s : State} {f : Finished Flow} :
    Ends (execute · (.whileLoop condition body)) s f ↔
      Rounds (some condition) (Ends (execute · body)) s f := by
  constructor
  · rintro ⟨fuel, h⟩
    induction fuel generalizing s with
    | zero => cases h
    | succ fuel ih =>
      dsimp only at h
      rw [execute_whileLoop] at h
      rcases finish_bind.1 h with ⟨test, t, htest, h⟩ | ⟨failure, t, htest, rfl⟩
      · cases htruthy : test.isTruthy with
        | true =>
          have htests := tests_some_ok.2 ⟨test, ⟨fuel, htest⟩, htruthy⟩
          rw [afterTest, if_pos htruthy] at h
          rcases finish_bind.1 h with ⟨flow, u, hbody, h⟩ | ⟨failure, u, hbody, rfl⟩
          · cases flow with
            | normal => exact .again htests ⟨fuel, hbody⟩ (ih h)
            | returned value =>
              cases h
              exact .stopped htests ⟨fuel, hbody⟩ (by simp)
          · exact .stopped htests ⟨fuel, hbody⟩ (by simp)
        | false =>
          rw [afterTest, if_neg (by simp [htruthy])] at h
          cases h
          exact .done (tests_some_ok.2 ⟨test, ⟨fuel, htest⟩, htruthy⟩)
      · exact .failed (tests_some_error.2 ⟨fuel, htest⟩)
  · have hbind : ∀ {s : State} {f : Finished Flow},
        Ends (execute · (.whileLoop condition body)) s f ↔
          (∃ test t, Ends (evaluate · condition) s ⟨.ok test, t⟩ ∧
            Ends (afterTest condition body · test) t f) ∨
          ∃ failure t, Ends (evaluate · condition) s ⟨.error failure, t⟩ ∧
            f = ⟨.error failure, t⟩ := by
      intro s f
      rw [ends_succ rfl]
      simp only [execute_whileLoop]
      exact ends_bind (growing_evaluate condition) (growing_afterTest condition body)
    have hround : ∀ {test : Value} {t : State} {f : Finished Flow}, test.isTruthy = true →
        (Ends (afterTest condition body · test) t f ↔
          (∃ flow u, Ends (execute · body) t ⟨.ok flow, u⟩ ∧
            Ends (afterBody condition body · flow) u f) ∨
          ∃ failure u, Ends (execute · body) t ⟨.error failure, u⟩ ∧ f = ⟨.error failure, u⟩) := by
      intro test t f htest
      simp only [afterTest, if_pos htest]
      exact ends_bind (growing_execute body) (growing_afterBody condition body)
    intro h
    induction h with
    | failed htest => exact hbind.2 (.inr ⟨_, _, tests_some_error.1 htest, rfl⟩)
    | done htest =>
      obtain ⟨test, htest, hfalse⟩ := tests_some_ok.1 htest
      refine hbind.2 (.inl ⟨test, _, htest, ?_⟩)
      simp only [afterTest, hfalse]
      exact ⟨0, rfl⟩
    | @stopped s t f htest hbody hne =>
      obtain ⟨test, htest, htrue⟩ := tests_some_ok.1 htest
      refine hbind.2 (.inl ⟨test, t, htest, (hround htrue).2 ?_⟩)
      obtain ⟨failure | _ | value, u⟩ := f
      · exact .inr ⟨failure, u, hbody, rfl⟩
      · exact absurd rfl hne
      · exact .inl ⟨.returned value, u, hbody, 0, rfl⟩
    | again htest hbody _ ih =>
      obtain ⟨test, htest, htrue⟩ := tests_some_ok.1 htest
      exact hbind.2 (.inl ⟨test, _, htest, (hround htrue).2 (.inl ⟨.normal, _, hbody, ih⟩)⟩)

/-- A condition that is left out is written `true` in the tree. -/
theorem tests_getD {condition : Option Expr} :
    Tests (some (condition.getD (.literal (.bool true)))) = Tests condition := by
  cases condition with
  | some e => rfl
  | none =>
    funext s f
    apply propext
    constructor
    · rintro ⟨g, htest, rfl⟩
      rw [ends_succ rfl] at htest
      cases ends_pure.1 htest
      rfl
    · rintro rfl
      exact ⟨⟨.ok (.bool true), s⟩, ⟨1, rfl⟩, rfl⟩

theorem Rounds.mono {condition other : Option Expr} {round more : State → Finished Flow → Prop}
    (htests : Tests condition = Tests other) (hround : ∀ s f, round s f → more s f) {s : State}
    {f : Finished Flow} (h : Rounds condition round s f) : Rounds other more s f := by
  induction h with
  | failed htest => exact .failed (htests ▸ htest)
  | done htest => exact .done (htests ▸ htest)
  | stopped htest hstop hne => exact .stopped (htests ▸ htest) (hround _ _ hstop) hne
  | again htest hnext _ ih => exact .again (htests ▸ htest) (hround _ _ hnext) ih

/-- A round of the tree. If there is a step, the round has a scope of its own. -/
def TreeRound (body : Stmt) (step : Option Expr) : State → Finished Flow → Prop :=
  if step.isSome then Nested (Round body step) else Round body step

theorem ends_round {body : Stmt} {step : Option Expr} {s : State} {f : Finished Flow} :
    Ends (execute · (match step with
      | some step => Stmt.block [body, .expression step]
      | none => body)) s f ↔ TreeRound body step s f := by
  cases step with
  | some step => exact ends_block
  | none => exact executes_one.symm

/-- The `while` loop of a `for` loop runs its rounds behind the start, which makes a scope if there
is one. -/
theorem ends_forLoop {start : Option Stmt} {condition step : Option Expr} {body : Stmt} {s : State}
    {f : Finished Flow} :
    Ends (execute · (.forLoop start condition step body)) s f ↔
      (if start.isSome then Nested (Looping start condition (TreeRound body step))
        else Looping start condition (TreeRound body step)) s f := by
  have hloop : ∀ {s : State} {f : Finished Flow},
      Ends (execute · (.forLoop none condition step body)) s f ↔
        Rounds condition (TreeRound body step) s f := by
    intro s f
    refine ends_whileLoop.trans ⟨?_, ?_⟩
    · exact Rounds.mono tests_getD fun _ _ => ends_round.1
    · exact Rounds.mono tests_getD.symm fun _ _ => ends_round.2
  cases start with
  | none =>
    rw [hloop]
    constructor
    · exact fun h => .inl ⟨s, .done, h⟩
    · rintro (⟨_, ⟨⟩, h⟩ | ⟨hne, ⟨⟩⟩)
      · exact h
      · exact absurd rfl hne
  | some start =>
    have hbody : ∀ {s : State} {f : Finished Flow},
        Executes s [start, .forLoop none condition step body] f ↔
          Looping (some start) condition (TreeRound body step) s f := by
      intro s f
      have happend : Executes s ([start] ++ [Stmt.forLoop none condition step body]) f ↔ _ :=
        executes_append
      simp only [executes_one, hloop] at happend
      simp only [Looping, Option.toList, executes_one]
      exact happend
    refine ends_block.trans ⟨?_, ?_⟩
    · exact fun ⟨t, h, hstate⟩ => ⟨t, hbody.1 h, hstate⟩
    · exact fun ⟨t, h, hstate⟩ => ⟨t, hbody.2 h, hstate⟩

/-! ## One rule followed by another -/

/-- From states in `R`, each end of the first rule has an end of the second in relation `Q`. -/
def Simulates {α β : Type} (R : State → State → Prop) (Q : Finished α → Finished β → Prop)
    (runs : State → Finished α → Prop) (runs' : State → Finished β → Prop) : Prop :=
  ∀ s t f, R s t → runs s f → ∃ g, runs' t g ∧ Q f g

/-- What `Q` says of ends, said of sequences: they go on from ends in `Q` both or neither, and go
on in states in `R`. -/
structure Passes (R : State → State → Prop) (Q : Finished Flow → Finished Flow → Prop) :
    Prop where
  normal : ∀ {f g : Finished Flow}, Q f g → (f.result = .ok .normal ↔ g.result = .ok .normal)
  state : ∀ {f g : Finished Flow}, Q f g → R f.state g.state
  done : ∀ {s t : State}, R s t → Q ⟨.ok .normal, s⟩ ⟨.ok .normal, t⟩
  failed : ∀ {s t : State} (failure : Failure), R s t → Q ⟨.error failure, s⟩ ⟨.error failure, t⟩

/-- Tests come out the same, in states in `R`. -/
def SameTest (R : State → State → Prop) (f g : Finished Bool) : Prop :=
  f.result = g.result ∧ R f.state g.state

section

variable {R : State → State → Prop} {Q : Finished Flow → Finished Flow → Prop}
  (hp : Passes R Q)
include hp

theorem Passes.flip : Passes (fun t s => R s t) fun g f => Q f g :=
  ⟨fun h => (hp.normal h).symm, hp.state, hp.done, hp.failed⟩

/-- What is in relation with a normal end is one. -/
theorem Passes.of_normal {t : State} {g : Finished Flow} (h : Q ⟨.ok .normal, t⟩ g) :
    ∃ u, g = ⟨.ok .normal, u⟩ ∧ R t u := by
  obtain ⟨result, u⟩ := g
  have hresult : result = .ok .normal := (hp.normal h).1 rfl
  subst hresult
  exact ⟨u, rfl, hp.state h⟩

theorem Simulates.executes {ss : List Stmt}
    (h : ∀ s ∈ ss, Simulates R Q (Ends (execute · s)) (Ends (execute · s))) :
    Simulates R Q (Executes · ss) (Executes · ss) := by
  intro s t f hst hf
  induction hf generalizing t with
  | done => exact ⟨_, .done, hp.done hst⟩
  | next hfirst _ ih =>
    obtain ⟨g, hg, hQ⟩ := h _ List.mem_cons_self _ t _ hst hfirst
    obtain ⟨u, rfl, hu⟩ := hp.of_normal hQ
    obtain ⟨g', hg', hQ'⟩ := ih (fun s hs => h s (List.mem_cons_of_mem _ hs)) u hu
    exact ⟨g', .next hg hg', hQ'⟩
  | stop hfirst hne =>
    obtain ⟨g, hg, hQ⟩ := h _ List.mem_cons_self _ t _ hst hfirst
    exact ⟨g, .stop hg fun hnormal => hne ((hp.normal hQ).2 hnormal), hQ⟩

variable {condition : Option Expr} {round round' : State → Finished Flow → Prop}

/-- Rounds that follow one another one by one do so on the whole. -/
theorem Simulates.rounds (htests : Simulates R (SameTest R) (Tests condition) (Tests condition))
    (hround : Simulates R Q round round') :
    Simulates R Q (Rounds condition round) (Rounds condition round') := by
  intro s t f hst hf
  induction hf generalizing t with
  | failed htest =>
    obtain ⟨⟨result, u⟩, hg, rfl, hR⟩ := htests _ t _ hst htest
    exact ⟨_, .failed hg, hp.failed _ hR⟩
  | done htest =>
    obtain ⟨⟨result, u⟩, hg, rfl, hR⟩ := htests _ t _ hst htest
    exact ⟨_, .done hg, hp.done hR⟩
  | stopped htest hstop hne =>
    obtain ⟨⟨result, u⟩, hg, rfl, hR⟩ := htests _ t _ hst htest
    obtain ⟨g, hstop', hQ⟩ := hround _ u _ hR hstop
    exact ⟨g, .stopped hg hstop' fun hnormal => hne ((hp.normal hQ).2 hnormal), hQ⟩
  | again htest hnext _ ih =>
    obtain ⟨⟨result, u⟩, hg, rfl, hR⟩ := htests _ t _ hst htest
    obtain ⟨g, hnext', hQ⟩ := hround _ u _ hR hnext
    obtain ⟨v, rfl, hv⟩ := hp.of_normal hQ
    obtain ⟨g', hmore, hQ'⟩ := ih v hv
    exact ⟨g', .again hg hnext' hmore, hQ'⟩

theorem Simulates.looping {start : Option Stmt}
    (hstart : Simulates R Q (Executes · start.toList) (Executes · start.toList))
    (htests : Simulates R (SameTest R) (Tests condition) (Tests condition))
    (hround : Simulates R Q round round') :
    Simulates R Q (Looping start condition round) (Looping start condition round') := by
  rintro s t f hst (⟨u, hfirst, hrounds⟩ | ⟨hne, hfirst⟩)
  · obtain ⟨g, hg, hQ⟩ := hstart s t _ hst hfirst
    obtain ⟨v, rfl, hv⟩ := hp.of_normal hQ
    obtain ⟨g', hg', hQ'⟩ := Simulates.rounds hp htests hround u v f hv hrounds
    exact ⟨g', .inl ⟨v, hg, hg'⟩, hQ'⟩
  · obtain ⟨g, hg, hQ⟩ := hstart s t f hst hfirst
    exact ⟨g, .inr ⟨fun hnormal => hne ((hp.normal hQ).2 hnormal), hg⟩, hQ⟩

end

/-! ## Rules that come to the same -/

/-- More than `w` is matched in the states. -/
def State.Linked (w : Matching) (a b : ScopeId) (s t : State) : Prop :=
  ∃ x, w.Grows x ∧ s.Alike x a b t

/-- The ends have corresponding results, and more than `w` is matched. -/
def Finished.Alike {α β : Type} (w : Matching) (a b : ScopeId) (V : Matching → α → β → Prop)
    (f : Finished α) (g : Finished β) : Prop :=
  ∃ x, w.Grows x ∧ SameResult (V x) f.result g.result ∧ f.state.Alike x a b g.state

/-- From linked states each of the rules follows the other. -/
structure SameRuns {α β : Type} (w : Matching) (a b : ScopeId) (V : Matching → α → β → Prop)
    (runs : State → Finished α → Prop) (runs' : State → Finished β → Prop) : Prop where
  forth : Simulates (State.Linked w a b) (Finished.Alike w a b V) runs runs'
  back : Simulates (fun t s => State.Linked w a b s t) (fun g f => Finished.Alike w a b V f g)
    runs' runs

section

variable {α β : Type} {w : Matching} {a b : ScopeId} {V : Matching → α → β → Prop}

/-- Runs that go on in parallel with every fuel end alike. -/
theorem Run.Parallel.sameRuns {m : Nat → Run α} {n : Nat → Run β}
    (h : ∀ fuel, Parallel w a b V (m fuel) (n fuel)) : SameRuns w a b V (Ends m) (Ends n) where
  forth := by
    rintro s t f ⟨x, hx, hst⟩ ⟨fuel, hf⟩
    have hrun := h fuel x hx s t hst
    unfold finish at hf
    generalize m fuel s = r at hrun hf
    generalize hq : n fuel t = q at hrun
    cases hrun with
    | @ok y u v s' t' hy hV hst' =>
      cases hf
      exact ⟨⟨.ok v, t'⟩, ⟨fuel, by rw [finish, hq]⟩, y, hx.trans hy, .ok hV, hst'⟩
    | @error y e s' t' hy hst' =>
      cases e with
      | outOfFuel => cases hf
      | failure failure =>
        cases hf
        exact ⟨⟨.error failure, t'⟩, ⟨fuel, by rw [finish, hq]⟩, y, hx.trans hy, .error failure,
          hst'⟩
  back := by
    rintro t s g ⟨x, hx, hst⟩ ⟨fuel, hg⟩
    have hrun := h fuel x hx s t hst
    unfold finish at hg
    generalize hr : m fuel s = r at hrun
    generalize n fuel t = q at hrun hg
    cases hrun with
    | @ok y u v s' t' hy hV hst' =>
      cases hg
      exact ⟨⟨.ok u, s'⟩, ⟨fuel, by rw [finish, hr]⟩, y, hx.trans hy, .ok hV, hst'⟩
    | @error y e s' t' hy hst' =>
      cases e with
      | outOfFuel => cases hg
      | failure failure =>
        cases hg
        exact ⟨⟨.error failure, s'⟩, ⟨fuel, by rw [finish, hr]⟩, y, hx.trans hy, .error failure,
          hst'⟩

theorem evaluate_sameRuns (e : Expr) (hab : w.Behind a b) :
    SameRuns w a b Value.Alike (Ends (evaluate · e)) (Ends (evaluate · e)) :=
  Parallel.sameRuns fun fuel => (runsParallel fuel).evaluate e hab

theorem execute_sameRuns (s : Stmt) (hs : s.Fits w a b) :
    SameRuns w a b Flow.Alike (Ends (execute · s)) (Ends (execute · s)) :=
  Parallel.sameRuns fun fuel => (runsParallel fuel).execute s hs

theorem tests_sameRuns (condition : Option Expr) (hab : w.Behind a b) :
    Simulates (State.Linked w a b) (SameTest (State.Linked w a b)) (Tests condition)
      (Tests condition) ∧
    Simulates (fun t s => State.Linked w a b s t) (SameTest fun t s => State.Linked w a b s t)
      (Tests condition) (Tests condition) := by
  cases condition with
  | none =>
    constructor
    · rintro s t _ hst rfl
      exact ⟨_, rfl, rfl, hst⟩
    · rintro t s _ hst rfl
      exact ⟨_, rfl, rfl, hst⟩
  | some e =>
    have he := evaluate_sameRuns e hab
    have hsame : ∀ {f g : Finished Value}, f.Alike w a b Value.Alike g →
        f.result.map Value.isTruthy = g.result.map Value.isTruthy ∧
          State.Linked w a b f.state g.state := by
      rintro ⟨result, u⟩ ⟨result', v⟩ ⟨x, hx, hresult, hstate⟩
      refine ⟨?_, x, hx, hstate⟩
      cases hresult with
      | ok huv => exact congrArg Except.ok huv.isTruthy_eq
      | error => rfl
    constructor
    · rintro s t _ hst ⟨f, hf, rfl⟩
      obtain ⟨g, hg, hfg⟩ := he.forth s t f hst hf
      exact ⟨_, ⟨g, hg, rfl⟩, hsame hfg⟩
    · rintro t s _ hst ⟨g, hg, rfl⟩
      obtain ⟨f, hf, hfg⟩ := he.back t s g hst hg
      exact ⟨_, ⟨f, hf, rfl⟩, (hsame hfg).1.symm, (hsame hfg).2⟩

theorem passes_alike (w : Matching) (a b : ScopeId) :
    Passes (State.Linked w a b) (Finished.Alike w a b Flow.Alike) where
  normal := by
    rintro ⟨result, s⟩ ⟨result', t⟩ ⟨x, hx, hresult, _⟩
    cases hresult with
    | ok hflow => cases hflow <;> simp
    | error => simp
  state := fun ⟨x, hx, _, hstate⟩ => ⟨x, hx, hstate⟩
  done := fun ⟨x, hx, hst⟩ => ⟨x, hx, .ok .normal, hst⟩
  failed := fun failure ⟨x, hx, hst⟩ => ⟨x, hx, .error failure, hst⟩

theorem executes_sameRuns {ss : List Stmt} (hss : ∀ s ∈ ss, s.Fits w a b) :
    SameRuns w a b Flow.Alike (Executes · ss) (Executes · ss) where
  forth := Simulates.executes (passes_alike w a b) fun s hs => (execute_sameRuns s (hss s hs)).forth
  back := Simulates.executes (passes_alike w a b).flip fun s hs =>
    (execute_sameRuns s (hss s hs)).back

theorem looping_sameRuns {start : Option Stmt} {condition : Option Expr}
    {round round' : State → Finished Flow → Prop} (hab : w.Behind a b)
    (hstart : ∀ s ∈ start.toList, s.Fits w a b)
    (hround : SameRuns w a b Flow.Alike round round') :
    SameRuns w a b Flow.Alike (Looping start condition round)
      (Looping start condition round') where
  forth := Simulates.looping (passes_alike w a b) (executes_sameRuns hstart).forth
    (tests_sameRuns condition hab).1 hround.forth
  back := Simulates.looping (passes_alike w a b).flip (executes_sameRuns hstart).back
    (tests_sameRuns condition hab).2 hround.back

variable {runs : State → Finished α → Prop} {runs' : State → Finished β → Prop}

/-- A scope that one of the rules makes and nothing is declared in is a gap. -/
theorem Nested.sameRuns_left (hab : w.Behind a b)
    (h : ∀ x c, w.Grows x → x.Behind c b → SameRuns x c b V runs runs') :
    SameRuns w a b V (Nested runs) runs' where
  forth := by
    rintro s t ⟨result, _⟩ ⟨x, hx, @⟨heap, heap', sink, hheap⟩⟩ ⟨u, hu, rfl⟩
    have hy := hx.trans (x.grows_addLeft heap.nextScope a)
    obtain ⟨⟨result', v⟩, hg, y, hgrows, hresult, hstate⟩ := (h _ heap.nextScope hy
      (.leftGap (.inr ⟨rfl, rfl⟩) (hab.mono hy))).forth _ _ _
      ⟨_, .refl _, ⟨hheap.addLeft (hheap.lt_left (hab.mono hx))⟩⟩ hu
    refine ⟨_, hg, y, hy.trans hgrows, hresult, ?_⟩
    obtain ⟨hheap'⟩ := hstate
    exact ⟨hheap'⟩
  back := by
    rintro t s ⟨result', v⟩ ⟨x, hx, @⟨heap, heap', sink, hheap⟩⟩ hg
    have hy := hx.trans (x.grows_addLeft heap.nextScope a)
    obtain ⟨⟨result, u⟩, hu, y, hgrows, hresult, hstate⟩ := (h _ heap.nextScope hy
      (.leftGap (.inr ⟨rfl, rfl⟩) (hab.mono hy))).back _ (State.nested ⟨heap, a, sink⟩) _
      ⟨_, .refl _, ⟨hheap.addLeft (hheap.lt_left (hab.mono hx))⟩⟩ hg
    refine ⟨⟨result, { u with active := a }⟩, ⟨u, hu, rfl⟩, y, hy.trans hgrows, hresult, ?_⟩
    obtain ⟨hheap'⟩ := hstate
    exact ⟨hheap'⟩

theorem Nested.sameRuns_right (hab : w.Behind a b)
    (h : ∀ x d, w.Grows x → x.Behind a d → SameRuns x a d V runs runs') :
    SameRuns w a b V runs (Nested runs') where
  forth := by
    rintro s t ⟨result', v⟩ ⟨x, hx, @⟨heap, heap', sink, hheap⟩⟩ hf
    have hy := hx.trans (x.grows_addRight heap'.nextScope b)
    obtain ⟨⟨result, u⟩, hu, y, hgrows, hresult, hstate⟩ := (h _ heap'.nextScope hy
      (.rightGap (.inr ⟨rfl, rfl⟩) (hab.mono hy))).forth _ (State.nested ⟨heap', b, sink⟩) _
      ⟨_, .refl _, ⟨hheap.addRight (hheap.lt_right (hab.mono hx))⟩⟩ hf
    refine ⟨⟨result, { u with active := b }⟩, ⟨u, hu, rfl⟩, y, hy.trans hgrows, hresult, ?_⟩
    obtain ⟨hheap'⟩ := hstate
    exact ⟨hheap'⟩
  back := by
    rintro t s ⟨result, _⟩ ⟨x, hx, @⟨heap, heap', sink, hheap⟩⟩ ⟨u, hu, rfl⟩
    have hy := hx.trans (x.grows_addRight heap'.nextScope b)
    obtain ⟨⟨result', v⟩, hf, y, hgrows, hresult, hstate⟩ := (h _ heap'.nextScope hy
      (.rightGap (.inr ⟨rfl, rfl⟩) (hab.mono hy))).back _ _ _
      ⟨_, .refl _, ⟨hheap.addRight (hheap.lt_right (hab.mono hx))⟩⟩ hu
    refine ⟨_, hf, y, hy.trans hgrows, hresult, ?_⟩
    obtain ⟨hheap'⟩ := hstate
    exact ⟨hheap'⟩

/-- Scopes that both rules make are counterparts. -/
theorem Nested.sameRuns (hab : w.Behind a b)
    (h : ∀ x c d, w.Grows x → x.pair c d → SameRuns x c d V runs runs') :
    SameRuns w a b V (Nested runs) (Nested runs') where
  forth := by
    rintro s t ⟨result, _⟩ ⟨x, hx, @⟨heap, heap', sink, hheap⟩⟩ ⟨u, hu, rfl⟩
    have hy := hx.trans (x.grows_addPair heap.nextScope heap'.nextScope)
    obtain ⟨⟨result', v⟩, hv, y, hgrows, hresult, hstate⟩ := (h _ _ _ hy
      (.inr ⟨rfl, rfl⟩)).forth _ (State.nested ⟨heap', b, sink⟩) _
      ⟨_, .refl _, ⟨hheap.addPair (hab.mono hx) fun _ => .none⟩⟩ hu
    refine ⟨⟨result', { v with active := b }⟩, ⟨v, hv, rfl⟩, y, hy.trans hgrows, hresult, ?_⟩
    obtain ⟨hheap'⟩ := hstate
    exact ⟨hheap'⟩
  back := by
    rintro t s ⟨result, _⟩ ⟨x, hx, @⟨heap, heap', sink, hheap⟩⟩ ⟨u, hu, rfl⟩
    have hy := hx.trans (x.grows_addPair heap.nextScope heap'.nextScope)
    obtain ⟨⟨result', v⟩, hv, y, hgrows, hresult, hstate⟩ := (h _ _ _ hy
      (.inr ⟨rfl, rfl⟩)).back _ (State.nested ⟨heap, a, sink⟩) _
      ⟨_, .refl _, ⟨hheap.addPair (hab.mono hx) fun _ => .none⟩⟩ hu
    refine ⟨⟨result', { v with active := a }⟩, ⟨v, hv, rfl⟩, y, hy.trans hgrows, hresult, ?_⟩
    obtain ⟨hheap'⟩ := hstate
    exact ⟨hheap'⟩

end

/-! ## The two loops -/

section

variable {w : Matching} {a b : ScopeId} {body : Stmt} (hbody : body.Undeclaring)
include hbody

/-- The body and the step declare nothing, so the scope around them stays empty. -/
theorem round_sameRuns (step : Option Expr) (hab : w.Behind a b) :
    SameRuns w a b Flow.Alike (TreeRound body step) (Round body step) := by
  have hround : ∀ {x : Matching} {c : ScopeId}, x.Behind c b →
      SameRuns x c b Flow.Alike (Round body step) (Round body step) := by
    intro x c hcb
    apply executes_sameRuns
    intro s hs
    refine .inr ⟨hcb, ?_⟩
    rcases List.mem_cons.1 hs with rfl | hs
    · exact hbody
    · obtain ⟨step, _, rfl⟩ := Option.map_eq_some_iff.1 (Option.mem_toList.1 hs)
      exact .expression step
  unfold TreeRound
  split
  · exact Nested.sameRuns_left hab fun _ _ _ => hround
  · exact hround hab

theorem forLoop_sameRuns (start : Option Stmt) (condition step : Option Expr) (hab : w.Behind a b) :
    SameRuns w a b Flow.Alike (Ends (execute · (.forLoop start condition step body)))
      (ForRuns start condition step body) := by
  have htree : Ends (execute · (.forLoop start condition step body)) =
      if start.isSome then Nested (Looping start condition (TreeRound body step))
        else Looping start condition (TreeRound body step) := by
    funext s f
    exact propext ends_forLoop
  rw [htree, ForRuns]
  cases start with
  | some start =>
    refine Nested.sameRuns hab fun x c d _ hcd => ?_
    exact looping_sameRuns (.pair hcd) (fun _ _ => .inl hcd) (round_sameRuns hbody step (.pair hcd))
  | none =>
    refine Nested.sameRuns_right hab fun x d _ had => ?_
    exact looping_sameRuns had (fun _ hs => nomatch hs) (round_sameRuns hbody step had)

end

end TreeWalk
