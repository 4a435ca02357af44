import TreeWalk.Proofs.Machine.Moments

/-!
Moments of two runs. If what ends in one state ends alike in another, then what begins during a run
from the first begins during the same run from the second. A condition on sinks says how far the
first run is followed.
-/

namespace TreeWalk

open Run

/-- A run that ends with a value and a sink in `F` ends with that value from a state in relation,
and the states it leaves are in relation again. -/
structure Mirrored (F : Sink → Prop) (S : State → State → Prop) : Prop where
  ends : ∀ (task : Task) {a : task.Result} {s t u : State}, S s t →
    Ends (task.run ·) s ⟨.ok a, u⟩ → F u.sink → ∃ v, Ends (task.run ·) t ⟨.ok a, v⟩ ∧ S u v
  before : ∀ (task : Task) {f : Finished task.Result} {s : State}, Ends (task.run ·) s f →
    F f.state.sink → F s.sink
  nested : ∀ {s t : State}, S s t → S s.nested t.nested
  entered : ∀ (function : Function) (values : List Value) {s t : State}, S s t →
    S (function.entered values s) (function.entered values t)

section

variable {F : Sink → Prop} {S : State → State → Prop} (hM : Mirrored F S)
include hM

theorem Starts.before {m n : Moment} (h : Starts m n) (hn : F n.state.sink) :
    F m.state.sink := by
  cases h with
  | inner | operand | left | decision | assigned | callee | firstValue | body | expression
  | printed | initial | block | condition | test | returned | first => exact hn
  | right hfirst | alternative hfirst | arguments hfirst | moreValues hfirst
  | thenBranch hfirst | elseBranch hfirst | round hfirst => exact hM.before (.evaluate _) hfirst hn
  | call hcallee harguments =>
    exact hM.before (.evaluate _) hcallee (hM.before (.evaluateAll _) harguments hn)
  | again hcondition _ hbody =>
    exact hM.before (.evaluate _) hcondition (hM.before (.execute _) hbody hn)
  | more hfirst => exact hM.before (.execute _) hfirst hn

theorem Starts.mirrored {m n : Moment} (h : Starts m n) (hn : F n.state.sink) {t : State}
    (hS : S m.state t) : ∃ v, Starts ⟨m.task, t⟩ ⟨n.task, v⟩ ∧ S n.state v := by
  cases h with
  | inner => exact ⟨t, .inner, hS⟩
  | operand => exact ⟨t, .operand, hS⟩
  | left => exact ⟨t, .left, hS⟩
  | decision => exact ⟨t, .decision, hS⟩
  | assigned => exact ⟨t, .assigned, hS⟩
  | callee => exact ⟨t, .callee, hS⟩
  | firstValue => exact ⟨t, .firstValue, hS⟩
  | expression => exact ⟨t, .expression, hS⟩
  | printed => exact ⟨t, .printed, hS⟩
  | initial => exact ⟨t, .initial, hS⟩
  | condition => exact ⟨t, .condition, hS⟩
  | test => exact ⟨t, .test, hS⟩
  | returned => exact ⟨t, .returned, hS⟩
  | first => exact ⟨t, .first, hS⟩
  | body => exact ⟨_, .body, hM.entered _ _ hS⟩
  | block => exact ⟨_, .block, hM.nested hS⟩
  | right hleft =>
    obtain ⟨v, hleft', hS'⟩ := hM.ends (.evaluate _) hS hleft hn
    exact ⟨v, .right hleft', hS'⟩
  | alternative hleft hdecides =>
    obtain ⟨v, hleft', hS'⟩ := hM.ends (.evaluate _) hS hleft hn
    exact ⟨v, .alternative hleft' hdecides, hS'⟩
  | arguments hcallee =>
    obtain ⟨v, hcallee', hS'⟩ := hM.ends (.evaluate _) hS hcallee hn
    exact ⟨v, .arguments hcallee', hS'⟩
  | moreValues hfirst =>
    obtain ⟨v, hfirst', hS'⟩ := hM.ends (.evaluate _) hS hfirst hn
    exact ⟨v, .moreValues hfirst', hS'⟩
  | thenBranch hcondition htest =>
    obtain ⟨v, hcondition', hS'⟩ := hM.ends (.evaluate _) hS hcondition hn
    exact ⟨v, .thenBranch hcondition' htest, hS'⟩
  | elseBranch hcondition htest =>
    obtain ⟨v, hcondition', hS'⟩ := hM.ends (.evaluate _) hS hcondition hn
    exact ⟨v, .elseBranch hcondition' htest, hS'⟩
  | round hcondition htest =>
    obtain ⟨v, hcondition', hS'⟩ := hM.ends (.evaluate _) hS hcondition hn
    exact ⟨v, .round hcondition' htest, hS'⟩
  | call hcallee harguments harity =>
    have hmiddle := hM.before (.evaluateAll _) harguments hn
    obtain ⟨v, hcallee', hS'⟩ := hM.ends (.evaluate _) hS hcallee hmiddle
    obtain ⟨w, harguments', hS''⟩ := hM.ends (.evaluateAll _) hS' harguments hn
    exact ⟨w, .call hcallee' harguments' harity, hS''⟩
  | again hcondition htest hbody =>
    have hmiddle := hM.before (.execute _) hbody hn
    obtain ⟨v, hcondition', hS'⟩ := hM.ends (.evaluate _) hS hcondition hmiddle
    obtain ⟨w, hbody', hS''⟩ := hM.ends (.execute _) hS' hbody hn
    exact ⟨w, .again hcondition' htest hbody', hS''⟩
  | more hfirst =>
    obtain ⟨v, hfirst', hS'⟩ := hM.ends (.execute _) hS hfirst hn
    exact ⟨v, .more hfirst', hS'⟩

theorem Begins.mirrored {m n : Moment} (h : Begins m n) (hn : F n.state.sink) {t : State}
    (hS : S m.state t) : ∃ v, Begins ⟨m.task, t⟩ ⟨n.task, v⟩ ∧ S n.state v := by
  induction h with
  | refl => exact ⟨t, .refl, hS⟩
  | tail _ hstarts ih =>
    obtain ⟨u, hbegins, hS'⟩ := ih (hstarts.before hM hn)
    obtain ⟨v, hstarts', hS''⟩ := hstarts.mirrored hM hn hS'
    exact ⟨v, hbegins.tail hstarts', hS''⟩

end

end TreeWalk
