import TreeWalk.Proofs.Machine.Composition
import TreeWalk.Proofs.Machine.Mirroring
import TreeWalk.Proofs.Machine.Noninterference
import TreeWalk.Proofs.Machine.Output
import TreeWalk.Proofs.Machine.Overflow

/-!
A sink that takes only so many bytes cuts the output off and changes nothing else. The run to such
a sink and the run to one that takes everything go through the same states, up to the first byte
that does not fit: there the former stops with the fault of its sink, wherever it is at.
-/

namespace TreeWalk

/-! ## Outputs that part -/

section

variable (p q : ByteArray) (n : Nat)

/-- One state with two sinks, one that takes everything and one that takes `n` bytes more than `q`.
All output since `p` and since `q` is the same, and fits. -/
inductive State.Abreast : State → State → Prop
  | intro (heap : Heap) (active : ScopeId) {b : ByteArray} : b.size ≤ n →
    Abreast ⟨heap, active, ⟨p ++ b, none, false⟩⟩ ⟨heap, active, ⟨q ++ b, some (q.size + n), false⟩⟩

/-- There was more output since `p` than `n` bytes, and the second sink has the first `n`. -/
inductive Sink.CutOff (k l : Sink) : Prop
  | intro {b : ByteArray} : n < b.size → k.written = p ++ b → l.written = q ++ b.extract 0 n →
    CutOff k l

/-- From states abreast the run ends alike, or the second time with a full sink. -/
structure Run.Truncates {α : Type} (m : Run α) : Prop where
  outputs : Leaves State.Outputs m
  alike : ∀ s t, State.Abreast p q n s t → SameEnd (State.Abreast p q n) Eq (m s) (m t) ∨
    ∃ u, m t = .error (.failure (.sink .full)) u ∧ Sink.CutOff p q n (m.after s).sink u.sink

end

variable {p q : ByteArray} {n : Nat}

open State Run

theorem extract_of_size_le {b : ByteArray} (h : b.size ≤ n) : b.extract 0 n = b := by
  rw [← Nat.max_eq_left h, ByteArray.extract_zero_max_size]

theorem extract_append_of_le {b : ByteArray} (more : ByteArray) (h : n ≤ b.size) :
    (b ++ more).extract 0 n = b.extract 0 n := by
  have hnone : more.extract (0 - b.size) (n - b.size) = ByteArray.empty := by
    rw [ByteArray.extract_eq_empty_iff]
    omega
  rw [ByteArray.extract_append, hnone, ByteArray.append_empty]

theorem extract_append_of_ge {b : ByteArray} (more : ByteArray) (h : b.size ≤ n) :
    (b ++ more).extract 0 n = b ++ more.extract 0 (n - b.size) := by
  rw [ByteArray.extract_append, extract_of_size_le h, Nat.zero_sub]

theorem Sink.CutOff.continues {k l m : Sink} (h : CutOff p q n k l) (hkm : k.Continues m) :
    CutOff p q n m l := by
  obtain ⟨hlt, hk, hl⟩ := h
  obtain ⟨more, hmore⟩ := hkm.written
  refine ⟨?_, by rw [hmore, hk, ByteArray.append_assoc], ?_⟩
  · rw [ByteArray.size_append]
    exact Nat.lt_of_lt_of_le hlt (Nat.le_add_right _ _)
  · rw [extract_append_of_le more (Nat.le_of_lt hlt)]
    exact hl

namespace Run

variable {α β : Type}

theorem Truncates.of_sameEnd {m : Run α} (houtputs : Leaves Outputs m)
    (h : ∀ s t, Abreast p q n s t → SameEnd (Abreast p q n) Eq (m s) (m t)) :
    Truncates p q n m := ⟨houtputs, fun s t hst => .inl (h s t hst)⟩

theorem Truncates.bind {m : Run α} {next : α → Run β} (hm : Truncates p q n m)
    (hnext : ∀ a, Truncates p q n (next a)) : Truncates p q n (m >>= next) := by
  refine ⟨hm.outputs.bind steps_output.trans fun a => (hnext a).outputs, fun s t hst => ?_⟩
  have hrun := hm.alike s t hst
  have hmore : Outputs (m.after s) ((m >>= next).after s) := by
    rw [after_bind]
    unfold after
    rcases m s with ⟨a, u⟩ | ⟨e, u⟩
    · exact (hnext a).outputs u
    · exact Sink.Continues.refl u.sink
  rcases hrun with hsame | ⟨u, hfull, hcut⟩
  · rw [after_bind]
    change SameEnd _ _ (EStateM.bind m next s) (EStateM.bind m next t) ∨
      ∃ u, EStateM.bind m next t = _ ∧ _
    unfold EStateM.bind
    generalize m s = r, m t = r' at hsame
    cases hsame with
    | ok hab hst =>
      cases hab
      exact (hnext _).alike _ _ hst
    | error e hst => exact .inl (.error e hst)
  · refine .inr ⟨u, ?_, hcut.continues hmore⟩
    change EStateM.bind m next t = _
    unfold EStateM.bind
    rw [hfull]

/-! ## The steps -/

theorem read_truncates (name : Token) : Truncates p q n (read name) := by
  refine .of_sameEnd (leaves_read steps_output.refl name) ?_
  rintro _ _ ⟨heap, active, hb⟩
  unfold read
  dsimp only
  cases heap.get? active name.lexeme with
  | none => exact .error _ ⟨heap, active, hb⟩
  | some value => exact .ok rfl ⟨heap, active, hb⟩

theorem assign_truncates (name : Token) (value : Value) : Truncates p q n (assign name value) := by
  refine .of_sameEnd (assign_outputs name value) ?_
  rintro _ _ ⟨heap, active, hb⟩
  unfold assign
  dsimp only
  cases heap.owner? active name.lexeme with
  | none => exact .error _ ⟨heap, active, hb⟩
  | some owner => exact .ok rfl ⟨heap.define owner name.lexeme value, active, hb⟩

/-- A line that does not fit is cut where the sink is full. -/
theorem printLine_truncates (text : String) : Truncates p q n (printLine text) := by
  refine ⟨printLine_outputs text, ?_⟩
  rintro _ _ ⟨heap, active, hb⟩
  next b =>
  generalize hline : (text ++ "\n").toUTF8 = line
  have hfirst : printLine text ⟨heap, active, ⟨p ++ b, none, false⟩⟩ =
      .ok () ⟨heap, active, ⟨p ++ (b ++ line), none, false⟩⟩ := by
    rw [← ByteArray.append_assoc, ← hline]
    rfl
  have hroom : q.size + n - (q ++ b).size = n - b.size := by
    rw [ByteArray.size_append]
    omega
  have hsecond : printLine text ⟨heap, active, ⟨q ++ b, some (q.size + n), false⟩⟩ =
      if (b ++ line).size ≤ n then
        .ok () ⟨heap, active, ⟨q ++ (b ++ line.extract 0 (n - b.size)), some (q.size + n), false⟩⟩
      else .error (.failure (.sink .full))
        ⟨heap, active, ⟨q ++ (b ++ line.extract 0 (n - b.size)), some (q.size + n), false⟩⟩ := by
    have hfits : (q ++ b).size + line.size ≤ q.size + n ↔ (b ++ line).size ≤ n := by
      rw [ByteArray.size_append, ByteArray.size_append]
      omega
    unfold printLine Sink.fits Sink.write Sink.accepted
    simp only [hline, hroom, ByteArray.append_assoc, decide_eq_true_eq, hfits]
    rfl
  have hafter : (printLine text).after ⟨heap, active, ⟨p ++ b, none, false⟩⟩ =
      ⟨heap, active, ⟨p ++ (b ++ line), none, false⟩⟩ := by
    unfold after
    rw [hfirst]
  rw [hfirst, hsecond, hafter]
  by_cases hfits : (b ++ line).size ≤ n
  · have hline : line.size ≤ n - b.size := by
      rw [ByteArray.size_append] at hfits
      omega
    rw [if_pos hfits, extract_of_size_le hline]
    exact .inl (.ok rfl ⟨heap, active, hfits⟩)
  · rw [if_neg hfits, ← extract_append_of_ge line hb]
    exact .inr ⟨_, rfl, Nat.lt_of_not_le hfits, rfl, rfl⟩

theorem inside_truncates {α : Type} (outer : ScopeId) (bindings : List (String × Value))
    {body : Run α} (hbody : Truncates p q n body) :
    Truncates p q n (inside outer bindings body) := by
  refine ⟨inside_outputs outer bindings body hbody.outputs, ?_⟩
  rintro _ _ ⟨heap, active, hb⟩
  next b =>
  have hrun := hbody.alike _ _ ⟨heap.addScope outer bindings, heap.nextScope, hb⟩
  unfold inside within after at *
  dsimp only at *
  generalize body ⟨heap.addScope outer bindings, heap.nextScope, ⟨p ++ b, none, false⟩⟩ = r,
    body ⟨heap.addScope outer bindings, heap.nextScope,
      ⟨q ++ b, some (q.size + n), false⟩⟩ = r' at hrun ⊢
  rcases hrun with hsame | ⟨u, rfl, hcut⟩
  · left
    cases hsame with
    | ok hab hst =>
      obtain ⟨heap', _, hb'⟩ := hst
      exact .ok hab ⟨heap', active, hb'⟩
    | error e hst =>
      obtain ⟨heap', _, hb'⟩ := hst
      exact .error e ⟨heap', active, hb'⟩
  · refine .inr ⟨{ u with active := active }, rfl, ?_⟩
    cases r <;> exact hcut

theorem steps_truncate : Compositional (Truncates p q n) where
  pure := fun a => .of_sameEnd (leaves_pure steps_output.refl a) fun _ _ hst => .ok rfl hst
  bind := Truncates.bind
  outOfFuel :=
    .of_sameEnd (leaves_outOfFuel steps_output.refl) fun _ _ hst => .error _ hst
  failAt := fun token fault =>
    .of_sameEnd (leaves_failAt steps_output.refl token fault) fun _ _ hst => .error _ hst
  read := read_truncates
  define := fun name value => by
    refine .of_sameEnd (steps_output.define name value) ?_
    rintro _ _ ⟨heap, active, hb⟩
    exact .ok rfl ⟨heap.define active name.lexeme value, active, hb⟩
  assign := assign_truncates
  declare := fun declaration => by
    refine .of_sameEnd (steps_output.declare declaration) ?_
    rintro _ _ ⟨heap, active, hb⟩
    exact .ok rfl ⟨heap.declare active declaration, active, hb⟩
  printLine := printLine_truncates
  inside := inside_truncates
  nested := fun hbody => by
    refine ⟨fun s => inside_outputs s.active [] _ hbody.outputs s, ?_⟩
    rintro _ _ ⟨heap, active, hb⟩
    exact (inside_truncates active [] hbody).alike _ _ ⟨heap, active, hb⟩

end Run

/-! ## Runs that end -/

theorem run_outputs (fuel : Nat) (task : Task) : Leaves Outputs (task.run fuel) := by
  have runs := steps_output.runs fuel
  cases task with
  | evaluate e => exact runs.evaluate e
  | evaluateAll es => exact runs.evaluateAll es
  | call function values => exact runs.call function values
  | execute statement => exact runs.execute statement
  | executeAll statements => exact runs.executeAll statements

theorem run_truncates (fuel : Nat) (task : Task) : Truncates p q n (task.run fuel) :=
  steps_truncate.run fuel task

section

variable {α : Type} {m : Nat → Run α} (hm : ∀ fuel, Truncates p q n (m fuel)) {s t : State}
  (hst : Abreast p q n s t)
include hm hst

theorem ends_abreast {f : Finished α} (hf : Ends m s f) :
    (∃ u, Ends m t ⟨f.result, u⟩ ∧ Abreast p q n f.state u) ∨
      ∃ u, Ends m t ⟨.error (.sink .full), u⟩ ∧ Sink.CutOff p q n f.state.sink u.sink := by
  obtain ⟨fuel, hfuel⟩ := hf
  rcases (hm fuel).alike s t hst with hsame | ⟨u, hfull, hcut⟩
  · unfold finish at hfuel
    generalize hr : m fuel s = r at hsame hfuel
    generalize hr' : m fuel t = r' at hsame
    cases hsame with
    | @ok a b u v hab huv =>
      cases hab
      cases hfuel
      exact .inl ⟨v, ⟨fuel, by rw [finish, hr']⟩, huv⟩
    | @error e u v huv =>
      cases e with
      | outOfFuel => cases hfuel
      | failure failure =>
        cases hfuel
        exact .inl ⟨v, ⟨fuel, by rw [finish, hr']⟩, huv⟩
  · have hleft : (m fuel).after s = f.state := by
      unfold after
      unfold finish at hfuel
      rcases hr : m fuel s with ⟨a, v⟩ | ⟨⟨failure⟩ | _, v⟩ <;> rw [hr] at hfuel <;> cases hfuel <;>
        rfl
    exact .inr ⟨u, ⟨fuel, by rw [finish, hfull]⟩, hleft ▸ hcut⟩

theorem ends_abreast_ok {a : α} {u : State} (hu : Ends m t ⟨.ok a, u⟩) :
    ∃ v, Ends m s ⟨.ok a, v⟩ ∧ Abreast p q n v u := by
  obtain ⟨fuel, hfuel⟩ := hu
  unfold finish at hfuel
  rcases (hm fuel).alike s t hst with hsame | ⟨v, hfull, _⟩
  · generalize hr : m fuel s = r at hsame
    generalize m fuel t = r' at hsame hfuel
    cases hsame with
    | @ok _ _ v _ hab hvu =>
      cases hab
      cases hfuel
      exact ⟨v, ⟨fuel, by rw [finish, hr]⟩, hvu⟩
    | error e => cases e <;> cases hfuel
  · rw [hfull] at hfuel
    cases hfuel

end

/-- The sink has not got more than `n` bytes since `p`. -/
def Sink.InTime (p : ByteArray) (n : Nat) (k : Sink) : Prop := k.written.size ≤ p.size + n

theorem Sink.Continues.inTime {k l : Sink} (h : k.Continues l) (hl : l.InTime p n) :
    k.InTime p n := by
  obtain ⟨more, hmore⟩ := h.written
  unfold InTime at *
  rw [hmore, ByteArray.size_append] at hl
  omega

theorem Sink.CutOff.late {k l : Sink} (h : CutOff p q n k l) : ¬k.InTime p n := by
  obtain ⟨hlt, hk, _⟩ := h
  unfold InTime
  rw [hk, ByteArray.size_append]
  omega

theorem State.Abreast.nested {s t : State} (h : Abreast p q n s t) :
    Abreast p q n s.nested t.nested := by
  obtain ⟨heap, active, hb⟩ := h
  exact ⟨heap.addScope active [], heap.nextScope, hb⟩

theorem State.Abreast.entered (function : Function) (values : List Value) {s t : State}
    (h : Abreast p q n s t) :
    Abreast p q n (function.entered values s) (function.entered values t) := by
  obtain ⟨heap, active, hb⟩ := h
  exact ⟨heap.addScope function.closure (function.bindings values), heap.nextScope, hb⟩

/-- Whatever begins before the output is too long begins at the other sink too. -/
theorem mirrored_inTime : Mirrored (Sink.InTime p n) (Abreast p q n) where
  ends := by
    intro task a s t u hst hu htime
    rcases ends_abreast (fun fuel => run_truncates fuel task) hst hu with hsame | ⟨_, _, hcut⟩
    · exact hsame
    · exact absurd htime hcut.late
  before := by
    rintro task f s ⟨fuel, hfuel⟩ htime
    exact Sink.Continues.inTime ((run_outputs fuel task).finish hfuel) htime
  nested := Abreast.nested
  entered := fun function values _ _ h => h.entered function values

/-- Whatever begins at the limited sink begins at the other. -/
theorem mirrored_limited : Mirrored (fun _ => True) fun t s => Abreast p q n s t where
  ends := fun task _ _ _ _ hst hu _ =>
    ends_abreast_ok (fun fuel => run_truncates fuel task) hst hu
  before := fun _ _ _ _ _ => trivial
  nested := Abreast.nested
  entered := fun function values _ _ h => h.entered function values

/-- Flushing succeeds at both sinks. -/
theorem interpret_truncates (fuel : Nat) (program : List Stmt) :
    Truncates p q n (interpret fuel program) := by
  apply (run_truncates fuel (.executeAll program)).bind
  intro flow
  refine .of_sameEnd (leaves_flush steps_output.refl) ?_
  rintro _ _ ⟨heap, active, hb⟩
  exact .ok rfl ⟨heap, active, hb⟩

/-- If a sink that can be flushed stops a program, it is full. -/
theorem interpret_overflows {program : List Stmt} {s t : State} {fault : SinkFault}
    (hflush : s.sink.flushFails = false)
    (h : Ends (interpret · program) s ⟨.error (.sink fault), t⟩) :
    Overflows ⟨.executeAll program, s⟩ t.heap := by
  rcases ends_interpret.1 h with ⟨flow, u, hexecutes, hflushed⟩ | ⟨failure, u, hexecutes, ⟨⟩⟩
  · have hfails : u.sink.flushFails = false :=
      (executes_outputs hexecutes).flushFails.trans hflush
    rw [flushed, hfails] at hflushed
    cases hflushed
  · obtain ⟨fuel, hfuel⟩ := ends_executeAll.2 hexecutes
    have hrun : ((Task.executeAll program).run fuel).finish s = some _ := hfuel
    exact run_overflows hrun

/-! ## Two runs of one program -/

section

variable (p q : ByteArray) (n : Nat)

/-- What begins in the run from `s` before its output is too long begins in the run from `t`. All
that begins there begins in the run from `s`, in the same heap and scope, and has the same value. -/
structure Together (task : Task) (s t : State) : Prop where
  forth : ∀ m, Begins ⟨task, s⟩ m → m.state.sink.InTime p n →
    ∃ v, Begins ⟨task, t⟩ ⟨m.task, v⟩ ∧ Abreast p q n m.state v
  back : ∀ m, Begins ⟨task, t⟩ m →
    ∃ u, Begins ⟨task, s⟩ ⟨m.task, u⟩ ∧ Abreast p q n u m.state ∧
      ∀ (a : m.task.Result) (v : State), Ends (m.task.run ·) m.state ⟨.ok a, v⟩ →
        ∃ w, Ends (m.task.run ·) u ⟨.ok a, w⟩ ∧ Abreast p q n w v

/-- A print statement begins within the moment and comes to its line in time, with `heap` as it is
then, and the line makes the output too long. -/
def Crosses (m : Moment) (heap : Heap) : Prop :=
  ∃ (printed : Expr) (value : Value) (u v : State), Begins m ⟨.execute (.print printed), u⟩ ∧
    Ends (evaluate · printed) u ⟨.ok value, v⟩ ∧ v.heap = heap ∧ v.sink.InTime p n ∧
    ¬(v.sink.write (value.text ++ "\n").toUTF8).InTime p n

end

theorem together {s t : State} (hst : Abreast p q n s t) (task : Task) :
    Together p q n task s t where
  forth := fun _ hm htime => Begins.mirrored mirrored_inTime hm htime hst
  back := by
    intro m hm
    obtain ⟨u, hu, hum⟩ := Begins.mirrored mirrored_limited hm trivial hst
    exact ⟨u, hu, hum, fun _ _ hv => ends_abreast_ok (fun fuel => run_truncates fuel m.task) hum hv⟩

theorem State.Abreast.inTime {s t : State} (hst : Abreast p q n s t) : s.sink.InTime p n := by
  obtain ⟨heap, active, hb⟩ := hst
  unfold Sink.InTime
  rw [ByteArray.size_append]
  omega

/-- A line that does not fit in is too long. -/
theorem State.Abreast.late {s t : State} (hst : Abreast p q n s t) {line : ByteArray}
    (hfits : t.sink.fits line = false) : ¬(s.sink.write line).InTime p n := by
  obtain ⟨heap, active, hb⟩ := hst
  simp only [Sink.fits, decide_eq_false_iff_not, ByteArray.size_append] at hfits
  simp only [Sink.InTime, Sink.write, Sink.accepted, ByteArray.size_append]
  omega

theorem crosses_of_overflows {s t : State} (hst : Abreast p q n s t) {task : Task} {heap : Heap}
    (h : Overflows ⟨task, t⟩ heap) : Crosses p n ⟨task, s⟩ heap := by
  obtain ⟨printed, value, u, v, hbegins, hvalue, hfits, rfl⟩ := h
  obtain ⟨u', hbegins', huu, _⟩ := (together hst task).back _ hbegins
  obtain ⟨v', hvalue', hvv⟩ :=
    ends_abreast_ok (fun fuel => run_truncates fuel (.evaluate printed)) huu hvalue
  refine ⟨printed, value, u', v', hbegins', hvalue', ?_, hvv.inTime, hvv.late hfits⟩
  cases hvv
  rfl

/-- A sink with `p` in it that takes everything. -/
def Sink.endless (p : ByteArray) : Sink := ⟨p, none, false⟩

/-- A sink with `q` in it that takes `n` bytes more. -/
def Sink.roomy (q : ByteArray) (n : Nat) : Sink := ⟨q, some (q.size + n), false⟩

theorem State.abreast_start (heap : Heap) (active : ScopeId) :
    Abreast p q n ⟨heap, active, .endless p⟩ ⟨heap, active, .roomy q n⟩ := by
  have h := Abreast.intro (p := p) (q := q) heap active (b := .empty) (Nat.zero_le n)
  rwa [ByteArray.append_empty, ByteArray.append_empty] at h

/-- A program that ends at a sink that takes everything ends at a sink that takes `n` bytes, with
the first `n` bytes of the output. If that is all of it, nothing else differs. If not, the result is
that the sink is full, and the heap is left as it was in front of the line that did not fit. Up to
there all goes alike. -/
theorem full_sink_truncates (program : List Stmt) (heap : Heap) (active : ScopeId)
    (p q : ByteArray) (n : Nat) (f : Finished Unit)
    (hf : Ends (interpret · program) ⟨heap, active, .endless p⟩ f) :
    ∃ (b : ByteArray) (g : Finished Unit), f.state.sink.written = p ++ b ∧
      Ends (interpret · program) ⟨heap, active, .roomy q n⟩ g ∧
      g.state.sink.written = q ++ b.extract 0 (min n b.size) ∧
      (b.size ≤ n → g.result = f.result ∧ g.state.heap = f.state.heap ∧
        g.state.active = f.state.active) ∧
      (n < b.size → g.result = .error (.sink .full) ∧
        Crosses p n ⟨.executeAll program, ⟨heap, active, .endless p⟩⟩ g.state.heap) ∧
      Together p q n (.executeAll program) ⟨heap, active, .endless p⟩
        ⟨heap, active, .roomy q n⟩ := by
  have hstart := State.abreast_start (p := p) (q := q) (n := n) heap active
  rcases ends_abreast (interpret_truncates · program) hstart hf with
    ⟨u, hends, habreast⟩ | ⟨u, hends, hcut⟩
  · obtain ⟨result, v⟩ := f
    obtain ⟨heap', active', hb⟩ := habreast
    next b =>
    have hall : b.extract 0 (min n b.size) = b := by
      rw [Nat.min_eq_right hb, ByteArray.extract_zero_size]
    refine ⟨b, _, rfl, hends, by rw [hall], fun _ => ⟨rfl, rfl, rfl⟩, ?_, together hstart _⟩
    exact fun hlt => absurd hb (Nat.not_le_of_lt hlt)
  · obtain ⟨hlt, hwritten, hwritten'⟩ := hcut
    next b =>
    have hcrosses := crosses_of_overflows hstart (interpret_overflows rfl hends)
    refine ⟨b, _, hwritten, hends, ?_, ?_, fun _ => ⟨rfl, hcrosses⟩, together hstart _⟩
    · rw [Nat.min_eq_left (Nat.le_of_lt hlt)]
      exact hwritten'
    · exact fun hle => absurd hlt (Nat.not_lt_of_le hle)

/-- Prints two lines, the second of them with an assignment. -/
def twoLines : List Stmt :=
  [.varDecl (named "x") none, .print (.literal (.string "ab")),
    .print (.assign (named "x") (.literal (.string "cd")))]

/-- The second line is cut in the middle; the assignment in it is done. -/
theorem twoLines_cut : ∃ (f g : Finished Unit),
    Ends (interpret · twoLines) (.initial (.endless .empty)) f ∧
    f.state.sink.written = "ab\ncd\n".toUTF8 ∧
    Ends (interpret · twoLines) (.initial (.roomy .empty 4)) g ∧
    g.state.sink.written = "ab\nc".toUTF8 ∧ g.result = .error (.sink .full) ∧
    Crosses .empty 4 ⟨.executeAll twoLines, .initial (.endless .empty)⟩ g.state.heap := by
  have hf : Ends (interpret · twoLines) (.initial (.endless .empty)) _ := ⟨10, rfl⟩
  obtain ⟨b, g, hb, hg, hwritten, _, hlate, _⟩ :=
    full_sink_truncates twoLines Heap.empty Heap.globals .empty .empty 4 _ hf
  rw [ByteArray.empty_append] at hb hwritten
  subst hb
  obtain ⟨hresult, hcrosses⟩ := hlate (by decide)
  exact ⟨_, g, hf, by decide, hg, hwritten.trans (by decide), hresult, hcrosses⟩

end TreeWalk
