import TreeWalk.Proofs.Machine.InFlight
import TreeWalk.Proofs.Machine.Owners

/-!
The identity of functions. A function value is known by its number alone when values are compared,
so that all that is said by a comparison rests on the numbers: each belongs to one function, whose
declaration and scope are those it was made with, and a number once given is not given again.
-/

namespace TreeWalk

open Run

/-- The function is a value in flight, or some scope binds it. -/
def State.Has (s : State) (vs : List Value) (f : Function) : Prop :=
  .function f ∈ vs ∨ ∃ (i : ScopeId) (scope : Scope) (name : String),
    s.heap.scopes[i]? = some scope ∧ (name, .function f) ∈ scope.bindings

/-- Functions that compare equal come from one declaration in one scope. -/
def State.Identifies (s : State) (vs : List Value) : Prop :=
  ∀ f g : Function, s.Has vs f → s.Has vs g → (Value.function f).equal (.function g) = true →
    f.declaration = g.declaration ∧ f.closure = g.closure

/-! ## The functions made so far -/

/-- The value is no function, or the function that was made under its number. -/
def Value.Made (functions : List Function) (v : Value) : Prop :=
  ∀ f, v = .function f → functions[f.id]? = some f

/-- These functions were made, one after another, and all those in scopes are among them. -/
structure State.Made (functions : List Function) (s : State) : Prop where
  count : s.heap.functions = functions.length
  scopes : s.heap.Every (Value.Made functions)

theorem Value.Made.mono {functions more : List Function} {v : Value} (h : v.Made functions)
    (hmore : functions <+: more) : v.Made more := by
  intro f hf
  obtain ⟨rest, rfl⟩ := hmore
  obtain ⟨hlt, hat⟩ := List.getElem?_eq_some_iff.1 (h f hf)
  rw [List.getElem?_append_left hlt]
  exact List.getElem?_eq_some_iff.2 ⟨hlt, hat⟩

theorem Heap.Every.imp {P Q : Value → Prop} {h : Heap} (hh : h.Every P) (hPQ : ∀ v, P v → Q v) :
    h.Every Q := fun i scope hi b hb => hPQ b.2 (hh i scope hi b hb)

/-- A declaration makes the next function, and all other steps make none. -/
theorem made_sustained :
    Sustained (· <+: ·) (· <+: ·) State.Made Value.Made (fun _ _ => True) where
  refl := fun _ => List.prefix_rfl
  trans := List.IsPrefix.trans
  grows := fun hmore hv => hv.mono hmore
  enters := fun hmore hv => hv.mono hmore
  stands := fun _ _ => trivial
  branches := fun _ => ⟨trivial, fun _ _ => trivial⟩
  round := fun _ => trivial
  plain := by
    rintro functions v hplain f rfl
    exact hplain.elim
  found := fun hs hget => hs.scopes.get? hget
  define := fun hs hv _ => ⟨hs.count, hs.scopes.define _ _ hv⟩
  declare := by
    intro functions s declaration hs _
    have hmore : functions <+: functions ++ [⟨s.heap.functions, declaration, s.active⟩] :=
      List.prefix_append _ _
    have hscopes : Heap.Every
        (Value.Made (functions ++ [⟨s.heap.functions, declaration, s.active⟩]))
        { s.heap with functions := s.heap.functions + 1 } :=
      hs.scopes.imp fun v hv => hv.mono hmore
    refine ⟨_, hmore, ?_, hscopes.define s.active _ ?_⟩
    · rw [List.length_append, ← hs.count]
      rfl
    · rintro f ⟨⟩
      rw [hs.count]
      exact List.getElem?_concat_length
  sink := fun _ hs => ⟨hs.count, hs.scopes⟩
  block := fun {functions s _} hs _ =>
    ⟨functions, List.prefix_rfl, ⟨hs.count, hs.scopes.addScope s.active (by simp)⟩,
      fun _ _ => trivial⟩
  body := fun {functions s function values} hs _ hvalues =>
    ⟨functions, List.prefix_rfl,
      ⟨hs.count, hs.scopes.addScope function.closure (Scope.mem_putAll _ hvalues)⟩,
      fun _ _ => trivial⟩
  back := fun _ hentered hmore ht =>
    ⟨_, hentered.trans hmore, ⟨ht.count, ht.scopes⟩, fun _ hv => hv⟩

theorem made_initial (sink : Sink) : State.Made [] (.initial sink) := ⟨rfl, Heap.every_empty⟩

namespace State.Made

variable {functions : List Function} {s : State} (hs : s.Made functions) {vs : List Value}
  (hvs : ∀ v ∈ vs, v.Made functions)
include hs hvs

theorem has {f : Function} (h : s.Has vs f) : functions[f.id]? = some f := by
  rcases h with hf | ⟨i, scope, name, hi, hf⟩
  · exact hvs _ hf f rfl
  · exact hs.scopes i scope hi _ hf f rfl

theorem identifies : s.Identifies vs := by
  intro f g hf hg hequal
  have hid : f.id = g.id := beq_iff_eq.1 hequal
  have hfound := hs.has hvs hf
  rw [hid, hs.has hvs hg] at hfound
  cases hfound
  exact ⟨rfl, rfl⟩

/-- No function there is has the number of the next one. -/
theorem fresh {f : Function} (h : s.Has vs f) (declaration : FunDecl) (closure : ScopeId) :
    (Value.function ⟨s.heap.functions, declaration, closure⟩).equal (.function f) = false := by
  have hlt := (List.getElem?_eq_some_iff.1 (hs.has hvs h)).1
  rw [← hs.count] at hlt
  exact beq_eq_false_iff_ne.2 (Nat.ne_of_gt hlt)

end State.Made

/-! ## Values on their way -/

theorem Scope.lookup_putAll_of_notMem {name : String} : ∀ {names : List String}
    {values : List Value} {bindings : List (String × Value)}, name ∉ names →
    ((names.zip values).foldl (fun bs b => Scope.put b.1 b.2 bs) bindings).lookup name =
      bindings.lookup name
  | [], _, _, _ => rfl
  | _ :: _, [], _, _ => rfl
  | other :: names, value :: values, bindings, hname => by
    rw [List.mem_cons, not_or] at hname
    obtain ⟨hother, hnames⟩ := hname
    rw [List.zip_cons_cons, List.foldl_cons, lookup_putAll_of_notMem hnames, lookup_put,
      if_neg hother]

/-- Of the values bound to one name, the last is found. -/
theorem Scope.lookup_putAll {name : String} {value : Value} : ∀ {names : List String}
    {values : List Value} {bindings : List (String × Value)} {i : Nat}, names[i]? = some name →
    values[i]? = some value → (∀ j, i < j → names[j]? ≠ some name) →
    ((names.zip values).foldl (fun bs b => Scope.put b.1 b.2 bs) bindings).lookup name = some value
  | first :: names, v :: values, bindings, 0, hname, hvalue, hlast => by
    cases hname
    cases hvalue
    have hnot : name ∉ names := by
      intro hmem
      obtain ⟨j, hj⟩ := List.getElem?_of_mem hmem
      exact hlast (j + 1) (Nat.succ_pos j) hj
    rw [List.zip_cons_cons, List.foldl_cons, lookup_putAll_of_notMem hnot, lookup_put, if_pos rfl]
  | first :: names, v :: values, bindings, i + 1, hname, hvalue, hlast => by
    rw [List.zip_cons_cons, List.foldl_cons]
    exact lookup_putAll (i := i) hname hvalue fun j hj => hlast (j + 1) (Nat.succ_lt_succ hj)

/-- From the state on, a value that is read, assigned, bound to a name, passed or returned is what
is found, bound or given then. -/
structure State.HandsOn (s : State) : Prop where
  read : ∀ (name : Token) (v : Value), s.heap.get? s.active name.lexeme = some v →
    Ends (evaluate · (.reference name)) s ⟨.ok v, s⟩
  assigned : ∀ (name : Token) (e : Expr) (v : Value) (t : State) (owner : ScopeId),
    Ends (evaluate · e) s ⟨.ok v, t⟩ → t.heap.owner? t.active name.lexeme = some owner →
    ∃ u, Ends (evaluate · (.assign name e)) s ⟨.ok v, u⟩ ∧
      u.heap.get? u.active name.lexeme = some v
  bound : ∀ (name : Token) (e : Expr) (v : Value) (t : State), Ends (evaluate · e) s ⟨.ok v, t⟩ →
    ∃ u, Ends (execute · (.varDecl name (some e))) s ⟨.ok .normal, u⟩ ∧
      u.heap.get? u.active name.lexeme = some v
  gathered : ∀ (e : Expr) (es : List Expr) (v : Value) (vs : List Value) (t u : State),
    Ends (evaluate · e) s ⟨.ok v, t⟩ → Ends (evaluateAll · es) t ⟨.ok vs, u⟩ →
    Ends (evaluateAll · (e :: es)) s ⟨.ok (v :: vs), u⟩
  passed : ∀ (callee : Expr) (paren : Token) (arguments : List Expr) (function : Function)
    (values : List Value) (t u : State), Ends (evaluate · callee) s ⟨.ok (.function function), t⟩ →
    Ends (evaluateAll · arguments) t ⟨.ok values, u⟩ → values.length = function.arity →
    Within ⟨.evaluate (.call callee paren arguments), s⟩
      ⟨.executeAll function.declaration.body, function.entered values u⟩ ∧
    ∀ (i : Nat) (parameter : Token) (v : Value),
      function.declaration.params[i]? = some parameter → values[i]? = some v →
      (∀ (j : Nat) (other : Token), i < j → function.declaration.params[j]? = some other →
        other.lexeme ≠ parameter.lexeme) →
      (function.entered values u).heap.get? (function.entered values u).active parameter.lexeme =
        some v
  returned : ∀ (keyword : Token) (e : Expr) (v : Value) (t : State),
    Ends (evaluate · e) s ⟨.ok v, t⟩ →
    Ends (execute · (.returnValue keyword (some e))) s ⟨.ok (.returned v), t⟩
  came : ∀ (callee : Expr) (paren : Token) (arguments : List Expr) (function : Function)
    (values : List Value) (v : Value) (t u w : State),
    Ends (evaluate · callee) s ⟨.ok (.function function), t⟩ →
    Ends (evaluateAll · arguments) t ⟨.ok values, u⟩ → values.length = function.arity →
    Executes (function.entered values u) function.declaration.body ⟨.ok (.returned v), w⟩ →
    Ends (evaluate · (.call callee paren arguments)) s ⟨.ok v, { w with active := u.active }⟩

/-- A run that starts with the value of an expression and needs no fuel for the rest. -/
theorem ends_evaluated {β : Type} {e : Expr} {v : Value} {s t : State} {f : Finished β}
    (h : Ends (evaluate · e) s ⟨.ok v, t⟩) {next : Value → Run β}
    (hnext : (next v).finish t = some f) : Ends (fun fuel => evaluate fuel e >>= next) s f :=
  (ends_bind (growing_evaluate e) fun v => growing_const (next v)).2 (.inl ⟨v, t, h, 0, hnext⟩)

/-- An assignment gives the nearest binding of the name its new value. -/
theorem ends_assign {name : Token} {e : Expr} {v : Value} {s t : State} {owner : ScopeId}
    (h : Ends (evaluate · e) s ⟨.ok v, t⟩)
    (howner : t.heap.owner? t.active name.lexeme = some owner) :
    Ends (evaluate · (.assign name e)) s
      ⟨.ok v, { t with heap := t.heap.define owner name.lexeme v }⟩ := by
  obtain ⟨heap, active, sink⟩ := t
  rw [ends_succ rfl]
  have hassigned : (assign name v).finish ⟨heap, active, sink⟩ =
      some ⟨.ok (), ⟨heap.define owner name.lexeme v, active, sink⟩⟩ := by
    unfold Run.finish
    rw [assign_eq, howner]
  exact ends_evaluated h (finish_bind.2 (.inl ⟨(), _, hassigned, rfl⟩))

theorem State.Sound.evaluated {s t : State} (hs : s.Sound 0) {e : Expr} {v : Value}
    (h : Ends (evaluate · e) s ⟨.ok v, t⟩) : t.Sound 0 ∧ v.Below t.heap.scopes.size := by
  obtain ⟨_, _, ⟨ht, rfl⟩, hv⟩ := sound_sustained.evaluated
    ⟨⟨hs.tree, hs.active, Nat.le_refl _⟩, rfl⟩ h
  exact ⟨ht.weaken (Nat.zero_le _), hv⟩

/-- In a called function a parameter is the argument in its place. -/
theorem State.Sound.get?_entered {n : Nat} {s : State} (hs : s.Sound n) {function : Function}
    (hclosure : function.closure < s.heap.scopes.size) {values : List Value}
    (hvalues : ∀ v ∈ values, v.Below s.heap.scopes.size) {i : Nat} {parameter : Token} {v : Value}
    (hparameter : function.declaration.params[i]? = some parameter) (hv : values[i]? = some v)
    (hlast : ∀ (j : Nat) (other : Token), i < j →
      function.declaration.params[j]? = some other → other.lexeme ≠ parameter.lexeme) :
    (function.entered values s).heap.get? (function.entered values s).active parameter.lexeme =
      some v := by
  have hentered : (function.entered values s).Sound (s.heap.scopes.size + 1) :=
    hs.entered hclosure (Scope.mem_putAll _ hvalues)
  have hname : (function.declaration.params.map (·.lexeme))[i]? = some parameter.lexeme := by
    rw [List.getElem?_map, hparameter]
    rfl
  have hfound : (function.bindings values).lookup parameter.lexeme = some v := by
    refine Scope.lookup_putAll hname hv fun j hj hsame => ?_
    rw [List.getElem?_map] at hsame
    obtain ⟨other, hother, hlexeme⟩ := Option.map_eq_some_iff.1 hsame
    exact hlast j other hj hother hlexeme
  have hscope : (function.entered values s).heap.scopes[(function.entered values s).active]? =
      some ⟨function.bindings values, some function.closure⟩ := Array.getElem?_push_size
  rw [hentered.tree.founded.get?_eq parameter.lexeme hscope]
  exact congrArg (Option.or · _) hfound

theorem State.Sound.handsOn {s : State} (hs : s.Sound 0) : s.HandsOn where
  read := by
    intro name v hget
    rw [ends_succ rfl]
    refine ⟨0, ?_⟩
    change Run.finish (Run.read name) s = _
    unfold Run.finish Run.read
    rw [hget]
  assigned := by
    intro name e v t owner hvalue howner
    have htree := (hs.evaluated hvalue).1.tree
    refine ⟨_, ends_assign hvalue howner, ?_⟩
    exact htree.founded.get?_define_of_meets (htree.founded.owner?_eq_some_iff.1 howner).1 v
  bound := by
    intro name e v t hvalue
    have ht := (hs.evaluated hvalue).1
    refine ⟨⟨t.heap.define t.active name.lexeme v, t.active, t.sink⟩, ?_, ?_⟩
    · rw [ends_succ rfl]
      exact ends_evaluated hvalue rfl
    · exact ht.tree.founded.get?_define_of_meets (.here ht.active) v
  gathered := by
    intro e es v vs t u hvalue hvalues
    rw [ends_succ rfl]
    simp only [evaluateAll]
    have hgrowing : ∀ v, Growing fun fuel => evaluateAll fuel es >>= fun vs => pure (v :: vs) :=
      fun v => (growing_evaluateAll es).bind fun vs => growing_const (pure (v :: vs))
    have hmore : Ends (fun fuel => evaluateAll fuel es >>= fun vs => pure (v :: vs)) t
        ⟨.ok (v :: vs), u⟩ :=
      (ends_bind (growing_evaluateAll es) fun vs => growing_const (pure (v :: vs))).2
        (.inl ⟨vs, u, hvalues, 0, rfl⟩)
    exact (ends_bind (growing_evaluate e) hgrowing).2 (.inl ⟨v, t, hvalue, hmore⟩)
  passed := by
    intro callee paren arguments function values t u hcallee harguments harity
    obtain ⟨ht, hfunction⟩ := hs.evaluated hcallee
    obtain ⟨_, hsize, ⟨hu, rfl⟩, hvalues⟩ := sound_sustained.evaluatedAll
      ⟨⟨ht.tree, ht.active, Nat.le_refl _⟩, rfl⟩ harguments
    have hclosure : function.closure < u.heap.scopes.size := hfunction.mono hsize _ rfl
    refine ⟨.tail (.single (.call hcallee harguments harity)) .body, ?_⟩
    exact fun i parameter v => hu.get?_entered hclosure hvalues
  returned := by
    intro keyword e v t hvalue
    rw [ends_succ rfl]
    exact ends_evaluated hvalue rfl
  came := by
    intro callee paren arguments function values v t u w hcallee harguments harity hbody
    exact ends_evaluate_call.2 ⟨function, t, values, u, .returned v, w, hcallee, harguments,
      harity, hbody, rfl, rfl⟩

/-! ## Functions at all moments -/

theorem Occurs.holds {sink : Sink} {m : Moment} {vs : List Value} (h : Occurs sink m vs) :
    m.state.Holds vs := by
  have hinitial := holds_initial sink
  obtain ⟨_, ⟨hs, rfl⟩, hvs⟩ := sound_sustained.occurs h
    ⟨⟨hinitial.sound.tree, hinitial.sound.active, Nat.le_refl _⟩, rfl⟩
  exact ⟨hs.weaken (Nat.zero_le _), hvs⟩

theorem Occurs.sound {sink : Sink} {m : Moment} {vs : List Value} (h : Occurs sink m vs) :
    m.state.Sound 0 := h.holds.sound

/-- In all states that are reached and at all moments on the way, functions that compare equal are
of one declaration and one scope, wherever they are. A declaration that is executed makes a function
that is equal to none there is, and values are handed on as they are, so that a function stays equal
to itself. -/
theorem functions_known_by_identity (sink : Sink) :
    (∀ s vs, Leads (.initial sink) [] s vs → s.Identifies vs) ∧
    (∀ m vs, Occurs sink m vs → m.state.Identifies vs ∧
      ∀ fuel, ((m.task.run fuel).after m.state).Identifies
        ((m.task.run fuel).values m.task.given m.state ++ vs)) ∧
    (∀ declaration s vs, Occurs sink ⟨.execute (.funDecl declaration), s⟩ vs →
      ∃ f t, Ends (execute · (.funDecl declaration)) s ⟨.ok .normal, t⟩ ∧
        t.heap.get? t.active declaration.name.lexeme = some (.function f) ∧
        f.declaration = declaration ∧ f.closure = s.active ∧
        ∀ g, s.Has vs g → (Value.function f).equal (.function g) = false) ∧
    (∀ m vs, Occurs sink m vs → m.state.HandsOn) ∧
    ∀ f, (Value.function f).equal (.function f) = true := by
  refine ⟨?_, ?_, ?_, fun m vs hm => hm.sound.handsOn, fun f => beq_self_eq_true f.id⟩
  · intro s vs hleads
    obtain ⟨functions, _, hs, hvs⟩ := made_sustained.leads hleads (made_initial sink) (by simp)
    exact hs.identifies hvs
  · intro m vs hm
    obtain ⟨functions, hs, hvs⟩ := made_sustained.occurs hm (made_initial sink)
    refine ⟨hs.identifies hvs, fun fuel => ?_⟩
    obtain ⟨more, _, ht, hws⟩ :=
      made_sustained.step fuel _ hs hvs fun v hv => hvs v (hm.given v hv)
    exact ht.identifies hws
  · intro declaration s vs hm
    obtain ⟨functions, hs, hvs⟩ := made_sustained.occurs hm (made_initial sink)
    refine ⟨⟨s.heap.functions, declaration, s.active⟩,
      { s with heap := s.heap.declare s.active declaration }, ⟨1, rfl⟩, ?_, rfl, rfl,
      fun g hg => hs.fresh hvs hg declaration s.active⟩
    have hcounted : Heap.Founded { s.heap with functions := s.heap.functions + 1 } :=
      hm.sound.tree.founded
    exact hcounted.get?_define_of_meets (.here hm.sound.active) _

/-- The maker is called, and called again: what it makes then is not what it made before, which is
in flight. -/
theorem maker_called_again : ∃ (s : State) (f g : Function) (vs : List Value),
    .function f ∈ vs ∧ s.Identifies vs ∧ s.HandsOn ∧ f.declaration = made ∧
    g.declaration = made ∧ (Value.function g).equal (.function f) = false := by
  obtain ⟨_, hmoments, hdeclared, hhanded, _⟩ := functions_known_by_identity .unlimited
  have hmaker := (@Leads.start (.initial .unlimited) []).execute 1 (.funDecl maker)
  have hread := hmaker.evaluate 1 (.reference maker.name)
  have hcallee : .function ⟨0, maker, 0⟩ ∈ [Value.function ⟨0, maker, 0⟩] :=
    List.mem_singleton_self _
  have hcalled := hread.call 10 hcallee (List.forall_mem_nil _)
  have hagain : Occurs .unlimited _ [.function ⟨1, made, 1⟩, .function ⟨0, maker, 0⟩] :=
    .task (.call ⟨0, maker, 0⟩ []) hcalled (by simp [Task.values])
  have hfirst := (hagain.part (.none .body)).part (.none .first)
  obtain ⟨g, _, _, _, hg, _, hunequal⟩ := hdeclared made _ _ hfirst
  have hbefore : .function ⟨1, made, 1⟩ ∈ [Value.function ⟨1, made, 1⟩, .function ⟨0, maker, 0⟩] :=
    List.mem_cons_self
  exact ⟨_, ⟨1, made, 1⟩, g, _, hbefore, (hmoments _ _ hfirst).1, hhanded _ _ hfirst, rfl, hg,
    hunequal _ (.inl hbefore)⟩

end TreeWalk
