import TreeWalk.Proofs.Machine.InnerScopes

/-!
The free names of a function. In the body of a function a name that the body does not declare is
looked for outward from the scope that the function closes over, wherever it is called. That scope
may still be open: as names are looked for when they are used, a name is found where it was when the
function was made, or in a scope further in that has come to bind it since.
-/

namespace TreeWalk

open Run

/-! ## Names in a heap that has grown -/

namespace Heap

/-- The search for a name from a scope comes to `s`, and has to go on from there. -/
def Passes (h : Heap) (name : String) (s i : ScopeId) : Prop :=
  h.Meets name s i ∧ ¬h.Binds name s

variable {h k : Heap} {name : String} {s i o : ScopeId}

theorem Meets.lt (hmeets : h.Meets name s i) : i < h.scopes.size := by
  cases hmeets with
  | here hs => exact hs
  | outward hi => exact (Array.getElem?_eq_some_iff.mp hi).1

theorem Grows.binds (hk : h.Grows k) (hs : h.Binds name s) : k.Binds name s := by
  obtain ⟨scope, hscope, hbinds⟩ := hs
  obtain ⟨kept, hkept, _, hnames, _⟩ := hk s scope hscope
  exact ⟨kept, hkept, hnames name hbinds⟩

/-- If a scope that the search came to binds the name in the end, the search ends there or in one
that it went past. -/
theorem Meets.owner?_grown (hmeets : h.Meets name s i) (hgrows : h.Grows k) (hk : k.Founded)
    (hs : k.Binds name s) :
    ∃ p, k.owner? i name = some p ∧ (p = s ∨ h.Passes name p i) := by
  induction hmeets with
  | here hlt =>
    have hmeets : k.Meets name s s := .here (Nat.lt_of_lt_of_le hlt hgrows.size_le)
    exact ⟨s, hk.owner?_eq_some_iff.2 ⟨hmeets, hs⟩, .inl rfl⟩
  | @outward i outer scope hi hfree houter _ ih =>
    obtain ⟨kept, hkept, henclosing, _⟩ := hgrows i scope hi
    have hlt : i < h.scopes.size := (Array.getElem?_eq_some_iff.mp hi).1
    rw [hk.owner?_eq name hkept, henclosing, houter]
    cases hbinds : kept.binds name with
    | true =>
      have hnot : ¬h.Binds name i := by
        rintro ⟨other, hother, hbound⟩
        cases hi.symm.trans hother
        rw [hfree] at hbound
        cases hbound
      exact ⟨i, rfl, .inr ⟨.here hlt, hnot⟩⟩
    | false =>
      obtain ⟨p, hp, hplace⟩ := ih
      exact ⟨p, hp, hplace.imp_right fun hpasses => ⟨.outward hi hfree houter hpasses.1, hpasses.2⟩⟩

/-- As the heap grows, the owner of a name stays the same until a scope nearer to where the search
begins binds the name. -/
theorem Founded.owner?_grown (hh : h.Founded) (hk : k.Founded) (hgrows : h.Grows k)
    (howner : h.owner? i name = some o) :
    ∃ p, k.owner? i name = some p ∧ (p = o ∨ h.Passes name p i) ∧
      (p = o ↔ ∀ s, h.Passes name s i → ¬k.Binds name s) := by
  obtain ⟨hmeets, hbinds⟩ := hh.owner?_eq_some_iff.1 howner
  obtain ⟨p, hp, hplace⟩ := hmeets.owner?_grown hgrows hk (hgrows.binds hbinds)
  refine ⟨p, hp, hplace, ?_, ?_⟩
  · rintro rfl s hpasses hs
    -- The search would end at `s` or before, and no scope there bound the name.
    obtain ⟨q, hq, hplace'⟩ := hpasses.1.owner?_grown hgrows hk hs
    cases hp.symm.trans hq
    rcases hplace' with rfl | hpasses'
    · exact hpasses.2 hbinds
    · exact hpasses'.2 hbinds
  · intro hnone
    rcases hplace with hsame | hpasses
    · exact hsame
    · exact absurd (hk.owner?_eq_some_iff.1 hp).2 (hnone p hpasses)

/-- From a scope on the way the search comes to the same end. -/
theorem Meets.owner?_eq (hmeets : h.Meets name s i) (hh : h.Founded) :
    h.owner? i name = h.owner? s name := by
  induction hmeets with
  | here => rfl
  | outward hi hfree houter _ ih => simp [hh.owner?_eq name hi, hfree, houter, ih]

theorem Meets.sameName (hmeets : h.Meets name s i) (hk : h.SameName name k) :
    k.Meets name s i := by
  induction hmeets with
  | here hs =>
    obtain ⟨kept, hkept, _⟩ := hk s _ (Array.getElem?_eq_getElem hs)
    exact .here (Array.getElem?_eq_some_iff.mp hkept).1
  | @outward i outer scope hi hfree houter _ ih =>
    obtain ⟨kept, hkept, henclosing, hsame⟩ := hk i scope hi
    exact .outward hkept (hsame.trans hfree) (henclosing.trans houter) ih

/-- From a new scope that does not bind the name the search goes on to the scope around it. -/
theorem Meets.addScope {outer : ScopeId} (hmeets : h.Meets name s outer)
    {bindings : List (String × Value)} (hfree : bindings.lookup name = none) :
    (h.addScope outer bindings).Meets name s h.nextScope := by
  have hadded : (h.addScope outer bindings).scopes[h.nextScope]? = some ⟨bindings, some outer⟩ :=
    Array.getElem?_push_size
  refine .outward hadded ?_ rfl (hmeets.sameName ((h.sameNames_addScope _ _).sameName name))
  rw [Scope.binds, Scope.lookup, hfree]
  rfl

end Heap

/-! ## Code that does not declare a name -/

theorem evaluated_sameName (name : String) {e : Expr} {s : State} {f : Finished Value}
    (h : Ends (evaluate · e) s f) : State.SameName name s f.state := by
  obtain ⟨fuel, hfuel⟩ := h
  exact (((runs_declare fuel).evaluate e).finish hfuel).sameName name

theorem Stmt.Spares.sameName {name : String} {statement : Stmt} (hs : statement.Spares name)
    {s : State} {f : Finished Flow} (h : Ends (execute · statement) s f) :
    State.SameName name s f.state := by
  obtain ⟨fuel, hfuel⟩ := h
  exact (execute_sameName fuel hs.not_binds).finish hfuel

/-- The task is code that does not declare the name. A call is none. -/
inductive Task.Spares (name : String) : Task → Prop
  | evaluate (e : Expr) : Spares name (.evaluate e)
  | evaluateAll (es : List Expr) : Spares name (.evaluateAll es)
  | execute {s : Stmt} : s.Spares name → Spares name (.execute s)
  | executeAll {ss : List Stmt} : (∀ s ∈ ss, s.Spares name) → Spares name (.executeAll ss)

def Task.IsCall : Task → Prop
  | .call _ _ => True
  | _ => False

/-- The second moment comes in the code of the first task itself, in no function that it calls. -/
abbrev Performs : Moment → Moment → Prop :=
  Relation.ReflTransGen fun m n => Starts m n ∧ ¬n.task.IsCall

/-- Code that does not declare the name runs where the search for it comes to the scope `c`, and
the name is bound where it was in `h`. -/
structure Moment.Outside (name : String) (c : ScopeId) (h : Heap) (n : Moment) : Prop where
  spares : n.task.Spares name
  meets : n.state.heap.Meets name c n.state.active
  same : h.SameName name n.state.heap

namespace Moment.Outside

variable {name : String} {c : ScopeId} {h : Heap} {m n : Moment}

/-- Other code, in a state where the name is bound as before. -/
theorem next (hm : m.Outside name c h) {task : Task} {t : State}
    (hstate : State.SameName name m.state t) (htask : task.Spares name) :
    Moment.Outside name c h ⟨task, t⟩ := by
  refine ⟨htask, ?_, hm.same.trans hstate.scopes⟩
  change t.heap.Meets name c t.active
  rw [hstate.active]
  exact hm.meets.sameName hstate.scopes

theorem evaluated (hm : m.Outside name c h) {e : Expr} {f : Finished Value}
    (hf : Ends (evaluate · e) m.state f) {task : Task} (htask : task.Spares name) :
    Moment.Outside name c h ⟨task, f.state⟩ := hm.next (evaluated_sameName name hf) htask

theorem starts (hm : m.Outside name c h) (hstart : Starts m n) (hn : ¬n.task.IsCall) :
    n.Outside name c h := by
  have hspares := hm.spares
  cases hstart with
  | inner | operand | left | decision | assigned | callee | firstValue | expression | printed
  | initial | condition | test | returned => exact ⟨.evaluate _, hm.meets, hm.same⟩
  | right hfirst | alternative hfirst => exact hm.evaluated hfirst (.evaluate _)
  | arguments hfirst | moreValues hfirst => exact hm.evaluated hfirst (.evaluateAll _)
  | call => exact absurd trivial hn
  | body => cases hspares
  | block =>
    cases hspares with
    | execute hblock =>
      cases hblock with
      | block hbody =>
        refine ⟨.executeAll hbody, hm.meets.addScope rfl, hm.same.trans ?_⟩
        exact (Heap.sameNames_addScope _ _ _).sameName name
  | thenBranch hcondition =>
    cases hspares with
    | execute hif =>
      cases hif with
      | ifElse _ hthen _ => exact hm.evaluated hcondition (.execute hthen)
  | elseBranch hcondition =>
    cases hspares with
    | execute hif =>
      cases hif with
      | ifElse _ _ helse => exact hm.evaluated hcondition (.execute (helse _ rfl))
  | round hcondition =>
    cases hspares with
    | execute hloop =>
      cases hloop with
      | whileLoop _ hbody => exact hm.evaluated hcondition (.execute hbody)
  | again hcondition _ hround =>
    cases hspares with
    | execute hloop =>
      cases hloop with
      | whileLoop condition hbody =>
        have htest := hm.evaluated hcondition (.execute hbody)
        exact htest.next (hbody.sameName hround) (.execute (.whileLoop _ hbody))
  | first =>
    cases hspares with
    | executeAll hall => exact ⟨.execute (hall _ List.mem_cons_self), hm.meets, hm.same⟩
  | more hfirst =>
    cases hspares with
    | executeAll hall =>
      obtain ⟨hstatement, hmore⟩ := List.forall_mem_cons.1 hall
      exact hm.next (hstatement.sameName hfirst) (.executeAll hmore)

theorem performs (hm : m.Outside name c h) (hperforms : Performs m n) : n.Outside name c h := by
  induction hperforms with
  | refl => exact hm
  | tail _ hstep ih => exact ih.starts hstep.1 hstep.2

end Moment.Outside

/-! ## Uses of a name -/

/-- The name is the one that the scope binds: that binding is read, it gets the value that is
assigned, and functions that are declared under other names find it there. -/
structure State.Resolves (s : State) (name : String) (p : ScopeId) : Prop where
  owner : s.heap.owner? s.active name = some p
  read : ∀ token : Token, token.lexeme = name → ∃ scope v, s.heap.scopes[p]? = some scope ∧
    scope.lookup name = some v ∧ Ends (evaluate · (.reference token)) s ⟨.ok v, s⟩
  assigned : ∀ (token : Token) (e : Expr) (v : Value) (t : State), token.lexeme = name →
    Ends (evaluate · e) s ⟨.ok v, t⟩ →
    Ends (evaluate · (.assign token e)) s ⟨.ok v, { t with heap := t.heap.define p name v }⟩
  declared : ∀ declaration : FunDecl, declaration.name.lexeme ≠ name →
    (s.heap.declare s.active declaration).owner? s.active name = some p

theorem State.Sound.resolves {s : State} (hs : s.Sound 0) {name : String} {p : ScopeId}
    (howner : s.heap.owner? s.active name = some p) : s.Resolves name p where
  owner := howner
  read := by
    rintro token rfl
    obtain ⟨scope, hscope, hbinds⟩ := (hs.tree.founded.owner?_eq_some_iff.1 howner).2
    obtain ⟨v, hv⟩ := Option.isSome_iff_exists.1 hbinds
    have hget : s.heap.get? s.active token.lexeme = some v := by
      simp [Heap.get?, howner, hscope, hv]
    exact ⟨scope, v, hscope, hv, hs.handsOn.read token v hget⟩
  assigned := by
    rintro token e v t rfl hvalue
    have hsame := evaluated_sameName token.lexeme hvalue
    refine ends_assign hvalue ?_
    rw [hsame.active, hsame.scopes.owner?_eq hs.tree.founded hs.active]
    exact howner
  declared := by
    intro declaration hne
    have hsame : s.heap.SameName name (s.heap.declare s.active declaration) :=
      Heap.sameName_define ⟨s.heap.scopes, s.heap.functions + 1⟩ s.active hne.symm _
    rw [hsame.owner?_eq hs.tree.founded hs.active]
    exact howner

/-! ## Uses after the declaration -/

theorem Occurs.begins {sink : Sink} {m n : Moment} {vs : List Value} (h : Occurs sink m vs)
    (hn : Begins m n) : ∃ ws, Occurs sink n ws := by
  induction hn with
  | refl => exact ⟨vs, h⟩
  | tail _ hstart ih =>
    obtain ⟨ws, hbefore⟩ := ih
    exact ⟨_, hbefore.part (.none hstart)⟩

theorem Performs.begins {m n : Moment} (h : Performs m n) : Begins m n :=
  Relation.ReflTransGen.mono (fun _ _ hstep => hstep.1) _ _ h

/-- The function that the declaration makes when it is executed. -/
def State.makes (s : State) (declaration : FunDecl) : Function :=
  ⟨s.heap.functions, declaration, s.active⟩

/-- In a called function, names that are no parameters are looked for in the scope it closes
over. -/
theorem Function.outside_entered (function : Function) (values : List Value) {s : State}
    (hclosure : function.closure < s.heap.scopes.size) {name : String}
    (hparams : ∀ p ∈ function.declaration.params, p.lexeme ≠ name)
    (hbody : ∀ statement ∈ function.declaration.body, statement.Spares name) :
    Moment.Outside name function.closure s.heap
      ⟨.executeAll function.declaration.body, function.entered values s⟩ := by
  refine ⟨.executeAll hbody, ?_, (s.heap.sameNames_addScope _ _).sameName name⟩
  exact (Heap.Meets.here hclosure).addScope (function.lookup_bindings_eq_none hparams values)

theorem ends_funDecl (declaration : FunDecl) (s : State) :
    Ends (execute · (.funDecl declaration)) s
      ⟨.ok .normal, { s with heap := s.heap.declare s.active declaration }⟩ := ⟨1, rfl⟩

theorem Follows.grows_declare {declaration : FunDecl} {s : State} {n : Moment}
    (h : Follows ⟨.execute (.funDecl declaration), s⟩ n) :
    (s.heap.declare s.active declaration).Grows n.state.heap := by
  obtain ⟨f, hf, hgrows⟩ := h.endsBefore
  cases (growing_execute _).ends_unique (ends_funDecl declaration s) hf
  exact hgrows

/-- A function is made by a declaration, and is called later. Wherever its body, in a call, uses a
name that is no parameter and that the body does not declare, the name is the one of a scope that
does not change during the call: of the nearest scope, outward from the one the function closes
over, that binds the name when the call begins. So it is in functions that are declared in the body,
in whatever code they are called during the call, if none of these binds the name either. The scope
is the one which the name resolved to when the function was made, unless one that the search went
past then has come to bind the name. -/
theorem free_names_resolve {sink : Sink} {declaration : FunDecl} {s : State} {vs : List Value}
    (hmade : Occurs sink ⟨.execute (.funDecl declaration), s⟩ vs) {values : List Value}
    {t : State} {ws : List Value}
    (hcalled : Occurs sink ⟨.call (s.makes declaration) values, t⟩ ws)
    (hlater : Follows ⟨.execute (.funDecl declaration), s⟩ ⟨.call (s.makes declaration) values, t⟩)
    {name : String} (hparams : ∀ p ∈ declaration.params, p.lexeme ≠ name)
    (hbody : ∀ statement ∈ declaration.body, statement.Spares name) {o : ScopeId}
    (howner : (s.heap.declare s.active declaration).owner? s.active name = some o) :
    ∃ p, (∀ n, Performs ⟨.executeAll declaration.body, (s.makes declaration).entered values t⟩ n →
        n.state.Resolves name p) ∧
      ((∀ statement ∈ declaration.body, statement.Lacks name) →
        ∀ n, Begins ⟨.executeAll declaration.body, (s.makes declaration).entered values t⟩ n →
          n.state.heap.Inside t.heap.nextScope n.state.active → n.state.Resolves name p) ∧
      t.heap.owner? s.active name = some p ∧
      (p = o ∨ (s.heap.declare s.active declaration).Passes name p s.active) ∧
      (p = o ↔ ∀ i, (s.heap.declare s.active declaration).Passes name i s.active →
        ¬t.heap.Binds name i) := by
  have hmaking := hmade.sound
  have hcalling := hcalled.holds
  have htree := hcalling.sound.tree
  have hfounded := (hmaking.tree.declare hmaking.active declaration).founded
  obtain ⟨p, hp, hplace, hiff⟩ :=
    hfounded.owner?_grown htree.founded hlater.grows_declare howner
  have hclosure : s.active < t.heap.scopes.size :=
    (htree.founded.owner?_eq_some_iff.1 hp).1.lt
  -- Where the search comes to the closure, it goes on as it did when the call began.
  have hresolves : ∀ n,
      Begins ⟨.executeAll declaration.body, (s.makes declaration).entered values t⟩ n →
      n.state.heap.Meets name s.active n.state.active → t.heap.SameName name n.state.heap →
      n.state.Resolves name p := by
    intro n hn hmeets hsame
    obtain ⟨_, hoccurs⟩ := (hcalled.part (.none .body)).begins hn
    apply hoccurs.sound.resolves
    rw [hmeets.owner?_eq hoccurs.sound.tree.founded]
    exact (hsame.owner?_eq htree.founded hclosure).trans hp
  refine ⟨p, fun n hn => ?_, fun hlacks n hn hinside => ?_, hp, hplace, hiff⟩
  · have houtside :=
      (Function.outside_entered (s.makes declaration) values hclosure hparams hbody).performs hn
    exact hresolves n hn.begins houtside.meets houtside.same
  · have hgiven : t.Holds (.function (s.makes declaration) :: values) :=
      ⟨hcalling.sound, fun v hv => hcalling.values v (hcalled.given v hv)⟩
    obtain ⟨hmeets, hsame⟩ := hgiven.meets_closure ⟨hparams, hlacks⟩ hn hinside
    exact hresolves n hn hmeets (hsame.sameName name)

def again : FunDecl :=
  ⟨named "again", [named "given"],
    [.returnValue (named "return") (some (.reference (named "teller")))]⟩

/-- A function that uses the name of its maker, in its own body and in a function declared there. -/
def told : FunDecl :=
  ⟨named "told", [], [.funDecl again, .returnValue (named "return")
    (some (.call (.reference again.name) (named ")") [.reference (named "teller")]))]⟩

def teller : FunDecl :=
  ⟨named "teller", [], [.funDecl told, .returnValue (named "return") (some (.reference told.name))]⟩

theorem told_lacks : told.Lacks "teller" := by
  have hreturn : ∀ value, (Stmt.returnValue (named "return") value).Lacks "teller" :=
    .returnValue (named "return")
  have hagain : (Stmt.funDecl again).Lacks "teller" :=
    .funDecl (by decide) (List.forall_mem_singleton.2 (by decide))
      (List.forall_mem_singleton.2 (hreturn _))
  refine ⟨List.forall_mem_nil _, ?_⟩
  exact List.forall_mem_cons.2 ⟨hagain, List.forall_mem_singleton.2 (hreturn _)⟩

/-- The state in which the body begins. -/
def toldState : State :=
  ⟨⟨#[⟨[("teller", .function ⟨0, teller, 0⟩)], none⟩, ⟨[("told", .function ⟨1, told, 1⟩)], some 0⟩,
    ⟨[], some 1⟩], 2⟩, 2, .unlimited⟩

/-- The teller makes the function in its own scope, and it is called when the teller has returned:
the name is still the global one, in its body and in the function that is called there. -/
theorem told_resolves : ∃ (s t u : State) (vs ws : List Value) (m n : Moment),
    Occurs .unlimited ⟨.execute (.funDecl told), s⟩ vs ∧
    Occurs .unlimited ⟨.call (s.makes told) [], t⟩ ws ∧
    (s.heap.declare s.active told).owner? s.active "teller" = some 0 ∧
    Performs ⟨.executeAll told.body, (s.makes told).entered [] t⟩ m ∧
    m.task = .evaluate (.reference teller.name) ∧ m.state.Resolves "teller" 0 ∧
    Begins ⟨.executeAll told.body, (s.makes told).entered [] t⟩ ⟨.executeAll again.body, u⟩ ∧
    Performs ⟨.executeAll again.body, u⟩ n ∧
    n.task = .evaluate (.reference teller.name) ∧ n.state.Resolves "teller" 0 := by
  have hdeclared := (@Leads.start (.initial .unlimited) []).execute 1 (.funDecl teller)
  have hread := hdeclared.evaluate 1 (.reference teller.name)
  have hcallee : .function ⟨0, teller, 0⟩ ∈ [Value.function ⟨0, teller, 0⟩] :=
    List.mem_singleton_self _
  have hteller : Occurs .unlimited _ [.function ⟨0, teller, 0⟩] :=
    .task (.call ⟨0, teller, 0⟩ []) hread (by simp [Task.values])
  have hmade := (hteller.part (.none .body)).part (.none .first)
  have hreturned := hread.call 10 hcallee (List.forall_mem_nil _)
  have hcalled : Occurs .unlimited _ [.function ⟨1, told, 1⟩, .function ⟨0, teller, 0⟩] :=
    .task (.call ⟨1, told, 1⟩ []) hreturned (by simp [Task.values])
  have hmaking : ∀ s, Begins ⟨.call ⟨0, teller, 0⟩ [], s⟩ ⟨.execute (.funDecl told), _⟩ :=
    fun s => .tail (.single .body) .first
  obtain ⟨p, huses, hinner, hp, _⟩ := free_names_resolve hmade hcalled
    ⟨_, _, [], [], _, _, hmaking _, ⟨10, rfl⟩, .start, .refl⟩ told_lacks.params
    (fun s hs => (told_lacks.body s hs).spares) (o := 0) rfl
  cases hp
  have hasked : Performs ⟨.executeAll told.body, toldState⟩ ⟨.evaluate (.call _ _ _), _⟩ :=
    .tail (.tail (.single ⟨.more (ends_funDecl again _), not_false⟩) ⟨.first, not_false⟩)
      ⟨.returned, not_false⟩
  have huse := (hasked.tail ⟨.arguments ⟨1, rfl⟩, not_false⟩).tail ⟨.firstValue, not_false⟩
  have hcall := hasked.begins.tail (.call ⟨1, rfl⟩ ⟨3, rfl⟩ rfl)
  have hbody := hcall.tail .body
  have huse' : ∀ s, Performs ⟨.executeAll again.body, s⟩ ⟨.evaluate (.reference teller.name), s⟩ :=
    fun s => .tail (.single ⟨.first, not_false⟩) ⟨.returned, not_false⟩
  have hagain := hinner told_lacks.body _ (hbody.trans (huse' _).begins) (.inward rfl rfl .here)
  exact ⟨_, _, _, _, _, _, _, hmade, hcalled, rfl, huse, rfl, huses _ huse, hbody, huse' _, rfl,
    hagain⟩

/-- A function that returns `x`. -/
def shown : FunDecl :=
  ⟨named "show", [], [.returnValue (named "return") (some (.reference (named "x")))]⟩

def declareX (value : Bool) : Stmt := .varDecl (named "x") (some (.literal (.bool value)))

def showing : Stmt := .print (.call (.reference shown.name) (named ")") [])

/-- The function is declared in a block where `x` is the global one, and it is called after another
`x` has been declared there. -/
def shadowing : List Stmt := [declareX true, .block [.funDecl shown, declareX false, showing]]

/-- The state behind the declaration of the function. -/
def shownState : State :=
  ⟨⟨#[⟨[("x", .bool true)], none⟩, ⟨[("show", .function ⟨0, shown, 1⟩)], some 0⟩], 1⟩, 1,
    .unlimited⟩

theorem ends_declareX (value : Bool) (s : State) : Ends (execute · (declareX value)) s
    ⟨.ok .normal, { s with heap := s.heap.define s.active "x" (.bool value) }⟩ := ⟨2, rfl⟩

theorem begins_shown {s t : State} {f : Function} (harity : f.arity = 0)
    (hother : Ends (execute · (declareX false)) s ⟨.ok .normal, t⟩)
    (hcallee : Ends (evaluate · (.reference shown.name)) t ⟨.ok (.function f), t⟩) :
    Begins ⟨.executeAll [declareX false, showing], s⟩ ⟨.call f [], t⟩ :=
  .tail (.tail (.tail (.single (.more hother)) .first) .printed)
    (.call hcallee ⟨1, rfl⟩ harity.symm)

/-- A name may come to be another after the function was made: here it was the global `x`, and it is
the one of the block when the function is called. -/
theorem names_not_fixed : ¬∀ (declaration : FunDecl) (s t : State) (vs ws values : List Value)
    (token : Token) (o : ScopeId) (w : State),
    Occurs .unlimited ⟨.execute (.funDecl declaration), s⟩ vs →
    Occurs .unlimited ⟨.call (s.makes declaration) values, t⟩ ws →
    Follows ⟨.execute (.funDecl declaration), s⟩ ⟨.call (s.makes declaration) values, t⟩ →
    (∀ p ∈ declaration.params, p.lexeme ≠ token.lexeme) →
    (∀ statement ∈ declaration.body, statement.Spares token.lexeme) →
    (s.heap.declare s.active declaration).owner? s.active token.lexeme = some o →
    Performs ⟨.executeAll declaration.body, (s.makes declaration).entered values t⟩
      ⟨.evaluate (.reference token), w⟩ →
    w.heap.owner? w.active token.lexeme = some o := by
  intro hclaim
  have hprogram : Occurs .unlimited ⟨.executeAll shadowing, .initial .unlimited⟩ [] :=
    .task _ .start (List.forall_mem_nil _)
  have hglobal := hprogram.part (.none (.more (ends_declareX true _)))
  have hblock := (hglobal.part (.none .first)).part (.none .block)
  have hmade := hblock.part (.none .first)
  have hmore := hblock.part (.none (.more (ends_funDecl shown _)))
  have hcall := begins_shown (s := shownState) (f := ⟨0, shown, 1⟩) rfl
    (ends_declareX false _) ⟨1, rfl⟩
  obtain ⟨ws, hcalled⟩ := hmore.begins hcall
  have huse : ∀ s, Performs ⟨.executeAll shown.body, s⟩ ⟨.evaluate (.reference (named "x")), s⟩ :=
    fun s => .tail (.single ⟨.first, not_false⟩) ⟨.returned, not_false⟩
  have howner := hclaim shown _ _ _ _ [] (named "x") 0 _ hmade hcalled
    ⟨_, _, [], [], _, _, .refl, ends_funDecl _ _, .start, hcall⟩ (List.forall_mem_nil _)
    (List.forall_mem_singleton.2 (.returnValue _ _)) rfl (huse _)
  cases howner

end TreeWalk
