import TreeWalk.Proofs.Machine.Identity
import TreeWalk.Proofs.Machine.Order

/-!
The scopes inside the one of a call. They are made while the body runs, by its blocks and by calls
of functions that were made in such scopes; what is executed in them is the code of the function and
of those declared in it. So if no part of that code binds a name, none of these scopes ever does,
and the name is looked for in the scope that the called function closes over.
-/

namespace TreeWalk

open Run

/-! ## The code of a function -/

/-- Neither the statement nor a part of it declares the name. The body of a function that is
declared is no part of the statement. -/
inductive Stmt.Spares (name : String) : Stmt → Prop
  | expression (value : Expr) : Spares name (.expression value)
  | print (value : Expr) : Spares name (.print value)
  | varDecl {token : Token} (initial : Option Expr) : token.lexeme ≠ name →
    Spares name (.varDecl token initial)
  | block {body : List Stmt} : (∀ s ∈ body, Spares name s) → Spares name (.block body)
  | ifElse (condition : Expr) {thenBranch : Stmt} {elseBranch : Option Stmt} :
    Spares name thenBranch → (∀ s ∈ elseBranch, Spares name s) →
    Spares name (.ifElse condition thenBranch elseBranch)
  | whileLoop (condition : Expr) {body : Stmt} : Spares name body →
    Spares name (.whileLoop condition body)
  | funDecl {declaration : FunDecl} : declaration.name.lexeme ≠ name →
    Spares name (.funDecl declaration)
  | returnValue (keyword : Token) (value : Option Expr) : Spares name (.returnValue keyword value)
  | classDecl {token : Token} (superclass : Option Expr) (methods : List FunDecl) :
    token.lexeme ≠ name → Spares name (.classDecl token superclass methods)

theorem Stmt.Spares.not_binds {name : String} {s : Stmt} (hs : s.Spares name) :
    ¬s.Binds name := by
  intro hbinds
  induction hbinds with
  | varDecl | funDecl | classDecl =>
    cases hs
    contradiction
  | thenBranch condition elseBranch _ ih =>
    cases hs with
    | ifElse _ hthen _ => exact ih hthen
  | elseBranch condition thenBranch _ ih =>
    cases hs with
    | ifElse _ _ helse => exact ih (helse _ rfl)
  | whileLoop condition _ ih =>
    cases hs with
    | whileLoop _ hbody => exact ih hbody

/-- Nothing in the statement declares the name, also not in the functions that are declared there,
which do not have it as a parameter either. -/
inductive Stmt.Lacks (name : String) : Stmt → Prop
  | expression (value : Expr) : Lacks name (.expression value)
  | print (value : Expr) : Lacks name (.print value)
  | varDecl {token : Token} (initial : Option Expr) : token.lexeme ≠ name →
    Lacks name (.varDecl token initial)
  | block {body : List Stmt} : (∀ s ∈ body, Lacks name s) → Lacks name (.block body)
  | ifElse (condition : Expr) {thenBranch : Stmt} {elseBranch : Option Stmt} :
    Lacks name thenBranch → (∀ s ∈ elseBranch, Lacks name s) →
    Lacks name (.ifElse condition thenBranch elseBranch)
  | whileLoop (condition : Expr) {body : Stmt} : Lacks name body →
    Lacks name (.whileLoop condition body)
  | funDecl {declaration : FunDecl} : declaration.name.lexeme ≠ name →
    (∀ p ∈ declaration.params, p.lexeme ≠ name) → (∀ s ∈ declaration.body, Lacks name s) →
    Lacks name (.funDecl declaration)
  | returnValue (keyword : Token) (value : Option Expr) : Lacks name (.returnValue keyword value)
  | classDecl {token : Token} (superclass : Option Expr) (methods : List FunDecl) :
    token.lexeme ≠ name → Lacks name (.classDecl token superclass methods)

theorem Stmt.Lacks.spares {name : String} {s : Stmt} (hs : s.Lacks name) : s.Spares name := by
  induction hs with
  | expression value => exact .expression value
  | print value => exact .print value
  | varDecl initial hne => exact .varDecl initial hne
  | block _ ih => exact .block ih
  | ifElse condition _ _ hthen helse => exact .ifElse condition hthen helse
  | whileLoop condition _ ih => exact .whileLoop condition ih
  | funDecl hne _ _ => exact .funDecl hne
  | returnValue keyword value => exact .returnValue keyword value
  | classDecl superclass methods hne => exact .classDecl superclass methods hne

/-- The function does not bind the name, and none that is declared in it does. -/
structure FunDecl.Lacks (declaration : FunDecl) (name : String) : Prop where
  params : ∀ p ∈ declaration.params, p.lexeme ≠ name
  body : ∀ s ∈ declaration.body, s.Lacks name

theorem Function.lookup_bindings_eq_none {function : Function} {name : String}
    (hparams : ∀ p ∈ function.declaration.params, p.lexeme ≠ name) (values : List Value) :
    (function.bindings values).lookup name = none := by
  apply Scope.lookup_putAll_of_notMem
  rw [List.mem_map]
  rintro ⟨p, hp, hname⟩
  exact hparams p hp hname

/-! ## Scopes inside a scope -/

namespace Heap

/-- The way outward from the scope comes to `e`. -/
inductive Inside (h : Heap) (e : ScopeId) : ScopeId → Prop
  | here : Inside h e e
  | inward {i outer : ScopeId} {scope : Scope} : h.scopes[i]? = some scope →
    scope.enclosing = some outer → Inside h e outer → Inside h e i

variable {h k : Heap} {name : String}

theorem Binds.of_define {other : String} {i s : ScopeId} {value : Value}
    (hbinds : (h.define s other value).Binds name i) : h.Binds name i ∨ i = s ∧ name = other := by
  obtain ⟨scope, hscope, hbound⟩ := hbinds
  rw [getElem?_define] at hscope
  split at hscope
  · next hsi =>
    obtain ⟨old, hold, rfl⟩ := Option.map_eq_some_iff.1 hscope
    rw [Scope.binds_define, Bool.or_eq_true, decide_eq_true_iff] at hbound
    exact hbound.symm.imp (fun hbound => ⟨old, hold, hbound⟩) fun hname => ⟨hsi.symm, hname⟩
  · exact .inl ⟨scope, hscope, hbound⟩

/-- In a scope that was not there before any name may be defined. -/
theorem SameNames.define (hk : h.SameNames k) {s : ScopeId} (hs : h.scopes.size ≤ s)
    (other : String) (value : Value) : h.SameNames (k.define s other value) := by
  apply ((hk.declares (· = s)).trans (k.declares_define s other value)).mono
  rintro i hi rfl
  exact Nat.not_lt_of_le hs hi

end Heap

/-- How many scopes there are, which of them are inside the one of a call, and which is active. -/
structure Region where
  size : Nat
  inside : ScopeId → Prop
  active : ScopeId
  active_lt : active < size

namespace Region

/-- There may be more scopes than before. -/
structure Later (w x : Region) : Prop where
  size_le : w.size ≤ x.size
  inside_iff : ∀ i, i < w.size → (x.inside i ↔ w.inside i)

theorem Later.refl (w : Region) : w.Later w := ⟨Nat.le_refl _, fun _ _ => Iff.rfl⟩

theorem Later.trans {w x y : Region} (hwx : w.Later x) (hxy : x.Later y) : w.Later y :=
  ⟨Nat.le_trans hwx.size_le hxy.size_le, fun i hi =>
    (hxy.inside_iff i (Nat.lt_of_lt_of_le hi hwx.size_le)).trans (hwx.inside_iff i hi)⟩

/-- A new scope inside `outer` is active. -/
def enter (w : Region) (outer : ScopeId) : Region :=
  ⟨w.size + 1, fun i => if i = w.size then w.inside outer else w.inside i, w.size,
    Nat.lt_succ_self _⟩

/-- The scope that was active before is active again. -/
def leave {w x : Region} (h : w.Later x) : Region :=
  { x with active := w.active, active_lt := Nat.lt_of_lt_of_le w.active_lt h.size_le }

variable (w : Region) (outer : ScopeId)

theorem inside_enter_active : (w.enter outer).inside w.size ↔ w.inside outer := by simp [enter]

theorem inside_enter_of_lt {i : ScopeId} (hi : i < w.size) :
    (w.enter outer).inside i ↔ w.inside i := by simp [enter, Nat.ne_of_lt hi]

theorem later_enter : w.Later (w.enter outer) :=
  ⟨Nat.le_succ _, fun _ hi => w.inside_enter_of_lt outer hi⟩

end Region

/-- The scope that a function closes over is there, and if it is inside, the function lacks the
name. -/
def Value.Bare (name : String) (w : Region) (v : Value) : Prop :=
  ∀ f, v = .function f → f.closure < w.size ∧ (w.inside f.closure → f.declaration.Lacks name)

theorem Value.Bare.later {name : String} {w x : Region} {v : Value} (hwx : w.Later x)
    (hv : v.Bare name w) : v.Bare name x := by
  intro f hf
  obtain ⟨hlt, hlacks⟩ := hv f hf
  have hiff := hwx.inside_iff f.closure hlt
  exact ⟨Nat.lt_of_lt_of_le hlt hwx.size_le, fun hinside => hlacks (hiff.1 hinside)⟩

/-- The region is that of the state: what is inside is the first scope that was made after `h`, and
what is in a scope inside. None of these binds the name, and those of `h` bind what they did. -/
structure State.Bare (name : String) (h : Heap) (w : Region) (s : State) : Prop where
  active : s.active = w.active
  size : s.heap.scopes.size = w.size
  new : h.nextScope ≤ w.active
  same : h.SameNames s.heap
  founded : s.heap.Founded
  entry : w.inside h.nextScope
  inside : ∀ (i : ScopeId) (scope : Scope), s.heap.scopes[i]? = some scope → i ≠ h.nextScope →
    (w.inside i ↔ ∃ outer, scope.enclosing = some outer ∧ w.inside outer)
  free : ∀ i, w.inside i → ¬s.heap.Binds name i
  values : s.heap.Every (Value.Bare name w)

namespace State.Bare

variable {name : String} {h : Heap} {w x : Region} {s t : State}

theorem define (hs : s.Bare name h w) {i : ScopeId} {other : String} {value : Value}
    (hvalue : value.Bare name w) (hsame : h.SameNames (s.heap.define i other value))
    (hfree : w.inside i → name ≠ other) :
    State.Bare name h w { s with heap := s.heap.define i other value } where
  active := hs.active
  size := (s.heap.size_define i other value).trans hs.size
  new := hs.new
  same := hsame
  founded := hs.founded.define i other value
  entry := hs.entry
  inside := by
    intro j scope hj hne
    rw [Heap.getElem?_define] at hj
    split at hj
    · obtain ⟨old, hold, rfl⟩ := Option.map_eq_some_iff.1 hj
      exact hs.inside j old hold hne
    · exact hs.inside j scope hj hne
  free := by
    intro j hj hbinds
    rcases hbinds.of_define with hbefore | ⟨rfl, hname⟩
    · exact hs.free j hj hbefore
    · exact hfree hj hname
  values := hs.values.define i other hvalue

/-- In a new scope. -/
theorem enter (hs : s.Bare name h w) {outer : ScopeId} (houter : outer < w.size)
    {bindings : List (String × Value)} (hbindings : ∀ b ∈ bindings, b.2.Bare name w)
    (hfree : w.inside outer → bindings.lookup name = none) :
    State.Bare name h (w.enter outer)
      ⟨s.heap.addScope outer bindings, s.heap.nextScope, s.sink⟩ where
  active := hs.size
  size := by rw [Heap.size_addScope, hs.size, Region.enter]
  new := Nat.le_of_lt (Nat.lt_of_le_of_lt hs.new w.active_lt)
  same := hs.same.trans (s.heap.sameNames_addScope outer bindings)
  founded := hs.founded.addScope (hs.size ▸ houter) bindings
  entry := by
    have hlt : h.nextScope < w.size := Nat.lt_of_le_of_lt hs.new w.active_lt
    exact (w.inside_enter_of_lt outer hlt).2 hs.entry
  inside := by
    intro i scope hi hne
    rw [Heap.getElem?_addScope, hs.size] at hi
    split at hi
    · next hlast =>
      cases hi
      subst hlast
      simp [w.inside_enter_active, w.inside_enter_of_lt outer houter]
    · have hlt : i < w.size := hs.size ▸ (Array.getElem?_eq_some_iff.mp hi).1
      rw [w.inside_enter_of_lt outer hlt, hs.inside i scope hi hne]
      refine exists_congr fun j => and_congr_right fun hj => ?_
      exact (w.inside_enter_of_lt outer (Nat.lt_trans (hs.founded i j scope hi hj) hlt)).symm
  free := by
    rintro i hi ⟨scope, hscope, hbinds⟩
    rw [Heap.getElem?_addScope, hs.size] at hscope
    split at hscope
    · next hlast =>
      cases hscope
      subst hlast
      simp [Scope.binds, Scope.lookup, hfree ((w.inside_enter_active outer).1 hi)] at hbinds
    · have hlt : i < w.size := hs.size ▸ (Array.getElem?_eq_some_iff.mp hscope).1
      exact hs.free i ((w.inside_enter_of_lt outer hlt).1 hi) ⟨scope, hscope, hbinds⟩
  values := by
    have hlater := w.later_enter outer
    have hvalues := hs.values.imp fun v hv => Value.Bare.later hlater hv
    exact hvalues.addScope outer fun b hb => (hbindings b hb).later hlater

/-- Back in the scope that was active before. -/
theorem leave (hs : s.Bare name h w) (hwx : w.Later x) (ht : t.Bare name h x) :
    State.Bare name h (Region.leave hwx) { t with active := s.active } where
  active := hs.active
  size := ht.size
  new := hs.new
  same := ht.same
  founded := ht.founded
  entry := ht.entry
  inside := ht.inside
  free := ht.free
  values := ht.values

theorem inside_of (hs : s.Bare name h w) {i : ScopeId} (hi : s.heap.Inside h.nextScope i) :
    w.inside i := by
  induction hi with
  | here => exact hs.entry
  | @inward i outer scope hscope houter _ ih =>
    by_cases hne : i = h.nextScope
    · exact hne ▸ hs.entry
    · exact (hs.inside i scope hscope hne).2 ⟨outer, houter, ih⟩

theorem free_of_inside (hs : s.Bare name h w) {i : ScopeId} (hi : s.heap.Inside h.nextScope i)
    {scope : Scope} (hscope : s.heap.scopes[i]? = some scope) : scope.binds name = false :=
  Bool.eq_false_iff.2 fun hbinds => hs.free i (hs.inside_of hi) ⟨scope, hscope, hbinds⟩

end State.Bare

/-- If no statement that is executed inside binds the name or declares a function that does, no
scope inside comes to bind it. -/
theorem bare_sustained (name : String) (h : Heap) :
    Sustained (fun w x => w.Later x ∧ x.active = w.active) Region.Later (State.Bare name h)
      (Value.Bare name) (fun w statement => w.inside w.active → statement.Lacks name) where
  refl := fun w => ⟨.refl w, rfl⟩
  trans := fun hwx hxy => ⟨hwx.1.trans hxy.1, hxy.2.trans hwx.2⟩
  grows := fun hwx hv => hv.later hwx.1
  enters := fun hwx hv => hv.later hwx
  stands := by
    rintro w x statement ⟨hwx, hactive⟩ hstands hinside
    rw [hactive] at hinside
    exact hstands ((hwx.inside_iff w.active w.active_lt).1 hinside)
  branches := by
    intro w condition thenBranch elseBranch hstands
    refine ⟨fun hinside => ?_, fun s hs hinside => ?_⟩
    · cases hstands hinside with
      | ifElse _ hthen _ => exact hthen
    · cases hstands hinside with
      | ifElse _ _ helse => exact helse s hs
  round := by
    intro w condition body hstands hinside
    cases hstands hinside with
    | whileLoop _ hbody => exact hbody
  plain := by
    rintro w v hplain f rfl
    exact hplain.elim
  found := fun hs hget => hs.values.get? hget
  define := by
    rintro w s i other v hs hv (howner | ⟨rfl, statement, hstands, hbinds⟩)
    · refine hs.define hv (hs.same.trans (Heap.sameNames_define howner v)) ?_
      rintro hinside rfl
      exact hs.free i hinside (Heap.binds_ownerFrom howner)
    · refine hs.define hv (hs.same.define (hs.active ▸ hs.new) other v) ?_
      rintro hinside rfl
      exact (hstands (hs.active ▸ hinside)).spares.not_binds hbinds
  declare := by
    intro w s declaration hs hstands
    have hcounted : State.Bare name h w
        { s with heap := { s.heap with functions := s.heap.functions + 1 } } :=
      ⟨hs.active, hs.size, hs.new, hs.same, hs.founded, hs.entry, hs.inside, hs.free, hs.values⟩
    refine ⟨w, ⟨.refl w, rfl⟩, hcounted.define ?_ ?_ ?_⟩
    · rintro f ⟨⟩
      refine ⟨hs.active ▸ w.active_lt, fun hinside => ?_⟩
      cases hstands (hs.active ▸ hinside) with
      | funDecl _ hparams hbody => exact ⟨hparams, hbody⟩
    · exact hcounted.same.define (hs.active ▸ hs.new) _ _
    · rintro hinside rfl
      cases hstands (hs.active ▸ hinside) with
      | funDecl hne _ _ => exact hne rfl
  sink := fun _ hs =>
    ⟨hs.active, hs.size, hs.new, hs.same, hs.founded, hs.entry, hs.inside, hs.free, hs.values⟩
  block := by
    intro w s body hs hstands
    refine ⟨w.enter w.active, w.later_enter _, ?_, fun statement hmem hinside => ?_⟩
    · rw [State.nested, hs.active]
      exact hs.enter w.active_lt (List.forall_mem_nil _) fun _ => rfl
    · cases hstands ((w.inside_enter_active w.active).1 hinside) with
      | block hbody => exact hbody statement hmem
  body := by
    intro w s function values hs hfunction hvalues
    obtain ⟨hlt, hlacks⟩ := hfunction function rfl
    refine ⟨w.enter function.closure, w.later_enter _, ?_, fun statement hmem hinside => ?_⟩
    · apply hs.enter hlt (Scope.mem_putAll _ hvalues)
      exact fun hinside => Function.lookup_bindings_eq_none (hlacks hinside).params values
    · exact (hlacks ((w.inside_enter_active _).1 hinside)).body statement hmem
  back := by
    rintro w x y s t hs hwx ⟨hxy, _⟩ ht
    have hwy := hwx.trans hxy
    exact ⟨.leave hwy, ⟨⟨hwy.size_le, hwy.inside_iff⟩, rfl⟩, hs.leave hwy ht, fun _ hv => hv⟩

/-! ## A call -/

/-- The region in which the body of a called function begins: only its own scope is inside. -/
def Heap.region (h : Heap) : Region :=
  ⟨h.scopes.size + 1, (· = h.nextScope), h.nextScope, Nat.lt_succ_self _⟩

/-- A function that was there before the call closes over no scope inside. -/
theorem Value.Below.bare {h : Heap} {v : Value} (hv : v.Below h.scopes.size) (name : String) :
    v.Bare name h.region := by
  rintro f rfl
  have hlt : f.closure < h.scopes.size := hv _ rfl
  exact ⟨Nat.lt_succ_of_lt hlt, fun hinside => absurd hinside (Nat.ne_of_lt hlt)⟩

theorem State.Holds.bare {s : State} {function : Function} {values : List Value}
    (hs : s.Holds (.function function :: values)) {name : String}
    (hlacks : function.declaration.Lacks name) :
    (function.entered values s).Bare name s.heap s.heap.region := by
  obtain ⟨hfunction, hvalues⟩ := List.forall_mem_cons.1 hs.values
  have hclosure : function.closure < s.heap.scopes.size := hfunction _ rfl
  have hentered : (function.entered values s).Sound (s.heap.scopes.size + 1) :=
    hs.sound.entered hclosure (Scope.mem_putAll _ hvalues)
  have hsame := s.heap.sameNames_addScope function.closure (function.bindings values)
  refine ⟨rfl, s.heap.size_addScope _ _, Nat.le_refl _, hsame, hentered.tree.founded, rfl, ?_, ?_,
    ?_⟩
  · intro i scope hi hne
    refine iff_of_false hne ?_
    rintro ⟨outer, houter, rfl⟩
    -- A scope is made after the one around it, and none has been made after that of the call.
    have hlt := hentered.tree.founded i _ scope hi houter
    have hsize : i < s.heap.scopes.size + 1 := s.heap.size_addScope function.closure _ ▸
      (Array.getElem?_eq_some_iff.mp hi).1
    exact absurd (Nat.lt_of_lt_of_le hlt (Nat.le_of_lt_succ hsize)) (Nat.lt_irrefl _)
  · rintro i rfl ⟨scope, hscope, hbinds⟩
    cases hscope.symm.trans Array.getElem?_push_size
    simp [Scope.binds, Scope.lookup, function.lookup_bindings_eq_none hlacks.params] at hbinds
  · have hbefore : s.heap.Every (Value.Bare name s.heap.region) := fun i scope hi b hb =>
      (hs.sound.tree.closures i scope hi b hb).bare name
    exact hbefore.addScope _ (Scope.mem_putAll _ fun v hv => (hvalues v hv).bare name)

/-- While a function runs that does not bind the name, and in which no function is declared that
does, the search for it from a scope inside the one of the call comes to the scope that the function
closes over. The scopes that were there before bind no new names. -/
theorem State.Holds.meets_closure {s : State} {function : Function} {values : List Value}
    (hs : s.Holds (.function function :: values)) {name : String}
    (hlacks : function.declaration.Lacks name) {n : Moment}
    (hn : Begins ⟨.executeAll function.declaration.body, function.entered values s⟩ n)
    (hinside : n.state.heap.Inside s.heap.nextScope n.state.active) :
    n.state.heap.Meets name function.closure n.state.active ∧
      s.heap.SameNames n.state.heap := by
  obtain ⟨w, hw, _⟩ := (bare_sustained name s.heap).begins hn (hs.bare hlacks) nofun
    fun statement hmem _ => hlacks.body statement hmem
  have hclosure : function.closure < s.heap.scopes.size := hs.values _ List.mem_cons_self _ rfl
  obtain ⟨entry, hentry, houter, _⟩ := hn.grows s.heap.nextScope _ Array.getElem?_push_size
  refine ⟨?_, hw.same⟩
  generalize n.state.active = i at hinside ⊢
  induction hinside with
  | here =>
    refine .outward hentry (hw.free_of_inside .here hentry) houter (.here ?_)
    exact Nat.lt_of_lt_of_le hclosure hw.same.grows.size_le
  | inward hscope houter hinner ih =>
    exact .outward hscope (hw.free_of_inside (.inward hscope houter hinner) hscope) houter ih

end TreeWalk
