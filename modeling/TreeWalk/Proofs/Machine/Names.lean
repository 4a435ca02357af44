import TreeWalk.Proofs.Machine.ActiveScope

/-!
Which names are bound. Expressions, calls and blocks bind no new name in a scope that was there
before them, statements only in the active one; nothing unbinds a name. A statement that may stand
as a branch or a body does not even bind one in the active scope, as it is no declaration.
-/

namespace TreeWalk

namespace Heap

/-- Every scope of `h` is in `k`, inside the same scope and with the names it bound. Other names
are bound only in the scopes of `places`. -/
def Declares (places : ScopeId → Prop) (h k : Heap) : Prop :=
  ∀ (i : ScopeId) (scope : Scope), h.scopes[i]? = some scope →
    ∃ kept : Scope, k.scopes[i]? = some kept ∧ kept.enclosing = scope.enclosing ∧
      (∀ name, scope.binds name = true → kept.binds name = true) ∧
      (¬places i → ∀ name, kept.binds name = scope.binds name)

/-- The scopes of `h` bind in `k` the names they bound. -/
abbrev SameNames (h k : Heap) : Prop := h.Declares (fun _ => False) k

variable {h k l : Heap} {places : ScopeId → Prop}

theorem Declares.refl (places : ScopeId → Prop) (h : Heap) : h.Declares places h :=
  fun _ scope hi => ⟨scope, hi, rfl, fun _ hbound => hbound, fun _ _ => rfl⟩

theorem Declares.trans (hk : h.Declares places k) (kl : k.Declares places l) :
    h.Declares places l := by
  intro i scope hi
  obtain ⟨kept, hkept, henclosing, hnames, hsame⟩ := hk i scope hi
  obtain ⟨last, hlast, henclosing', hnames', hsame'⟩ := kl i kept hkept
  refine ⟨last, hlast, henclosing'.trans henclosing, ?_, ?_⟩
  · exact fun name hbound => hnames' name (hnames name hbound)
  · exact fun hplace name => (hsame' hplace name).trans (hsame hplace name)

theorem Declares.mono {more : ScopeId → Prop} (hk : h.Declares places k)
    (hmore : ∀ i, i < h.scopes.size → places i → more i) : h.Declares more k := by
  intro i scope hi
  obtain ⟨kept, hkept, henclosing, hnames, hsame⟩ := hk i scope hi
  have hlt : i < h.scopes.size := (Array.getElem?_eq_some_iff.mp hi).1
  exact ⟨kept, hkept, henclosing, hnames, fun hplace => hsame fun hin => hplace (hmore i hlt hin)⟩

theorem SameNames.declares (hk : h.SameNames k) (places : ScopeId → Prop) : h.Declares places k :=
  hk.mono fun _ _ hin => hin.elim

end Heap

theorem Scope.binds_define (scope : Scope) (name other : String) (value : Value) :
    (scope.define name value).binds other = (decide (other = name) || scope.binds other) := by
  unfold Scope.binds Scope.lookup Scope.define
  rw [lookup_put]
  by_cases hname : other = name <;> simp [hname]

namespace Heap

/-- The owner of a name binds it. -/
theorem binds_ownerFrom {h : Heap} {name : String} {fuel : Nat} {s owner : ScopeId}
    (howner : h.ownerFrom name fuel s = some owner) :
    ∃ scope, h.scopes[owner]? = some scope ∧ scope.binds name = true := by
  induction fuel generalizing s with
  | zero => cases howner
  | succ fuel ih =>
    rw [ownerFrom] at howner
    cases hs : h.scopes[s]? with
    | none => simp [hs] at howner
    | some scope =>
      simp only [hs] at howner
      split at howner
      · next hbinds =>
        cases howner
        exact ⟨scope, hs, hbinds⟩
      · split at howner
        · cases howner
        · exact ih howner

theorem declares_define (h : Heap) (s : ScopeId) (name : String) (value : Value) :
    h.Declares (· = s) (h.define s name value) := by
  intro i scope hi
  rw [getElem?_define, hi]
  by_cases his : s = i
  · refine ⟨scope.define name value, by simp [his], rfl, ?_, fun hne => absurd his.symm hne⟩
    intro other hbound
    rw [Scope.binds_define, hbound, Bool.or_true]
  · exact ⟨scope, by simp [his], rfl, fun _ hbound => hbound, fun _ _ => rfl⟩

theorem sameNames_addScope (h : Heap) (outer : ScopeId) (bindings : List (String × Value)) :
    h.SameNames (h.addScope outer bindings) := by
  intro i scope hi
  have hlt : i < h.scopes.size := (Array.getElem?_eq_some_iff.mp hi).1
  refine ⟨scope, ?_, rfl, fun _ hbound => hbound, fun _ _ => rfl⟩
  rw [getElem?_addScope, if_neg (Nat.ne_of_lt hlt), hi]

/-- A name that is bound already is no new one. -/
theorem sameNames_define {h : Heap} {s owner : ScopeId} {name : String}
    (howner : h.owner? s name = some owner) (value : Value) :
    h.SameNames (h.define owner name value) := by
  obtain ⟨bound, hbound, hbinds⟩ := binds_ownerFrom howner
  intro i scope hi
  obtain ⟨kept, hkept, henclosing, hnames, hsame⟩ := h.declares_define owner name value i scope hi
  refine ⟨kept, hkept, henclosing, hnames, fun _ other => ?_⟩
  by_cases hio : i = owner
  · subst hio
    cases hbound.symm.trans hi
    rw [getElem?_define, if_pos rfl, hi] at hkept
    cases hkept
    rw [Scope.binds_define]
    by_cases hname : other = name
    · simp [hname, hbinds]
    · simp [hname]
  · exact hsame hio other

/-- The scope around another was made before it. -/
def Founded (h : Heap) : Prop :=
  ∀ (i outer : ScopeId) (scope : Scope), h.scopes[i]? = some scope →
    scope.enclosing = some outer → outer < i

/-- Every scope of `h` is in `k`, inside the same scope, and binds the name if it did before. -/
def SameName (name : String) (h k : Heap) : Prop :=
  ∀ (i : ScopeId) (scope : Scope), h.scopes[i]? = some scope →
    ∃ kept : Scope, k.scopes[i]? = some kept ∧ kept.enclosing = scope.enclosing ∧
      kept.binds name = scope.binds name

theorem SameName.trans {name : String} {h k l : Heap} (hk : h.SameName name k)
    (kl : k.SameName name l) : h.SameName name l := by
  intro i scope hi
  obtain ⟨kept, hkept, henclosing, hsame⟩ := hk i scope hi
  obtain ⟨last, hlast, henclosing', hsame'⟩ := kl i kept hkept
  exact ⟨last, hlast, henclosing'.trans henclosing, hsame'.trans hsame⟩

theorem SameNames.sameName {h k : Heap} (hk : h.SameNames k) (name : String) :
    h.SameName name k := by
  intro i scope hi
  obtain ⟨kept, hkept, henclosing, _, hsame⟩ := hk i scope hi
  exact ⟨kept, hkept, henclosing, hsame not_false name⟩

/-- Where every name is bound as before, all names are. -/
theorem sameNames_of_sameName {h k : Heap} (hk : ∀ name, h.SameName name k) : h.SameNames k := by
  intro i scope hi
  obtain ⟨kept, hkept, henclosing, _⟩ := hk "" i scope hi
  have hsame : ∀ name, kept.binds name = scope.binds name := by
    intro name
    obtain ⟨other, hother, _, hbinds⟩ := hk name i scope hi
    cases hkept.symm.trans hother
    exact hbinds
  exact ⟨kept, hkept, henclosing, fun name hbound => (hsame name).trans hbound,
    fun _ name => hsame name⟩

/-- Where a name is bound as before, it has the same owners. -/
theorem SameName.owner?_eq {h k : Heap} {name : String} (hk : h.SameName name k)
    (hfounded : h.Founded) {i : ScopeId} (hi : i < h.scopes.size) :
    k.owner? i name = h.owner? i name := by
  have hfrom : ∀ fuel i, i < h.scopes.size →
      k.ownerFrom name fuel i = h.ownerFrom name fuel i := by
    intro fuel
    induction fuel with
    | zero => exact fun _ _ => rfl
    | succ fuel ih =>
      intro i hi
      have hscope : h.scopes[i]? = some h.scopes[i] := Array.getElem?_eq_getElem hi
      obtain ⟨kept, hkept, henclosing, hsame⟩ := hk i _ hscope
      simp only [ownerFrom, hkept, hscope, henclosing, hsame]
      cases houter : h.scopes[i].enclosing with
      | none => rfl
      | some outer =>
        have hlt := hfounded i outer _ hscope houter
        simp only [ih outer (Nat.lt_trans hlt hi)]
  exact hfrom (i + 1) i hi

theorem SameNames.owner?_eq {h k : Heap} (hk : h.SameNames k) (hfounded : h.Founded)
    (name : String) {i : ScopeId} (hi : i < h.scopes.size) :
    k.owner? i name = h.owner? i name := (hk.sameName name).owner?_eq hfounded hi

theorem sameName_define (h : Heap) (s : ScopeId) {name other : String} (hne : name ≠ other)
    (value : Value) : h.SameName name (h.define s other value) := by
  intro i scope hi
  rw [getElem?_define, hi]
  by_cases his : s = i
  · exact ⟨scope.define other value, by simp [his], rfl, by simp [Scope.binds_define, hne]⟩
  · exact ⟨scope, by simp [his], rfl, rfl⟩

end Heap

namespace State

/-- The same scope is active, and no scope that was there binds another name. -/
structure SameNames (s t : State) : Prop where
  active : t.active = s.active
  names : s.heap.SameNames t.heap

/-- The same scope is active, and of the scopes that were there only it may bind more names. -/
structure Declares (s t : State) : Prop where
  active : t.active = s.active
  names : s.heap.Declares (· = s.active) t.heap

theorem SameNames.refl (s : State) : SameNames s s := ⟨rfl, .refl _ _⟩

theorem SameNames.trans (s t u : State) (hst : SameNames s t) (htu : SameNames t u) :
    SameNames s u := ⟨htu.active.trans hst.active, hst.names.trans htu.names⟩

theorem Declares.trans (s t u : State) (hst : Declares s t) (htu : Declares t u) :
    Declares s u := by
  refine ⟨htu.active.trans hst.active, hst.names.trans ?_⟩
  rw [← hst.active]
  exact htu.names

theorem SameNames.declares {s t : State} (h : SameNames s t) : Declares s t :=
  ⟨h.active, h.names.declares _⟩

/-- The same scope is active, and the scopes that were there bind the name if they did before. -/
structure SameName (name : String) (s t : State) : Prop where
  active : t.active = s.active
  scopes : s.heap.SameName name t.heap

theorem SameNames.sameName {s t : State} (h : SameNames s t) (name : String) :
    SameName name s t := ⟨h.active, h.names.sameName name⟩

theorem SameName.trans (name : String) (s t u : State) (hst : SameName name s t)
    (htu : SameName name t u) : SameName name s u :=
  ⟨htu.active.trans hst.active, hst.scopes.trans htu.scopes⟩

end State

open Run State

theorem assign_sameNames (name : Token) (value : Value) :
    Leaves SameNames (assign name value) := by
  rintro ⟨heap, active, sink⟩
  unfold after assign
  dsimp only
  cases howner : heap.owner? active name.lexeme with
  | none => exact SameNames.refl _
  | some owner => exact ⟨rfl, Heap.sameNames_define howner value⟩

theorem declare_declares (declaration : FunDecl) : Leaves Declares (declare declaration) := by
  rintro ⟨heap, active, sink⟩
  exact ⟨rfl, Heap.declares_define ⟨heap.scopes, heap.functions + 1⟩ _ _ _⟩

theorem printLine_sameNames (text : String) : Leaves SameNames (printLine text) := by
  rintro ⟨heap, active, sink⟩
  unfold after printLine
  dsimp only
  cases sink.fits (text ++ "\n").toUTF8 <;> exact ⟨rfl, .refl _ _⟩

/-- What the body declares is in its own scope, which was not there before. -/
theorem inside_sameNames {α : Type} (outer : ScopeId) (bindings : List (String × Value))
    (body : Run α) (hbody : Leaves Declares body) :
    Leaves SameNames (inside outer bindings body) := by
  intro s
  have hrun : (inside outer bindings body).after s =
      (within s.heap.nextScope body).after { s with heap := s.heap.addScope outer bindings } := rfl
  rw [hrun, after_within]
  obtain ⟨_, hnames⟩ := hbody ⟨s.heap.addScope outer bindings, s.heap.nextScope, s.sink⟩
  have hadded := (s.heap.sameNames_addScope outer bindings).declares (· = s.heap.nextScope)
  exact ⟨rfl, (hadded.trans hnames).mono fun i hlt hnew => Nat.ne_of_lt hlt hnew⟩

theorem steps_declare : KeptBySteps SameNames Declares where
  refl := SameNames.refl
  trans := SameNames.trans
  stmt_trans := Declares.trans
  stmt_of_expr := fun _ _ h => h.declares
  assign := assign_sameNames
  define := fun name value s => ⟨rfl, s.heap.declares_define s.active name.lexeme value⟩
  declare := declare_declares
  printLine := fun text s => (printLine_sameNames text s).declares
  inside := inside_sameNames

theorem runs_declare (fuel : Nat) : KeptByRuns SameNames Declares fuel := steps_declare.runs fuel

theorem block_sameNames (fuel : Nat) (body : List Stmt) :
    Leaves SameNames (execute fuel (.block body)) := by
  cases fuel with
  | zero => exact leaves_outOfFuel SameNames.refl
  | succ fuel =>
    rw [execute]
    exact fun s => inside_sameNames s.active [] _ ((runs_declare fuel).executeAll body) s

/-! ## Statements that declare nothing -/

/-- The statement, its branches and its body are no declarations. The statements in a block may
be, as a block has a scope of its own. -/
inductive Stmt.Undeclaring : Stmt → Prop
  | expression (value : Expr) : Undeclaring (.expression value)
  | print (value : Expr) : Undeclaring (.print value)
  | block (body : List Stmt) : Undeclaring (.block body)
  | ifElse (condition : Expr) {thenBranch : Stmt} {elseBranch : Option Stmt} :
    Undeclaring thenBranch → (∀ s ∈ elseBranch, Undeclaring s) →
    Undeclaring (.ifElse condition thenBranch elseBranch)
  | whileLoop (condition : Expr) {body : Stmt} : Undeclaring body →
    Undeclaring (.whileLoop condition body)
  | returnValue (keyword : Token) (value : Option Expr) : Undeclaring (.returnValue keyword value)

/-- A loop with its step, in whatever scope it starts. -/
theorem Stmt.Undeclaring.forLoop (start : Option Stmt) (condition step : Option Expr) {body : Stmt}
    (hbody : body.Undeclaring) : (Stmt.forLoop start condition step body).Undeclaring := by
  have hloop : (Stmt.forLoop none condition step body).Undeclaring := by
    apply Undeclaring.whileLoop
    cases step with
    | none => exact hbody
    | some step => exact .block _
  cases start with
  | none => exact hloop
  | some start => exact .block _

/-- The statement, a branch or a body declares the name. What the statements in a block declare is
in the scope of the block. -/
inductive Stmt.Binds : String → Stmt → Prop
  | varDecl (name : Token) (initial : Option Expr) : Binds name.lexeme (.varDecl name initial)
  | funDecl (declaration : FunDecl) : Binds declaration.name.lexeme (.funDecl declaration)
  | classDecl (name : Token) (superclass : Option Expr) (methods : List FunDecl) :
    Binds name.lexeme (.classDecl name superclass methods)
  | thenBranch (condition : Expr) {name : String} {thenBranch : Stmt}
    (elseBranch : Option Stmt) : Binds name thenBranch →
    Binds name (.ifElse condition thenBranch elseBranch)
  | elseBranch (condition : Expr) {name : String} (thenBranch : Stmt) {elseBranch : Stmt} :
    Binds name elseBranch → Binds name (.ifElse condition thenBranch (some elseBranch))
  | whileLoop (condition : Expr) {name : String} {body : Stmt} : Binds name body →
    Binds name (.whileLoop condition body)

theorem Stmt.Undeclaring.not_binds {s : Stmt} (hs : s.Undeclaring) (name : String) :
    ¬s.Binds name := by
  intro hbinds
  induction hbinds with
  | varDecl | funDecl | classDecl => cases hs
  | thenBranch condition elseBranch _ ih =>
    cases hs with
    | ifElse _ hthen _ => exact ih hthen
  | elseBranch condition thenBranch _ ih =>
    cases hs with
    | ifElse _ _ helse => exact ih (helse _ rfl)
  | whileLoop condition _ ih =>
    cases hs with
    | whileLoop _ hbody => exact ih hbody

/-- A name that the statement does not declare is bound where it was. -/
theorem execute_sameName (fuel : Nat) {name : String} {s : Stmt} (hs : ¬s.Binds name) :
    Leaves (SameName name) (execute fuel s) := by
  have hrefl : ∀ s, SameName name s s := fun s => (SameNames.refl s).sameName name
  have hdone : ∀ flow : Flow, Leaves (SameName name) (pure flow) := leaves_pure hrefl
  have hdefine : ∀ (token : Token) (value : Value), name ≠ token.lexeme →
      Leaves (SameName name) (define token value >>= fun _ => pure Flow.normal) := by
    intro token value hne
    refine Leaves.bind (SameName.trans name) (fun s => ⟨rfl, ?_⟩) fun _ => hdone .normal
    exact s.heap.sameName_define s.active hne value
  induction fuel generalizing s with
  | zero => exact leaves_outOfFuel hrefl
  | succ fuel ih =>
    have hevaluate : ∀ e, Leaves (SameName name) (evaluate fuel e) :=
      fun e s => ((runs_declare fuel).evaluate e s).sameName name
    cases s with
    | expression value =>
      rw [execute]
      exact (hevaluate value).bind (SameName.trans name) fun _ => hdone .normal
    | print value =>
      rw [execute]
      apply (hevaluate value).bind (SameName.trans name)
      intro value
      refine Leaves.bind (SameName.trans name) (fun s => ?_) fun _ => hdone .normal
      exact (printLine_sameNames value.text s).sameName name
    | varDecl token initial =>
      have hne : name ≠ token.lexeme := by
        rintro rfl
        exact hs (.varDecl token initial)
      cases initial with
      | none =>
        rw [execute]
        exact hdefine token .nil hne
      | some initial =>
        rw [execute]
        exact (hevaluate initial).bind (SameName.trans name) fun value => hdefine token value hne
    | block body => exact fun s => (block_sameNames (fuel + 1) body s).sameName name
    | ifElse condition thenBranch elseBranch =>
      rw [execute_ifElse]
      apply (hevaluate condition).bind (SameName.trans name)
      intro test
      split
      · exact ih fun hthen => hs (.thenBranch condition elseBranch hthen)
      · cases elseBranch with
        | none => exact hdone .normal
        | some elseBranch => exact ih fun helse => hs (.elseBranch condition thenBranch helse)
    | whileLoop condition body =>
      rw [execute]
      apply (hevaluate condition).bind (SameName.trans name)
      intro test
      split
      · apply (ih fun hbody => hs (.whileLoop condition hbody)).bind (SameName.trans name)
        intro flow
        cases flow with
        | returned value => exact hdone (.returned value)
        | normal => exact ih hs
      · exact hdone .normal
    | funDecl declaration =>
      have hne : name ≠ declaration.name.lexeme := by
        rintro rfl
        exact hs (.funDecl declaration)
      rw [execute]
      refine Leaves.bind (SameName.trans name) (fun s => ⟨rfl, ?_⟩) fun _ => hdone .normal
      exact Heap.sameName_define ⟨s.heap.scopes, s.heap.functions + 1⟩ s.active hne _
    | returnValue keyword value =>
      cases value with
      | none =>
        rw [execute]
        exact hdone (.returned .nil)
      | some value =>
        rw [execute]
        exact (hevaluate value).bind (SameName.trans name) fun value => hdone (.returned value)
    | classDecl token superclass methods =>
      have hne : name ≠ token.lexeme := by
        rintro rfl
        exact hs (.classDecl token superclass methods)
      rw [execute]
      exact hdefine token .nil hne

theorem undeclaring_sameNames (fuel : Nat) {s : Stmt} (hs : s.Undeclaring) :
    Leaves SameNames (execute fuel s) := by
  have hsame := fun name t => execute_sameName fuel (hs.not_binds name) t
  exact fun t => ⟨(hsame "" t).active, Heap.sameNames_of_sameName fun name => (hsame name t).scopes⟩

end TreeWalk
