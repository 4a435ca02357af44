import Mathlib.Logic.Relator
import TreeWalk.Proofs.Machine.Scopes

/-!
The part of a heap that some scopes lead to, and heaps that agree on a part. The part that a run
can reach changes as it stores values, so runs are compared on a fixed set of scopes instead: one
that no link of the heap leaves and that holds every scope yet to be made.
-/

namespace TreeWalk

theorem rel_cases {α β : Type} {r : α → β → Prop} {a : Option α} {b : Option β}
    (h : Option.Rel r a b) : (a = none ∧ b = none) ∨ ∃ x y, a = some x ∧ b = some y ∧ r x y := by
  cases h with
  | none => exact .inl ⟨rfl, rfl⟩
  | some hxy => exact .inr ⟨_, _, rfl, rfl, hxy⟩

theorem rel_some {α β : Type} {r : α → β → Prop} {a : Option α} {b : Option β} {x : α}
    (h : Option.Rel r a b) (ha : a = some x) : ∃ y, b = some y ∧ r x y := by
  subst ha
  cases h with
  | some hxy => exact ⟨_, rfl, hxy⟩

theorem rel_imp {α β : Type} {r q : α → β → Prop} {a : Option α} {b : Option β}
    (h : Option.Rel r a b) (hq : ∀ x y, a = some x → r x y → q x y) : Option.Rel q a b := by
  cases h with
  | none => exact .none
  | some hxy => exact .some (hq _ _ rfl hxy)

/-- The scope that a value keeps in reach. -/
def Value.ClosesOver : Value → ScopeId → Prop
  | .function f, i => f.closure = i
  | _, _ => False

namespace Heap

/-- The least set of scopes that holds the roots, the scope around each of its scopes, and the
scope that each function stored in one of them closes over. -/
inductive Reach (h : Heap) (roots : ScopeId → Prop) : ScopeId → Prop
  | root {i : ScopeId} : roots i → Reach h roots i
  | enclosing {i outer : ScopeId} {scope : Scope} : Reach h roots i →
    h.scopes[i]? = some scope → scope.enclosing = some outer → Reach h roots outer
  | closure {i j : ScopeId} {scope : Scope} {name : String} {value : Value} : Reach h roots i →
    h.scopes[i]? = some scope → scope.lookup name = some value → value.ClosesOver j →
    Reach h roots j

end Heap

/-!
Two runs number the functions they make each on its own, so identities are compared through a
one-to-one pairing, which holds the identities that are yet to be given.
-/

/-- The identities below `m` and `n` may be paired in any way; the later ones are paired in the
order they are given. -/
structure Pairing (ρ : Nat → Nat → Prop) (m n : Nat) : Prop where
  unique : Relator.BiUnique ρ
  fresh : ∀ k, ρ (m + k) (n + k)

/-- Runs that made equally many functions number the next ones alike. -/
theorem Pairing.eq (n : Nat) : Pairing Eq n n :=
  ⟨⟨fun _ _ _ h k => h.trans k.symm, fun _ _ _ h k => h.symm.trans k⟩, fun _ => rfl⟩

/-- The pairing for runs that made unequally many functions: the earlier ones that both have are
the same. -/
def Pairing.Shifted (m n i j : Nat) : Prop := (i = j ∧ i < m ∧ j < n) ∨ ∃ k, i = m + k ∧ j = n + k

theorem Pairing.shifted (m n : Nat) : Pairing (Shifted m n) m n := by
  refine ⟨⟨?_, ?_⟩, fun k => .inr ⟨k, rfl, rfl⟩⟩
  · rintro i j l (⟨hi, hm, hn⟩ | ⟨k, hi, hk⟩) (⟨hi', hm', hn'⟩ | ⟨k', hi', hk'⟩) <;> omega
  · rintro i j l (⟨hi, hm, hn⟩ | ⟨k, hi, hk⟩) (⟨hi', hm', hn'⟩ | ⟨k', hi', hk'⟩) <;> omega

theorem Pairing.succ {ρ : Nat → Nat → Prop} {m n : Nat} (h : Pairing ρ m n) :
    Pairing ρ (m + 1) (n + 1) := by
  refine ⟨h.unique, fun k => ?_⟩
  rw [Nat.add_right_comm m, Nat.add_right_comm n]
  exact h.fresh (k + 1)

section

variable (ρ : Nat → Nat → Prop)

/-- Values that differ in the identities of functions only. -/
inductive Value.Matches : Value → Value → Prop
  | nil : Matches .nil .nil
  | bool (b : Bool) : Matches (.bool b) (.bool b)
  | number (x : Float) : Matches (.number x) (.number x)
  | string (contents : String) : Matches (.string contents) (.string contents)
  | function {i j : Nat} (declaration : FunDecl) (closure : ScopeId) : ρ i j →
    Matches (.function ⟨i, declaration, closure⟩) (.function ⟨j, declaration, closure⟩)

structure Scope.Matches (s t : Scope) : Prop where
  enclosing : s.enclosing = t.enclosing
  lookup : ∀ name, Option.Rel (Value.Matches ρ) (s.lookup name) (t.lookup name)

/-- Heaps that agree on the scopes in `R`, and that have equally many scopes. -/
structure Heap.Agree (R : ScopeId → Prop) (h k : Heap) : Prop where
  pairing : Pairing ρ h.functions k.functions
  size : h.scopes.size = k.scopes.size
  scopes : ∀ i, R i → Option.Rel (Scope.Matches ρ) h.scopes[i]? k.scopes[i]?

end

theorem Value.Matches.refl (v : Value) : v.Matches Eq v := by
  cases v with
  | nil => exact .nil
  | bool b => exact .bool b
  | number x => exact .number x
  | string contents => exact .string contents
  | function f => exact .function f.declaration f.closure rfl

theorem Scope.Matches.refl (s : Scope) : s.Matches Eq s := by
  refine ⟨rfl, fun name => ?_⟩
  cases s.lookup name with
  | none => exact .none
  | some v => exact .some (Value.Matches.refl v)

/-- Heaps agree where their scopes are the same, if they made equally many functions. -/
theorem Heap.Agree.of_eq {R : ScopeId → Prop} {h k : Heap} (hfunctions : h.functions = k.functions)
    (hsize : h.scopes.size = k.scopes.size)
    (hscopes : ∀ i, R i → h.scopes[i]? = k.scopes[i]?) : h.Agree Eq R k := by
  refine ⟨hfunctions ▸ Pairing.eq h.functions, hsize, ?_⟩
  intro i hi
  rw [← hscopes i hi]
  cases h.scopes[i]? with
  | none => exact .none
  | some scope => exact .some (Scope.Matches.refl scope)

theorem Heap.Agree.refl (R : ScopeId → Prop) (h : Heap) : h.Agree Eq R h :=
  .of_eq rfl rfl fun _ _ => rfl

section

variable {ρ : Nat → Nat → Prop} {v w v' w' : Value}

theorem Value.Matches.isTruthy_eq (h : v.Matches ρ w) : v.isTruthy = w.isTruthy := by
  cases h <;> rfl

theorem Value.Matches.text_eq (h : v.Matches ρ w) : v.text = w.text := by
  cases h <;> rfl

/-- A pairing is one-to-one, so it tells the same functions apart. -/
theorem Value.Matches.equal_eq (hρ : Relator.BiUnique ρ) (h : v.Matches ρ w)
    (h' : v'.Matches ρ w') : v.equal v' = w.equal w' := by
  cases h with
  | @function i j declaration closure hij =>
    cases h' with
    | @function i' j' _ _ hij' =>
      have hiff : i = i' ↔ j = j' := by
        constructor
        · rintro rfl
          exact hρ.2 hij hij'
        · rintro rfl
          exact hρ.1 hij hij'
      rw [Value.equal, Value.equal, Bool.eq_iff_iff, beq_iff_eq, beq_iff_eq]
      exact hiff
    | _ => rfl
  | _ => cases h' <;> rfl

end

section

variable (ρ : Nat → Nat → Prop) (R : ScopeId → Prop)

/-- Matching values that keep nothing outside `R` in reach. -/
structure Value.Shared (v w : Value) : Prop where
  same : v.Matches ρ w
  within : ∀ i, v.ClosesOver i → R i

/-- Bindings of the same names to shared values. -/
def Scope.SharedBindings (bs cs : List (String × Value)) : Prop :=
  ∀ name, Option.Rel (Value.Shared ρ R) (bs.lookup name) (cs.lookup name)

structure Scope.Shared (s t : Scope) : Prop where
  enclosing : s.enclosing = t.enclosing
  within : ∀ outer, s.enclosing = some outer → R outer
  bindings : SharedBindings ρ R s.bindings t.bindings

/-- Heaps that agree on `R`, where `R` is closed under the links of both and holds every scope yet
to be made; outside it, the first heap still is `base`. -/
structure Heap.Shared (base h k : Heap) : Prop where
  pairing : Pairing ρ h.functions k.functions
  size : h.scopes.size = k.scopes.size
  unmade : ∀ i, h.scopes.size ≤ i → R i
  scopes : ∀ i, R i → Option.Rel (Scope.Shared ρ R) h.scopes[i]? k.scopes[i]?
  outside : ∀ i, ¬R i → h.scopes[i]? = base.scopes[i]?

end

variable {ρ : Nat → Nat → Prop} {R : ScopeId → Prop}

theorem Scope.SharedBindings.put {bs cs : List (String × Value)} {v w : Value}
    (hbs : SharedBindings ρ R bs cs) (name : String) (hv : v.Shared ρ R w) :
    SharedBindings ρ R (Scope.put name v bs) (Scope.put name w cs) := by
  intro other
  rw [lookup_put, lookup_put]
  split
  · exact .some hv
  · exact hbs other

theorem Scope.Shared.binds {s t : Scope} (hs : s.Shared ρ R t) (name : String) :
    s.binds name = t.binds name := by
  obtain ⟨hi, ki⟩ | ⟨v, w, hi, ki, _⟩ := rel_cases (hs.bindings name) <;>
    simp only [Scope.binds, Scope.lookup, hi, ki, Option.isSome]

theorem Scope.Shared.define {s t : Scope} {v w : Value} (hs : s.Shared ρ R t) (name : String)
    (hv : v.Shared ρ R w) : (s.define name v).Shared ρ R (t.define name w) :=
  ⟨hs.enclosing, hs.within, hs.bindings.put name hv⟩

namespace Heap

variable {base h k : Heap}

theorem Shared.define {s : ScopeId} {v w : Value} (hh : Shared ρ R base h k) (hs : R s)
    (name : String) (hv : v.Shared ρ R w) :
    Shared ρ R base (h.define s name v) (k.define s name w) where
  pairing := hh.pairing
  size := by simp [hh.size]
  unmade := by simpa using hh.unmade
  scopes := by
    intro i hi
    rw [getElem?_define, getElem?_define]
    split
    · obtain ⟨hi, ki⟩ | ⟨scope, scope', hi, ki, hscope⟩ := rel_cases (hh.scopes i hi)
      · rw [hi, ki]
        exact .none
      · rw [hi, ki]
        exact .some (hscope.define name hv)
    · exact hh.scopes i hi
  outside := by
    intro i hi
    have hne : s ≠ i := by
      rintro rfl
      exact hi hs
    rw [getElem?_define, if_neg hne, hh.outside i hi]

theorem Shared.addScope {outer : ScopeId} {bs cs : List (String × Value)}
    (hh : Shared ρ R base h k) (hout : R outer) (hbs : Scope.SharedBindings ρ R bs cs) :
    Shared ρ R base (h.addScope outer bs) (k.addScope outer cs) where
  pairing := hh.pairing
  size := by simp [hh.size]
  unmade := by
    intro i hi
    rw [size_addScope] at hi
    exact hh.unmade i (by omega)
  scopes := by
    intro i hi
    rw [getElem?_addScope, getElem?_addScope, ← hh.size]
    split
    · refine .some ⟨rfl, ?_, hbs⟩
      intro _ heq
      cases heq
      exact hout
    · exact hh.scopes i hi
  outside := by
    intro i hi
    have hne : i ≠ h.scopes.size := by
      rintro rfl
      exact hi (hh.unmade _ (Nat.le_refl _))
    rw [getElem?_addScope, if_neg hne, hh.outside i hi]

/-- The functions made next are paired, and close over the same scope. -/
theorem Shared.declare {s : ScopeId} (hh : Shared ρ R base h k) (hs : R s)
    (declaration : FunDecl) :
    Shared ρ R base (h.declare s declaration) (k.declare s declaration) := by
  have hcounted : Shared ρ R base { h with functions := h.functions + 1 }
      { k with functions := k.functions + 1 } :=
    ⟨hh.pairing.succ, hh.size, hh.unmade, hh.scopes, hh.outside⟩
  refine hcounted.define hs declaration.name.lexeme ⟨.function declaration s ?_, ?_⟩
  · exact hh.pairing.fresh 0
  · rintro i rfl
    exact hs

/-- The way outward to the owner of a name is the same in both heaps, and stays in `R`. -/
theorem Shared.ownerFrom (hh : Shared ρ R base h k) (name : String) (fuel : Nat) {s : ScopeId}
    (hs : R s) :
    h.ownerFrom name fuel s = k.ownerFrom name fuel s ∧
      ∀ owner, h.ownerFrom name fuel s = some owner → R owner := by
  induction fuel generalizing s with
  | zero => exact ⟨rfl, fun _ howner => nomatch howner⟩
  | succ fuel ih =>
    rw [Heap.ownerFrom, Heap.ownerFrom]
    obtain ⟨hi, ki⟩ | ⟨scope, scope', hi, ki, hscope⟩ := rel_cases (hh.scopes s hs)
    · rw [hi, ki]
      exact ⟨rfl, fun _ howner => nomatch howner⟩
    · rw [hi, ki]
      dsimp only
      rw [← hscope.binds name, ← hscope.enclosing]
      split
      · refine ⟨rfl, fun owner howner => ?_⟩
        cases howner
        exact hs
      · cases hout : scope.enclosing with
        | none => exact ⟨rfl, fun _ howner => nomatch howner⟩
        | some outer => exact ih (hscope.within outer hout)

theorem Shared.owner? (hh : Shared ρ R base h k) (name : String) {s : ScopeId} (hs : R s) :
    h.owner? s name = k.owner? s name ∧ ∀ owner, h.owner? s name = some owner → R owner :=
  hh.ownerFrom name (s + 1) hs

theorem Shared.get? (hh : Shared ρ R base h k) (name : String) {s : ScopeId} (hs : R s) :
    Option.Rel (Value.Shared ρ R) (h.get? s name) (k.get? s name) := by
  obtain ⟨hsame, hin⟩ := hh.owner? name hs
  unfold Heap.get?
  rw [← hsame]
  cases howner : h.owner? s name with
  | none => exact .none
  | some owner =>
    obtain ⟨hi, ki⟩ | ⟨scope, scope', hi, ki, hscope⟩ :=
      rel_cases (hh.scopes owner (hin owner howner))
    · simp only [bind, Option.bind, hi, ki]
      exact .none
    · simp only [bind, Option.bind, hi, ki]
      exact hscope.bindings name

/-- Heaps that agree on what the roots lead to share that part and all that is yet to be made. -/
theorem Agree.shared {roots : ScopeId → Prop} (hh : Agree ρ (Reach h roots) h k) :
    Shared ρ (fun i => Reach h roots i ∨ h.scopes.size ≤ i) h h k where
  pairing := hh.pairing
  size := hh.size
  unmade := fun _ hi => .inr hi
  scopes := by
    rintro i (hi | hi)
    · apply rel_imp (hh.scopes i hi)
      intro scope scope' hs hscope
      have hbindings : ∀ name, Option.Rel
          (Value.Shared ρ fun i => Reach h roots i ∨ h.scopes.size ≤ i)
          (scope.lookup name) (scope'.lookup name) := by
        intro name
        apply rel_imp (hscope.lookup name)
        intro v w hv hvw
        exact ⟨hvw, fun _ hj => .inl (.closure hi hs hv hj)⟩
      exact ⟨hscope.enclosing, fun _ hout => .inl (.enclosing hi hs hout), hbindings⟩
    · rw [Array.getElem?_eq_none hi, Array.getElem?_eq_none (hh.size ▸ hi)]
      exact .none
  outside := fun _ _ => rfl

theorem Shared.reach (hh : Shared ρ R base h k) {roots : ScopeId → Prop}
    (hroots : ∀ i, roots i → R i) {i : ScopeId} (hi : Reach h roots i) : R i := by
  induction hi with
  | root hroot => exact hroots _ hroot
  | @enclosing i outer scope _ hs hout ih =>
    obtain ⟨_, _, hscope⟩ := rel_some (hh.scopes i ih) hs
    exact hscope.within outer hout
  | @closure i j scope name value _ hs hv hj ih =>
    obtain ⟨_, _, hscope⟩ := rel_some (hh.scopes i ih) hs
    obtain ⟨_, _, hvalue⟩ := rel_some (hscope.bindings name) hv
    exact hvalue.within j hj

theorem Shared.agree (hh : Shared ρ R base h k) {roots : ScopeId → Prop}
    (hroots : ∀ i, roots i → R i) : Agree ρ (Reach h roots) h k where
  pairing := hh.pairing
  size := hh.size
  scopes := by
    intro i hi
    have hin : R i := hh.reach hroots hi
    apply rel_imp (hh.scopes i hin)
    intro scope scope' _ hscope
    exact ⟨hscope.enclosing,
      fun name => rel_imp (hscope.bindings name) fun _ _ _ hvw => hvw.same⟩

end Heap

end TreeWalk
