import Mathlib.Data.List.Forall2
import Mathlib.Logic.Relator
import TreeWalk.Proofs.Machine.Inheritance
import TreeWalk.Proofs.Machine.Names
import TreeWalk.Proofs.Machine.Reach

/-!
Heaps that differ in empty scopes. Two runs that make different numbers of scopes have heaps in
which corresponding scopes have different numbers, and scopes in which nothing is bound may have no
counterpart at all. What is found from corresponding scopes corresponds.
-/

namespace TreeWalk

/-- How the scopes of two heaps correspond. Scopes in pairs are counterparts; a gap is a scope of
one heap that has no counterpart, noted with the scope around it. -/
structure Matching where
  pair : ScopeId → ScopeId → Prop
  leftGap : ScopeId → ScopeId → Prop
  rightGap : ScopeId → ScopeId → Prop

namespace Matching

/-- All that corresponds still does. -/
structure Grows (w x : Matching) : Prop where
  pair : ∀ i j, w.pair i j → x.pair i j
  leftGap : ∀ i outer, w.leftGap i outer → x.leftGap i outer
  rightGap : ∀ j outer, w.rightGap j outer → x.rightGap j outer

theorem Grows.refl (w : Matching) : w.Grows w := ⟨fun _ _ h => h, fun _ _ h => h, fun _ _ h => h⟩

theorem Grows.trans {w x y : Matching} (hx : w.Grows x) (hy : x.Grows y) : w.Grows y :=
  ⟨fun i j h => hy.pair i j (hx.pair i j h), fun i o h => hy.leftGap i o (hx.leftGap i o h),
    fun j o h => hy.rightGap j o (hx.rightGap j o h)⟩

/-- The scopes are counterparts, or they are once the gaps in front of them are left. -/
inductive Behind (w : Matching) : ScopeId → ScopeId → Prop
  | pair {i j : ScopeId} : w.pair i j → Behind w i j
  | leftGap {i outer j : ScopeId} : w.leftGap i outer → Behind w outer j → Behind w i j
  | rightGap {i j outer : ScopeId} : w.rightGap j outer → Behind w i outer → Behind w i j

theorem Behind.mono {w x : Matching} {i j : ScopeId} (h : w.Behind i j) (hx : w.Grows x) :
    x.Behind i j := by
  induction h with
  | pair h => exact .pair (hx.pair _ _ h)
  | leftGap h _ ih => exact .leftGap (hx.leftGap _ _ h) ih
  | rightGap h _ ih => exact .rightGap (hx.rightGap _ _ h) ih

def addPair (w : Matching) (i j : ScopeId) : Matching :=
  { w with pair := fun i' j' => w.pair i' j' ∨ i' = i ∧ j' = j }

def addLeft (w : Matching) (i outer : ScopeId) : Matching :=
  { w with leftGap := fun i' outer' => w.leftGap i' outer' ∨ i' = i ∧ outer' = outer }

def addRight (w : Matching) (j outer : ScopeId) : Matching :=
  { w with rightGap := fun j' outer' => w.rightGap j' outer' ∨ j' = j ∧ outer' = outer }

theorem grows_addPair (w : Matching) (i j : ScopeId) : w.Grows (w.addPair i j) :=
  ⟨fun _ _ => .inl, fun _ _ h => h, fun _ _ h => h⟩

theorem grows_addLeft (w : Matching) (i outer : ScopeId) : w.Grows (w.addLeft i outer) :=
  ⟨fun _ _ h => h, fun _ _ => .inl, fun _ _ h => h⟩

theorem grows_addRight (w : Matching) (j outer : ScopeId) : w.Grows (w.addRight j outer) :=
  ⟨fun _ _ h => h, fun _ _ h => h, fun _ _ => .inl⟩

end Matching

/-! ## Values -/

/-- Values that differ in the scopes that functions close over only, and there correspond. -/
inductive Value.Alike (w : Matching) : Value → Value → Prop
  | nil : Alike w .nil .nil
  | bool (b : Bool) : Alike w (.bool b) (.bool b)
  | number (x : Float) : Alike w (.number x) (.number x)
  | string (contents : String) : Alike w (.string contents) (.string contents)
  | function (id : Nat) (declaration : FunDecl) {i j : ScopeId} : w.pair i j →
    Alike w (.function ⟨id, declaration, i⟩) (.function ⟨id, declaration, j⟩)

section

variable {w x : Matching} {u v u' v' : Value}

open Value

theorem Value.Alike.mono (h : u.Alike w v) (hx : w.Grows x) : u.Alike x v := by
  cases h with
  | nil => exact .nil
  | bool b => exact .bool b
  | number a => exact .number a
  | string contents => exact .string contents
  | function id declaration hij => exact .function id declaration (hx.pair _ _ hij)

theorem Value.Plain.alike (h : v.Plain) : v.Alike w v := by
  cases v with
  | nil => exact .nil
  | bool b => exact .bool b
  | number a => exact .number a
  | string contents => exact .string contents
  | function f => exact h.elim

theorem Value.Alike.isTruthy_eq (h : u.Alike w v) : u.isTruthy = v.isTruthy := by cases h <;> rfl

theorem Value.Alike.text_eq (h : u.Alike w v) : u.text = v.text := by cases h <;> rfl

theorem Value.Alike.equal_eq (h : u.Alike w v) (h' : u'.Alike w v') :
    u.equal u' = v.equal v' := by cases h <;> cases h' <;> rfl

theorem Value.Alike.unary_eq (operator : Token) (h : u.Alike w v) :
    Operation.unary operator u = Operation.unary operator v := by
  unfold Operation.unary
  rw [h.isTruthy_eq]
  cases h <;> rfl

theorem Value.Alike.onNumbers_eq (h : u.Alike w v) (h' : u'.Alike w v')
    (f : Float → Float → Except RuntimeFault Value) :
    Operation.onNumbers u u' f = Operation.onNumbers v v' f := by
  cases h <;> cases h' <;> rfl

theorem Value.Alike.add_eq (h : u.Alike w v) (h' : u'.Alike w v') :
    Operation.add u u' = Operation.add v v' := by
  cases h <;> cases h' <;> rfl

theorem Value.Alike.binary_eq (operator : Token) (h : u.Alike w v) (h' : u'.Alike w v') :
    Operation.binary operator u u' = Operation.binary operator v v' := by
  unfold Operation.binary
  simp only [h.add_eq h', h.onNumbers_eq h', h.equal_eq h']

theorem Value.Alike.decides_eq (operator : Token) (h : u.Alike w v) :
    Operation.decides operator u = Operation.decides operator v := by
  unfold Operation.decides
  rw [h.isTruthy_eq]

end

/-! ## Heaps -/

/-- Bindings of the same names to corresponding values. -/
def Scope.AlikeBindings (w : Matching) (bs cs : List (String × Value)) : Prop :=
  ∀ name, Option.Rel (Value.Alike w) (bs.lookup name) (cs.lookup name)

structure Scope.Alike (w : Matching) (s t : Scope) : Prop where
  enclosing : Option.Rel w.Behind s.enclosing t.enclosing
  bindings : AlikeBindings w s.bindings t.bindings

/-- Heaps that made equally many functions and whose scopes correspond one to one, but for gaps. -/
structure Heap.Alike (w : Matching) (h k : Heap) : Prop where
  functions : h.functions = k.functions
  founded : h.Founded
  founded' : k.Founded
  unique : Relator.BiUnique w.pair
  pair : ∀ i j, w.pair i j →
    ∃ s t, h.scopes[i]? = some s ∧ k.scopes[j]? = some t ∧ s.Alike w t
  leftGap : ∀ i outer, w.leftGap i outer →
    h.scopes[i]? = some ⟨[], some outer⟩ ∧ ∀ j, ¬w.pair i j
  rightGap : ∀ j outer, w.rightGap j outer →
    k.scopes[j]? = some ⟨[], some outer⟩ ∧ ∀ i, ¬w.pair i j
  left : ∀ i, i < h.scopes.size → (∃ j, w.pair i j) ∨ ∃ outer, w.leftGap i outer
  right : ∀ j, j < k.scopes.size → (∃ i, w.pair i j) ∨ ∃ outer, w.rightGap j outer

section

variable {w x : Matching}

theorem Scope.AlikeBindings.mono {bs cs : List (String × Value)} (h : AlikeBindings w bs cs)
    (hx : w.Grows x) : AlikeBindings x bs cs :=
  fun name => rel_imp (h name) fun _ _ _ hv => hv.mono hx

theorem Scope.AlikeBindings.put {bs cs : List (String × Value)} {u v : Value}
    (h : AlikeBindings w bs cs) (name : String) (hv : u.Alike w v) :
    AlikeBindings w (Scope.put name u bs) (Scope.put name v cs) := by
  intro other
  rw [lookup_put, lookup_put]
  split
  · exact .some hv
  · exact h other

/-- The bindings of a call's new scope. -/
theorem Scope.alikeBindings_arguments (params : List Token) {us vs : List Value}
    (hus : List.Forall₂ (Value.Alike w) us vs) {bs cs : List (String × Value)}
    (hbs : AlikeBindings w bs cs) :
    AlikeBindings w (((params.map (·.lexeme)).zip us).foldl (fun bs b => put b.1 b.2 bs) bs)
      (((params.map (·.lexeme)).zip vs).foldl (fun bs b => put b.1 b.2 bs) cs) := by
  induction hus generalizing params bs cs with
  | nil => simpa only [List.zip_nil_right, List.foldl_nil] using hbs
  | cons hu _ ihs =>
    cases params with
    | nil => simpa only [List.map_nil, List.zip_nil_left, List.foldl_nil] using hbs
    | cons param params => exact ihs params (hbs.put param.lexeme hu)

theorem Scope.Alike.mono {s t : Scope} (h : s.Alike w t) (hx : w.Grows x) : s.Alike x t :=
  ⟨rel_imp h.enclosing fun _ _ _ hij => hij.mono hx, h.bindings.mono hx⟩

theorem Scope.Alike.binds_eq {s t : Scope} (h : s.Alike w t) (name : String) :
    s.binds name = t.binds name := by
  obtain ⟨hs, ht⟩ | ⟨u, v, hs, ht, _⟩ := rel_cases (h.bindings name) <;>
    simp only [Scope.binds, Scope.lookup, hs, ht, Option.isSome]

end

namespace Heap

theorem Tree.founded {h : Heap} (ht : h.Tree) : h.Founded :=
  fun _ _ _ hi houter => ht.outer_lt hi houter

/-- With fuel enough the search for a name is the same. -/
theorem Founded.ownerFrom_eq {h : Heap} (hh : h.Founded) (name : String) (i : ScopeId) :
    ∀ m n : Nat, i < m → i < n → h.ownerFrom name m i = h.ownerFrom name n i := by
  induction i using Nat.strongRecOn with
  | ind i ih =>
    intro m n hm hn
    obtain ⟨m, rfl⟩ := Nat.exists_eq_add_one.2 (Nat.lt_of_le_of_lt (Nat.zero_le i) hm)
    obtain ⟨n, rfl⟩ := Nat.exists_eq_add_one.2 (Nat.lt_of_le_of_lt (Nat.zero_le i) hn)
    rw [ownerFrom, ownerFrom]
    cases hi : h.scopes[i]? with
    | none => rfl
    | some scope =>
      cases houter : scope.enclosing with
      | none => simp only [houter]
      | some outer =>
        have hlt := hh i outer scope hi houter
        have hm' := Nat.lt_of_lt_of_le hlt (Nat.le_of_lt_succ hm)
        have hn' := Nat.lt_of_lt_of_le hlt (Nat.le_of_lt_succ hn)
        simp only [houter, ih outer hlt m n hm' hn']

/-- The owner of a name is the scope itself or the owner from the scope around it. -/
theorem Founded.owner?_eq {h : Heap} (hh : h.Founded) (name : String) {i : ScopeId} {s : Scope}
    (hi : h.scopes[i]? = some s) :
    h.owner? i name = if s.binds name then some i else s.enclosing.bind (h.owner? · name) := by
  unfold owner?
  rw [ownerFrom]
  simp only [hi]
  split
  · rfl
  · cases houter : s.enclosing with
    | none => rfl
    | some outer =>
      exact hh.ownerFrom_eq name outer _ _ (hh i outer s hi houter) (Nat.lt_succ_self _)

namespace Alike

variable {w : Matching} {h k : Heap} (hh : h.Alike w k)
include hh

theorem lt_left {i j : ScopeId} (hij : w.Behind i j) : i < h.scopes.size := by
  induction hij with
  | pair hij =>
    obtain ⟨s, t, hi, _⟩ := hh.pair _ _ hij
    exact (Array.getElem?_eq_some_iff.mp hi).1
  | leftGap hgap => exact (Array.getElem?_eq_some_iff.mp (hh.leftGap _ _ hgap).1).1
  | rightGap _ _ ih => exact ih

theorem lt_right {i j : ScopeId} (hij : w.Behind i j) : j < k.scopes.size := by
  induction hij with
  | pair hij =>
    obtain ⟨s, t, _, hj, _⟩ := hh.pair _ _ hij
    exact (Array.getElem?_eq_some_iff.mp hj).1
  | leftGap _ _ ih => exact ih
  | rightGap hgap => exact (Array.getElem?_eq_some_iff.mp (hh.rightGap _ _ hgap).1).1

/-- Gaps bind nothing, so the search for a name passes through them. -/
theorem owner? (name : String) {i j : ScopeId} (hij : w.Behind i j) :
    Option.Rel w.pair (h.owner? i name) (k.owner? j name) := by
  generalize hn : i + j = n
  induction n using Nat.strongRecOn generalizing i j with
  | ind n ih =>
    cases hij with
    | pair hij =>
      obtain ⟨s, t, hi, hj, hst⟩ := hh.pair i j hij
      rw [hh.founded.owner?_eq name hi, hh.founded'.owner?_eq name hj, ← hst.binds_eq name]
      split
      · exact .some hij
      · obtain ⟨hs, ht⟩ | ⟨i', j', hs, ht, hij'⟩ := rel_cases hst.enclosing
        · rw [hs, ht]
          exact .none
        · rw [hs, ht]
          have hi' := hh.founded i i' s hi hs
          have hj' := hh.founded' j j' t hj ht
          exact ih (i' + j') (hn ▸ Nat.add_lt_add hi' hj') hij' rfl
    | @leftGap _ outer _ hgap hij =>
      have hi := (hh.leftGap i outer hgap).1
      rw [hh.founded.owner?_eq name hi]
      have hlt := hh.founded i outer _ hi rfl
      exact ih (outer + j) (hn ▸ Nat.add_lt_add_right hlt j) hij rfl
    | @rightGap _ _ outer hgap hij =>
      have hj := (hh.rightGap j outer hgap).1
      rw [hh.founded'.owner?_eq name hj]
      have hlt := hh.founded' j outer _ hj rfl
      exact ih (i + outer) (hn ▸ Nat.add_lt_add_left hlt i) hij rfl

theorem get? (name : String) {i j : ScopeId} (hij : w.Behind i j) :
    Option.Rel (Value.Alike w) (h.get? i name) (k.get? j name) := by
  unfold Heap.get?
  obtain ⟨hi, hj⟩ | ⟨i', j', hi, hj, hij'⟩ := rel_cases (hh.owner? name hij)
  · rw [hi, hj]
    exact .none
  · obtain ⟨s, t, hs, ht, hst⟩ := hh.pair i' j' hij'
    simp only [bind, Option.bind, hi, hj, hs, ht]
    exact hst.bindings name

end Alike

theorem nextScope_eq (h : Heap) : h.nextScope = h.scopes.size := rfl

theorem Founded.define {h : Heap} (hh : h.Founded) (s : ScopeId) (name : String) (value : Value) :
    (h.define s name value).Founded := by
  intro i outer scope hi houter
  rw [getElem?_define] at hi
  split at hi
  · obtain ⟨old, hold, rfl⟩ := Option.map_eq_some_iff.1 hi
    exact hh i outer old hold houter
  · exact hh i outer scope hi houter

theorem Founded.addScope {h : Heap} (hh : h.Founded) {s : ScopeId} (hs : s < h.scopes.size)
    (bindings : List (String × Value)) : (h.addScope s bindings).Founded := by
  intro i outer scope hi houter
  rw [getElem?_addScope] at hi
  split at hi
  · next hlast =>
    cases hi
    cases houter
    exact hlast ▸ hs
  · exact hh i outer scope hi houter

namespace Alike

variable {w : Matching} {h k : Heap} (hh : h.Alike w k)
include hh

theorem define {i j : ScopeId} (hij : w.pair i j) (name : String) {u v : Value}
    (hv : u.Alike w v) : (h.define i name u).Alike w (k.define j name v) where
  functions := hh.functions
  founded := hh.founded.define i name u
  founded' := hh.founded'.define j name v
  unique := hh.unique
  pair := by
    intro i' j' hij'
    obtain ⟨s, t, hs, ht, hst⟩ := hh.pair i' j' hij'
    rw [getElem?_define, getElem?_define, hs, ht]
    -- Pairs are one to one, so the two scopes are both defined in or neither.
    have hsame : i = i' ↔ j = j' := by
      constructor
      · rintro rfl
        exact hh.unique.2 hij hij'
      · rintro rfl
        exact hh.unique.1 hij hij'
    by_cases hi : i = i'
    · rw [if_pos hi, if_pos (hsame.mp hi)]
      exact ⟨_, _, rfl, rfl, hst.enclosing, hst.bindings.put name hv⟩
    · rw [if_neg hi, if_neg fun hj => hi (hsame.mpr hj)]
      exact ⟨s, t, rfl, rfl, hst⟩
  leftGap := by
    intro i' outer hgap
    obtain ⟨hi', hnone⟩ := hh.leftGap i' outer hgap
    have hne : i ≠ i' := by
      rintro rfl
      exact hnone j hij
    rw [getElem?_define, if_neg hne]
    exact ⟨hi', hnone⟩
  rightGap := by
    intro j' outer hgap
    obtain ⟨hj', hnone⟩ := hh.rightGap j' outer hgap
    have hne : j ≠ j' := by
      rintro rfl
      exact hnone i hij
    rw [getElem?_define, if_neg hne]
    exact ⟨hj', hnone⟩
  left := by simpa using hh.left
  right := by simpa using hh.right

/-- The functions made next have one identity, and close over counterparts. -/
theorem declare {i j : ScopeId} (hij : w.pair i j) (declaration : FunDecl) :
    (h.declare i declaration).Alike w (k.declare j declaration) := by
  have hcounted : Alike w { h with functions := h.functions + 1 }
      { k with functions := k.functions + 1 } :=
    ⟨congrArg (· + 1) hh.functions, hh.founded, hh.founded', hh.unique, hh.pair, hh.leftGap,
      hh.rightGap, hh.left, hh.right⟩
  refine hcounted.define hij declaration.name.lexeme ?_
  rw [hh.functions]
  exact .function k.functions declaration hij

/-- New scopes are counterparts. -/
theorem addPair {i j : ScopeId} (hij : w.Behind i j) {bs cs : List (String × Value)}
    (hbs : Scope.AlikeBindings w bs cs) :
    (h.addScope i bs).Alike (w.addPair h.nextScope k.nextScope) (k.addScope j cs) := by
  have hgrows := w.grows_addPair h.nextScope k.nextScope
  have hleft : ∀ j, ¬w.pair h.nextScope j := fun j hp =>
    Nat.lt_irrefl _ (hh.lt_left (.pair hp))
  have hright : ∀ i, ¬w.pair i k.nextScope := fun i hp =>
    Nat.lt_irrefl _ (hh.lt_right (.pair hp))
  refine ⟨hh.functions, hh.founded.addScope (hh.lt_left hij) bs,
    hh.founded'.addScope (hh.lt_right hij) cs, ⟨?_, ?_⟩, ?_, ?_, ?_, ?_, ?_⟩
  · rintro a c b (hab | ⟨rfl, rfl⟩) (hcb | ⟨rfl, hb⟩)
    · exact hh.unique.1 hab hcb
    · exact absurd (hb ▸ hab) (hright a)
    · exact absurd hcb (hright c)
    · rfl
  · rintro a b c (hab | ⟨rfl, rfl⟩) (hac | ⟨ha, rfl⟩)
    · exact hh.unique.2 hab hac
    · exact absurd (ha ▸ hab) (hleft b)
    · exact absurd hac (hleft c)
    · rfl
  · rintro i' j' (hp | ⟨rfl, rfl⟩)
    · obtain ⟨s, t, hs, ht, hst⟩ := hh.pair i' j' hp
      have hi' : i' ≠ h.scopes.size := Nat.ne_of_lt (hh.lt_left (.pair hp))
      have hj' : j' ≠ k.scopes.size := Nat.ne_of_lt (hh.lt_right (.pair hp))
      rw [getElem?_addScope, getElem?_addScope, if_neg hi', if_neg hj']
      exact ⟨s, t, hs, ht, hst.mono hgrows⟩
    · rw [getElem?_addScope, getElem?_addScope, if_pos (nextScope_eq h), if_pos (nextScope_eq k)]
      exact ⟨_, _, rfl, rfl, .some (hij.mono hgrows), hbs.mono hgrows⟩
  · intro i' outer hgap
    obtain ⟨hi', hnone⟩ := hh.leftGap i' outer hgap
    have hne : i' ≠ h.scopes.size := Nat.ne_of_lt (Array.getElem?_eq_some_iff.mp hi').1
    rw [getElem?_addScope, if_neg hne]
    refine ⟨hi', ?_⟩
    rintro j' (hp | ⟨rfl, _⟩)
    · exact hnone j' hp
    · exact hne rfl
  · intro j' outer hgap
    obtain ⟨hj', hnone⟩ := hh.rightGap j' outer hgap
    have hne : j' ≠ k.scopes.size := Nat.ne_of_lt (Array.getElem?_eq_some_iff.mp hj').1
    rw [getElem?_addScope, if_neg hne]
    refine ⟨hj', ?_⟩
    rintro i' (hp | ⟨_, rfl⟩)
    · exact hnone i' hp
    · exact hne rfl
  · intro i' hi'
    rw [size_addScope] at hi'
    by_cases hlast : i' = h.scopes.size
    · exact .inl ⟨_, .inr ⟨hlast, rfl⟩⟩
    · exact (hh.left i' (by omega)).imp (fun ⟨j', hp⟩ => ⟨j', .inl hp⟩) id
  · intro j' hj'
    rw [size_addScope] at hj'
    by_cases hlast : j' = k.scopes.size
    · exact .inl ⟨_, .inr ⟨rfl, hlast⟩⟩
    · exact (hh.right j' (by omega)).imp (fun ⟨i', hp⟩ => ⟨i', .inl hp⟩) id

/-- A new scope that is empty and in the first heap only is a gap. -/
theorem addLeft {i : ScopeId} (hi : i < h.scopes.size) :
    (h.addScope i []).Alike (w.addLeft h.nextScope i) k := by
  have hgrows := w.grows_addLeft h.nextScope i
  refine ⟨hh.functions, hh.founded.addScope hi [], hh.founded', hh.unique, ?_, ?_, hh.rightGap,
    ?_, hh.right⟩
  · intro i' j' hp
    obtain ⟨s, t, hs, ht, hst⟩ := hh.pair i' j' hp
    have hi' : i' ≠ h.scopes.size := Nat.ne_of_lt (hh.lt_left (.pair hp))
    rw [getElem?_addScope, if_neg hi']
    exact ⟨s, t, hs, ht, hst.mono hgrows⟩
  · rintro i' outer (hgap | ⟨rfl, rfl⟩)
    · obtain ⟨hi', hnone⟩ := hh.leftGap i' outer hgap
      have hne : i' ≠ h.scopes.size := Nat.ne_of_lt (Array.getElem?_eq_some_iff.mp hi').1
      rw [getElem?_addScope, if_neg hne]
      exact ⟨hi', hnone⟩
    · rw [getElem?_addScope, if_pos (nextScope_eq h)]
      exact ⟨rfl, fun j hp => Nat.lt_irrefl _ (hh.lt_left (.pair hp))⟩
  · intro i' hi'
    rw [size_addScope] at hi'
    by_cases hlast : i' = h.scopes.size
    · exact .inr ⟨_, .inr ⟨hlast, rfl⟩⟩
    · exact (hh.left i' (by omega)).imp id fun ⟨outer, hgap⟩ => ⟨outer, .inl hgap⟩

/-- A new scope that is empty and in the second heap only is a gap. -/
theorem addRight {j : ScopeId} (hj : j < k.scopes.size) :
    h.Alike (w.addRight k.nextScope j) (k.addScope j []) := by
  have hgrows := w.grows_addRight k.nextScope j
  refine ⟨hh.functions, hh.founded, hh.founded'.addScope hj [], hh.unique, ?_, hh.leftGap, ?_,
    hh.left, ?_⟩
  · intro i' j' hp
    obtain ⟨s, t, hs, ht, hst⟩ := hh.pair i' j' hp
    have hj' : j' ≠ k.scopes.size := Nat.ne_of_lt (hh.lt_right (.pair hp))
    rw [getElem?_addScope, if_neg hj']
    exact ⟨s, t, hs, ht, hst.mono hgrows⟩
  · rintro j' outer (hgap | ⟨rfl, rfl⟩)
    · obtain ⟨hj', hnone⟩ := hh.rightGap j' outer hgap
      have hne : j' ≠ k.scopes.size := Nat.ne_of_lt (Array.getElem?_eq_some_iff.mp hj').1
      rw [getElem?_addScope, if_neg hne]
      exact ⟨hj', hnone⟩
    · rw [getElem?_addScope, if_pos (nextScope_eq k)]
      exact ⟨rfl, fun i hp => Nat.lt_irrefl _ (hh.lt_right (.pair hp))⟩
  · intro j' hj'
    rw [size_addScope] at hj'
    by_cases hlast : j' = k.scopes.size
    · exact .inr ⟨_, .inr ⟨hlast, rfl⟩⟩
    · exact (hh.right j' (by omega)).imp id fun ⟨outer, hgap⟩ => ⟨outer, .inl hgap⟩

end Alike

end Heap

end TreeWalk
