import TreeWalk.Proofs.Machine.ActiveScope
import TreeWalk.Proofs.Machine.Reach

/-!
The scopes of a heap as a tree. Functions that are stored in scopes close over scopes, in cycles
too, but the scope around another was made before it: so every way outward comes to an end at the
global scope and goes through no scope twice.
-/

namespace TreeWalk

/-- The scope that the value closes over, if it is a function, is one of the first `n`. -/
def Value.Below (n : Nat) (v : Value) : Prop := ∀ i, v.ClosesOver i → i < n

theorem Value.Below.mono {n k : Nat} {v : Value} (h : v.Below n) (hk : n ≤ k) : v.Below k :=
  fun i hi => Nat.lt_of_lt_of_le (h i hi) hk

namespace Scope

theorem mem_put {name : String} {value : Value} {bindings : List (String × Value)}
    {b : String × Value} (h : b ∈ put name value bindings) : b = (name, value) ∨ b ∈ bindings := by
  induction bindings with
  | nil => exact .inl (List.mem_singleton.1 h)
  | cons first rest ih =>
    obtain ⟨key, old⟩ := first
    rw [put] at h
    split at h
    · rcases List.mem_cons.1 h with hfirst | hrest
      · exact .inl hfirst
      · exact .inr (List.mem_cons_of_mem _ hrest)
    · rcases List.mem_cons.1 h with hfirst | hrest
      · exact .inr (hfirst ▸ List.mem_cons_self)
      · exact (ih hrest).imp_right (List.mem_cons_of_mem _)

/-- Values that are bound to names one after another. -/
theorem mem_putAll {P : Value → Prop} (names : List String) {values : List Value}
    (hvalues : ∀ v ∈ values, P v) :
    ∀ b ∈ (names.zip values).foldl (fun bs b => put b.1 b.2 bs) [], P b.2 := by
  have hfrom : ∀ bindings : List (String × Value), (∀ b ∈ bindings, P b.2) →
      ∀ b ∈ (names.zip values).foldl (fun bs b => put b.1 b.2 bs) bindings, P b.2 := by
    induction names generalizing values with
    | nil => exact fun _ hbindings => hbindings
    | cons name names ih =>
      intro bindings hbindings
      cases values with
      | nil => exact hbindings
      | cons value values =>
        obtain ⟨hvalue, hvalues⟩ := List.forall_mem_cons.1 hvalues
        apply ih hvalues
        intro b hb
        rcases mem_put hb with rfl | hb
        · exact hvalue
        · exact hbindings b hb
  exact hfrom [] (by simp)

theorem mem_of_lookup {scope : Scope} {name : String} {value : Value}
    (h : scope.lookup name = some value) : (name, value) ∈ scope.bindings := by
  obtain ⟨bindings, enclosing⟩ := scope
  change bindings.lookup name = some value at h
  change (name, value) ∈ bindings
  induction bindings with
  | nil => cases h
  | cons first rest ih =>
    obtain ⟨key, old⟩ := first
    rw [lookup_cons] at h
    split at h
    · next hname =>
      cases h
      exact hname ▸ List.mem_cons_self
    · exact List.mem_cons_of_mem _ (ih h)

end Scope

namespace Heap

/-- The global scope has no scope around it, every other has one that was made before it, and all
functions in scopes close over scopes that were made. -/
structure Tree (h : Heap) : Prop where
  rooted : h.Rooted
  enclosing : ∀ (i : ScopeId) (scope : Scope), h.scopes[i]? = some scope → i ≠ globals →
    ∃ outer, scope.enclosing = some outer ∧ outer < i
  closures : ∀ (i : ScopeId) (scope : Scope), h.scopes[i]? = some scope →
    ∀ b ∈ scope.bindings, b.2.Below h.scopes.size

theorem tree_empty : empty.Tree := by
  have honly : ∀ (i : ScopeId) (scope : Scope), empty.scopes[i]? = some scope →
      i = globals ∧ scope = ⟨[], none⟩ := by
    intro i scope hi
    cases i with
    | zero => exact ⟨rfl, (Option.some.inj hi).symm⟩
    | succ i => simp [empty] at hi
  refine ⟨⟨_, rfl, rfl⟩, ?_, ?_⟩
  · intro i scope hi hne
    exact absurd (honly i scope hi).1 hne
  · intro i scope hi b hb
    rw [(honly i scope hi).2] at hb
    cases hb

namespace Tree

variable {h : Heap} (ht : h.Tree)
include ht

theorem define (s : ScopeId) (name : String) {value : Value} (hvalue : value.Below h.scopes.size) :
    (h.define s name value).Tree := by
  -- A scope that is defined in keeps the scope around it and gets the new binding.
  have hscope : ∀ (i : ScopeId) (scope : Scope), (h.define s name value).scopes[i]? = some scope →
      ∃ old, h.scopes[i]? = some old ∧ scope.enclosing = old.enclosing ∧
        ∀ b ∈ scope.bindings, b = (name, value) ∨ b ∈ old.bindings := by
    intro i scope hi
    rw [getElem?_define] at hi
    split at hi
    · obtain ⟨old, hold, rfl⟩ := Option.map_eq_some_iff.1 hi
      exact ⟨old, hold, rfl, fun b hb => Scope.mem_put hb⟩
    · exact ⟨scope, hi, rfl, fun b hb => .inr hb⟩
  refine ⟨(h.keeps_define s name value).rooted ht.rooted, ?_, ?_⟩
  · intro i scope hi hne
    obtain ⟨old, hold, hsame, _⟩ := hscope i scope hi
    rw [hsame]
    exact ht.enclosing i old hold hne
  · intro i scope hi b hb
    obtain ⟨old, hold, _, hbindings⟩ := hscope i scope hi
    rw [size_define]
    rcases hbindings b hb with rfl | hb
    · exact hvalue
    · exact ht.closures i old hold b hb

theorem addScope {outer : ScopeId} (houter : outer < h.scopes.size)
    {bindings : List (String × Value)} (hbindings : ∀ b ∈ bindings, b.2.Below h.scopes.size) :
    (h.addScope outer bindings).Tree := by
  have hmore : h.scopes.size ≤ (h.addScope outer bindings).scopes.size := by simp
  refine ⟨(h.keeps_addScope outer bindings).rooted ht.rooted, ?_, ?_⟩
  · intro i scope hi hne
    rw [getElem?_addScope] at hi
    split at hi
    · next hlast =>
      cases hi
      exact ⟨outer, rfl, hlast ▸ houter⟩
    · exact ht.enclosing i scope hi hne
  · intro i scope hi b hb
    rw [getElem?_addScope] at hi
    split at hi
    · cases hi
      exact (hbindings b hb).mono hmore
    · exact (ht.closures i scope hi b hb).mono hmore

theorem declare {s : ScopeId} (hs : s < h.scopes.size) (declaration : FunDecl) :
    (h.declare s declaration).Tree := by
  have hcounted : Tree { h with functions := h.functions + 1 } :=
    ⟨ht.rooted, ht.enclosing, ht.closures⟩
  apply hcounted.define
  rintro i rfl
  exact hs

/-- What is found is a value of some scope. -/
theorem get?_below {s : ScopeId} {name : String} {value : Value}
    (hget : h.get? s name = some value) : value.Below h.scopes.size := by
  unfold get? at hget
  obtain ⟨owner, _, hget⟩ := Option.bind_eq_some_iff.1 hget
  obtain ⟨scope, hscope, hlookup⟩ := Option.bind_eq_some_iff.1 hget
  exact ht.closures owner scope hscope _ (Scope.mem_of_lookup hlookup)

end Tree

/-! ## Outward -/

/-- The scopes from one outward, up to one that no scope is around. -/
inductive Chain (h : Heap) : ScopeId → List ScopeId → Prop
  | last {i : ScopeId} {scope : Scope} : h.scopes[i]? = some scope → scope.enclosing = none →
    Chain h i [i]
  | next {i outer : ScopeId} {scope : Scope} {more : List ScopeId} : h.scopes[i]? = some scope →
    scope.enclosing = some outer → Chain h outer more → Chain h i (i :: more)

/-- The search for a name from a scope outward: the scopes it enters, each of which it is still in
when it enters the next one, and the scope that binds the name, if it comes to one. -/
inductive Search (h : Heap) (name : String) : ScopeId → List ScopeId → Option ScopeId → Prop
  | found {i : ScopeId} {scope : Scope} : h.scopes[i]? = some scope → scope.binds name = true →
    Search h name i [i] (some i)
  | unbound {i : ScopeId} {scope : Scope} : h.scopes[i]? = some scope →
    scope.binds name = false → scope.enclosing = none → Search h name i [i] none
  | outward {i outer : ScopeId} {scope : Scope} {entered : List ScopeId}
    {owner : Option ScopeId} : h.scopes[i]? = some scope → scope.binds name = false →
    scope.enclosing = some outer → Search h name outer entered owner →
    Search h name i (i :: entered) owner

namespace Tree

variable {h : Heap} (ht : h.Tree)
include ht

theorem outer_lt {i outer : ScopeId} {scope : Scope} (hi : h.scopes[i]? = some scope)
    (houter : scope.enclosing = some outer) : outer < i := by
  by_cases hglobal : i = globals
  · obtain ⟨root, hroot, hnone⟩ := ht.rooted
    rw [hglobal, hroot] at hi
    cases hi
    rw [hnone] at houter
    cases houter
  · obtain ⟨other, hother, hlt⟩ := ht.enclosing i scope hi hglobal
    rw [houter] at hother
    cases hother
    exact hlt

theorem exists_chain (i : ScopeId) (hi : i < h.scopes.size) : ∃ chain, h.Chain i chain := by
  induction i using Nat.strongRecOn with
  | ind i ih =>
    have hscope : h.scopes[i]? = some h.scopes[i] := Array.getElem?_eq_getElem hi
    cases houter : h.scopes[i].enclosing with
    | none => exact ⟨[i], .last hscope houter⟩
    | some outer =>
      have hlt := ht.outer_lt hscope houter
      obtain ⟨more, hmore⟩ := ih outer hlt (Nat.lt_trans hlt hi)
      exact ⟨i :: more, .next hscope houter hmore⟩

/-- The last scope outward is the global one. -/
theorem chain_last {i : ScopeId} {chain : List ScopeId} (hc : h.Chain i chain) :
    chain.getLast? = some globals := by
  induction hc with
  | @last i scope hi hnone =>
    by_cases hglobal : i = globals
    · rw [hglobal]
      rfl
    · obtain ⟨outer, houter, _⟩ := ht.enclosing i scope hi hglobal
      rw [hnone] at houter
      cases houter
  | next _ _ _ ih =>
    rw [List.getLast?_cons, ih]
    rfl

/-- Each scope on the way outward was made before the one inside it. -/
theorem chain_ordered {i : ScopeId} {chain : List ScopeId} (hc : h.Chain i chain) :
    chain.Pairwise (· > ·) ∧ (∀ j ∈ chain, j ≤ i) ∧ chain.length ≤ i + 1 := by
  induction hc with
  | last => exact ⟨List.pairwise_singleton _ _, by simp, by simp⟩
  | @next i outer scope more hi houter _ ih =>
    obtain ⟨hordered, hle, hlength⟩ := ih
    have hlt := ht.outer_lt hi houter
    have hinside : ∀ j ∈ more, j < i := fun j hj => Nat.lt_of_le_of_lt (hle j hj) hlt
    refine ⟨List.pairwise_cons.2 ⟨hinside, hordered⟩, ?_, ?_⟩
    · exact List.forall_mem_cons.2 ⟨Nat.le_refl i, fun j hj => Nat.le_of_lt (hinside j hj)⟩
    · rw [List.length_cons]
      exact Nat.succ_le_succ (Nat.le_trans hlength hlt)

theorem chain_nodup {i : ScopeId} {chain : List ScopeId} (hc : h.Chain i chain) : chain.Nodup :=
  (ht.chain_ordered hc).1.imp fun hgt => Nat.ne_of_gt hgt

end Tree

/-- Along a chain of `n` scopes the search comes to an end, and `n` units of fuel find what it
finds. -/
theorem Chain.search {h : Heap} {i : ScopeId} {chain : List ScopeId} (hc : h.Chain i chain)
    (name : String) : ∃ entered owner, h.Search name i entered owner ∧ entered <+: chain ∧
      ∀ fuel, chain.length ≤ fuel → h.ownerFrom name fuel i = owner := by
  induction hc with
  | @last i scope hi hnone =>
    cases hbinds : scope.binds name with
    | true =>
      refine ⟨[i], some i, .found hi hbinds, List.prefix_rfl, ?_⟩
      intro fuel hfuel
      obtain ⟨fuel, rfl⟩ := Nat.exists_eq_add_one.2 hfuel
      simp [ownerFrom, hi, hbinds]
    | false =>
      refine ⟨[i], none, .unbound hi hbinds hnone, List.prefix_rfl, ?_⟩
      intro fuel hfuel
      obtain ⟨fuel, rfl⟩ := Nat.exists_eq_add_one.2 hfuel
      simp [ownerFrom, hi, hbinds, hnone]
  | @next i outer scope more hi houter _ ih =>
    obtain ⟨entered, owner, hsearch, hentered, howner⟩ := ih
    cases hbinds : scope.binds name with
    | true =>
      refine ⟨[i], some i, .found hi hbinds, ⟨more, rfl⟩, ?_⟩
      intro fuel hfuel
      obtain ⟨fuel, rfl⟩ := Nat.exists_eq_add_one.2 (Nat.lt_of_lt_of_le (Nat.succ_pos _) hfuel)
      simp [ownerFrom, hi, hbinds]
    | false =>
      refine ⟨i :: entered, owner, .outward hi hbinds houter hsearch,
        List.cons_prefix_cons.2 ⟨rfl, hentered⟩, ?_⟩
      intro fuel hfuel
      rw [List.length_cons] at hfuel
      obtain ⟨fuel, rfl⟩ := Nat.exists_eq_add_one.2 (Nat.lt_of_lt_of_le (Nat.succ_pos _) hfuel)
      simp [ownerFrom, hi, hbinds, houter, howner fuel (by omega)]

/-- In a tree, a name is searched for from every scope to an end and through no scope twice, and
reading and assigning do what the search comes to. -/
theorem Tree.search {h : Heap} (ht : h.Tree) {i : ScopeId} (hi : i < h.scopes.size)
    (name : String) : ∃ entered owner, h.Search name i entered owner ∧ entered.Nodup ∧
      h.get? i name = owner.bind (fun o => h.scopes[o]?.bind (·.lookup name)) ∧
      ∀ value, h.assign? i name value = owner.map (h.define · name value) := by
  obtain ⟨chain, hchain⟩ := ht.exists_chain i hi
  obtain ⟨entered, owner, hsearch, hentered, howner⟩ := hchain.search name
  have hfound : h.owner? i name = owner := howner (i + 1) (ht.chain_ordered hchain).2.2
  refine ⟨entered, owner, hsearch, (ht.chain_nodup hchain).sublist hentered.sublist, ?_, ?_⟩
  · rw [get?, hfound]
    rfl
  · intro value
    rw [assign?, hfound]
    cases owner <;> rfl

end Heap

end TreeWalk
