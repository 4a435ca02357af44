import TreeWalk.Proofs.Machine.Allocation
import TreeWalk.Proofs.Machine.Correspondence
import TreeWalk.Proofs.Machine.Noninterference

/-!
Reading after writing. Many scopes see one binding: all those whose way outward comes to it before
a nearer binding of its name. Reading, assigning and defining agree on where a name is bound, so
that a write shows in what these scopes read, and nowhere else.
-/

namespace TreeWalk

theorem Scope.lookup_define (scope : Scope) (name other : String) (value : Value) :
    (scope.define name value).lookup other =
      if other = name then some value else scope.lookup other :=
  lookup_put name other value scope.bindings

namespace Heap

/-- The scope is there and binds the name. -/
def Binds (h : Heap) (name : String) (i : ScopeId) : Prop :=
  ∃ scope, h.scopes[i]? = some scope ∧ scope.binds name = true

/-- The way outward from a scope comes to `s`, and no scope before `s` binds the name. -/
inductive Meets (h : Heap) (name : String) (s : ScopeId) : ScopeId → Prop
  | here : s < h.scopes.size → Meets h name s s
  | outward {i outer : ScopeId} {scope : Scope} : h.scopes[i]? = some scope →
    scope.binds name = false → scope.enclosing = some outer → Meets h name s outer →
    Meets h name s i

theorem getElem?_define_self {h : Heap} {s : ScopeId} {scope : Scope}
    (hs : h.scopes[s]? = some scope) (name : String) (value : Value) :
    (h.define s name value).scopes[s]? = some (scope.define name value) := by
  simp [getElem?_define, hs]

theorem getElem?_define_of_ne (h : Heap) {s i : ScopeId} (hi : i ≠ s) (name : String)
    (value : Value) : (h.define s name value).scopes[i]? = h.scopes[i]? := by
  simp [getElem?_define, hi.symm]

theorem get?_of_none {h : Heap} {i : ScopeId} (hi : h.scopes[i]? = none) (name : String) :
    h.get? i name = none := by
  simp [get?, owner?, ownerFrom, hi]

namespace Founded

variable {h : Heap} (hh : h.Founded) {name : String} {s t : ScopeId}
include hh

/-- A name is read in the scope itself, or from the scope around it. -/
theorem get?_eq (name : String) {scope : Scope} (ht : h.scopes[t]? = some scope) :
    h.get? t name = (scope.lookup name).or (scope.enclosing.bind (h.get? · name)) := by
  unfold get?
  rw [hh.owner?_eq name ht]
  cases hlookup : scope.lookup name with
  | some value => simp [Scope.binds, ht, hlookup]
  | none => cases scope.enclosing <;> simp [Scope.binds, hlookup]

/-- The owner of a name is the nearest scope outward that binds it. -/
theorem owner?_eq_some_iff : h.owner? t name = some s ↔ h.Meets name s t ∧ h.Binds name s := by
  constructor
  · intro howner
    induction t using Nat.strongRecOn with
    | ind t ih =>
      cases ht : h.scopes[t]? with
      | none => simp [owner?, ownerFrom, ht] at howner
      | some scope =>
        rw [hh.owner?_eq name ht] at howner
        split at howner
        · next hbinds =>
          cases howner
          exact ⟨.here (Array.getElem?_eq_some_iff.mp ht).1, scope, ht, hbinds⟩
        · next hbinds =>
          obtain ⟨outer, houter, howner⟩ := Option.bind_eq_some_iff.1 howner
          obtain ⟨hmeets, hs⟩ := ih outer (hh t outer scope ht houter) howner
          exact ⟨.outward ht (Bool.eq_false_iff.2 hbinds) houter hmeets, hs⟩
  · rintro ⟨hmeets, scope, hs, hbinds⟩
    induction hmeets with
    | here => simp [hh.owner?_eq name hs, hbinds]
    | outward hi hfree houter _ ih => simp [hh.owner?_eq name hi, hfree, houter, ih]

/-! ## After a definition -/

theorem get?_define_of_meets (hmeets : h.Meets name s t) (value : Value) :
    (h.define s name value).get? t name = some value := by
  have hdefined := hh.define s name value
  have hself : s < h.scopes.size → (h.define s name value).get? s name = some value := by
    intro hs
    rw [hdefined.get?_eq name (getElem?_define_self (Array.getElem?_eq_getElem hs) name value)]
    simp [Scope.lookup_define]
  induction hmeets with
  | here hs => exact hself hs
  | @outward i outer scope hi hfree houter _ ih =>
    by_cases his : i = s
    · subst his
      exact hself (Array.getElem?_eq_some_iff.mp hi).1
    · have hunbound : scope.lookup name = none := by simpa [Scope.binds] using hfree
      rw [← getElem?_define_of_ne h his name value] at hi
      simp [hdefined.get?_eq name hi, hunbound, houter, ih]

/-- What is read under another name, or past a nearer binding, or on another way outward, stays. -/
theorem get?_define_of_not (value : Value) {other : String}
    (hnot : ¬ (other = name ∧ h.Meets name s t)) :
    (h.define s name value).get? t other = h.get? t other := by
  have hdefined := hh.define s name value
  induction t using Nat.strongRecOn with
  | ind t ih =>
    cases ht : h.scopes[t]? with
    | none =>
      have ht' : (h.define s name value).scopes[t]? = none := by simp [getElem?_define, ht]
      rw [get?_of_none ht, get?_of_none ht']
    | some scope =>
      -- What the scope binds under the name stays, and so does what is read further outward.
      obtain ⟨kept, hkept, hlookup, houter⟩ : ∃ kept : Scope,
          (h.define s name value).scopes[t]? = some kept ∧
            kept.lookup other = scope.lookup other ∧ kept.enclosing = scope.enclosing := by
        by_cases hts : t = s
        · subst hts
          have hlt : t < h.scopes.size := (Array.getElem?_eq_some_iff.mp ht).1
          have hother : other ≠ name := fun hname => hnot ⟨hname, .here hlt⟩
          refine ⟨_, getElem?_define_self ht name value, ?_, rfl⟩
          simp [Scope.lookup_define, hother]
        · exact ⟨scope, by rw [getElem?_define_of_ne h hts, ht], rfl, rfl⟩
      rw [hdefined.get?_eq other hkept, hh.get?_eq other ht, hlookup, houter]
      cases hfound : scope.lookup other with
      | some old => rfl
      | none =>
        cases hout : scope.enclosing with
        | none => rfl
        | some outer =>
          refine ih outer (hh t outer scope ht hout) ?_
          rintro ⟨rfl, hmeets⟩
          exact hnot ⟨rfl, .outward ht (by simp [Scope.binds, hfound]) hout hmeets⟩

/-! ## After an assignment -/

theorem get?_eq_none_iff : h.get? t name = none ↔ h.owner? t name = none := by
  constructor
  · intro hget
    by_contra hne
    obtain ⟨owner, howner⟩ := Option.ne_none_iff_exists'.1 hne
    obtain ⟨scope, hscope, hbinds⟩ := (hh.owner?_eq_some_iff.1 howner).2
    simp only [get?, howner, hscope, bind, Option.bind_some] at hget
    simp [Scope.binds, hget] at hbinds
  · intro howner
    simp [get?, howner]

/-- A write to the owner of a name is read by those who share the owner. -/
theorem get?_define_owner {owner : ScopeId} (howner : h.owner? s name = some owner)
    (value : Value) (t : ScopeId) (other : String) :
    (h.define owner name value).get? t other =
      if other = name ∧ h.owner? t other = h.owner? s other then some value
      else h.get? t other := by
  have hbound := (hh.owner?_eq_some_iff.1 howner).2
  split
  · next hsame =>
    obtain ⟨rfl, hsame⟩ := hsame
    rw [howner] at hsame
    exact hh.get?_define_of_meets (hh.owner?_eq_some_iff.1 hsame).1 value
  · next hother =>
    refine hh.get?_define_of_not value ?_
    rintro ⟨rfl, hmeets⟩
    exact hother ⟨rfl, by rw [howner, hh.owner?_eq_some_iff.2 ⟨hmeets, hbound⟩]⟩

end Founded

end Heap

open Run

section

variable (h : Heap) (s : ScopeId) (name : Token) (sink : Sink)

theorem read_eq : Run.read name ⟨h, s, sink⟩ = match h.get? s name.lexeme with
    | some value => .ok value ⟨h, s, sink⟩
    | none => .error (.failure (.runtime (.undefined name.lexeme) name.line)) ⟨h, s, sink⟩ := by
  unfold Run.read
  cases h.get? s name.lexeme <;> rfl

theorem assign_eq (value : Value) : assign name value ⟨h, s, sink⟩ =
    match h.owner? s name.lexeme with
    | some owner => .ok () ⟨h.define owner name.lexeme value, s, sink⟩
    | none => .error (.failure (.runtime (.undefined name.lexeme) name.line)) ⟨h, s, sink⟩ := by
  unfold assign
  dsimp only
  cases h.owner? s name.lexeme <;> rfl

end

/-- In all scopes that are ever made, a name belongs to the nearest scope outward that binds it.
Assigning succeeds where reading does, shows to those who share the owner and binds no new name; it
fails where reading does, in the same way, and changes nothing. Defining shows to those who meet the
scope before another binding of the name. Nothing else that is read changes. -/
theorem reads_after_writes :
    (∀ (sink : Sink) (s : State) (vs : List Value), Leads (.initial sink) [] s vs →
      s.heap.Founded) ∧
    ∀ h : Heap, h.Founded →
      (∀ (name : String) (s t : ScopeId),
        h.owner? t name = some s ↔ h.Meets name s t ∧ h.Binds name s) ∧
      (∀ (s : ScopeId) (name : Token) (old value : Value) (sink : Sink) (u : State),
        Run.read name ⟨h, s, sink⟩ = .ok old u → u = ⟨h, s, sink⟩ ∧
          ∃ k, assign name value ⟨h, s, sink⟩ = .ok () ⟨k, s, sink⟩ ∧ h.SameNames k ∧
            k.scopes.size = h.scopes.size ∧ ∀ (t : ScopeId) (other : String), k.get? t other =
              if other = name.lexeme ∧ h.owner? t other = h.owner? s other then some value
              else h.get? t other) ∧
      (∀ (s : ScopeId) (name : Token) (value : Value) (sink : Sink) (e : Interrupt) (u : State),
        Run.read name ⟨h, s, sink⟩ = .error e u → u = ⟨h, s, sink⟩ ∧
          e = .failure (.runtime (.undefined name.lexeme) name.line) ∧
          assign name value ⟨h, s, sink⟩ = .error e ⟨h, s, sink⟩) ∧
      ∀ (s : ScopeId) (name : Token) (value : Value) (sink : Sink),
        ∃ k, define name value ⟨h, s, sink⟩ = .ok () ⟨k, s, sink⟩ ∧
          (∀ t, h.Meets name.lexeme s t → k.get? t name.lexeme = some value) ∧
          ∀ (t : ScopeId) (other : String), ¬ (other = name.lexeme ∧ h.Meets name.lexeme s t) →
            k.get? t other = h.get? t other := by
  refine ⟨fun sink s vs hs => (hs.holds (holds_initial sink)).sound.tree.founded, fun h hh => ?_⟩
  refine ⟨fun name s t => hh.owner?_eq_some_iff, ?_, ?_, ?_⟩
  · intro s name old value sink u hread
    rw [read_eq] at hread
    cases howner : h.owner? s name.lexeme with
    | none => simp [hh.get?_eq_none_iff.2 howner] at hread
    | some owner =>
      refine ⟨?_, h.define owner name.lexeme value, by rw [assign_eq, howner],
        Heap.sameNames_define howner value, h.size_define owner name.lexeme value,
        hh.get?_define_owner howner value⟩
      split at hread <;> cases hread
      rfl
  · intro s name value sink e u hread
    rw [read_eq] at hread
    cases hget : h.get? s name.lexeme with
    | some old => simp [hget] at hread
    | none =>
      rw [hget] at hread
      cases hread
      exact ⟨rfl, rfl, by rw [assign_eq, hh.get?_eq_none_iff.1 hget]⟩
  · intro s name value sink
    exact ⟨h.define s name.lexeme value, rfl, fun t hmeets => hh.get?_define_of_meets hmeets value,
      fun t other hnot => hh.get?_define_of_not value hnot⟩

/-- A global `x`, a scope with another `x` in it and a scope inside of that, and a scope beside
them. -/
def branchingHeap : Heap :=
  ⟨#[⟨[("x", .nil)], none⟩, ⟨[("x", .bool true)], some 0⟩, ⟨[], some 1⟩, ⟨[], some 0⟩], 0⟩

theorem founded_branchingHeap : branchingHeap.Founded := by
  intro i outer scope hi houter
  match i with
  | 0 => cases hi; cases houter
  | 1 => cases hi; cases houter; decide
  | 2 => cases hi; cases houter; decide
  | 3 => cases hi; cases houter; decide
  | i + 4 => simp [branchingHeap] at hi

/-- The last scope shares the global `x`, which the one behind the other `x` does not see. -/
theorem branchingHeap_written :
    Leads (.initial .unlimited) [] (.initial .unlimited) [] ∧ Heap.empty.Founded ∧
    branchingHeap.Founded ∧
    (∃ k : Heap, assign (named "x") (.bool false) ⟨branchingHeap, 3, .unlimited⟩ =
      .ok () ⟨k, 3, .unlimited⟩ ∧ k.get? 0 "x" = some (.bool false) ∧
        k.get? 2 "x" = some (.bool true)) ∧
    assign (named "y") .nil ⟨branchingHeap, 2, .unlimited⟩ =
      .error (.failure (.runtime (.undefined "y") 1)) ⟨branchingHeap, 2, .unlimited⟩ ∧
    ∃ k : Heap, define (named "x") .nil ⟨branchingHeap, 1, .unlimited⟩ =
      .ok () ⟨k, 1, .unlimited⟩ ∧ k.get? 2 "x" = some .nil := by
  obtain ⟨hreached, hwritten⟩ := reads_after_writes
  obtain ⟨_, hassigned, hfailed, hdefined⟩ := hwritten _ founded_branchingHeap
  obtain ⟨_, k, hassign, _, _, hread⟩ :=
    hassigned 3 (named "x") .nil (.bool false) .unlimited _ rfl
  obtain ⟨_, _, hundefined⟩ := hfailed 2 (named "y") .nil .unlimited _ _ rfl
  obtain ⟨l, hdefine, hmeets, _⟩ := hdefined 1 (named "x") .nil .unlimited
  have hinner : branchingHeap.Meets "x" 1 2 := .outward rfl rfl rfl (.here (by decide))
  exact ⟨.start, hreached .unlimited _ _ .start, founded_branchingHeap,
    ⟨k, hassign, (hread 0 "x").trans rfl, (hread 2 "x").trans rfl⟩, hundefined, l, hdefine,
    hmeets 2 hinner⟩

end TreeWalk
