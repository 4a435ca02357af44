import TreeWalk.Grammar.Program

/-!
Parsing steps that find no fault. `Reads p ts a rest` says that `p` takes the tokens of `ts` before
`rest`, replies with `a` and notes nothing; each step has one equivalence for it, so that a proof
about a rule goes through the rule's steps in order. `Admits` is the same up to lack of fuel.
-/

namespace TreeWalk

theorem Token.is_iff {t : Token} {s : Symbol} : t.is s = true ↔ t.kind = .symbol s := by
  unfold Token.is
  cases t.kind <;> simp

namespace Grammar

/-- Whether the next token is one of the symbols. -/
def nextIs (symbols : List Symbol) : List Token → Bool
  | t :: _ => symbols.any fun s => t.is s
  | [] => false

theorem nextIs_nil (symbols : List Symbol) : nextIs symbols [] = false := rfl

theorem nextIs_cons {symbols : List Symbol} {t : Token} {ts : List Token} :
    nextIs symbols (t :: ts) = true ↔ ∃ s ∈ symbols, t.kind = .symbol s := by
  simp [nextIs, Token.is_iff]

theorem nextIs_of_kind {symbols : List Symbol} {t : Token} {s : Symbol} (h : t.kind = .symbol s)
    (ts : List Token) : nextIs symbols (t :: ts) = decide (s ∈ symbols) := by
  rw [Bool.eq_iff_iff, nextIs_cons, h]
  simp

theorem nextIs_mono {few many : List Symbol} {ts : List Token} (h : few ⊆ many)
    (hts : nextIs many ts = false) : nextIs few ts = false := by
  cases ts with
  | nil => rfl
  | cons t ts =>
    rw [Bool.eq_false_iff, Ne, nextIs_cons] at *
    rintro ⟨s, hs, hk⟩
    exact hts ⟨s, h hs, hk⟩

namespace Parse

variable {α β : Type} {ts rest : List Token}

def Reads (p : Parse α) (ts : List Token) (a : α) (rest : List Token) : Prop :=
  p ts = ⟨.done a, rest, []⟩

def Admits (p : Parse α) (ts : List Token) (a : α) (rest : List Token) : Prop :=
  (p ts).reply = .outOfFuel ∨ Reads p ts a rest

/-! ## Sequences of steps -/

theorem bind_apply (p : Parse α) (f : α → Parse β) (ts : List Token) :
    (p >>= f) ts = match p ts with
      | ⟨.done a, rest, noted⟩ => ⟨(f a rest).reply, (f a rest).rest, noted ++ (f a rest).noted⟩
      | ⟨.failed fault, rest, noted⟩ => ⟨.failed fault, rest, noted⟩
      | ⟨.outOfFuel, rest, noted⟩ => ⟨.outOfFuel, rest, noted⟩ := rfl

@[simp] theorem pure_eq (a : α) : (Parse.pure a : Parse α) = Pure.pure a := rfl

@[simp] theorem reads_pure {a b : α} : Reads (Pure.pure a) ts b rest ↔ a = b ∧ ts = rest := by
  change (⟨.done a, ts, []⟩ : Step α) = ⟨.done b, rest, []⟩ ↔ _
  simp

@[simp] theorem reads_bind {p : Parse α} {f : α → Parse β} {b : β} :
    Reads (p >>= f) ts b rest ↔ ∃ a mid, Reads p ts a mid ∧ Reads (f a) mid b rest := by
  simp only [Reads, bind_apply]
  rcases hp : p ts with ⟨reply, mid, noted⟩
  cases reply with
  | done a =>
    simp only [Step.mk.injEq, Reply.done.injEq, List.append_eq_nil_iff]
    constructor
    · rintro ⟨hreply, hrest, hnoted, hmore⟩
      exact ⟨a, mid, ⟨rfl, rfl, hnoted⟩, by rw [← hreply, ← hrest, ← hmore]⟩
    · rintro ⟨_, _, ⟨rfl, rfl, hnoted⟩, hf⟩
      simp [hf, hnoted]
  | failed fault => simp
  | outOfFuel => simp

@[simp] theorem reads_outOfFuel {a : α} : ¬ Reads outOfFuel ts a rest := by
  simp [Reads, outOfFuel]

@[simp] theorem reads_fail {problem : Problem} {a : α} : ¬ Reads (fail problem) ts a rest := by
  simp [Reads, fail]

@[simp] theorem reads_note {fault : Fault} {u : Unit} : ¬ Reads (note fault) ts u rest := by
  simp [Reads, note]

@[simp] theorem reads_noteHere {problem : Problem} {u : Unit} :
    ¬ Reads (noteHere problem) ts u rest := by
  simp [Reads, noteHere]

/-! ## Steps that look at the next token -/

@[simp] theorem reads_sees {symbols : List Symbol} {b : Bool} :
    Reads (sees symbols) ts b rest ↔ nextIs symbols ts = b ∧ ts = rest := by
  cases ts <;> simp [Reads, sees, nextIs]

@[simp] theorem reads_peek {o : Option Token} :
    Reads peek ts o rest ↔ ts.head? = o ∧ ts = rest := by
  simp [Reads, peek]

@[simp] theorem reads_skip {u : Unit} : Reads skip ts u rest ↔ ts.tail = rest := by
  simp [Reads, skip]

theorem accept_eq (symbols : List Symbol) (ts : List Token) :
    accept symbols ts = if nextIs symbols ts then ⟨.done ts.head?, ts.tail, []⟩
      else ⟨.done none, ts, []⟩ := by
  cases ts <;> rfl

@[simp] theorem reads_accept_some {symbols : List Symbol} {t : Token} :
    Reads (accept symbols) ts (some t) rest ↔
      (∃ s ∈ symbols, t.kind = .symbol s) ∧ ts = t :: rest := by
  rw [Reads, accept_eq]
  cases ts with
  | nil => simp [nextIs]
  | cons u us =>
    cases h : nextIs symbols (u :: us) with
    | false =>
      simp only [Bool.false_eq_true, if_false, Step.mk.injEq, Reply.done.injEq, reduceCtorEq,
        false_and, List.cons.injEq, false_iff]
      rintro ⟨ht, rfl, rfl⟩
      rw [nextIs_cons.2 ht] at h
      cases h
    | true =>
      have hu := nextIs_cons.1 h
      simp only [if_true, List.head?_cons, List.tail_cons, Step.mk.injEq, Reply.done.injEq,
        Option.some.injEq, and_true, List.cons.injEq]
      constructor
      · rintro ⟨rfl, rfl⟩
        exact ⟨hu, rfl, rfl⟩
      · exact fun h => h.2

@[simp] theorem reads_accept_none {symbols : List Symbol} :
    Reads (accept symbols) ts none rest ↔ nextIs symbols ts = false ∧ ts = rest := by
  rw [Reads, accept_eq]
  cases ts with
  | nil => simp [nextIs]
  | cons u us => cases h : nextIs symbols (u :: us) <;> simp

/-- Either the next token is one of the symbols and is taken, or it is not and stays. -/
theorem reads_accept_bind {symbols : List Symbol} {f : Option Token → Parse β} {b : β} :
    Reads (accept symbols >>= f) ts b rest ↔
      (∃ t mid, (∃ s ∈ symbols, t.kind = .symbol s) ∧ ts = t :: mid ∧
        Reads (f (some t)) mid b rest) ∨
      nextIs symbols ts = false ∧ Reads (f none) ts b rest := by
  rw [reads_bind]
  constructor
  · rintro ⟨o, mid, ho, h⟩
    cases o with
    | none =>
      obtain ⟨hn, rfl⟩ := reads_accept_none.1 ho
      exact .inr ⟨hn, h⟩
    | some t =>
      obtain ⟨ht, rfl⟩ := reads_accept_some.1 ho
      exact .inl ⟨t, mid, ht, rfl, h⟩
  · rintro (⟨t, mid, ht, rfl, h⟩ | ⟨hn, h⟩)
    · exact ⟨some t, mid, reads_accept_some.2 ⟨ht, rfl⟩, h⟩
    · exact ⟨none, ts, reads_accept_none.2 ⟨hn, rfl⟩, h⟩

@[simp] theorem reads_expect {symbol : Symbol} {problem : Problem} {t : Token} :
    Reads (expect symbol problem) ts t rest ↔ t.kind = .symbol symbol ∧ ts = t :: rest := by
  cases ts with
  | nil => simp [Reads, expect, fail]
  | cons u us =>
    simp only [Reads, expect, fail]
    split
    · next h =>
      simp only [Step.mk.injEq, Reply.done.injEq, and_true, List.cons.injEq]
      constructor
      · rintro ⟨rfl, rfl⟩
        exact ⟨Token.is_iff.1 h, rfl, rfl⟩
      · exact fun h => h.2
    · next h =>
      simp only [Step.mk.injEq, reduceCtorEq, false_and, List.cons.injEq, false_iff]
      rintro ⟨ht, rfl, rfl⟩
      exact h (Token.is_iff.2 ht)

@[simp] theorem reads_recover {p : Parse α} {o : Option α} :
    Reads (recover p) ts o rest ↔ ∃ a, o = some a ∧ Reads p ts a rest := by
  simp only [Reads, recover]
  rcases p ts with ⟨reply, mid, noted⟩
  cases reply with
  | done a =>
    simp only [Step.mk.injEq, Reply.done.injEq]
    constructor
    · rintro ⟨rfl, rfl, rfl⟩
      exact ⟨a, rfl, rfl, rfl, rfl⟩
    · rintro ⟨a', rfl, rfl, rfl, rfl⟩
      exact ⟨rfl, rfl, rfl⟩
  | failed fault => simp
  | outOfFuel => simp

/-! ## Reading up to fuel -/

theorem Reads.admits {p : Parse α} {a : α} (h : Reads p ts a rest) : Admits p ts a rest := .inr h

theorem admits_outOfFuel {a : α} : Admits outOfFuel ts a rest := .inl rfl

theorem admits_pure (a : α) (ts : List Token) : Admits (Pure.pure a) ts a ts :=
  (reads_pure.2 ⟨rfl, rfl⟩).admits

theorem Admits.bind {p : Parse α} {f : α → Parse β} {a : α} {b : β} {mid : List Token}
    (hp : Admits p ts a mid) (hf : Admits (f a) mid b rest) : Admits (p >>= f) ts b rest := by
  rcases hp with hp | hp
  · left
    rw [bind_apply]
    rcases hts : p ts with ⟨reply, _, _⟩
    rw [hts] at hp
    cases hp
    rfl
  · rcases hf with hf | hf
    · left
      rw [bind_apply, show p ts = _ from hp]
      exact hf
    · exact (reads_bind.2 ⟨a, mid, hp, hf⟩).admits

theorem Admits.recover {p : Parse α} {a : α} (h : Admits p ts a rest) :
    Admits (recover p) ts (some a) rest := by
  rcases h with h | h
  · left
    unfold Grammar.recover
    rcases hts : p ts with ⟨reply, _, _⟩
    rw [hts] at h
    cases h
    rfl
  · exact (reads_recover.2 ⟨a, rfl, h⟩).admits

end Parse

end Grammar

end TreeWalk
