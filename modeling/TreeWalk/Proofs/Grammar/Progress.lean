import TreeWalk.Proofs.Grammar.Reads

/-!
Progress of the parser. With thirty-two units of fuel for each token no rule runs out of fuel,
whatever the tokens are; a rule leaves a suffix of its tokens, and one that replies with a value
has taken at least one token where its text cannot be empty. So parsing always comes to an end,
and a declaration takes a token also when it fails.
-/

namespace TreeWalk.Grammar

namespace Parse

variable {α β : Type} {ts : List Token}

/-- On `ts`, the step `p` has fuel enough, leaves a suffix and takes at least `k` tokens before it
replies with a value. -/
structure Takes (k : Nat) (p : Parse α) (ts : List Token) : Prop where
  fueled : (p ts).reply ≠ .outOfFuel
  suffix : (p ts).rest <:+ ts
  taken : ∀ a, (p ts).reply = .done a → (p ts).rest.length + k ≤ ts.length

theorem Takes.weaken {k : Nat} {p : Parse α} (h : Takes k p ts) : Takes 0 p ts :=
  ⟨h.fueled, h.suffix, fun a ha => by have := h.taken a ha; omega⟩

theorem takes_pure (a : α) (ts : List Token) : Takes 0 (Pure.pure a) ts :=
  ⟨by rintro ⟨⟩, List.suffix_rfl, fun _ _ => Nat.le_refl _⟩

theorem takes_fail (problem : Problem) (k : Nat) (ts : List Token) :
    Takes k (fail problem : Parse α) ts :=
  ⟨by rintro ⟨⟩, List.suffix_rfl, by rintro a ⟨⟩⟩

theorem Takes.of_eq {k : Nat} {p q : Parse α} (h : Takes k q ts) (e : p ts = q ts) :
    Takes k p ts :=
  ⟨e ▸ h.fueled, e ▸ h.suffix, e ▸ h.taken⟩

theorem takes_expect (symbol : Symbol) (problem : Problem) (ts : List Token) :
    Takes 1 (expect symbol problem) ts := by
  cases ts with
  | nil => exact (takes_fail problem 1 []).of_eq rfl
  | cons t ts =>
    by_cases h : t.is symbol
    · have e : expect symbol problem (t :: ts) = ⟨.done t, ts, []⟩ := by simp [expect, h]
      refine ⟨?_, ?_, ?_⟩ <;> rw [e]
      · rintro ⟨⟩
      · exact List.suffix_cons t ts
      · exact fun _ _ => Nat.le_refl _
    · exact (takes_fail problem 1 _).of_eq (by simp [expect, h])

/-- What the first step takes counts for the whole. -/
theorem Takes.bind {j k : Nat} {p : Parse α} {f : α → Parse β} (hp : Takes j p ts)
    (hf : ∀ a rest, rest.length + j ≤ ts.length → Takes (k - j) (f a) rest) :
    Takes k (p >>= f) ts := by
  obtain ⟨hfuel, hsuffix, htaken⟩ := hp
  rcases hts : p ts with ⟨reply, mid, noted⟩
  rw [hts] at hfuel hsuffix htaken
  cases reply with
  | done a =>
    have hmid := htaken a rfl
    obtain ⟨h1, h2, h3⟩ := hf a mid hmid
    refine ⟨?_, ?_, ?_⟩ <;> rw [bind_apply, hts]
    · exact h1
    · exact h2.trans hsuffix
    · intro b hb
      have := h3 b hb
      change (f a mid).rest.length + k ≤ ts.length
      change mid.length + j ≤ ts.length at hmid
      omega
  | failed fault =>
    refine ⟨?_, ?_, ?_⟩ <;> rw [bind_apply, hts]
    · rintro ⟨⟩
    · exact hsuffix
    · rintro b ⟨⟩
  | outOfFuel => exact absurd rfl hfuel

/-- A rule that ends with the token it expects. -/
theorem takes_expect_pure {symbol : Symbol} {problem : Problem} {f : Token → α}
    (ts : List Token) : Takes 0 (expect symbol problem >>= fun t => Pure.pure (f t)) ts :=
  (takes_expect _ _ ts).bind fun _ _ _ => takes_pure _ _

theorem takes_accept_bind {k : Nat} {symbols : List Symbol} {f : Option Token → Parse β}
    (hsome : ∀ t rest, ts = t :: rest → Takes (k - 1) (f (some t)) rest)
    (hnone : Takes k (f none) ts) : Takes k (accept symbols >>= f) ts := by
  cases h : nextIs symbols ts with
  | false =>
    apply hnone.of_eq
    rw [bind_apply, accept_eq, h]
    rfl
  | true =>
    cases ts with
    | nil => cases h
    | cons t rest =>
      have e : (accept symbols >>= f) (t :: rest) = f (some t) rest := by
        rw [bind_apply, accept_eq, h]
        rfl
      obtain ⟨h1, h2, h3⟩ := hsome t rest rfl
      refine ⟨e ▸ h1, e ▸ h2.trans (List.suffix_cons t rest), ?_⟩
      intro b hb
      rw [e] at hb ⊢
      have := h3 b hb
      rw [List.length_cons]
      omega

/-- A step that only looks at the tokens takes none and cannot fail. -/
theorem takes_look_bind {k : Nat} {p : Parse α} {a : α} {f : α → Parse β}
    (hp : p ts = ⟨.done a, ts, []⟩) (hf : Takes k (f a) ts) : Takes k (p >>= f) ts := by
  apply hf.of_eq
  rw [bind_apply, hp]
  rfl

theorem takes_note_bind {k : Nat} {p : Parse α} {a : α} {fault : Fault} {f : α → Parse β}
    (hp : p ts = ⟨.done a, ts, [fault]⟩) (hf : Takes k (f a) ts) : Takes k (p >>= f) ts := by
  have e : (p >>= f) ts = ⟨(f a ts).reply, (f a ts).rest, [fault] ++ (f a ts).noted⟩ := by
    rw [bind_apply, hp]
  refine ⟨?_, ?_, ?_⟩ <;> rw [e]
  · exact hf.fueled
  · exact hf.suffix
  · exact hf.taken

/-- Whether a fault is noted or not, the rule reads on. -/
theorem takes_note_if {k : Nat} {c : Prop} [Decidable c] {p : Parse Unit} {fault : Fault}
    {f : Unit → Parse β} (hp : p ts = ⟨.done (), ts, [fault]⟩) (hf : Takes k (f ()) ts) :
    Takes k (if c then p >>= f else f ()) ts := by
  split
  · exact takes_note_bind hp hf
  · exact hf

theorem sees_apply (symbols : List Symbol) (ts : List Token) :
    sees symbols ts = ⟨.done (nextIs symbols ts), ts, []⟩ := by
  cases ts <;> rfl

theorem takes_skip_bind {k : Nat} {t : Token} {rest : List Token} {f : Unit → Parse β}
    (hf : Takes (k - 1) (f ()) rest) : Takes k (skip >>= f) (t :: rest) := by
  have e : (skip >>= f) (t :: rest) = f () rest := rfl
  refine ⟨e ▸ hf.fueled, e ▸ hf.suffix.trans (List.suffix_cons t rest), ?_⟩
  intro b hb
  rw [e] at hb ⊢
  have := hf.taken b hb
  rw [List.length_cons]
  omega

end Parse

open Parse

/-! ## Expressions -/

/-- What each rule needs, with `fuel` for the rules it calls. -/
structure ExpressionTakes (fuel : Nat) : Prop where
  expression : ∀ ts : List Token, 32 * ts.length + 10 ≤ fuel → Takes 1 (expression fuel) ts
  tiered : ∀ (tiers : List Tier) (ts : List Token), tiers.length ≤ 6 →
    32 * ts.length + 3 + tiers.length ≤ fuel → Takes 1 (tiered fuel tiers) ts
  chain : ∀ (tier : Tier) (tighter : List Tier) (left : Expr) (ts : List Token),
    tighter.length ≤ 6 → 32 * ts.length + 1 ≤ fuel → Takes 0 (chain fuel tier tighter left) ts
  unary : ∀ ts : List Token, 32 * ts.length + 2 ≤ fuel → Takes 1 (unary fuel) ts
  calls : ∀ (callee : Expr) (ts : List Token), 32 * ts.length + 1 ≤ fuel →
    Takes 0 (calls fuel callee) ts
  arguments : ∀ (count : Nat) (ts : List Token), 32 * ts.length + 11 ≤ fuel →
    Takes 1 (arguments fuel count) ts
  primary : ∀ ts : List Token, 32 * ts.length + 1 ≤ fuel → Takes 1 (primary fuel) ts

theorem assignTo_takes (left : Expr) (equals : Token) (value : Expr) (ts : List Token) :
    Takes 0 (assignTo left equals value) ts := by
  cases left with
  | reference name => exact takes_pure _ _
  | _ => exact takes_note_bind rfl (takes_pure _ _)

section

variable {fuel : Nat} (ih : ExpressionTakes fuel)
include ih

theorem expression_takes (ts : List Token) (h : 32 * ts.length + 10 ≤ fuel + 1) :
    Takes 1 (expression (fuel + 1)) ts := by
  rw [expression]
  apply (ih.tiered Tier.ladder ts (by decide) (by simp [Tier.ladder]; omega)).bind
  intro left rest hrest
  refine takes_accept_bind ?_ (takes_pure _ _)
  rintro equals rest rfl
  rw [List.length_cons] at hrest
  apply (ih.expression rest (by omega)).bind
  intro value rest _
  exact assignTo_takes left equals value rest

theorem tiered_takes (tiers : List Tier) (ts : List Token) (htiers : tiers.length ≤ 6)
    (h : 32 * ts.length + 3 + tiers.length ≤ fuel + 1) : Takes 1 (tiered (fuel + 1) tiers) ts := by
  cases tiers with
  | nil =>
    rw [tiered]
    rw [List.length_nil] at h
    exact ih.unary ts (by omega)
  | cons tier tighter =>
    rw [tiered]
    rw [List.length_cons] at h htiers
    apply (ih.tiered tighter ts (by omega) (by omega)).bind
    intro left rest hrest
    exact ih.chain tier tighter left rest (by omega) (by omega)

theorem chain_takes (tier : Tier) (tighter : List Tier) (left : Expr) (ts : List Token)
    (htiers : tighter.length ≤ 6) (h : 32 * ts.length + 1 ≤ fuel + 1) :
    Takes 0 (chain (fuel + 1) tier tighter left) ts := by
  rw [chain]
  refine takes_accept_bind ?_ (takes_pure _ _)
  rintro operator rest rfl
  rw [List.length_cons] at h
  apply (ih.tiered tighter rest htiers (by omega)).bind
  intro right last hlast
  exact ih.chain tier tighter _ last htiers (by omega)

theorem unary_takes (ts : List Token) (h : 32 * ts.length + 2 ≤ fuel + 1) :
    Takes 1 (unary (fuel + 1)) ts := by
  rw [unary]
  refine takes_accept_bind ?_ ?_
  · rintro operator rest rfl
    rw [List.length_cons] at h
    exact (ih.unary rest (by omega)).bind fun right last _ => takes_pure _ _
  · apply (ih.primary ts (by omega)).bind
    intro callee rest hrest
    exact ih.calls callee rest (by omega)

theorem calls_takes (callee : Expr) (ts : List Token) (h : 32 * ts.length + 1 ≤ fuel + 1) :
    Takes 0 (calls (fuel + 1) callee) ts := by
  rw [calls]
  refine takes_accept_bind ?_ (takes_pure _ _)
  rintro opening rest rfl
  rw [List.length_cons] at h
  -- Both ways of the condition go on in the same way behind the arguments.
  have closed : ∀ (values : List Expr) (rest' : List Token), rest'.length ≤ rest.length →
      Takes 0 (expect .rightParen .unclosedArguments >>= fun paren =>
        calls fuel (.call callee paren values)) rest' := by
    intro values rest' hrest
    apply (takes_expect _ _ rest').bind
    intro paren last hlast
    exact ih.calls _ last (by omega)
  apply takes_look_bind (sees_apply _ rest)
  split
  · exact (takes_pure [] rest).bind fun values last hlast => closed values last (by omega)
  · exact (ih.arguments 0 rest (by omega)).bind fun values last hlast =>
      closed values last (by omega)

theorem arguments_takes (count : Nat) (ts : List Token) (h : 32 * ts.length + 11 ≤ fuel + 1) :
    Takes 1 (arguments (fuel + 1) count) ts := by
  rw [arguments]
  apply takes_note_if rfl
  apply (ih.expression ts (by omega)).bind
  intro value rest hrest
  refine takes_accept_bind ?_ (takes_pure _ _)
  rintro comma last rfl
  rw [List.length_cons] at hrest
  exact (ih.arguments (count + 1) last (by omega)).bind fun _ _ _ => takes_pure _ _

theorem primary_takes (ts : List Token) (h : 32 * ts.length + 1 ≤ fuel + 1) :
    Takes 1 (primary (fuel + 1)) ts := by
  rw [primary]
  apply takes_look_bind rfl
  cases ts with
  | nil => exact takes_fail _ _ _
  | cons t rest =>
    rw [List.length_cons] at h
    simp only [List.head?_cons]
    split
    · exact takes_skip_bind (takes_pure _ _)
    · split
      · exact takes_skip_bind (takes_pure _ _)
      · split
        · apply takes_skip_bind
          apply (ih.expression rest (by omega)).bind
          intro inner last _
          exact takes_expect_pure last
        · exact takes_fail _ _ _

end

theorem expressionTakes (fuel : Nat) : ExpressionTakes fuel := by
  induction fuel with
  | zero => constructor <;> intros <;> omega
  | succ fuel ih =>
    exact ⟨expression_takes ih, tiered_takes ih, chain_takes ih, unary_takes ih, calls_takes ih,
      arguments_takes ih, primary_takes ih⟩

/-! ## Statements without statements inside -/

section

variable {fuel : Nat} {ts : List Token}

theorem expressionUnless_takes (symbol : Symbol) (h : 32 * ts.length + 10 ≤ fuel) :
    Takes 0 (expressionUnless fuel symbol) ts := by
  apply takes_look_bind (sees_apply _ ts)
  split
  · exact takes_pure _ _
  · exact ((expressionTakes fuel).expression ts h).bind fun _ _ _ => takes_pure _ _

theorem expressionStatement_takes (h : 32 * ts.length + 10 ≤ fuel) :
    Takes 1 (expressionStatement fuel) ts :=
  ((expressionTakes fuel).expression ts h).bind fun _ rest _ => takes_expect_pure rest

theorem printStatement_takes (h : 32 * ts.length + 10 ≤ fuel) :
    Takes 1 (printStatement fuel) ts :=
  ((expressionTakes fuel).expression ts h).bind fun _ rest _ => takes_expect_pure rest

theorem varDeclaration_takes (h : 32 * ts.length + 10 ≤ fuel) :
    Takes 1 (varDeclaration fuel) ts := by
  apply (takes_expect _ _ ts).bind
  intro name rest hrest
  have ended : ∀ (initial : Option Expr) (last : List Token),
      Takes 0 (expect .semicolon .unendedDeclaration >>= fun _ =>
        Pure.pure (Stmt.varDecl name initial)) last := by
    intro initial last
    exact takes_expect_pure last
  refine takes_accept_bind ?_ ?_
  · rintro equals last rfl
    rw [List.length_cons] at hrest
    apply ((expressionTakes fuel).expression last (by omega)).bind
    intro value last' _
    exact (takes_pure _ _).bind fun initial last'' _ => ended initial last''
  · exact (takes_pure _ _).bind fun initial last'' _ => ended initial last''

theorem returnStatement_takes (depth : Nat) (keyword : Token) (h : 32 * ts.length + 10 ≤ fuel) :
    Takes 1 (returnStatement fuel depth keyword) ts := by
  rw [returnStatement]
  apply takes_note_if rfl
  apply (expressionUnless_takes .semicolon h).bind
  intro value rest _
  exact (takes_expect _ _ rest).bind fun _ _ _ => takes_pure _ _

theorem condition_takes (unopened : Problem) (h : 32 * ts.length + 10 ≤ fuel) :
    Takes 1 (condition fuel unopened) ts := by
  apply (takes_expect _ _ ts).bind
  intro opening rest hrest
  apply ((expressionTakes fuel).expression rest (by omega)).bind
  intro value last _
  exact takes_expect_pure last

theorem forStart_takes (h : 32 * ts.length + 10 ≤ fuel) : Takes 1 (forStart fuel) ts := by
  apply takes_accept_bind (fun _ _ _ => takes_pure _ _)
  refine takes_accept_bind ?_ ?_
  · rintro keyword rest rfl
    rw [List.length_cons] at h
    exact (varDeclaration_takes (by omega)).bind fun _ _ _ => takes_pure _ _
  · exact (expressionStatement_takes h).bind fun _ _ _ => takes_pure _ _

theorem forClauses_takes (h : 32 * ts.length + 10 ≤ fuel) : Takes 1 (forClauses fuel) ts := by
  apply (takes_expect _ _ ts).bind
  intro opening afterOpening h1
  apply (forStart_takes (by omega)).bind
  intro start afterStart h2
  apply (expressionUnless_takes .semicolon (by omega)).bind
  intro condition afterCondition h3
  apply (takes_expect _ _ _).bind
  intro semicolon afterSemicolon h4
  apply (expressionUnless_takes .rightParen (by omega)).bind
  intro step afterStep _
  exact takes_expect_pure afterStep

end

theorem parameters_takes (fuel : Nat) (count : Nat) (ts : List Token)
    (h : 32 * ts.length + 1 ≤ fuel) : Takes 1 (parameters fuel count) ts := by
  induction fuel generalizing count ts with
  | zero => omega
  | succ fuel ih =>
    rw [parameters]
    apply takes_note_if rfl
    apply (takes_expect _ _ ts).bind
    intro name rest hrest
    refine takes_accept_bind ?_ (takes_pure _ _)
    rintro comma last rfl
    rw [List.length_cons] at hrest
    exact (ih (count + 1) last (by omega)).bind fun _ _ _ => takes_pure _ _

theorem classHead_takes (ts : List Token) : Takes 1 classHead ts := by
  apply (takes_expect _ _ ts).bind
  intro name rest _
  have opened : ∀ (superclass : Option Expr) (last : List Token),
      Takes 0 (expect .leftBrace .unopenedClass >>= fun _ =>
        Pure.pure (name, superclass)) last := by
    intro superclass last
    exact takes_expect_pure last
  refine takes_accept_bind ?_ ?_
  · rintro less last rfl
    apply (takes_expect _ _ last).bind
    intro parent last' _
    exact (takes_pure _ _).bind fun superclass last'' _ => opened superclass last''
  · exact (takes_pure _ _).bind fun superclass last'' _ => opened superclass last''

theorem routineHead_takes {fuel : Nat} (kind : Routine) {ts : List Token}
    (h : 32 * ts.length ≤ fuel) : Takes 1 (routineHead fuel kind) ts := by
  apply (takes_expect _ _ ts).bind
  intro name afterName h1
  apply (takes_expect _ _ afterName).bind
  intro opening afterOpening h2
  have closed : ∀ (params : List Token) (last : List Token),
      Takes 0 (expect .rightParen .unclosedParameters >>= fun _ =>
        expect .leftBrace (.unopenedBody kind) >>= fun _ => Pure.pure (name, params)) last := by
    intro params last
    apply (takes_expect _ _ last).bind
    intro closing last' _
    exact takes_expect_pure last'
  apply takes_look_bind (sees_apply _ _)
  split
  · exact (takes_pure _ _).bind fun params last _ => closed params last
  · exact (parameters_takes fuel 0 afterOpening (by omega)).bind fun params last _ =>
      closed params last

/-! ## Recovery and statements -/

theorem synchronize_suffix (ts : List Token) : synchronize ts <:+ ts.tail := by
  fun_induction synchronize ts with
  | case1 => exact List.suffix_rfl
  | case2 => exact List.suffix_rfl
  | case3 t next rest h => exact List.suffix_rfl
  | case4 t next rest h ih => exact ih.trans (List.tail_suffix _)

theorem tail_suffix_tail {rest ts : List Token} (h : rest <:+ ts) : rest.tail <:+ ts.tail := by
  cases ts with
  | nil =>
    obtain rfl : rest = [] := List.suffix_nil.1 h
    exact List.suffix_rfl
  | cons t ts =>
    rcases List.suffix_cons_iff.1 h with rfl | htail
    · exact List.suffix_rfl
    · exact (List.tail_suffix rest).trans htail

/-- Recovery takes at least one token, of those there are. -/
theorem recover_takes {α : Type} {p : Parse α} {ts : List Token} (hp : Takes 1 p ts) :
    Takes 0 (recover p) ts ∧ (ts ≠ [] → (recover p ts).rest.length < ts.length) := by
  obtain ⟨hfuel, hsuffix, htaken⟩ := hp
  rcases hts : p ts with ⟨reply, rest, noted⟩
  rw [hts] at hfuel hsuffix htaken
  cases reply with
  | outOfFuel => exact absurd rfl hfuel
  | done a =>
    have e : recover p ts = ⟨.done (some a), rest, noted⟩ := by simp [recover, hts]
    have hrest := htaken a rfl
    refine ⟨⟨?_, ?_, ?_⟩, ?_⟩ <;> rw [e]
    · rintro ⟨⟩
    · exact hsuffix
    · exact fun _ _ => hsuffix.length_le
    · exact fun _ => hrest
  | failed fault =>
    have e : recover p ts = ⟨.done none, synchronize rest, noted ++ [fault]⟩ := by
      simp [recover, hts]
    have hskip : synchronize rest <:+ ts.tail :=
      (synchronize_suffix rest).trans (tail_suffix_tail hsuffix)
    have hlength := hskip.length_le
    rw [List.length_tail] at hlength
    refine ⟨⟨?_, ?_, ?_⟩, ?_⟩ <;> rw [e]
    · rintro ⟨⟩
    · exact hskip.trans (List.tail_suffix ts)
    · intro _ _
      change (synchronize rest).length + 0 ≤ ts.length
      omega
    · intro hne
      have := List.length_pos_iff.2 hne
      change (synchronize rest).length < ts.length
      omega

theorem atClosing_apply (ts : List Token) :
    atClosing ts = ⟨.done (nextIs [.rightBrace] ts || ts.isEmpty), ts, []⟩ := by
  rw [atClosing, bind_apply, sees_apply]
  cases nextIs [.rightBrace] ts <;> rfl

structure StatementTakes (fuel : Nat) : Prop where
  declaration : ∀ (depth : Nat) (ts : List Token), 32 * ts.length + 13 ≤ fuel →
    Takes 0 (declaration fuel depth) ts ∧
      (ts ≠ [] → (declaration fuel depth ts).rest.length < ts.length)
  declared : ∀ (depth : Nat) (ts : List Token), 32 * ts.length + 12 ≤ fuel →
    Takes 1 (declared fuel depth) ts
  methodList : ∀ (depth : Nat) (ts : List Token), 32 * ts.length + 2 ≤ fuel →
    Takes 0 (methodList fuel depth) ts
  routine : ∀ (depth : Nat) (kind : Routine) (ts : List Token), 32 * ts.length + 1 ≤ fuel →
    Takes 1 (routine fuel depth kind) ts
  statement : ∀ (depth : Nat) (ts : List Token), 32 * ts.length + 11 ≤ fuel →
    Takes 1 (statement fuel depth) ts
  block : ∀ (depth : Nat) (ts : List Token), 32 * ts.length + 15 ≤ fuel →
    Takes 1 (block fuel depth) ts
  declarations : ∀ (depth : Nat) (ts : List Token), 32 * ts.length + 14 ≤ fuel →
    Takes 0 (declarations fuel depth) ts

section

variable {fuel : Nat} (ih : StatementTakes fuel) (depth : Nat)
include ih

theorem declaration_takes (ts : List Token) (h : 32 * ts.length + 13 ≤ fuel + 1) :
    Takes 0 (declaration (fuel + 1) depth) ts ∧
      (ts ≠ [] → (declaration (fuel + 1) depth ts).rest.length < ts.length) := by
  rw [declaration]
  exact recover_takes (ih.declared depth ts (by omega))

theorem declared_takes (ts : List Token) (h : 32 * ts.length + 12 ≤ fuel + 1) :
    Takes 1 (declared (fuel + 1) depth) ts := by
  rw [declared]
  refine takes_accept_bind ?_ (takes_accept_bind ?_ (takes_accept_bind ?_ ?_))
  · rintro keyword rest rfl
    rw [List.length_cons] at h
    apply (classHead_takes rest).bind
    intro head afterHead h1
    apply (ih.methodList depth afterHead (by omega)).bind
    intro methods last _
    exact takes_expect_pure last
  · rintro keyword rest rfl
    rw [List.length_cons] at h
    exact (ih.routine depth .function rest (by omega)).bind fun _ _ _ => takes_pure _ _
  · rintro keyword rest rfl
    rw [List.length_cons] at h
    exact (varDeclaration_takes (by omega)).weaken
  · exact ih.statement depth ts (by omega)

theorem methodList_takes (ts : List Token) (h : 32 * ts.length + 2 ≤ fuel + 1) :
    Takes 0 (methodList (fuel + 1) depth) ts := by
  rw [methodList]
  apply takes_look_bind (atClosing_apply ts)
  split
  · exact takes_pure _ _
  · apply (ih.routine depth .method ts (by omega)).bind
    intro method rest hrest
    exact (ih.methodList depth rest (by omega)).bind fun _ _ _ => takes_pure _ _

theorem routine_takes (kind : Routine) (ts : List Token) (h : 32 * ts.length + 1 ≤ fuel + 1) :
    Takes 1 (routine (fuel + 1) depth kind) ts := by
  rw [routine]
  apply (routineHead_takes kind (by omega)).bind
  intro head rest hrest
  exact (ih.block (depth + 1) rest (by omega)).bind fun _ _ _ => takes_pure _ _

theorem statement_takes (ts : List Token) (h : 32 * ts.length + 11 ≤ fuel + 1) :
    Takes 1 (statement (fuel + 1) depth) ts := by
  rw [statement]
  -- One case for each keyword that a statement begins with, an expression last.
  refine takes_accept_bind ?_ (takes_accept_bind ?_ (takes_accept_bind ?_ (takes_accept_bind ?_
    (takes_accept_bind ?_ (takes_accept_bind ?_ ?_)))))
  · rintro keyword rest rfl
    rw [List.length_cons] at h
    apply (forClauses_takes (by omega)).bind
    intro clauses last _
    exact (ih.statement depth last (by omega)).bind fun _ _ _ => takes_pure _ _
  · rintro keyword rest rfl
    rw [List.length_cons] at h
    apply (condition_takes _ (by omega)).bind
    intro test afterTest h1
    apply (ih.statement depth afterTest (by omega)).bind
    intro thenBranch afterThen h2
    refine takes_accept_bind ?_ (takes_pure _ _)
    rintro elseWord last rfl
    rw [List.length_cons] at h2
    exact (ih.statement depth last (by omega)).bind fun _ _ _ => takes_pure _ _
  · rintro keyword rest rfl
    rw [List.length_cons] at h
    apply (condition_takes _ (by omega)).bind
    intro test afterTest h1
    exact (ih.statement depth afterTest (by omega)).bind fun _ _ _ => takes_pure _ _
  · rintro keyword rest rfl
    rw [List.length_cons] at h
    exact (returnStatement_takes depth keyword (by omega)).weaken
  · rintro opening rest rfl
    rw [List.length_cons] at h
    exact (ih.block depth rest (by omega)).bind fun _ _ _ => takes_pure _ _
  · rintro keyword rest rfl
    rw [List.length_cons] at h
    exact (printStatement_takes (by omega)).weaken
  · exact expressionStatement_takes (by omega)

theorem block_takes (ts : List Token) (h : 32 * ts.length + 15 ≤ fuel + 1) :
    Takes 1 (block (fuel + 1) depth) ts := by
  rw [block]
  apply (ih.declarations depth ts (by omega)).bind
  intro body rest _
  exact (takes_expect _ _ rest).bind fun _ _ _ => takes_pure _ _

theorem declarations_takes (ts : List Token) (h : 32 * ts.length + 14 ≤ fuel + 1) :
    Takes 0 (declarations (fuel + 1) depth) ts := by
  rw [declarations]
  apply takes_look_bind (atClosing_apply ts)
  split
  · exact takes_pure _ _
  · next hopen =>
    have hne : ts ≠ [] := by
      rintro rfl
      exact hopen rfl
    obtain ⟨htakes, hshorter⟩ := ih.declaration depth ts (by omega)
    have hfirst : Takes 1 (declaration fuel depth) ts :=
      ⟨htakes.fueled, htakes.suffix, fun _ _ => hshorter hne⟩
    apply hfirst.bind
    intro first rest hrest
    exact (ih.declarations depth rest (by omega)).bind fun _ _ _ => takes_pure _ _

end

theorem statementTakes (fuel : Nat) : StatementTakes fuel := by
  induction fuel with
  | zero => constructor <;> intros <;> omega
  | succ fuel ih =>
    exact ⟨declaration_takes ih, declared_takes ih, methodList_takes ih, routine_takes ih,
      statement_takes ih, block_takes ih, declarations_takes ih⟩

theorem declaration_not_failed (fuel depth : Nat) (ts : List Token) (fault : Fault) :
    (declaration fuel depth ts).reply ≠ .failed fault := by
  cases fuel with
  | zero => simp [declaration, outOfFuel]
  | succ fuel =>
    rw [declaration]
    unfold recover
    split <;> rintro ⟨⟩

/-- A declaration at the top of a program comes to an end and takes at least one token. -/
theorem declaration_done (depth : Nat) {ts : List Token} (hts : ts ≠ []) :
    ∃ first rest noted, declaration (fuelFor ts) depth ts = ⟨.done first, rest, noted⟩ ∧
      rest <:+ ts ∧ rest.length < ts.length := by
  have h : 32 * ts.length + 13 ≤ fuelFor ts := by
    unfold fuelFor
    omega
  obtain ⟨htakes, hshorter⟩ := (statementTakes (fuelFor ts)).declaration depth ts h
  have hfuel := htakes.fueled
  have hsuffix := htakes.suffix
  have hshorter := hshorter hts
  have hfailed := declaration_not_failed (fuelFor ts) depth ts
  rcases hfirst : declaration (fuelFor ts) depth ts with ⟨reply, rest, noted⟩
  rw [hfirst] at hfuel hsuffix hshorter hfailed
  cases reply with
  | done first => exact ⟨first, rest, noted, rfl, hsuffix, hshorter⟩
  | failed fault => exact absurd rfl (hfailed fault)
  | outOfFuel => exact absurd rfl hfuel

theorem expression_fueled (ts : List Token) :
    (expression (fuelFor ts) ts).reply ≠ .outOfFuel := by
  have h : 32 * ts.length + 10 ≤ fuelFor ts := by
    unfold fuelFor
    omega
  exact ((expressionTakes (fuelFor ts)).expression ts h).fueled

end TreeWalk.Grammar
