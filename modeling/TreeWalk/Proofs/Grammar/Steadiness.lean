import TreeWalk.Proofs.Grammar.Progress

/-!
Parsing before a semicolon. The rules of expressions look at one token at a time and take no
semicolon. So what such a rule does with tokens up to a semicolon it does whatever stands behind:
it leaves the semicolon, and each fault it finds is at one of the tokens.
-/

namespace TreeWalk.Grammar

/-- The last token is a semicolon, and no other is. -/
inductive Ended : List Token → Prop
  | last {t : Token} : t.is .semicolon = true → Ended [t]
  | next {t : Token} {ts : List Token} : t.is .semicolon = false → Ended ts → Ended (t :: ts)

theorem not_ended_nil : ¬ Ended [] := by
  rintro ⟨⟩

theorem Ended.tail {t : Token} {ts : List Token} (h : Ended (t :: ts))
    (ht : t.is .semicolon = false) : Ended ts := by
  cases h with
  | last hsemicolon =>
    rw [ht] at hsemicolon
    cases hsemicolon
  | next _ hts => exact hts

namespace Parse

variable {α β : Type} {p q : Parse α} {ts : List Token}

/-- On tokens up to a semicolon, the step leaves the semicolon, whatever stands behind it, and the
faults are at tokens. -/
structure Steady (p : Parse α) (ts : List Token) : Prop where
  suffix : (p ts).rest <:+ ts
  ended : Ended (p ts).rest
  same : ∀ more, p (ts ++ more) = ⟨(p ts).reply, (p ts).rest ++ more, (p ts).noted⟩
  noted : ∀ fault ∈ (p ts).noted, fault.place.isSome
  failed : ∀ fault, (p ts).reply = .failed fault → fault.place.isSome

theorem Steady.of_eq (h : Steady q ts) (e : ∀ more, p (ts ++ more) = q (ts ++ more)) :
    Steady p ts := by
  have hts : p ts = q ts := by simpa using e []
  exact ⟨hts ▸ h.suffix, hts ▸ h.ended, fun more => by rw [e, hts, h.same more], hts ▸ h.noted,
    hts ▸ h.failed⟩

/-- A step that replies with a value and notes nothing is steady. -/
theorem steady_of_done {a : α} {rest : List Token}
    (h : ∀ more, p (ts ++ more) = ⟨.done a, rest ++ more, []⟩) (hsuffix : rest <:+ ts)
    (hrest : Ended rest) : Steady p ts := by
  have hts : p ts = ⟨.done a, rest, []⟩ := by simpa using h []
  refine ⟨?_, ?_, ?_, ?_, ?_⟩ <;> rw [hts]
  · exact hsuffix
  · exact hrest
  · exact h
  · rintro fault ⟨⟩
  · rintro fault ⟨⟩

theorem Steady.bind_reply {f : α → Parse β} (hp : Steady p ts)
    (hf : ∀ a, (p ts).reply = .done a → Steady (f a) (p ts).rest) : Steady (p >>= f) ts := by
  obtain ⟨hsuffix, hended, hsame, hnoted, hfailed⟩ := hp
  rcases hts : p ts with ⟨reply, rest, noted⟩
  rw [hts] at hsuffix hended hsame hnoted hfailed hf
  cases reply with
  | done a =>
    have hrest := hf a rfl
    refine ⟨?_, ?_, ?_, ?_, ?_⟩ <;> rw [bind_apply, hts]
    · exact hrest.suffix.trans hsuffix
    · exact hrest.ended
    · intro more
      simp only [bind_apply, hsame more, hrest.same more]
    · intro fault hfault
      rcases List.mem_append.1 hfault with h | h
      · exact hnoted fault h
      · exact hrest.noted fault h
    · exact hrest.failed
  | failed fault =>
    refine ⟨?_, ?_, ?_, ?_, ?_⟩ <;> rw [bind_apply, hts]
    · exact hsuffix
    · exact hended
    · intro more
      rw [bind_apply, hsame more]
    · exact hnoted
    · rintro _ ⟨⟩
      exact hfailed fault rfl
  | outOfFuel =>
    refine ⟨?_, ?_, ?_, ?_, ?_⟩ <;> rw [bind_apply, hts]
    · exact hsuffix
    · exact hended
    · intro more
      rw [bind_apply, hsame more]
    · exact hnoted
    · rintro _ ⟨⟩

theorem Steady.bind {f : α → Parse β} (hp : Steady p ts)
    (hf : ∀ a rest, rest <:+ ts → Ended rest → Steady (f a) rest) : Steady (p >>= f) ts :=
  hp.bind_reply fun a _ => hf a _ hp.suffix hp.ended

/-! ## Single steps -/

theorem steady_pure (a : α) (hts : Ended ts) : Steady (Pure.pure a) ts :=
  steady_of_done (fun _ => rfl) List.suffix_rfl hts

theorem steady_outOfFuel (hts : Ended ts) : Steady (outOfFuel : Parse α) ts :=
  ⟨List.suffix_rfl, hts, fun _ => rfl, by rintro _ ⟨⟩, by rintro _ ⟨⟩⟩

theorem steady_fail (problem : Problem) (hts : Ended ts) :
    Steady (fail problem : Parse α) ts := by
  cases ts with
  | nil => exact absurd hts not_ended_nil
  | cons t rest =>
    refine ⟨List.suffix_rfl, hts, fun _ => rfl, ?_, ?_⟩
    · rintro _ ⟨⟩
    · rintro _ ⟨⟩
      rfl

theorem steady_note (fault : Fault) (hfault : fault.place.isSome) (hts : Ended ts) :
    Steady (note fault) ts := by
  refine ⟨List.suffix_rfl, hts, fun _ => rfl, ?_, ?_⟩
  · intro other hother
    rw [List.mem_singleton.1 hother]
    exact hfault
  · rintro _ ⟨⟩

theorem steady_noteHere (problem : Problem) (hts : Ended ts) : Steady (noteHere problem) ts := by
  cases ts with
  | nil => exact absurd hts not_ended_nil
  | cons t rest => exact (steady_note ⟨some t, problem⟩ rfl hts).of_eq fun _ => rfl

theorem steady_sees (symbols : List Symbol) (hts : Ended ts) : Steady (sees symbols) ts := by
  cases ts with
  | nil => exact absurd hts not_ended_nil
  | cons t rest => exact steady_of_done (fun _ => rfl) List.suffix_rfl hts

theorem steady_accept {symbols : List Symbol} (h : .semicolon ∉ symbols) (hts : Ended ts) :
    Steady (accept symbols) ts := by
  cases ts with
  | nil => exact absurd hts not_ended_nil
  | cons t rest =>
    cases hnext : nextIs symbols (t :: rest) with
    | false =>
      have hnot : ¬ nextIs symbols (t :: rest) = true := by simp [hnext]
      exact steady_of_done (fun _ => if_neg hnot) List.suffix_rfl hts
    | true =>
      obtain ⟨s, hs, hk⟩ := nextIs_cons.1 hnext
      have ht : t.is .semicolon = false := by
        rw [Bool.eq_false_iff, Ne, Token.is_iff, hk]
        rintro ⟨⟩
        exact h hs
      exact steady_of_done (fun _ => if_pos hnext) (List.suffix_cons t rest) (hts.tail ht)

theorem steady_expect {symbol : Symbol} (problem : Problem) (h : symbol ≠ .semicolon)
    (hts : Ended ts) : Steady (expect symbol problem) ts := by
  cases ts with
  | nil => exact absurd hts not_ended_nil
  | cons t rest =>
    by_cases hsymbol : t.is symbol = true
    · have ht : t.is .semicolon = false := by
        rw [Bool.eq_false_iff, Ne, Token.is_iff, Token.is_iff.1 hsymbol]
        rintro ⟨⟩
        exact h rfl
      exact steady_of_done (fun _ => if_pos hsymbol) (List.suffix_cons t rest) (hts.tail ht)
    · exact (steady_fail problem hts).of_eq fun _ => if_neg hsymbol

theorem steady_peek_bind {t : Token} {f : Option Token → Parse α}
    (h : Steady (f (some t)) (t :: ts)) : Steady (peek >>= f) (t :: ts) :=
  h.of_eq fun _ => rfl

theorem steady_skip {t : Token} (hts : Ended (t :: ts)) (ht : t.is .semicolon = false) :
    Steady skip (t :: ts) :=
  steady_of_done (fun _ => rfl) (List.suffix_cons t ts) (hts.tail ht)

/-- The token that closes a rule may be expected behind it. -/
theorem Steady.closed {f : α → β} (hp : Steady p ts) {symbol : Symbol} (problem : Problem)
    (h : symbol ≠ .semicolon) :
    Steady (p >>= fun a => expect symbol problem >>= fun _ => Pure.pure (f a)) ts :=
  hp.bind fun _ _ _ hrest => (steady_expect problem h hrest).bind fun _ _ _ => steady_pure _

/-- A fault may be noted first. -/
theorem Steady.noting {c : Prop} [Decidable c] {m : Parse Unit} (hm : Steady m ts)
    (hp : ∀ rest, rest <:+ ts → Ended rest → Steady p rest) (hts : Ended ts) :
    Steady (if c then m >>= fun _ => p else p) ts := by
  split
  · exact hm.bind fun _ => hp
  · exact hp ts List.suffix_rfl hts

/-! ## Stopping before the semicolon -/

/-- The step replies with no value, and does so whatever stands behind the semicolon. -/
def Stops (p : Parse α) (ts : List Token) : Prop :=
  Steady p ts ∧ ∀ a, (p ts).reply ≠ .done a

/-- The step takes the tokens with the semicolon and replies with a value, or stops before it. -/
def EndsOrStops (p : Parse α) (ts : List Token) : Prop :=
  Stops p ts ∨ ∃ a noted, p ts = ⟨.done a, [], noted⟩

theorem stops_outOfFuel (hts : Ended ts) : Stops (outOfFuel : Parse α) ts :=
  ⟨steady_outOfFuel hts, by rintro a ⟨⟩⟩

theorem Stops.bind {f : α → Parse β} (hp : Stops p ts) : Stops (p >>= f) ts := by
  obtain ⟨hsteady, hreply⟩ := hp
  refine ⟨hsteady.bind_reply fun a ha => absurd ha (hreply a), ?_⟩
  rw [bind_apply]
  rcases hts : p ts with ⟨reply, rest, noted⟩
  rw [hts] at hreply
  cases reply with
  | done a => exact absurd rfl (hreply a)
  | failed fault => rintro b ⟨⟩
  | outOfFuel => rintro b ⟨⟩

theorem Steady.stops {f : α → Parse β} (hp : Steady p ts)
    (hf : ∀ a rest, rest <:+ ts → Ended rest → Stops (f a) rest) : Stops (p >>= f) ts := by
  refine ⟨hp.bind fun a rest hsuffix hrest => (hf a rest hsuffix hrest).1, ?_⟩
  have hrest := fun a => (hf a _ hp.suffix hp.ended).2
  rw [bind_apply]
  rcases hts : p ts with ⟨reply, rest, noted⟩
  rw [hts] at hrest
  cases reply with
  | done a => exact hrest a
  | failed fault => rintro b ⟨⟩
  | outOfFuel => rintro b ⟨⟩

/-- A step that expects a symbol stops where it is not the next one. -/
theorem stops_expect {symbol : Symbol} (problem : Problem) (h : nextIs [symbol] ts = false)
    (hts : Ended ts) : Stops (expect symbol problem) ts := by
  cases ts with
  | nil => exact absurd hts not_ended_nil
  | cons t rest =>
    have ht : ¬ t.is symbol = true := by simpa [nextIs] using h
    have e : ∀ more, expect symbol problem (t :: (rest ++ more)) =
        fail problem (t :: (rest ++ more)) := fun _ => if_neg ht
    refine ⟨(steady_fail problem hts).of_eq e, ?_⟩
    rw [show expect symbol problem (t :: rest) = _ from if_neg ht]
    rintro a ⟨⟩

theorem Steady.endsOrStops_reply {f : α → Parse β} (hp : Steady p ts)
    (hf : ∀ a, (p ts).reply = .done a → EndsOrStops (f a) (p ts).rest) :
    EndsOrStops (p >>= f) ts := by
  rcases hts : p ts with ⟨reply, rest, noted⟩
  cases reply with
  | done a =>
    rw [hts] at hf
    rcases hf a rfl with hstops | ⟨b, more, hends⟩
    · left
      refine ⟨hp.bind_reply fun a' ha' => ?_, ?_⟩
      · rw [hts] at ha' ⊢
        cases ha'
        exact hstops.1
      · rw [bind_apply, hts]
        exact hstops.2
    · right
      exact ⟨b, noted ++ more, by rw [bind_apply, hts]; simp only [hends]⟩
  | failed fault => exact .inl (Stops.bind ⟨hp, by rw [hts]; rintro a ⟨⟩⟩)
  | outOfFuel => exact .inl (Stops.bind ⟨hp, by rw [hts]; rintro a ⟨⟩⟩)

theorem Steady.endsOrStops {f : α → Parse β} (hp : Steady p ts)
    (hf : ∀ a rest, rest <:+ ts → Ended rest → EndsOrStops (f a) rest) :
    EndsOrStops (p >>= f) ts :=
  hp.endsOrStops_reply fun a _ => hf a _ hp.suffix hp.ended

theorem EndsOrStops.bind {f : α → Parse β} (hp : EndsOrStops p ts)
    (hf : ∀ a, ∃ b noted, f a [] = ⟨.done b, [], noted⟩) : EndsOrStops (p >>= f) ts := by
  rcases hp with hstops | ⟨a, noted, hends⟩
  · exact .inl hstops.bind
  · obtain ⟨b, more, hb⟩ := hf a
    exact .inr ⟨b, noted ++ more, by rw [bind_apply, hends]; simp only [hb]⟩

theorem endsOrStops_expect (problem : Problem) (hts : Ended ts) :
    EndsOrStops (expect .semicolon problem) ts := by
  cases hts with
  | last ht => exact .inr ⟨_, _, if_pos ht⟩
  | next ht hrest => exact .inl (stops_expect problem (by simpa [nextIs] using ht) (.next ht hrest))

/-- The semicolon may be expected behind a rule. -/
theorem Steady.semicolon {f : α → β} (hp : Steady p ts) (problem : Problem) :
    EndsOrStops (p >>= fun a => expect .semicolon problem >>= fun _ => Pure.pure (f a)) ts :=
  hp.endsOrStops fun _ _ _ hrest =>
    (endsOrStops_expect problem hrest).bind fun _ => ⟨_, _, rfl⟩

theorem endsOrStops_accept {symbols : List Symbol} {f : Option Token → Parse β}
    (h : .semicolon ∉ symbols) (hts : Ended ts)
    (hsome : ∀ t, nextIs symbols ts = true → Ended ts.tail → EndsOrStops (f (some t)) ts.tail)
    (hnone : EndsOrStops (f none) ts) : EndsOrStops (accept symbols >>= f) ts := by
  have hsteady := steady_accept h hts
  apply hsteady.endsOrStops_reply
  have hended := hsteady.ended
  rw [accept_eq] at hended ⊢
  cases hnext : nextIs symbols ts with
  | false =>
    rw [if_neg (by simp)]
    rintro a ⟨⟩
    exact hnone
  | true =>
    rw [hnext] at hended
    cases ts with
    | nil => cases hnext
    | cons t rest =>
      rintro a ⟨⟩
      exact hsome t hnext hended

end Parse

open Parse

/-! ## Expressions -/

structure ExpressionSteady (fuel : Nat) : Prop where
  expression : ∀ {ts : List Token}, Ended ts → Steady (expression fuel) ts
  tiered : ∀ (tiers : List Tier) {ts : List Token}, Ended ts → Steady (tiered fuel tiers) ts
  chain : ∀ (tier : Tier) (tighter : List Tier) (left : Expr) {ts : List Token}, Ended ts →
    Steady (chain fuel tier tighter left) ts
  unary : ∀ {ts : List Token}, Ended ts → Steady (unary fuel) ts
  calls : ∀ (callee : Expr) {ts : List Token}, Ended ts → Steady (calls fuel callee) ts
  arguments : ∀ (count : Nat) {ts : List Token}, Ended ts → Steady (arguments fuel count) ts
  primary : ∀ {ts : List Token}, Ended ts → Steady (primary fuel) ts

theorem assignTo_steady (left : Expr) (equals : Token) (value : Expr) {ts : List Token}
    (hts : Ended ts) : Steady (assignTo left equals value) ts := by
  cases left with
  | reference name => exact steady_pure _ hts
  | _ => exact (steady_note _ rfl hts).bind fun _ _ _ => steady_pure _

section

variable {fuel : Nat} (ih : ExpressionSteady fuel) {ts : List Token} (hts : Ended ts)
include ih hts

theorem expression_steady : Steady (expression (fuel + 1)) ts := by
  apply (ih.tiered Tier.ladder hts).bind
  intro left rest _ hrest
  apply (steady_accept (by decide) hrest).bind
  intro equals last _ hlast
  cases equals with
  | none => exact steady_pure left hlast
  | some equals =>
    exact (ih.expression hlast).bind fun value _ _ => assignTo_steady left equals value

theorem tiered_steady (tiers : List Tier) : Steady (tiered (fuel + 1) tiers) ts := by
  cases tiers with
  | nil => exact ih.unary hts
  | cons tier tighter =>
    exact (ih.tiered tighter hts).bind fun left _ _ => ih.chain tier tighter left

theorem chain_steady (tier : Tier) (tighter : List Tier) (left : Expr) :
    Steady (chain (fuel + 1) tier tighter left) ts := by
  have hsemicolon : .semicolon ∉ tier.operators := by cases tier <;> decide
  apply (steady_accept hsemicolon hts).bind
  intro operator rest _ hrest
  cases operator with
  | none => exact steady_pure left hrest
  | some operator =>
    exact (ih.tiered tighter hrest).bind fun right _ _ => ih.chain tier tighter _

theorem unary_steady : Steady (unary (fuel + 1)) ts := by
  apply (steady_accept (by decide) hts).bind
  intro operator rest _ hrest
  cases operator with
  | none => exact (ih.primary hrest).bind fun callee _ _ => ih.calls callee
  | some operator => exact (ih.unary hrest).bind fun right _ _ => steady_pure _

theorem calls_steady (callee : Expr) : Steady (calls (fuel + 1) callee) ts := by
  apply (steady_accept (by decide) hts).bind
  intro opening rest _ hrest
  cases opening with
  | none => exact steady_pure callee hrest
  | some opening =>
    have hclose : ∀ (values : List Expr) (last : List Token), last <:+ rest → Ended last →
        Steady (expect .rightParen .unclosedArguments >>= fun paren =>
          calls fuel (.call callee paren values)) last := by
      intro values last _ hlast
      exact (steady_expect _ (by decide) hlast).bind fun paren _ _ => ih.calls _
    apply (steady_sees [.rightParen] hrest).bind
    intro closing last hsuffix hlast
    cases closing with
    | true =>
      exact (steady_pure [] hlast).bind fun values _ h => hclose values _ (h.trans hsuffix)
    | false =>
      exact (ih.arguments 0 hlast).bind fun values _ h => hclose values _ (h.trans hsuffix)

theorem arguments_steady (count : Nat) : Steady (arguments (fuel + 1) count) ts := by
  rw [arguments]
  refine (steady_noteHere .tooManyArguments hts).noting ?_ hts
  intro rest _ hrest
  apply (ih.expression hrest).bind
  intro value last _ hlast
  apply (steady_accept (by decide) hlast).bind
  intro comma last' _ hlast'
  cases comma with
  | none => exact steady_pure [value] hlast'
  | some comma => exact (ih.arguments (count + 1) hlast').bind fun values _ _ => steady_pure _

theorem primary_steady : Steady (primary (fuel + 1)) ts := by
  cases ts with
  | nil => exact absurd hts not_ended_nil
  | cons t rest =>
    -- A semicolon writes no literal and is neither of the two symbols.
    have hother : ∀ s, s ≠ .semicolon → t.is s = true → t.is .semicolon = false := by
      intro s hs ht
      rw [Bool.eq_false_iff, Ne, Token.is_iff, Token.is_iff.1 ht]
      exact fun hk => hs (Kind.symbol.inj hk)
    apply steady_peek_bind
    cases hliteral : literal? t with
    | some value =>
      have ht : t.is .semicolon = false := by
        rw [Bool.eq_false_iff, Ne, Token.is_iff]
        intro hk
        simp [literal?, hk] at hliteral
      simp only [hliteral]
      exact (steady_skip hts ht).bind fun _ _ _ => steady_pure _
    | none =>
      simp only [hliteral]
      split
      · next hname =>
        exact (steady_skip hts (hother _ (by decide) hname)).bind fun _ _ _ => steady_pure _
      · split
        · next hopening =>
          apply (steady_skip hts (hother _ (by decide) hopening)).bind
          intro _ last _ hrest
          exact (ih.expression hrest).closed .unclosedGroup (by decide)
        · exact steady_fail .noExpression hts

omit hts in
theorem ExpressionSteady.step : ExpressionSteady (fuel + 1) :=
  ⟨expression_steady ih, fun tiers _ h => tiered_steady ih h tiers,
    fun tier tighter left _ h => chain_steady ih h tier tighter left, unary_steady ih,
    fun callee _ h => calls_steady ih h callee, fun count _ h => arguments_steady ih h count,
    primary_steady ih⟩

end

theorem expressionSteady (fuel : Nat) : ExpressionSteady fuel := by
  induction fuel with
  | zero => constructor <;> intros <;> exact steady_outOfFuel ‹_›
  | succ fuel ih => exact ih.step

/-! ## Parts of statements -/

section

variable {fuel : Nat} {ts : List Token} (hts : Ended ts)
include hts

theorem expressionUnless_steady (symbol : Symbol) : Steady (expressionUnless fuel symbol) ts := by
  apply (steady_sees [symbol] hts).bind
  intro found rest _ hrest
  cases found with
  | true => exact steady_pure none hrest
  | false =>
    exact ((expressionSteady fuel).expression hrest).bind fun value _ _ => steady_pure (some value)

theorem condition_steady (unopened : Problem) : Steady (condition fuel unopened) ts := by
  apply (steady_expect unopened (by decide) hts).bind
  intro _ rest _ hrest
  exact ((expressionSteady fuel).expression hrest).closed .unclosedCondition (by decide)

theorem parameters_steady (count : Nat) : Steady (parameters fuel count) ts := by
  induction fuel generalizing count ts with
  | zero => exact steady_outOfFuel hts
  | succ fuel ih =>
    rw [parameters]
    refine (steady_noteHere .tooManyParameters hts).noting ?_ hts
    intro rest _ hrest
    apply (steady_expect .noParameterName (by decide) hrest).bind
    intro name last _ hlast
    apply (steady_accept (by decide) hlast).bind
    intro comma last' _ hlast'
    cases comma with
    | none => exact steady_pure [name] hlast'
    | some comma => exact (ih hlast' (count + 1)).bind fun names _ _ => steady_pure _

end

end TreeWalk.Grammar
