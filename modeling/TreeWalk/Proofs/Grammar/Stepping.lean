import TreeWalk.Proofs.Grammar.Begun
import TreeWalk.Proofs.Grammar.Termination
import TreeWalk.Proofs.Grammar.Walk

/-!
A walker does what the grammar says of the tokens ahead of it, up to the first end of input. What it
has passed plays no part, its depth is the same again after every rule, whether that fails or not,
and a walker that began inside a body only leaves out the reports of a `return` outside.
-/

namespace TreeWalk.Grammar

/-! ## The tokens ahead -/

/-- Tokens from the front, none of them an end of input, may be dropped. -/
theorem beforeEnd_drop {taken rest us : List Token} (h : beforeEnd us = taken ++ rest) :
    beforeEnd (us.drop taken.length) = rest ∧
      stopToken (us.drop taken.length) = stopToken us := by
  induction taken generalizing us with
  | nil => exact ⟨h, rfl⟩
  | cons t taken ih =>
    cases us with
    | nil => cases h
    | cons u us =>
      cases hu : u.is .endOfInput with
      | true => simp [beforeEnd, hu] at h
      | false =>
        simp only [beforeEnd, hu, Bool.not_false, List.takeWhile_cons_of_pos, List.cons_append,
          List.cons.injEq] at h
        obtain ⟨hrest, hstop⟩ := ih h.2
        refine ⟨hrest, ?_⟩
        rw [List.length_cons, List.drop_succ_cons, hstop]
        simp [stopToken, hu]

theorem head_ahead (us : List Token) :
    us.head?.getD (.endOfInput 0) = (beforeEnd us).head?.getD (stopToken us) := by
  cases us with
  | nil => rfl
  | cons u us => cases hu : u.is .endOfInput <;> simp [beforeEnd, stopToken, hu]

namespace Stand

/-- What is left before the end of input. -/
def ahead (w : Stand) (ts : List Token) : List Token := beforeEnd (ts.drop w.passed)

/-- The end of input that what is left runs to. -/
def stop (w : Stand) (ts : List Token) : Token := stopToken (ts.drop w.passed)

variable {w : Stand} {ts : List Token}

theorem ahead_inner (w : Stand) (ts : List Token) : Inner (w.ahead ts) :=
  (beforeEnd_split (ts.drop w.passed)).1

theorem next_eq (w : Stand) (ts : List Token) :
    w.next ts = (w.ahead ts).head?.getD (w.stop ts) := by
  rw [ahead, stop, ← head_ahead, List.head?_drop]
  exact List.getD_eq_getElem?_getD

theorem atEnd_eq (w : Stand) (ts : List Token) : w.atEnd ts = (w.ahead ts).isEmpty := by
  have hinner := w.ahead_inner ts
  rw [atEnd, next_eq]
  cases h : w.ahead ts with
  | nil => exact stopToken_is _
  | cons t rest => exact hinner t (by simp [h])

theorem sees_eq (w : Stand) (ts : List Token) (symbols : List Symbol) :
    w.sees ts symbols = nextIs symbols (w.ahead ts) := by
  rw [sees, atEnd_eq, next_eq]
  cases w.ahead ts <;> rfl

theorem passed_ahead {taken rest : List Token} (h : w.ahead ts = taken ++ rest) {v : Stand}
    (hv : v.passed = w.passed + taken.length) : v.ahead ts = rest ∧ v.stop ts = w.stop ts := by
  rw [ahead, stop, hv, ← List.drop_drop]
  exact beforeEnd_drop h

theorem advanced_eq {t : Token} {rest : List Token} (h : w.ahead ts = t :: rest) :
    w.advanced ts = { w with passed := w.passed + 1 } := by
  rw [advanced, atEnd_eq, h]
  rfl

theorem advanced_previous {t : Token} {rest : List Token} (h : w.ahead ts = t :: rest) :
    (w.advanced ts).previous ts = t := by
  have hnext := w.next_eq ts
  rw [h] at hnext
  rw [advanced_eq h]
  exact hnext

theorem advanced_end (h : w.ahead ts = []) : w.advanced ts = w := by
  rw [advanced, atEnd_eq, h]
  rfl

theorem ahead_length (w : Stand) (ts : List Token) : (w.ahead ts).length ≤ ts.length :=
  Nat.le_trans (List.takeWhile_prefix _).length_le (List.drop_suffix _ _).length_le

theorem seeking_end (turns : Nat) (h : w.ahead ts = []) : seeking ts turns w = w := by
  cases turns with
  | zero => rfl
  | succ turns => simp [seeking, atEnd_eq, h]

/-- Recovery from behind a token. -/
theorem seeking_eq {t : Token} {rest : List Token} (turns : Nat) (h : w.ahead ts = t :: rest)
    (hturns : rest.length ≤ turns) :
    ∃ skipped, t :: rest = t :: skipped ++ synchronize (t :: rest) ∧
      seeking ts turns (w.advanced ts) =
        { w with passed := w.passed + (t :: skipped).length } := by
  -- Each turn passes a token, so the turns last as long as the tokens do.
  induction turns generalizing t rest w with
  | zero =>
    obtain rfl : rest = [] := List.length_eq_zero_iff.1 (Nat.le_zero.1 hturns)
    exact ⟨[], rfl, advanced_eq h⟩
  | succ turns ih =>
    have hprevious := advanced_previous h
    have hadvanced := advanced_eq h
    obtain ⟨hahead, -⟩ : (w.advanced ts).ahead ts = rest ∧ _ :=
      passed_ahead (show w.ahead ts = [t] ++ rest from h) (by rw [hadvanced, List.length_singleton])
    rw [seeking, atEnd_eq, hprevious, next_eq, hahead]
    cases rest with
    | nil => exact ⟨[], rfl, hadvanced⟩
    | cons u rest =>
      cases hstops : t.is .semicolon || isBoundary u with
      | true =>
        refine ⟨[], by simp [synchronize, hstops], ?_⟩
        simpa [hstops] using hadvanced
      | false =>
        obtain ⟨skipped, hskipped, hsought⟩ := ih hahead (Nat.le_of_succ_le_succ hturns)
        refine ⟨u :: skipped, by simpa [synchronize, hstops] using hskipped, ?_⟩
        rw [if_neg (by simpa using hstops), hsought, hadvanced]
        simp only [List.length_cons, Stand.mk.injEq, and_true]
        omega

/-- Recovery skips the tokens that the grammar skips. -/
theorem synchronized_eq (w : Stand) (ts : List Token) :
    ∃ skipped, w.ahead ts = skipped ++ synchronize (w.ahead ts) ∧
      w.synchronized ts = { w with passed := w.passed + skipped.length } := by
  cases h : w.ahead ts with
  | nil =>
    refine ⟨[], rfl, ?_⟩
    rw [synchronized, advanced_end h, seeking_end _ h]
    rfl
  | cons t rest =>
    have hlength := w.ahead_length ts
    rw [h, List.length_cons] at hlength
    obtain ⟨skipped, hskipped, hsought⟩ := seeking_eq ts.length h (by omega)
    exact ⟨t :: skipped, hskipped, hsought⟩

end Stand

/-! ## Single steps -/

theorem Parse.accept_bind {α : Type} (symbols : List Symbol) (f : Option Token → Parse α)
    (ts : List Token) : (accept symbols >>= f) ts =
      if nextIs symbols ts then f ts.head? ts.tail else f none ts := by
  rw [bind_apply, accept_eq]
  cases nextIs symbols ts <;> rfl

/-- What a reply is to a walker on the way to an end of input. -/
def Reply.come {α : Type} (stop : Token) : Reply α → Came α
  | .done a => some (.ok a)
  | .failed fault => some (.error (fault.report stop))
  | .outOfFuel => none

theorem Reply.come_ne_none {α : Type} {stop : Token} {reply : Reply α}
    (h : reply ≠ .outOfFuel) : reply.come stop ≠ none := by
  cases reply with
  | done a => nofun
  | failed fault => nofun
  | outOfFuel => exact absurd rfl h

/-- The faults reported by a walker that stands in `extra` bodies more than are seen around. -/
def heard (extra : Nat) (faults : List Fault) : List Fault :=
  if extra = 0 then faults else faults.filter fun f => !f.ofReturn

@[simp] theorem heard_nil (extra : Nat) : heard extra [] = [] := by
  simp [heard]

@[simp] theorem heard_append (extra : Nat) (faults more : List Fault) :
    heard extra (faults ++ more) = heard extra faults ++ heard extra more := by
  unfold heard
  split
  · rfl
  · exact List.filter_append _ _

theorem heard_other {extra : Nat} {fault : Fault} (h : fault.ofReturn = false) :
    heard extra [fault] = [fault] := by
  simp [heard, h]

namespace Walk

variable {α β : Type} {p : Parse α} {q : Walk α} {depth extra : Nat} {ts : List Token} {w : Stand}

theorem bind_apply (q : Walk α) (f : α → Walk β) (ts : List Token) (w : Stand) :
    (q >>= f) ts w = match q ts w with
      | (some (.ok a), w) => f a ts w
      | (some (.error report), w) => (some (.error report), w)
      | (none, w) => (none, w) := rfl

/-- From `w` the walk does what the step does with what is ahead. -/
def Follows (extra : Nat) (p : Parse α) (q : Walk α) (ts : List Token) (w : Stand) : Prop :=
  ∃ taken, w.ahead ts = taken ++ (p (w.ahead ts)).rest ∧
    q ts w = ((p (w.ahead ts)).reply.come (w.stop ts),
      ⟨w.passed + taken.length, w.depth,
        w.reports ++ (heard extra (p (w.ahead ts)).noted).map (Fault.report (w.stop ts))⟩)

/-- The walk follows the step from wherever one stands in `extra` bodies more than are seen. -/
def Mirrors (depth extra : Nat) (p : Parse α) (q : Walk α) : Prop :=
  ∀ ts w, w.depth = depth + extra → Follows extra p q ts w

/-- Then to go on from where the step ends is enough. -/
theorem Follows.bind {f : α → Parse β} {g : α → Walk β} (hp : Follows extra p q ts w)
    (hf : ∀ a v, v.depth = w.depth → Follows extra (f a) (g a) ts v) :
    Follows extra (p >>= f) (q >>= g) ts w := by
  obtain ⟨taken, htaken, hq⟩ := hp
  rw [Follows, Parse.bind_apply, bind_apply, hq]
  rcases hstep : p (w.ahead ts) with ⟨reply, rest, noted⟩
  rw [hstep] at htaken
  cases reply with
  | done a =>
    let v : Stand := ⟨w.passed + taken.length, w.depth,
      w.reports ++ (heard extra noted).map (Fault.report (w.stop ts))⟩
    obtain ⟨hahead, hstop⟩ : v.ahead ts = rest ∧ v.stop ts = w.stop ts :=
      Stand.passed_ahead htaken rfl
    obtain ⟨more, hmore, hg⟩ := hf a v rfl
    rw [hahead] at hmore hg
    refine ⟨taken ++ more, ?_, hg.trans ?_⟩
    · rw [htaken, List.append_assoc]
      exact congrArg (taken ++ ·) hmore
    · simp [v, hstop, Nat.add_assoc]
  | failed fault => exact ⟨taken, htaken, rfl⟩
  | outOfFuel => exact ⟨taken, htaken, rfl⟩

theorem Mirrors.bind {f : α → Parse β} {g : α → Walk β} (hp : Mirrors depth extra p q)
    (hf : ∀ a, Mirrors depth extra (f a) (g a)) : Mirrors depth extra (p >>= f) (q >>= g) :=
  fun ts w hw => (hp ts w hw).bind fun a v hv => hf a ts v (hv.trans hw)

/-- A walk that stays where it is. -/
theorem follows_stay (reply : Reply α) (hp : p (w.ahead ts) = ⟨reply, w.ahead ts, []⟩)
    (hq : q ts w = (reply.come (w.stop ts), w)) : Follows extra p q ts w := by
  refine ⟨[], ?_, ?_⟩
  · rw [hp]
    rfl
  · simp [hp, hq]

theorem mirrors_pure (a : α) : Mirrors depth extra (Pure.pure a) (Pure.pure a) :=
  fun _ _ _ => follows_stay _ rfl rfl

theorem mirrors_outOfFuel : Mirrors depth extra (Parse.outOfFuel : Parse α) outOfFuel :=
  fun _ _ _ => follows_stay _ rfl rfl

theorem report_here (w : Stand) (ts : List Token) (problem : Problem) :
    Fault.report (w.stop ts) ⟨(w.ahead ts).head?, problem⟩ =
      .syntacticAt (w.next ts) problem.message := by
  rw [w.next_eq ts]
  rfl

theorem mirrors_fail (problem : Problem) :
    Mirrors depth extra (Parse.fail problem : Parse α) (fail problem) := by
  intro ts w _
  apply follows_stay (.failed ⟨(w.ahead ts).head?, problem⟩) rfl
  rw [Reply.come, report_here]
  rfl

theorem mirrors_noteHere {problem : Problem} (h : problem ≠ .topLevelReturn) :
    Mirrors depth extra (Parse.noteHere problem) (noteHere problem) := by
  intro ts w _
  have hother : Fault.ofReturn ⟨(w.ahead ts).head?, problem⟩ = false := by simp [Fault.ofReturn, h]
  refine ⟨[], rfl, ?_⟩
  simp only [Parse.noteHere, heard_other hother, List.map_cons, report_here]
  rfl

theorem mirrors_note (token : Token) {problem : Problem} (h : problem ≠ .topLevelReturn) :
    Mirrors depth extra (Parse.note ⟨some token, problem⟩) (note token problem) := by
  intro ts w _
  have hother : Fault.ofReturn ⟨some token, problem⟩ = false := by simp [Fault.ofReturn, h]
  refine ⟨[], rfl, ?_⟩
  simp only [Parse.note, heard_other hother]
  rfl

theorem mirrors_sees (symbols : List Symbol) :
    Mirrors depth extra (Parse.sees symbols) (sees symbols) := by
  intro ts w _
  apply follows_stay _ (Parse.sees_apply symbols _)
  rw [Reply.come, ← Stand.sees_eq]
  rfl

theorem mirrors_atEnd : Mirrors depth extra Parse.atEnd atEnd := by
  intro ts w _
  apply follows_stay _ rfl
  rw [Reply.come, ← Stand.atEnd_eq]
  rfl

theorem mirrors_atClosing : Mirrors depth extra Grammar.atClosing atClosing := by
  apply (mirrors_sees [.rightBrace]).bind
  intro found
  cases found with
  | true => exact mirrors_pure true
  | false => exact mirrors_atEnd

/-- A token that is ahead may be passed first. -/
theorem follows_advanced {t : Token} {rest : List Token} {r : Parse α} {s : Walk α}
    (hahead : w.ahead ts = t :: rest) (hp : p (t :: rest) = r rest)
    (hq : q ts w = s ts (w.advanced ts)) (h : Follows extra r s ts (w.advanced ts)) :
    Follows extra p q ts w := by
  obtain ⟨taken, htaken, hs⟩ := h
  have hadvanced := Stand.advanced_eq hahead
  obtain ⟨hrest, hstop⟩ : (w.advanced ts).ahead ts = rest ∧ (w.advanced ts).stop ts = w.stop ts :=
    Stand.passed_ahead (show w.ahead ts = [t] ++ rest from hahead)
      (by rw [hadvanced, List.length_singleton])
  rw [hrest] at htaken hs
  rw [Follows, hahead, hp, hq, hs, hstop, hadvanced]
  refine ⟨t :: taken, congrArg (t :: ·) htaken, ?_⟩
  simp [Nat.add_assoc, Nat.add_comm 1]

/-- The walk follows the step from wherever `t` is the token behind. -/
def MirrorsBehind (t : Token) (depth extra : Nat) (p : Parse α) (q : Walk α) : Prop :=
  ∀ ts w, w.depth = depth + extra → w.previous ts = t → Follows extra p q ts w

theorem Mirrors.behind (h : Mirrors depth extra p q) {t : Token} :
    MirrorsBehind t depth extra p q := fun ts w hw _ => h ts w hw

theorem mirrors_previous {g : Token → Walk α} {t : Token} (h : Mirrors depth extra p (g t)) :
    MirrorsBehind t depth extra p (previous >>= g) := by
  rintro ts w hw rfl
  exact h ts w hw

theorem passes_bind (symbols : List Symbol) (g : Bool → Walk β) (ts : List Token) (w : Stand) :
    (passes symbols >>= g) ts w =
      if nextIs symbols (w.ahead ts) then g true ts (w.advanced ts) else g false ts w := by
  rw [← Stand.sees_eq, bind_apply, passes, bind_apply]
  simp only [sees, look]
  cases w.sees ts symbols <;> rfl

/-- A token that is passed is the one behind then. -/
theorem mirrors_passes {symbols : List Symbol} {f : Option Token → Parse β} {g : Bool → Walk β}
    (hsome : ∀ t, MirrorsBehind t depth extra (f (some t)) (g true))
    (hnone : Mirrors depth extra (f none) (g false)) :
    Mirrors depth extra (Parse.accept symbols >>= f) (passes symbols >>= g) := by
  intro ts w hw
  cases hnext : nextIs symbols (w.ahead ts) with
  | false =>
    obtain ⟨taken, htaken, hg⟩ := hnone ts w hw
    rw [Follows, Parse.accept_bind, passes_bind, hnext]
    exact ⟨taken, htaken, hg⟩
  | true =>
    cases hahead : w.ahead ts with
    | nil =>
      rw [hahead] at hnext
      cases hnext
    | cons t rest =>
      rw [hahead] at hnext
      apply follows_advanced (r := f (some t)) (s := g true) hahead
      · rw [Parse.accept_bind, hnext]
        rfl
      · rw [passes_bind, hahead, hnext]
        rfl
      · apply hsome t _ _ _ (Stand.advanced_previous hahead)
        rwa [Stand.advanced_eq hahead]

theorem mirrors_expect (symbol : Symbol) (problem : Problem) :
    Mirrors depth extra (Parse.expect symbol problem) (expect symbol problem) := by
  intro ts w hw
  have hexpect : expect symbol problem ts w =
      if nextIs [symbol] (w.ahead ts) then previous ts (w.advanced ts)
      else fail problem ts w := by
    rw [← Stand.sees_eq, expect, bind_apply]
    simp only [sees, look]
    cases w.sees ts [symbol] <;> rfl
  have hfails := mirrors_fail (α := Token) problem ts w hw
  cases hahead : w.ahead ts with
  | nil =>
    rw [Follows, hexpect, hahead]
    rwa [Follows, hahead] at hfails
  | cons t rest =>
    cases hnext : t.is symbol with
    | false =>
      have hfirst : Parse.expect symbol problem (t :: rest) = Parse.fail problem (t :: rest) :=
        if_neg (by simp [hnext])
      rw [Follows, hexpect, hahead, hfirst]
      rw [Follows, hahead] at hfails
      simpa [nextIs, hnext] using hfails
    | true =>
      apply follows_advanced (r := Pure.pure t) (s := previous) hahead
      · exact if_pos hnext
      · simp [hexpect, hahead, nextIs, hnext]
      · apply follows_stay (.done t) rfl
        rw [Reply.come, ← Stand.advanced_previous hahead]
        rfl

/-- The token that closes a rule may be expected behind it. -/
theorem Mirrors.closed {f : α → β} (h : Mirrors depth extra p q) (symbol : Symbol)
    (problem : Problem) :
    Mirrors depth extra (p >>= fun a => Parse.expect symbol problem >>= fun _ => Pure.pure (f a))
      (q >>= fun a => expect symbol problem >>= fun _ => Pure.pure (f a)) :=
  h.bind fun _ => (mirrors_expect symbol problem).bind fun _ => mirrors_pure _

/-- Another fault may be noted first. -/
theorem Mirrors.noting {c : Prop} [Decidable c] {problem : Problem}
    (h : Mirrors depth extra p q) (hproblem : problem ≠ .topLevelReturn) :
    Mirrors depth extra (if c then Parse.noteHere problem >>= fun _ => p else p)
      (if c then noteHere problem >>= fun _ => q else q) := by
  split
  · exact (mirrors_noteHere hproblem).bind fun _ => h
  · exact h

theorem heard_return {extra : Nat} (h : 0 < extra) (keyword : Token) :
    heard extra [⟨some keyword, .topLevelReturn⟩] = [] := by
  rw [heard, if_neg (Nat.ne_of_gt h)]
  rfl

theorem noteOutside_bind (keyword : Token) (q : Walk α) (ts : List Token) (w : Stand) :
    (noteOutside keyword >>= fun _ => q) ts w = q ts (if w.depth = 0 then
      w.reporting (.syntacticAt keyword Problem.topLevelReturn.message) else w) := by
  rw [bind_apply, noteOutside, bind_apply]
  simp only [Walk.depth, look]
  by_cases hw : w.depth = 0
  · rw [if_pos hw, if_pos hw]
    rfl
  · rw [if_neg hw, if_neg hw]
    rfl

/-- Where the step notes a `return` as outside, the walker reports it if it stands in no body, and
otherwise it is not heard. -/
theorem Mirrors.outside (h : Mirrors depth extra p q) (keyword : Token) :
    Mirrors depth extra
      (if depth = 0 then Parse.note ⟨some keyword, .topLevelReturn⟩ >>= fun _ => p else p)
      (noteOutside keyword >>= fun _ => q) := by
  intro ts w hw
  rw [Follows, noteOutside_bind]
  rcases Nat.eq_zero_or_pos depth with rfl | hdepth
  · rw [if_pos rfl, Parse.bind_apply]
    simp only [Parse.note, heard_append]
    rcases Nat.eq_zero_or_pos extra with rfl | hextra
    -- Both report it, so what follows is done by a walker with that report.
    · let v := w.reporting (.syntacticAt keyword Problem.topLevelReturn.message)
      obtain ⟨taken, htaken, hq⟩ := h ts v hw
      rw [show v.ahead ts = w.ahead ts from rfl, show v.stop ts = w.stop ts from rfl] at hq
      refine ⟨taken, htaken, ?_⟩
      rw [if_pos hw, hq]
      simp [v, heard, Stand.reporting, Fault.report]
    -- The walker stands in a body that the step does not see.
    · obtain ⟨taken, htaken, hq⟩ := h ts w hw
      refine ⟨taken, htaken, ?_⟩
      rw [if_neg (by omega), hq, heard_return hextra, List.nil_append]
  · rw [if_neg (by omega), if_neg (by omega)]
    exact h ts w hw

/-- The depth is the same again behind a body. -/
theorem Mirrors.inBody (h : Mirrors (depth + 1) extra p q) :
    Mirrors depth extra p (inBody q) := by
  intro ts w hw
  obtain ⟨taken, htaken, hq⟩ := h ts w.entered (by simp only [Stand.entered]; omega)
  refine ⟨taken, htaken, ?_⟩
  rw [Walk.inBody, hq]
  rfl

theorem Mirrors.recover (h : Mirrors depth extra p q)
    (hother : ∀ ts fault, (p ts).reply = .failed fault → fault.ofReturn = false) :
    Mirrors depth extra (recover p) (recovering q) := by
  intro ts w hw
  obtain ⟨taken, htaken, hq⟩ := h ts w hw
  have hfailed := hother (w.ahead ts)
  rw [Follows, Grammar.recover, recovering, hq]
  rcases hstep : p (w.ahead ts) with ⟨reply, rest, noted⟩
  rw [hstep] at htaken hfailed
  cases reply with
  | done a => exact ⟨taken, htaken, rfl⟩
  | outOfFuel => exact ⟨taken, htaken, rfl⟩
  | failed fault =>
    let v : Stand := ⟨w.passed + taken.length, w.depth,
      w.reports ++ (heard extra (noted ++ [fault])).map (Fault.report (w.stop ts))⟩
    obtain ⟨hahead, -⟩ : v.ahead ts = rest ∧ v.stop ts = w.stop ts :=
      Stand.passed_ahead htaken rfl
    obtain ⟨skipped, hskipped, hsynchronized⟩ := v.synchronized_eq ts
    rw [hahead] at hskipped
    refine ⟨taken ++ skipped, ?_, ?_⟩
    · rw [htaken, List.append_assoc]
      exact congrArg (taken ++ ·) hskipped
    · have hreported : (Stand.reporting ⟨w.passed + taken.length, w.depth,
          w.reports ++ (heard extra noted).map (Fault.report (w.stop ts))⟩
            (fault.report (w.stop ts))) = v := by
        simp [v, Stand.reporting, heard_other (hfailed fault rfl)]
      simp only [Reply.come, hreported, hsynchronized]
      simp [v, Nat.add_assoc]

end Walk

end TreeWalk.Grammar
