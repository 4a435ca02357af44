import TreeWalk.Proofs.Grammar.Keywords
import TreeWalk.Proofs.Grammar.Recovery

/-!
Recovery at a keyword that begins a statement. Where a declaration lacks the semicolon at its end
and such a keyword comes next, the fault is at the keyword, and recovery skips it as it skips any
token that a fault is at. So the declaration that the keyword begins is lost as well: if it holds
no other statement nothing more is, and if it does its rest is read as if it stood alone.
-/

namespace TreeWalk.Grammar

open TreeWalk.Grammar.Parse TreeWalk.Grammar.Derivation

/-! ## Steps that fail at the next token -/

namespace Parse

variable {α β : Type} {p : Parse α} {f : α → Parse β} {problem : Problem}
  {ts mid rest : List Token}

/-- The step stops at what is left in `rest`, having noted nothing before, unless it lacks fuel. -/
def Rejects (p : Parse α) (ts : List Token) (problem : Problem) (rest : List Token) : Prop :=
  (p ts).reply = .outOfFuel ∨ p ts = ⟨.failed ⟨rest.head?, problem⟩, rest, []⟩

theorem rejects_outOfFuel : Rejects (outOfFuel : Parse α) ts problem rest := .inl rfl

theorem Rejects.bind (hp : Rejects p ts problem rest) : Rejects (p >>= f) ts problem rest := by
  rcases hp with hp | hp
  · left
    rw [bind_apply]
    rcases hts : p ts with ⟨reply, _, _⟩
    rw [hts] at hp
    cases hp
    rfl
  · right
    rw [bind_apply, hp]

theorem Admits.rejects {a : α} (hp : Admits p ts a mid) (hf : Rejects (f a) mid problem rest) :
    Rejects (p >>= f) ts problem rest := by
  rcases hp with hp | hp
  · left
    rw [bind_apply]
    rcases hts : p ts with ⟨reply, _, _⟩
    rw [hts] at hp
    cases hp
    rfl
  · rcases hf with hf | hf
    · left
      rw [bind_apply, show p ts = _ from hp]
      exact hf
    · right
      rw [bind_apply, show p ts = _ from hp]
      simp only [hf, List.append_nil]

theorem rejects_expect {symbol : Symbol} (h : nextIs [symbol] ts = false) :
    Rejects (expect symbol problem) ts problem ts := by
  right
  cases ts with
  | nil => rfl
  | cons t rest => exact if_neg (by simpa [nextIs] using h)

theorem rejects_accept {symbols : List Symbol} (t : Terminal symbols) {f : Option Token → Parse α}
    (h : Rejects (f (some t.token)) ts problem rest) :
    Rejects (accept symbols >>= f) (t.token :: ts) problem rest :=
  (reads_accept_some.2 ⟨t.isOne, rfl⟩).admits.rejects h

theorem rejects_pass {symbols : List Symbol} {f : Option Token → Parse α}
    (hnext : nextIs symbols ts = false) (h : Rejects (f none) ts problem rest) :
    Rejects (accept symbols >>= f) ts problem rest :=
  (reads_accept_none.2 ⟨hnext, rfl⟩).admits.rejects h

end Parse

/-! ## Before a keyword that begins a statement -/

/-- The last token of two parts is the last of the second, if there is one in it. -/
theorem append_eq_concat {front back cut : List Token} {last : Token} (hback : back ≠ [])
    (h : front ++ back = cut ++ [last]) : ∃ more, back = more ++ [last] ∧ cut = front ++ more := by
  rcases List.append_eq_append_iff.1 h with ⟨more, rfl, hmore⟩ | ⟨more, rfl, hmore⟩
  · exact ⟨more, hmore, rfl⟩
  · obtain ⟨rfl, rfl⟩ : more = [] ∧ back = [last] := by
      cases more with
      | nil => exact ⟨rfl, hmore.symm⟩
      | cons u more => simp_all
    exact ⟨[], rfl, by simp⟩

/-- A closing brace is no semicolon. -/
theorem Derivation.Terminal.ne_last (closing : Terminal [.rightBrace]) (front : List Token)
    {cut : List Token} {last : Token} (hlast : last.is .semicolon = true) :
    front ++ [closing.token] ≠ cut ++ [last] := by
  intro h
  obtain ⟨-, hclosing⟩ := List.append_inj' h rfl
  cases hclosing
  rw [Token.is_iff, closing.kind_eq] at hlast
  cases hlast

theorem Derivation.Statement.yield_ne_nil (d : Statement) : d.yield ≠ [] := by
  obtain ⟨t, ts, h, -⟩ := d.beginsWith
  simp [h]

theorem BeginsWith.dropLast {symbols : List Symbol} {cut : List Token} {last : Token}
    (h : BeginsWith symbols (cut ++ [last])) (hlast : last.is .semicolon = true)
    (hs : .semicolon ∉ symbols) : BeginsWith symbols cut := by
  obtain ⟨t, ts, heq, hfirst⟩ := h
  cases cut with
  | nil =>
    cases heq
    exact absurd (hfirst _ (Token.is_iff.1 hlast)) hs
  | cons u cut =>
    obtain ⟨rfl, -⟩ := List.cons.inj heq
    exact ⟨u, cut, rfl, hfirst⟩

/-- A rule that lacks fuel rejects anything. -/
theorem rejects_fueled {α : Type} {p : Nat → Parse α} {ts rest : List Token} {problem : Problem}
    (hp : p 0 = outOfFuel) (h : ∀ fuel, Rejects (p (fuel + 1)) ts problem rest) (fuel : Nat) :
    Rejects (p fuel) ts problem rest := by
  cases fuel with
  | zero =>
    rw [hp]
    exact rejects_outOfFuel
  | succ fuel => exact h fuel

section

variable {t last : Token} (ht : isBoundary t = true) (hlast : last.is .semicolon = true)
  (rest : List Token)
include ht

theorem exprStmt_value_rejects {α : Type} (d : ExprStmt) (hd : d.Regular) (problem : Problem)
    (fuel : Nat) {f : Expr → Token → Parse α} :
    Rejects (expression fuel >>= fun value => expect .semicolon problem >>= f value)
      (d.value.yield ++ t :: rest) problem (t :: rest) := by
  have hvalue := (expressionComplete fuel).expression d.value _ hd
    (nextIs_boundary ht rest (by decide))
  exact hvalue.rejects (rejects_expect (nextIs_boundary ht rest (by decide))).bind

theorem varDecl_unended (d : VarDecl) (hd : d.Regular) (fuel : Nat) :
    Rejects (varDeclaration fuel)
      (d.name.token :: (d.initial.elim [] (fun i => i.1.token :: i.2.yield) ++ t :: rest))
      .unendedDeclaration (t :: rest) := by
  obtain ⟨keyword, name, initial, semicolon⟩ := d
  have hclosing : ∀ value : Option Expr, Rejects
      (Pure.pure value >>= fun value => expect .semicolon .unendedDeclaration >>= fun _ =>
        Pure.pure (Stmt.varDecl name.token value)) (t :: rest) .unendedDeclaration (t :: rest) :=
    fun value => (admits_pure value _).rejects
      (rejects_expect (nextIs_boundary ht rest (by decide))).bind
  apply (reads_expect.2 ⟨name.kind_eq, rfl⟩).admits.rejects
  cases initial with
  | none =>
    apply rejects_pass (nextIs_boundary ht rest (by decide))
    exact hclosing none
  | some i =>
    obtain ⟨equals, value⟩ := i
    have hvalue := (expressionComplete fuel).expression value _ (hd _ rfl)
      (nextIs_boundary ht rest (by decide))
    apply rejects_accept equals
    exact hvalue.rejects (hclosing (some value.tree))

include hlast

/-- The last statement inside lacks its semicolon, so it fails at the keyword and all around it
does. -/
theorem statement_unended : ∀ (d : Statement) {cut : List Token}, d.Regular 0 →
    d.yield = cut ++ [last] →
      ∃ problem, ∀ fuel, Rejects (statement fuel 0) (cut ++ t :: rest) problem (t :: rest)
  | .expression d, cut, hd, hyield => by
    obtain ⟨rfl, -⟩ := List.append_inj' hyield rfl
    refine ⟨.unendedExpression, rejects_fueled rfl fun fuel => ?_⟩
    rw [statement]
    iterate 6 refine rejects_pass (d.value.beginsWith.nextIs_append _ (by decide)) ?_
    exact exprStmt_value_rejects ht rest d hd _ fuel
  | .print keyword d, cut, hd, hyield => by
    have hwhole : (keyword.token :: d.value.yield) ++ [d.semicolon.token] = cut ++ [last] := hyield
    obtain ⟨rfl, -⟩ := List.append_inj' hwhole rfl
    refine ⟨.unendedPrint, rejects_fueled rfl fun fuel => ?_⟩
    rw [statement]
    iterate 5 refine rejects_pass (nextIs_terminal_of_disjoint keyword _ (by decide)) ?_
    exact rejects_accept keyword (exprStmt_value_rejects ht rest d hd _ fuel)
  | .returnValue _ _ _, _, hd, _ => absurd hd.1 (Nat.lt_irrefl 0)
  | .block (.mk opening body closing), cut, _, hyield =>
    absurd hyield (closing.ne_last (opening.token :: body.yield) hlast)
  | .forLoop head body, cut, hd, hyield => by
    obtain ⟨more, hbody, rfl⟩ := append_eq_concat body.yield_ne_nil hyield
    obtain ⟨problem, ih⟩ := statement_unended body hd.2 hbody
    refine ⟨problem, rejects_fueled rfl fun fuel => ?_⟩
    rw [statement, List.append_assoc]
    apply rejects_accept head.keyword
    exact (forClauses_complete _ head hd.1).rejects (ih fuel).bind
  | .whileLoop guard body, cut, hd, hyield => by
    obtain ⟨more, hbody, rfl⟩ := append_eq_concat body.yield_ne_nil hyield
    obtain ⟨problem, ih⟩ := statement_unended body hd.2 hbody
    refine ⟨problem, rejects_fueled rfl fun fuel => ?_⟩
    rw [statement, List.append_assoc]
    iterate 2 refine rejects_pass (nextIs_terminal_of_disjoint guard.keyword _ (by decide)) ?_
    apply rejects_accept guard.keyword
    exact (condition_complete _ guard hd.1).rejects (ih fuel).bind
  | .ifThen guard thenBranch, cut, hd, hyield => by
    obtain ⟨more, hthen, rfl⟩ := append_eq_concat thenBranch.yield_ne_nil hyield
    obtain ⟨problem, ih⟩ := statement_unended thenBranch hd.2 hthen
    refine ⟨problem, rejects_fueled rfl fun fuel => ?_⟩
    rw [statement, List.append_assoc]
    apply rejects_pass (nextIs_terminal_of_disjoint guard.keyword _ (by decide))
    apply rejects_accept guard.keyword
    exact (condition_complete _ guard hd.1).rejects (ih fuel).bind
  | .ifElse guard thenBranch keyword elseBranch, cut, hd, hyield => by
    obtain ⟨hcondition, hthen, hclosed, helse⟩ := hd
    have hwhole : (guard.yield ++ (thenBranch.yield ++ [keyword.token])) ++ elseBranch.yield =
        cut ++ [last] := by simpa [Statement.yield] using hyield
    obtain ⟨more, hmore, rfl⟩ := append_eq_concat elseBranch.yield_ne_nil hwhole
    obtain ⟨problem, ih⟩ := statement_unended elseBranch helse hmore
    refine ⟨problem, rejects_fueled rfl fun fuel => ?_⟩
    have hfirst := (statementComplete fuel).statement 0 thenBranch
      (keyword.token :: (more ++ t :: rest)) hthen fun h => absurd h hclosed
    simp only [statement, List.append_assoc, List.singleton_append]
    apply rejects_pass (nextIs_terminal_of_disjoint guard.keyword _ (by decide))
    apply rejects_accept guard.keyword
    apply (condition_complete _ guard hcondition).rejects
    apply hfirst.rejects
    exact rejects_accept keyword (ih fuel).bind

theorem declared_unended (d : Declaration) {cut : List Token} (hd : d.Regular 0)
    (hyield : d.yield = cut ++ [last]) :
    ∃ problem, ∀ fuel, Rejects (declared fuel 0) (cut ++ t :: rest) problem (t :: rest) := by
  cases d with
  | classDecl head methods closing =>
    rw [Declaration.yield, ← List.append_assoc] at hyield
    exact absurd hyield (closing.ne_last _ hlast)
  | funDecl keyword function =>
    obtain ⟨head, opening, body, closing⟩ := function
    have hwhole : (keyword.token :: (head.yield ++ opening.token :: body.yield)) ++
        [closing.token] = cut ++ [last] := by
      simpa [Declaration.yield, Derivation.Function.yield, Block.yield] using hyield
    exact absurd hwhole (closing.ne_last _ hlast)
  | varDecl d =>
    have hwhole : (d.keyword.token :: d.name.token :: d.initial.elim [] fun i =>
        i.1.token :: i.2.yield) ++ [d.semicolon.token] = cut ++ [last] := hyield
    obtain ⟨rfl, -⟩ := List.append_inj' hwhole rfl
    refine ⟨.unendedDeclaration, rejects_fueled rfl fun fuel => ?_⟩
    rw [declared]
    iterate 2 refine rejects_pass (nextIs_terminal_of_disjoint d.keyword _ (by decide)) ?_
    exact rejects_accept d.keyword (varDecl_unended ht rest d hd fuel)
  | statement d =>
    have hbegins := d.beginsWith
    rw [show d.yield = cut ++ [last] from hyield] at hbegins
    have hcut := hbegins.dropLast hlast (by decide)
    obtain ⟨problem, hfails⟩ := statement_unended ht hlast rest d hd hyield
    refine ⟨problem, rejects_fueled rfl fun fuel => ?_⟩
    rw [declared]
    iterate 3 refine rejects_pass (hcut.nextIs_append _ (by decide)) ?_
    exact hfails fuel

end

/-- A declaration without the semicolon at its end, before a keyword that begins a statement: the
fault is at the keyword, which is skipped, and nothing is kept. -/
theorem declaration_unended (d : Declaration) (rest : List Token) {cut : List Token}
    {last t : Token} (hd : d.Regular 0) (hyield : d.yield = cut ++ [last]) (hlast : last.is .semicolon = true)
    (ht : isBoundary t = true) :
    ∃ problem, declaration (fuelFor (cut ++ t :: rest)) 0 (cut ++ t :: rest) =
      ⟨.done none, synchronize (t :: rest), [⟨some t, problem⟩]⟩ := by
  obtain ⟨problem, hfails⟩ := declared_unended ht hlast rest d hd hyield
  refine ⟨problem, ?_⟩
  have hne : cut ++ t :: rest ≠ [] := by simp
  obtain ⟨_, _, _, hdone, -⟩ := declaration_done 0 hne
  rw [fuelFor_eq_succ, declaration, recover] at hdone ⊢
  rcases hfails (32 * (cut ++ t :: rest).length + 31) with hfuel | hfailed
  · rcases hstep : declared (32 * (cut ++ t :: rest).length + 31) 0 (cut ++ t :: rest) with
      ⟨reply, left, noted⟩
    rw [hstep] at hfuel hdone
    cases hfuel
    cases hdone
  · rw [hfailed]
    rfl

/-- What recovery leaves from a keyword on is never read as all that stood there: the keyword is
missing. -/
theorem synchronize_loses {t : Token} {more : List Token} {d : Declarations}
    (ht : isBoundary t = true) (hyield : d.yield = t :: more)
    (hfaults : (program (synchronize (t :: more))).faults = []) :
    (program (synchronize (t :: more))).tree ≠ d.trees := by
  intro htrees
  have hleft : synchronize (t :: more) <:+ more := synchronize_suffix (t :: more)
  have hinner : Inner (t :: more) := hyield ▸ d.inner
  have hwell : WellFormed (synchronize (t :: more)) :=
    ⟨fun u hu => hinner u (List.mem_cons_of_mem t (hleft.subset hu)), hfaults⟩
  obtain ⟨e, heyield, hetrees, -⟩ := hwell.derived
  have hfew : keywords e.yield ≤ keywords more := by
    rw [heyield]
    exact hleft.sublist.countP_le
  have hmany : keywords d.yield = keywords more + 1 := by rw [hyield, keywords_boundary ht]
  rw [e.keywords_yield, hetrees, htrees] at hfew
  rw [d.keywords_yield] at hmany
  omega

section

variable (after : Declarations) {before : Declarations} {first second : Declaration}
  {cut more : List Token} {last t : Token}

theorem Derivation.Declarations.program_yield (d : Declarations) (hd : d.Regular 0) :
    program d.yield = ⟨d.trees, []⟩ := by
  have h := d.program_append inner_nil rfl hd
  rw [List.append_nil] at h
  rw [h]
  simp [program, programFrom, beforeEnd]

/-- What recovery goes on with stands behind the keyword. -/
theorem unended_left (hmore : second.yield = t :: more) :
    synchronize (second.yield ++ after.yield) <:+ more ++ after.yield := by
  rw [hmore]
  exact synchronize_suffix (t :: (more ++ after.yield))

/-- A semicolon is not the only token of a declaration. -/
theorem unended_begins (hcut : first.yield = cut ++ [last]) (hlast : last.is .semicolon = true)
    (rest : List Token) : nextIs [.keyword .elseWord] (cut ++ rest) = false := by
  have hbegins := first.beginsWith
  rw [hcut] at hbegins
  exact (hbegins.dropLast hlast (by decide)).nextIs_append _ (by decide)

theorem program_unended (hbefore : before.Regular 0) (hfirst : first.Regular 0)
    (hcut : first.yield = cut ++ [last]) (hlast : last.is .semicolon = true)
    (hmore : second.yield = t :: more) (ht : isBoundary t = true) :
    ∃ problem, program (before.yield ++ (cut ++ (second.yield ++ after.yield))) =
      ⟨before.trees ++ (program (synchronize (second.yield ++ after.yield))).tree,
        ⟨some t, problem⟩ :: (program (synchronize (second.yield ++ after.yield))).faults⟩ := by
  have hcutInner : Inner cut := (inner_append.1 (hcut ▸ first.inner)).1
  have hinner : Inner (cut ++ (second.yield ++ after.yield)) :=
    inner_append.2 ⟨hcutInner, inner_append.2 ⟨second.inner, after.inner⟩⟩
  obtain ⟨problem, hfails⟩ :=
    declaration_unended first (more ++ after.yield) hfirst hcut hlast ht
  rw [← List.cons_append, ← hmore] at hfails
  refine ⟨problem, ?_⟩
  rw [before.program_append hinner (unended_begins hcut hlast _) hbefore,
    program_next hinner (by simp [hmore]) hfails]
  rfl

end

/-- Two declarations one after the other, the second of which begins with a keyword, among others.
Without the semicolon at the end of the first, the fault is at the keyword: recovery skips the
keyword, and goes on behind a semicolon or at the next such keyword. So never are all declarations
but the first kept with this one report. If the second holds no semicolon but its last and no other
such keyword, exactly these two are lost. -/
theorem unended_loses_next (stop : Token) (hstop : stop.is .endOfInput = true)
    (before : Declarations) (first second : Declaration) (after : Declarations)
    (hbefore : before.Regular 0) (hfirst : first.Regular 0) (hsecond : second.Regular 0)
    (hafter : after.Regular 0) (cut more : List Token) (last t : Token)
    (hcut : first.yield = cut ++ [last]) (hlast : last.is .semicolon = true)
    (hmore : second.yield = t :: more) (ht : isBoundary t = true) :
    readBefore stop (before.yield ++ (first.yield ++ (second.yield ++ after.yield))) =
      ⟨before.trees ++ first.tree :: second.tree :: after.trees, []⟩ ∧
    ∃ problem : Problem,
      readBefore stop (before.yield ++ (cut ++ (second.yield ++ after.yield))) =
        ⟨before.trees ++ (readBefore stop (synchronize (second.yield ++ after.yield))).tree,
          .syntacticAt t problem.message ::
            (readBefore stop (synchronize (second.yield ++ after.yield))).diagnostics⟩ ∧
      synchronize (second.yield ++ after.yield) <:+ more ++ after.yield ∧
      (∀ report : Report,
        readBefore stop (before.yield ++ (cut ++ (second.yield ++ after.yield))) ≠
          ⟨before.trees ++ second.tree :: after.trees, [report]⟩) ∧
      (Ended second.yield → (∀ u ∈ more, isBoundary u = false) →
        readBefore stop (before.yield ++ (cut ++ (second.yield ++ after.yield))) =
          ⟨before.trees ++ after.trees, [.syntacticAt t problem.message]⟩) := by
  have hleft := unended_left after hmore
  -- All that is read has no end of input in it.
  have hbetween : Inner (second.yield ++ after.yield) :=
    inner_append.2 ⟨second.inner, after.inner⟩
  have hsynced : Inner (synchronize (second.yield ++ after.yield)) :=
    fun u hu => hbetween u (List.mem_of_mem_tail ((synchronize_suffix _).subset hu))
  have hcutInner : Inner cut := (inner_append.1 (hcut ▸ first.inner)).1
  have hall : Inner (before.yield ++ (cut ++ (second.yield ++ after.yield))) :=
    inner_append.2 ⟨before.inner, inner_append.2 ⟨hcutInner, hbetween⟩⟩
  have horiginal : program (before.yield ++ (first.yield ++ (second.yield ++ after.yield))) =
      ⟨before.trees ++ first.tree :: second.tree :: after.trees, []⟩ := by
    let both : Declarations := .next first (.next second after)
    have helse : nextIs [.keyword .elseWord] both.yield = false := by
      simpa using both.nextIs_else (nextIs_nil _)
    have happend := before.program_append both.inner helse hbefore
    rwa [both.program_yield ⟨hfirst, hsecond, hafter⟩] at happend
  obtain ⟨problem, hunended⟩ := program_unended after hbefore hfirst hcut hlast hmore ht
  have hread : readBefore stop (before.yield ++ (cut ++ (second.yield ++ after.yield))) =
      ⟨before.trees ++ (readBefore stop (synchronize (second.yield ++ after.yield))).tree,
        .syntacticAt t problem.message ::
          (readBefore stop (synchronize (second.yield ++ after.yield))).diagnostics⟩ := by
    rw [readBefore_eq hstop hall, readBefore_eq hstop hsynced, hunended]
    rfl
  refine ⟨?_, problem, hread, hleft, ?_, ?_⟩
  · have hinner : Inner (before.yield ++ (first.yield ++ (second.yield ++ after.yield))) :=
      inner_append.2 ⟨before.inner, inner_append.2 ⟨first.inner, hbetween⟩⟩
    rw [readBefore_eq hstop hinner, horiginal]
    rfl
  · intro report hkept
    rw [hread, readBefore_eq hstop hsynced] at hkept
    obtain ⟨htrees, hreports⟩ := Reading.mk.inj hkept
    have hfaultless := List.map_eq_nil_iff.1 (List.cons.inj hreports).2
    have hlost : (Declarations.next second after).yield = t :: (more ++ after.yield) := by
      rw [Declarations.yield, hmore, List.cons_append]
    rw [hmore, List.cons_append] at hfaultless htrees
    exact synchronize_loses ht hlost hfaultless (List.append_cancel_left htrees)
  · intro hended hquiet
    have hrest : synchronize (second.yield ++ after.yield) = after.yield := by
      apply synchronize_ended hended
      rw [hmore]
      exact hquiet
    rw [hread, hrest, readBefore_eq hstop after.inner, after.program_yield hafter]
    rfl

def semicolonToken : Token := ⟨.symbol .semicolon, ";", 1⟩

def printToken : Token := ⟨.symbol (.keyword .printWord), "print", 1⟩

def ifToken : Token := ⟨.symbol (.keyword .ifWord), "if", 1⟩

/-- The derivation of a statement that prints a variable. -/
def printing (text : String) : Declaration :=
  .statement (.print (.single printToken rfl) ⟨nameExpression text, .single semicolonToken rfl⟩)

/-- In `print a; print b;` without the first semicolon both statements are lost. -/
theorem printing_lost : ∃ problem : Problem,
    readBefore (.endOfInput 1) ((printing "a").yield.dropLast ++ (printing "b").yield) =
      ⟨[], [.syntacticAt printToken problem.message]⟩ := by
  have hregular : ∀ text, (printing text).Regular 0 := fun text => (Tiered.ofName_spec _ _).2.2
  obtain ⟨-, problem, -, -, -, hlost⟩ :=
    unended_loses_next (.endOfInput 1) rfl .done (printing "a") (printing "b") .done trivial
      (hregular "a") (hregular "b") trivial (printing "a").yield.dropLast (printing "b").yield.tail
      semicolonToken printToken rfl rfl rfl rfl
  have hended : Ended (printing "b").yield := .next rfl (.next rfl (.last rfl))
  exact ⟨problem, hlost hended (by decide)⟩

/-- The derivation of `if (b) { print c; }`. -/
def printingIf : Declaration :=
  let guard : Guard .ifWord :=
    ⟨.single ifToken rfl, .single ⟨.symbol .leftParen, "(", 2⟩ rfl, nameExpression "b",
      .single ⟨.symbol .rightParen, ")", 2⟩ rfl⟩
  .statement (.ifThen guard (.block (.mk (.single ⟨.symbol .leftBrace, "\x7b", 2⟩ rfl)
    (.next (printing "c") .done) (.single ⟨.symbol .rightBrace, "\x7d", 2⟩ rfl))))

/-- In `print a; if (b) { print c; } print d;` without the first semicolon the `if` is lost but for
the statement inside, and its closing brace is at fault as well. So recovery at a keyword does not
keep the statement that begins there, with one report, in general. -/
theorem printingIf_not_kept : ¬ ∀ (stop : Token) (before : Declarations)
    (first second : Declaration) (after : Declarations) (cut more : List Token) (last t : Token),
    stop.is .endOfInput = true → before.Regular 0 → first.Regular 0 → second.Regular 0 →
      after.Regular 0 → first.yield = cut ++ [last] → last.is .semicolon = true →
      second.yield = t :: more → isBoundary t = true →
      ∃ message, readBefore stop (before.yield ++ (cut ++ (second.yield ++ after.yield))) =
        ⟨before.trees ++ second.tree :: after.trees, [.syntacticAt t message]⟩ := by
  intro hkept
  have hregular : ∀ text, (printing text).Regular 0 := fun text => (Tiered.ofName_spec _ _).2.2
  have hif : printingIf.Regular 0 :=
    ⟨(Tiered.ofName_spec _ _).2.2, hregular "c", trivial⟩
  obtain ⟨message, hread⟩ := hkept (.endOfInput 1) .done (printing "a") printingIf
    (.next (printing "d") .done) (printing "a").yield.dropLast printingIf.yield.tail semicolonToken
    ifToken rfl trivial (hregular "a") hif ⟨hregular "d", trivial⟩ rfl rfl rfl rfl
  have hcascades : readBefore (.endOfInput 1) ((printing "a").yield.dropLast ++
      (printingIf.yield ++ (printing "d").yield)) =
        ⟨[(printing "c").tree, (printing "d").tree],
          [.syntacticAt ifToken "Expected ';' after value",
            .syntactic "Expected expression" " at '\x7d'" 2]⟩ := rfl
  have hreports := congrArg (fun reading => reading.diagnostics.length) (hcascades.symm.trans hread)
  cases hreports

end TreeWalk.Grammar
