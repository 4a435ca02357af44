import Mathlib.Data.List.Basic
import TreeWalk.Proofs.Grammar.Completeness
import TreeWalk.Proofs.Grammar.Steadiness
import TreeWalk.Proofs.Grammar.Termination

/-!
Recovery at a semicolon. A malformed statement that ends with its only semicolon, and in which no
other statement begins, is left out: its faults are those it has alone, and what stands before and
behind it is read as if it were not there.
-/

namespace TreeWalk.Grammar

open TreeWalk.Grammar.Parse TreeWalk.Grammar.Derivation

/-! ## Statements in which no other begins -/

/-- No token opens a block or begins another statement by its keyword. -/
def Quiet (ts : List Token) : Prop := ∀ t ∈ ts, isBoundary t = false ∧ t.is .leftBrace = false

section

variable {fuel depth : Nat} {ts : List Token}

theorem Quiet.nextIs_word {word : Keyword} (h : Quiet ts)
    (hword : word ∈ [Keyword.classWord, .funWord, .varWord, .forWord, .ifWord, .whileWord,
      .printWord, .returnWord]) : nextIs [.keyword word] ts = false := by
  cases ts with
  | nil => rfl
  | cons t rest =>
    have ht := List.any_eq_false.1 (h t List.mem_cons_self).1 word hword
    simpa [nextIs] using ht

theorem Quiet.nextIs_leftBrace (h : Quiet ts) : nextIs [.leftBrace] ts = false := by
  cases ts with
  | nil => rfl
  | cons t rest => simpa [nextIs] using (h t List.mem_cons_self).2

theorem Quiet.of_suffix {rest : List Token} (h : Quiet ts) (hrest : rest <:+ ts) : Quiet rest :=
  fun t ht => h t (hrest.subset ht)

theorem expressionStatement_endsOrStops (hts : Ended ts) :
    EndsOrStops (expressionStatement fuel) ts :=
  ((expressionSteady fuel).expression hts).semicolon .unendedExpression

theorem printStatement_endsOrStops (hts : Ended ts) : EndsOrStops (printStatement fuel) ts :=
  ((expressionSteady fuel).expression hts).semicolon .unendedPrint

theorem varDeclaration_endsOrStops (hts : Ended ts) : EndsOrStops (varDeclaration fuel) ts := by
  apply (steady_expect _ (by decide) hts).endsOrStops
  intro name rest _ hrest
  apply (steady_accept (by decide) hrest).endsOrStops
  intro equals last _ hlast
  cases equals with
  | none => exact (steady_pure none hlast).semicolon .unendedDeclaration
  | some equals =>
    apply ((expressionSteady fuel).expression hlast).endsOrStops
    intro value last' _ hlast'
    exact (steady_pure (some value) hlast').semicolon .unendedDeclaration

theorem returnStatement_endsOrStops (keyword : Token) (hts : Ended ts) :
    EndsOrStops (returnStatement fuel depth keyword) ts := by
  have hvalue : ∀ rest, Ended rest → EndsOrStops (expressionUnless fuel .semicolon >>= fun value =>
      expect .semicolon .unendedReturn >>= fun _ =>
        Pure.pure (Stmt.returnValue keyword value)) rest := by
    intro rest hrest
    exact (expressionUnless_steady hrest .semicolon).semicolon .unendedReturn
  rw [returnStatement]
  split
  · exact (steady_note _ rfl hts).endsOrStops fun _ rest _ hrest => hvalue rest hrest
  · exact hvalue ts hts

/-- Without a brace a class is not opened. -/
theorem classHead_stops (hts : Ended ts) (hquiet : Quiet ts) : Stops classHead ts := by
  have hopening : ∀ (name : Token) (superclass : Option Expr) (rest : List Token), rest <:+ ts →
      Ended rest → Stops (expect .leftBrace .unopenedClass >>= fun _ =>
        Pure.pure (name, superclass)) rest := by
    intro name superclass rest hsuffix hrest
    exact (stops_expect _ (hquiet.of_suffix hsuffix).nextIs_leftBrace hrest).bind
  apply (steady_expect _ (by decide) hts).stops
  intro name rest h1 hrest
  apply (steady_accept (by decide) hrest).stops
  intro less last h2 hlast
  cases less with
  | none =>
    apply (steady_pure none hlast).stops
    exact fun superclass last' h3 => hopening name superclass last' (h3.trans (h2.trans h1))
  | some less =>
    apply (steady_expect _ (by decide) hlast).stops
    intro parent last' h3 hlast'
    apply (steady_pure (some (Expr.reference parent)) hlast').stops
    exact fun superclass last'' h4 =>
      hopening name superclass last'' (h4.trans (h3.trans (h2.trans h1)))

/-- Without a brace the body of a routine is not opened. -/
theorem routineHead_stops (kind : Routine) (hts : Ended ts) (hquiet : Quiet ts) :
    Stops (routineHead fuel kind) ts := by
  have hopening : ∀ (name : Token) (params rest : List Token), rest <:+ ts → Ended rest →
      Stops (expect .rightParen .unclosedParameters >>= fun _ =>
        expect .leftBrace (.unopenedBody kind) >>= fun _ => Pure.pure (name, params)) rest := by
    intro name params rest h1 hrest
    apply (steady_expect _ (by decide) hrest).stops
    intro closing last h2 hlast
    exact (stops_expect _ (hquiet.of_suffix (h2.trans h1)).nextIs_leftBrace hlast).bind
  apply (steady_expect _ (by decide) hts).stops
  intro name afterName h1 hname
  apply (steady_expect _ (by decide) hname).stops
  intro opening afterOpening h2 hopened
  apply (steady_sees [.rightParen] hopened).stops
  intro closing rest h3 hrest
  cases closing with
  | true =>
    apply (steady_pure [] hrest).stops
    exact fun params last h4 => hopening name params last (h4.trans (h3.trans (h2.trans h1)))
  | false =>
    apply (parameters_steady hrest 0).stops
    exact fun params last h4 => hopening name params last (h4.trans (h3.trans (h2.trans h1)))

end

/-- Only the first token may be a keyword that begins a statement, `for` not among them, and none
opens a block. -/
structure Lone (ts : List Token) : Prop where
  ended : Ended ts
  quiet : Quiet ts.tail
  notFor : nextIs [.keyword .forWord] ts = false
  notBlock : nextIs [.leftBrace] ts = false

theorem Quiet.lone {ts : List Token} (hquiet : Quiet ts) (hts : Ended ts) : Lone ts :=
  ⟨hts, hquiet.of_suffix (List.tail_suffix ts), hquiet.nextIs_word (by decide),
    hquiet.nextIs_leftBrace⟩

/-- What stands in a statement with its own keyword is quiet, so it may be a statement again, but
only an expression. An `else` cannot follow: the semicolon is the last token. -/
theorem statement_endsOrStops {fuel depth : Nat} {ts : List Token} (h : Lone ts) :
    EndsOrStops (statement fuel depth) ts := by
  induction fuel generalizing ts with
  | zero => exact .inl (stops_outOfFuel h.ended)
  | succ fuel ih =>
    obtain ⟨hts, hquiet, hfor, hbrace⟩ := h
    have inner : ∀ rest, rest <:+ ts.tail → Ended rest →
        EndsOrStops (statement fuel depth) rest :=
      fun rest hsuffix hrest => ih ((hquiet.of_suffix hsuffix).lone hrest)
    rw [statement]
    refine endsOrStops_accept (by decide) hts ?_ (endsOrStops_accept (by decide) hts ?_
      (endsOrStops_accept (by decide) hts ?_ (endsOrStops_accept (by decide) hts ?_
      (endsOrStops_accept (by decide) hts ?_ (endsOrStops_accept (by decide) hts ?_ ?_)))))
    · intro keyword hnext _
      rw [hfor] at hnext
      cases hnext
    · intro keyword _ htail
      apply (condition_steady htail _).endsOrStops
      intro test rest hsuffix hrest
      exact (inner rest hsuffix hrest).bind fun thenBranch => ⟨_, _, rfl⟩
    · intro keyword _ htail
      apply (condition_steady htail _).endsOrStops
      intro test rest hsuffix hrest
      exact (inner rest hsuffix hrest).bind fun body => ⟨_, _, rfl⟩
    · exact fun keyword _ htail => returnStatement_endsOrStops keyword htail
    · intro opening hnext _
      rw [hbrace] at hnext
      cases hnext
    · exact fun keyword _ htail => printStatement_endsOrStops htail
    · exact expressionStatement_endsOrStops hts

theorem declared_endsOrStops {fuel depth : Nat} {ts : List Token} (h : Lone ts) :
    EndsOrStops (declared fuel depth) ts := by
  cases fuel with
  | zero => exact .inl (stops_outOfFuel h.ended)
  | succ fuel =>
    rw [declared]
    refine endsOrStops_accept (by decide) h.ended ?_ (endsOrStops_accept (by decide) h.ended ?_
      (endsOrStops_accept (by decide) h.ended ?_ (statement_endsOrStops h)))
    · exact fun keyword _ htail => .inl (classHead_stops htail h.quiet).bind
    · intro keyword _ htail
      have hroutine : Stops (routine fuel depth .function) ts.tail := by
        cases fuel with
        | zero => exact stops_outOfFuel htail
        | succ fuel => exact (routineHead_stops .function htail h.quiet).bind
      exact .inl hroutine.bind
    · exact fun keyword _ htail => varDeclaration_endsOrStops htail

/-- Recovery before the semicolon goes on right behind it. -/
theorem synchronize_ended {ts : List Token} (hts : Ended ts)
    (hquiet : ∀ t ∈ ts.tail, isBoundary t = false) (more : List Token) :
    synchronize (ts ++ more) = more := by
  induction hts with
  | last ht =>
    cases more with
    | nil => rfl
    | cons next more => simp [synchronize, ht]
  | @next t ts ht hts ih =>
    cases ts with
    | nil => exact absurd hts not_ended_nil
    | cons u rest =>
      have hu : isBoundary u = false := hquiet u List.mem_cons_self
      have hrest := ih fun t ht => hquiet t (List.mem_cons_of_mem u ht)
      simpa [synchronize, ht, hu] using hrest

/-- A declaration that fails before the semicolon is left out with its semicolon, whatever stands
behind, and its faults are at its tokens. -/
theorem declaration_skips {fuel depth : Nat} {ts rest : List Token} {fault : Fault}
    {noted : List Fault} (hts : Lone ts)
    (h : declared fuel depth ts = ⟨.failed fault, rest, noted⟩) :
    (∀ f ∈ noted ++ [fault], f.place.isSome) ∧
      ∀ more, declaration (fuel + 1) depth (ts ++ more) = ⟨.done none, more, noted ++ [fault]⟩ := by
  have hends : EndsOrStops (declared fuel depth) ts := declared_endsOrStops hts
  rcases hends with ⟨hsteady, _⟩ | ⟨a, _, hdone⟩
  · obtain ⟨hsuffix, hended, hsame, hnoted, hfailed⟩ := hsteady
    rw [h] at hsuffix hended hnoted hfailed
    simp only [h] at hsame
    have hquiet : ∀ t ∈ rest.tail, isBoundary t = false := fun t ht =>
      (hts.quiet t ((tail_suffix_tail hsuffix).subset ht)).1
    constructor
    · intro f hf
      rcases List.mem_append.1 hf with hf | hf
      · exact hnoted f hf
      · rw [List.mem_singleton.1 hf]
        exact hfailed fault rfl
    · intro more
      rw [declaration, recover, hsame more]
      simp only [synchronize_ended hended hquiet]
  · rw [h] at hdone
    cases hdone

/-! ## Programs declaration by declaration -/

/-- Turns for all of the tokens are enough. -/
theorem programFrom_turns {few many : Nat} {ts : List Token} (hfew : ts.length ≤ few)
    (hmany : ts.length ≤ many) : programFrom few ts = programFrom many ts := by
  induction few generalizing many ts with
  | zero =>
    obtain rfl : ts = [] := List.length_eq_zero_iff.1 (Nat.le_zero.1 hfew)
    cases many <;> rfl
  | succ few ih =>
    cases ts with
    | nil => cases many <;> rfl
    | cons t ts =>
      have hne := List.cons_ne_nil t ts
      obtain ⟨first, rest, noted, hfirst, _, hshorter⟩ := declaration_done 0 hne
      cases many with
      | zero => cases hmany
      | succ many =>
        rw [List.length_cons] at hfew hmany hshorter
        have hrest : programFrom few rest = programFrom many rest := ih (by omega) (by omega)
        rw [programFrom_succ hne hfirst, programFrom_succ hne hfirst, hrest]

/-- A program is its first declaration and the program of what that leaves. -/
theorem program_next {ts rest : List Token} {first : Option Stmt} {noted : List Fault}
    (hts : Inner ts) (hne : ts ≠ [])
    (h : declaration (fuelFor ts) 0 ts = ⟨.done first, rest, noted⟩) :
    program ts = ⟨first.toList ++ (program rest).tree, noted ++ (program rest).faults⟩ := by
  obtain ⟨_, _, _, hdone, hsuffix, hshorter⟩ := declaration_done 0 hne
  rw [h] at hdone
  cases hdone
  have hrest : Inner rest := fun t ht => hts t (hsuffix.subset ht)
  obtain ⟨turns, hturns⟩ := Nat.exists_eq_add_of_lt hshorter
  have hmore : programFrom (rest.length + turns) rest = programFrom rest.length rest :=
    programFrom_turns (Nat.le_add_right _ _) (Nat.le_refl _)
  rw [program, program, beforeEnd_inner hts, beforeEnd_inner hrest, hturns,
    programFrom_succ hne h, hmore]

/-- What the grammar derives is read the same before tokens that do not begin with `else`. -/
theorem Derivation.Declarations.program_append {rest : List Token} (hrest : Inner rest)
    (helse : nextIs [.keyword .elseWord] rest = false) : ∀ d : Declarations, d.Regular 0 →
      program (d.yield ++ rest) = ⟨d.trees ++ (program rest).tree, (program rest).faults⟩
  | .done, _ => by simp [Declarations.yield, Declarations.trees]
  | .next first more, hd => by
    have hmore := Declarations.program_append hrest helse more hd.2
    have hinner : Inner (first.yield ++ (more.yield ++ rest)) := by
      simp [first.inner, more.inner, hrest]
    have hne := first.yield_ne_nil (more.yield ++ rest)
    have hfirst := declaration_reads first hd.1 (more.nextIs_else helse)
    rw [Declarations.yield, List.append_assoc, program_next hinner hne hfirst, hmore]
    simp [Declarations.trees]

/-! ## A malformed statement -/

/-- A statement up to its only semicolon of which nothing is kept, if it is read alone. No other
statement begins in it, and it does not begin with a `for`, which needs more than one semicolon, or
with an `else`, which would go on with what stands before. -/
structure Malformed (ts : List Token) : Prop where
  inner : Inner ts
  ended : Ended ts
  unbraced : ∀ t ∈ ts, t.is .leftBrace = false ∧ t.is .rightBrace = false
  quiet : ∀ t ∈ ts.tail, isBoundary t = false
  first : nextIs [.keyword .forWord, .keyword .elseWord] ts = false
  lost : (program ts).tree = []

theorem Malformed.lone {ts : List Token} (h : Malformed ts) : Lone ts where
  ended := h.ended
  quiet := fun t ht => ⟨h.quiet t ht, (h.unbraced t (List.mem_of_mem_tail ht)).1⟩
  notFor := nextIs_mono (by simp) h.first
  notBlock := by
    cases ts with
    | nil => rfl
    | cons t rest => simpa [nextIs] using (h.unbraced t List.mem_cons_self).1

theorem Malformed.ne_nil {ts : List Token} (h : Malformed ts) : ts ≠ [] := by
  rintro rfl
  exact not_ended_nil h.ended

theorem fuelFor_eq_succ (ts : List Token) : fuelFor ts = 32 * ts.length + 31 + 1 := by
  unfold fuelFor
  omega

theorem Malformed.declared_fails {ts : List Token} (h : Malformed ts) :
    ∃ fault rest noted, ∀ fuel, 32 * ts.length + 31 ≤ fuel →
      declared fuel 0 ts = ⟨.failed fault, rest, noted⟩ := by
  obtain ⟨first, last, faults, hdone, _⟩ := declaration_done 0 h.ne_nil
  -- Nothing is kept of the first declaration, so it is none.
  have hlost := h.lost
  rw [program_next h.inner h.ne_nil hdone] at hlost
  obtain ⟨hfirst, -⟩ := List.append_eq_nil_iff.1 hlost
  rw [fuelFor_eq_succ, declaration, recover] at hdone
  rcases hts : declared (32 * ts.length + 31) 0 ts with ⟨reply, rest, noted⟩
  rw [hts] at hdone
  cases reply with
  | done statement =>
    cases hdone
    cases hfirst
  | outOfFuel => cases hdone
  | failed fault =>
    refine ⟨fault, rest, noted, fun fuel hfuel => ?_⟩
    have hreply : (declared (32 * ts.length + 31) 0 ts).reply ≠ .outOfFuel := by
      rw [hts]
      rintro ⟨⟩
    exact (((statementContinues hfuel).declared 0).same ts hreply).trans hts

/-- The faults of a malformed statement are at its tokens, the last of them stops it, and recovery
goes on right behind its semicolon whatever stands there. -/
theorem Malformed.fails {ts : List Token} (h : Malformed ts) :
    ∃ noted fault, program ts = ⟨[], noted ++ [fault]⟩ ∧
      (∀ f ∈ noted ++ [fault], f.place.isSome) ∧
      ∀ more, declaration (fuelFor (ts ++ more)) 0 (ts ++ more) =
        ⟨.done none, more, noted ++ [fault]⟩ := by
  obtain ⟨fault, rest, noted, hfails⟩ := h.declared_fails
  have hskips : ∀ more, declaration (fuelFor (ts ++ more)) 0 (ts ++ more) =
      ⟨.done none, more, noted ++ [fault]⟩ := by
    intro more
    have hfuel : 32 * ts.length + 31 ≤ 32 * (ts ++ more).length + 31 := by
      rw [List.length_append]
      omega
    rw [fuelFor_eq_succ]
    exact (declaration_skips h.lone (hfails _ hfuel)).2 more
  have halone : declaration (fuelFor ts) 0 ts = ⟨.done none, [], noted ++ [fault]⟩ := by
    simpa using hskips []
  refine ⟨noted, fault, ?_, (declaration_skips h.lone (hfails _ (Nat.le_refl _))).1, hskips⟩
  rw [program_next h.inner h.ne_nil halone]
  simp [program, programFrom, beforeEnd]

theorem Malformed.program_append {ts rest : List Token} (h : Malformed ts) (hrest : Inner rest) :
    program (ts ++ rest) = ⟨(program rest).tree, (program ts).faults ++ (program rest).faults⟩ := by
  obtain ⟨noted, fault, halone, -, hskips⟩ := h.fails
  have hne : ts ++ rest ≠ [] := List.append_ne_nil_of_left_ne_nil h.ne_nil rest
  rw [program_next (inner_append.2 ⟨h.inner, hrest⟩) hne (hskips rest), halone]
  rfl

/-! ## Malformed statements between well-formed ones -/

structure WellFormed (ts : List Token) : Prop where
  inner : Inner ts
  faultless : (program ts).faults = []

theorem WellFormed.derived {ts : List Token} (h : WellFormed ts) :
    ∃ d : Declarations, d.yield = ts ∧ d.trees = (program ts).tree ∧ d.Regular 0 := by
  have hd := program_derived ts h.faultless
  rwa [beforeEnd_inner h.inner] at hd

theorem WellFormed.program_append {ts rest : List Token} (h : WellFormed ts) (hrest : Inner rest)
    (helse : nextIs [.keyword .elseWord] rest = false) :
    program (ts ++ rest) = ⟨(program ts).tree ++ (program rest).tree, (program rest).faults⟩ := by
  obtain ⟨d, rfl, htrees, hd⟩ := h.derived
  rw [d.program_append hrest helse hd, htrees]

/-- A part of a program that is read by itself. -/
def Piece (ts : List Token) : Prop := WellFormed ts ∨ Malformed ts

section

variable {ts : List Token} (h : Piece ts)
include h

theorem Piece.inner : Inner ts := h.elim WellFormed.inner Malformed.inner

/-- No `else` comes next, so that an `if` at the end of what stands before is not gone on with. -/
theorem Piece.nextIs_else {rest : List Token} (hrest : nextIs [.keyword .elseWord] rest = false) :
    nextIs [.keyword .elseWord] (ts ++ rest) = false := by
  rcases h with h | h
  · obtain ⟨d, rfl, -⟩ := h.derived
    exact d.nextIs_else hrest
  · cases ts with
    | nil => exact hrest
    | cons t ts => exact nextIs_mono (by simp) h.first

theorem Piece.placed : ∀ f ∈ (program ts).faults, f.place.isSome := by
  rcases h with h | h
  · rw [h.faultless]
    rintro f ⟨⟩
  · obtain ⟨noted, fault, halone, hplaced, -⟩ := h.fails
    rwa [halone]

end

theorem program_pieces {pieces : List (List Token)} (h : ∀ piece ∈ pieces, Piece piece) :
    Inner pieces.flatten ∧ nextIs [.keyword .elseWord] pieces.flatten = false ∧
      program pieces.flatten = ⟨pieces.flatMap fun piece => (program piece).tree,
        pieces.flatMap fun piece => (program piece).faults⟩ := by
  induction pieces with
  | nil => exact ⟨inner_nil, rfl, rfl⟩
  | cons piece pieces ih =>
    obtain ⟨hpiece, hpieces⟩ := List.forall_mem_cons.1 h
    obtain ⟨hinner, helse, hmore⟩ := ih hpieces
    refine ⟨inner_append.2 ⟨hpiece.inner, hinner⟩, hpiece.nextIs_else helse, ?_⟩
    simp only [List.flatten_cons, List.flatMap_cons]
    rcases hpiece with hpiece | hpiece
    · rw [hpiece.program_append hinner helse, hmore, hpiece.faultless]
      rfl
    · rw [hpiece.program_append hinner, hmore, hpiece.lost]
      rfl

/-- What the tokens are read as, before an end of input. -/
def readBefore (stop : Token) (ts : List Token) : Reading (List Stmt) :=
  Reading.ofTokens program (ts ++ [stop])

theorem readBefore_eq {stop : Token} (hstop : stop.is .endOfInput = true) {ts : List Token}
    (hts : Inner ts) :
    readBefore stop ts = ⟨(program ts).tree, (program ts).faults.map (Fault.report stop)⟩ := by
  have hprogram : program (ts ++ [stop]) = program ts := by
    rw [program, program, beforeEnd_stop hts hstop, beforeEnd_inner hts]
  simp only [readBefore, Reading.ofTokens, Parsed.reports, hprogram, stopToken_stop hts hstop]

/-- A fault at a token is reported the same wherever the text ends. -/
theorem report_placed {f : Fault} (h : f.place.isSome) (stop stop' : Token) :
    f.report stop = f.report stop' := by
  obtain ⟨t, ht⟩ := Option.isSome_iff_exists.1 h
  rw [Fault.report, Fault.report, ht]
  rfl

theorem readBefore_pieces {stop alone : Token} (hstop : stop.is .endOfInput = true)
    (halone : alone.is .endOfInput = true) {pieces : List (List Token)}
    (h : ∀ piece ∈ pieces, Piece piece) :
    readBefore stop pieces.flatten =
      ⟨pieces.flatMap fun piece => (readBefore alone piece).tree,
        pieces.flatMap fun piece => (readBefore alone piece).diagnostics⟩ := by
  obtain ⟨hinner, -, hprogram⟩ := program_pieces h
  have htree : ∀ piece ∈ pieces, (program piece).tree = (readBefore alone piece).tree := by
    intro piece hpiece
    rw [readBefore_eq halone (h piece hpiece).inner]
  have hreports : ∀ piece ∈ pieces, (program piece).faults.map (Fault.report stop) =
      (readBefore alone piece).diagnostics := by
    intro piece hpiece
    rw [readBefore_eq halone (h piece hpiece).inner]
    exact List.map_congr_left fun f hf => report_placed ((h piece hpiece).placed f hf) _ _
  rw [readBefore_eq hstop hinner, hprogram]
  simp only [List.map_flatMap, List.flatMap_congr htree, List.flatMap_congr hreports]

theorem WellFormed.of_readBefore {alone : Token} (halone : alone.is .endOfInput = true)
    {ts : List Token} {statements : List Stmt} (hts : Inner ts)
    (h : readBefore alone ts = ⟨statements, []⟩) : WellFormed ts := by
  rw [readBefore_eq halone hts] at h
  exact ⟨hts, List.map_eq_nil_iff.1 (congrArg Reading.diagnostics h)⟩

/-- A malformed statement between well-formed tokens is left out, with the reports that it has
alone, of which there is one at least; all else is read as it is alone. So are any number of
malformed statements between well-formed tokens. -/
theorem malformed_left_out (stop alone : Token) (hstop : stop.is .endOfInput = true)
    (halone : alone.is .endOfInput = true) :
    (∀ before bad after statements statements', Inner before → Malformed bad → Inner after →
      readBefore alone before = ⟨statements, []⟩ → readBefore alone after = ⟨statements', []⟩ →
        readBefore stop (before ++ bad ++ after) =
          ⟨statements ++ statements', (readBefore alone bad).diagnostics⟩) ∧
    (∀ bad, Malformed bad → (readBefore alone bad).diagnostics ≠ []) ∧
    ∀ pieces : List (List Token), (∀ piece ∈ pieces, Piece piece) →
      readBefore stop pieces.flatten =
        ⟨pieces.flatMap fun piece => (readBefore alone piece).tree,
          pieces.flatMap fun piece => (readBefore alone piece).diagnostics⟩ := by
  refine ⟨?_, ?_, fun pieces h => readBefore_pieces hstop halone h⟩
  · intro before bad after statements statements' hbefore hbad hafter h h'
    have hpieces : ∀ piece ∈ [before, bad, after], Piece piece := by
      simp only [List.forall_mem_cons, List.not_mem_nil, false_imp_iff, implies_true, and_true]
      exact ⟨.inl (.of_readBefore halone hbefore h), .inr hbad,
        .inl (.of_readBefore halone hafter h')⟩
    have hread := readBefore_pieces hstop halone hpieces
    simpa [h, h', readBefore_eq halone hbad.inner, hbad.lost] using hread
  · intro bad hbad
    obtain ⟨noted, fault, hfails, -⟩ := hbad.fails
    rw [readBefore_eq halone hbad.inner, hfails]
    simp

/-- The tokens of `if (a) a + a = a );`, with an assignment to no name and a parenthesis that stands
where the statement should end. -/
def brokenBranch : List Token :=
  [⟨.symbol (.keyword .ifWord), "if", 2⟩, ⟨.symbol .leftParen, "(", 2⟩,
    ⟨.symbol .identifier, "a", 2⟩, ⟨.symbol .rightParen, ")", 2⟩, ⟨.symbol .identifier, "a", 2⟩,
    ⟨.symbol .plus, "+", 2⟩, ⟨.symbol .identifier, "a", 2⟩, ⟨.symbol .equal, "=", 2⟩,
    ⟨.symbol .identifier, "a", 2⟩, ⟨.symbol .rightParen, ")", 2⟩, ⟨.symbol .semicolon, ";", 2⟩]

/-- The tokens of `if (a) a;`, which an `else` could go on with. -/
def openIf : List Token :=
  [⟨.symbol (.keyword .ifWord), "if", 1⟩, ⟨.symbol .leftParen, "(", 1⟩,
    ⟨.symbol .identifier, "a", 1⟩, ⟨.symbol .rightParen, ")", 1⟩, ⟨.symbol .identifier, "a", 1⟩,
    ⟨.symbol .semicolon, ";", 1⟩]

/-- The tokens of `{ print a; }`. -/
def printingBlock : List Token :=
  [⟨.symbol .leftBrace, "\x7b", 3⟩, ⟨.symbol (.keyword .printWord), "print", 3⟩,
    ⟨.symbol .identifier, "a", 3⟩, ⟨.symbol .semicolon, ";", 3⟩, ⟨.symbol .rightBrace, "\x7d", 3⟩]

theorem brokenBranch_left_out :
    (Malformed brokenBranch ∧ WellFormed openIf ∧ WellFormed printingBlock) ∧
    readBefore (.endOfInput 4) (openIf ++ brokenBranch ++ printingBlock) =
      ⟨(program openIf).tree ++ (program printingBlock).tree,
        [.syntactic "Invalid assignment target" " at '='" 2,
          .syntactic "Expected ';' after expression" " at ')'" 2]⟩ ∧
    (readBefore (.endOfInput 0) brokenBranch).diagnostics ≠ [] ∧
    readBefore (.endOfInput 4) [brokenBranch, openIf, brokenBranch].flatten =
      ⟨(program openIf).tree, (readBefore (.endOfInput 0) brokenBranch).diagnostics ++
        (readBefore (.endOfInput 0) brokenBranch).diagnostics⟩ := by
  have hbad : Malformed brokenBranch := by
    refine ⟨by simp [brokenBranch, Token.is], ?_, by decide, by decide, rfl, rfl⟩
    iterate 10 refine .next rfl ?_
    exact .last rfl
  have hif : WellFormed openIf := ⟨by simp [openIf, Token.is], rfl⟩
  have hblock : WellFormed printingBlock := ⟨by simp [printingBlock, Token.is], rfl⟩
  have hpieces : ∀ piece ∈ [brokenBranch, openIf, brokenBranch], Piece piece := by
    simp [Piece, hbad, hif]
  obtain ⟨hbetween, hreported, hread⟩ :=
    malformed_left_out (.endOfInput 4) (.endOfInput 0) rfl rfl
  exact ⟨⟨hbad, hif, hblock⟩, hbetween _ _ _ _ _ hif.inner hbad hblock.inner rfl rfl,
    hreported _ hbad, hread _ hpieces⟩

end TreeWalk.Grammar
