import TreeWalk.Proofs.Token.Munch

/-!
Tokens that are written out are read back. Lexemes stand in a row with a separator between
neighbours, which is a blank with any blanks and comments behind it. No lexeme reaches into the
separator behind it and no separator into the lexeme behind it, so that the scan lists the lexemes
and nothing else.
-/

namespace TreeWalk.Scan

/-- Blanks, and comments with the end of their line. -/
inductive Filler : List Char → Prop
  | empty : Filler []
  | blank {c : Char} {more : List Char} : c ∈ [' ', '\t', '\r', '\n'] → Filler more →
    Filler (c :: more)
  | comment {body more : List Char} : '\n' ∉ body → Filler more →
    Filler ('/' :: '/' :: body ++ '\n' :: more)

/-- Filler that begins with a blank. -/
inductive Separator : List Char → Prop
  | mk {c : Char} {more : List Char} : c ∈ [' ', '\t', '\r', '\n'] → Filler more →
    Separator (c :: more)

/-- The lexemes of tokens in a row, with a separator between neighbours. -/
inductive Rendered : List (Kind × String) → List Char → Prop
  | empty : Rendered [] []
  | last {kind : Kind} {lexeme : String} : Rule lexeme.toList (.token kind) →
    Rendered [(kind, lexeme)] lexeme.toList
  | next {kind : Kind} {lexeme : String} {gap text : List Char} {follower : Kind × String}
    {more : List (Kind × String)} : Rule lexeme.toList (.token kind) → Separator gap →
    Rendered (follower :: more) text →
    Rendered ((kind, lexeme) :: follower :: more) (lexeme.toList ++ (gap ++ text))

/-! ## A lexeme before a blank -/

/-- Nothing, or a text that begins with a blank. -/
def Apart (rest : List Char) : Prop := ∀ c ∈ rest.head?, isBlank c

theorem apart_nil : Apart [] := by
  rintro c ⟨⟩

theorem Separator.apart {gap : List Char} (h : Separator gap) (rest : List Char) :
    Apart (gap ++ rest) := by
  cases h with
  | mk hc _ =>
    rintro _ ⟨⟩
    exact mem_blanks.2 hc

section

variable {rest : List Char} (hrest : Apart rest)
include hrest

theorem Apart.head_ne {c : Char} (hc : isBlank c = false) : rest.head? ≠ some c := by
  intro hhead
  rw [hrest c hhead] at hc
  cases hc

/-- A class of characters without blanks ends where the lexeme does. -/
theorem Apart.takeWhile_append {p : Char → Bool} (hp : [' ', '\t', '\r', '\n'].all fun c => !p c)
    {cs : List Char} (hcs : ∀ c ∈ cs, p c) :
    (cs ++ rest).takeWhile p = cs ∧ (cs ++ rest).dropWhile p = rest := by
  rw [List.takeWhile_append_of_pos hcs, List.dropWhile_append_of_pos hcs]
  cases rest with
  | nil => simp
  | cons b more =>
    have hb : p b = false := by
      by_contra hb
      exact hrest.head_ne (isBlank_eq_false hp (Bool.eq_true_of_not_eq_false hb)) rfl
    simp [hb]

theorem Apart.fraction_eq : fraction rest = ([], rest) := by
  unfold fraction
  split
  · exact absurd rfl (hrest.head_ne (c := '.') (by decide))
  · rfl

/-- A numeral takes all of its digits, and no point without digits. -/
theorem numeral_apart {text : List Char} {x : ℚ} (h : Numeral text x) :
    ∃ c cs, text = c :: cs ∧ isDigit c ∧ (numeral c (cs ++ rest)).text = c :: cs := by
  have hdigit : [' ', '\t', '\r', '\n'].all fun c => !isDigit c := by decide
  cases h with
  | whole hne hdigits =>
    obtain ⟨c, cs, rfl⟩ := List.exists_cons_of_ne_nil hne
    obtain ⟨hc, hcs⟩ := List.forall_mem_cons.1 hdigits
    obtain ⟨htake, hdrop⟩ := hrest.takeWhile_append hdigit hcs
    refine ⟨c, cs, rfl, hc, ?_⟩
    simp only [numeral, htake, hdrop, hrest.fraction_eq, List.append_nil]
  | @point whole digits hne hdigits hne' hdigits' =>
    obtain ⟨c, cs, rfl⟩ := List.exists_cons_of_ne_nil hne
    obtain ⟨d, ds, rfl⟩ := List.exists_cons_of_ne_nil hne'
    obtain ⟨hc, hcs⟩ := List.forall_mem_cons.1 hdigits
    obtain ⟨hd, hds⟩ := List.forall_mem_cons.1 hdigits'
    have hpoint : isDigit '.' = false := by decide
    have htake : (cs ++ '.' :: d :: ds ++ rest).takeWhile isDigit = cs := by
      simp [List.takeWhile_append_of_pos hcs, hpoint]
    have hdrop : (cs ++ '.' :: d :: ds ++ rest).dropWhile isDigit = '.' :: d :: (ds ++ rest) := by
      simp [List.dropWhile_append_of_pos hcs, hpoint]
    have hfraction : (fraction ('.' :: d :: (ds ++ rest))).1 = '.' :: d :: ds := by
      simp [fraction, hd, (hrest.takeWhile_append hdigit hds).1]
    refine ⟨c, cs ++ '.' :: d :: ds, rfl, hc, ?_⟩
    simp only [numeral, htake, hdrop, hfraction, List.cons_append]

theorem word_apart {c : Char} {cs : List Char} (hc : isLetter c) (hcs : ∀ d ∈ cs, isWordPart d) :
    (cut c (cs ++ rest)).text = c :: cs := by
  rw [cut_letter _ hc]
  simp only [word, (hrest.takeWhile_append (by decide) hcs).1]

/-- The lexeme of a token is what is cut off, if a blank or nothing stands behind it. -/
theorem cut_text_apart {text : List Char} {kind : Kind} (h : Rule text (.token kind)) :
    ∃ c cs, text = c :: cs ∧ (cut c (cs ++ rest)).text = c :: cs := by
  cases h with
  | mark hmark =>
    rcases mem_marks.1 hmark with ⟨c, rfl, hsingle⟩ | ⟨c, rfl, hpair⟩
    · have hslash : c = '/' → rest.head? ≠ some '/' := fun _ => hrest.head_ne (by decide)
      have hequal : ∀ symbol more, withEqual? c = some symbol → rest ≠ '=' :: more := by
        rintro symbol more _ rfl
        exact hrest.head_ne (c := '=') (by decide) rfl
      refine ⟨c, [], rfl, ?_⟩
      rw [List.nil_append, cut_single hsingle hslash, mark_of_not_pair hequal, hsingle]
    · obtain ⟨hslash, short, hshort⟩ := withEqual?_single hpair
      refine ⟨c, ['='], rfl, ?_⟩
      rw [List.singleton_append, cut_single hshort fun hc => absurd hc hslash, mark_pair rest hpair]
  | number hnumeral _ =>
    obtain ⟨c, cs, rfl, hc, htext⟩ := numeral_apart hrest hnumeral
    exact ⟨c, cs, rfl, by rw [cut_digit _ hc, htext]⟩
  | keyword word =>
    obtain ⟨c, cs, hspelling, hc, hcs⟩ := keyword_word word
    exact ⟨c, cs, hspelling, word_apart hrest hc hcs⟩
  | @identifier c cs hc hcs _ => exact ⟨c, cs, rfl, word_apart hrest hc hcs⟩
  | @string contents hcontents =>
    refine ⟨'"', contents ++ ['"'], rfl, ?_⟩
    rw [List.append_assoc, List.singleton_append, cut_quote, quoted_closed hcontents]
    rfl

theorem cut_apart {text : List Char} {kind : Kind} (h : Rule text (.token kind)) :
    ∃ c cs, text = c :: cs ∧ cut c (cs ++ rest) = ⟨.token kind, text, rest⟩ := by
  obtain ⟨c, cs, rfl, htext⟩ := cut_text_apart hrest h
  have htakes : Takes (c :: cs).length (cut c (cs ++ rest)) := cut_takes h ⟨rest, rfl⟩
  have hrule := cut_rule htakes.1
  have hall := cut_text_append_rest c (cs ++ rest)
  rw [htext] at hrule hall
  have hpiece : (cut c (cs ++ rest)).piece = .token kind := hrule.unique h
  have hleft : (cut c (cs ++ rest)).rest = rest := List.append_cancel_left hall
  refine ⟨c, cs, rfl, ?_⟩
  calc cut c (cs ++ rest)
      = ⟨(cut c (cs ++ rest)).piece, (cut c (cs ++ rest)).text, (cut c (cs ++ rest)).rest⟩ := rfl
    _ = ⟨.token kind, c :: cs, rest⟩ := by rw [hpiece, htext, hleft]

end

/-! ## Rendered tokens -/

theorem listed_lexeme {text rest : List Char} {kind : Kind} (h : Rule text (.token kind))
    (hrest : Apart rest) (line : Nat) : listed line (cuts (text ++ rest)) =
      .token ⟨kind, String.ofList text, lineAfter line text⟩ ::
        listed (lineAfter line text) (cuts rest) := by
  obtain ⟨c, cs, rfl, hcut⟩ := cut_apart hrest h
  rw [List.cons_append, cuts_cons, hcut]
  rfl

theorem listed_blank {c : Char} (h : c ∈ [' ', '\t', '\r', '\n']) (line : Nat)
    (rest : List Char) :
    listed line (cuts (c :: rest)) = listed (lineAfter line [c]) (cuts rest) := by
  rw [cuts_cons, cut_blank rest (mem_blanks.2 h)]
  rfl

/-- Filler lists nothing, whatever stands behind it. -/
theorem listed_filler {gap : List Char} (h : Filler gap) (line : Nat) (rest : List Char) :
    listed line (cuts (gap ++ rest)) = listed (lineAfter line gap) (cuts rest) := by
  induction h generalizing line with
  | empty => rfl
  | blank hc _ ih =>
    rw [List.cons_append, listed_blank hc, ih, lineAfter_append]
    rfl
  | @comment body more hbody _ ih =>
    have hne : ∀ d ∈ '/' :: body, (d != '\n') = true := by
      intro d hd
      rw [bne_iff_ne]
      rintro rfl
      rcases List.mem_cons.1 hd with hslash | hd
      · cases hslash
      · exact hbody hd
    have hcut : cut '/' ('/' :: body ++ '\n' :: (more ++ rest)) =
        ⟨.skipped, '/' :: '/' :: body, '\n' :: (more ++ rest)⟩ := by
      rw [List.cons_append, cut_comment, comment, ← List.cons_append,
        List.takeWhile_append_of_pos hne, List.dropWhile_append_of_pos hne]
      simp
    have htext : '/' :: '/' :: body ++ '\n' :: more ++ rest =
        '/' :: ('/' :: body ++ '\n' :: (more ++ rest)) := by simp
    rw [htext, cuts_cons, hcut]
    change listed (lineAfter line ('/' :: '/' :: body)) (cuts ('\n' :: (more ++ rest))) = _
    rw [listed_blank (by simp), ih, lineAfter_append, lineAfter_append]
    simp

theorem Separator.filler {gap : List Char} (h : Separator gap) : Filler gap := by
  cases h with
  | mk hc hmore => exact .blank hc hmore

/-- What a text of lexemes and separators lists from any line on. -/
theorem listed_rendered {lexemes : List (Kind × String)} {text : List Char}
    (h : Rendered lexemes text) (line : Nat) :
    ∃ ts : List Token, listed line (cuts text) = ts.map .token ∧
      ts.map (fun t => (t.kind, t.lexeme)) = lexemes := by
  induction h generalizing line with
  | empty => exact ⟨[], by rw [cuts_nil]; rfl, rfl⟩
  | @last kind lexeme hrule =>
    have hlisted := listed_lexeme hrule apart_nil line
    rw [List.append_nil, cuts_nil, String.ofList_toList] at hlisted
    exact ⟨[⟨kind, lexeme, _⟩], hlisted, rfl⟩
  | @next kind lexeme gap text follower more hrule hgap _ ih =>
    have hlisted := listed_lexeme hrule (hgap.apart text) line
    rw [listed_filler hgap.filler, String.ofList_toList] at hlisted
    obtain ⟨ts, hts, hlexemes⟩ := ih (lineAfter (lineAfter line lexeme.toList) gap)
    rw [hts] at hlisted
    exact ⟨⟨kind, lexeme, _⟩ :: ts, hlisted, by rw [List.map_cons, hlexemes]⟩

/-- Scanning undoes rendering: no fault, and the kinds with their values and the lexemes that were
written, the end of input behind them. -/
theorem scan_rendered {lexemes : List (Kind × String)} {source : String}
    (h : Rendered lexemes source.toList) :
    reports source = [] ∧ (tokens source).map (fun t => (t.kind, t.lexeme)) =
      lexemes ++ [(.symbol .endOfInput, "")] := by
  obtain ⟨ts, hts, hlexemes⟩ := listed_rendered h 1
  have hitems : items source =
      (ts ++ [Token.endOfInput (lineAfter 1 source.toList)]).map .token := by
    rw [items_eq, hts, List.map_append]
    rfl
  have htoken : ∀ us : List Token, (us.map Item.token).filterMap Item.token? = us := by
    intro us
    rw [List.filterMap_map]
    exact List.filterMap_some
  have hreport : ∀ us : List Token, (us.map Item.token).filterMap Item.report? = [] := by
    intro us
    rw [List.filterMap_map]
    exact List.filterMap_eq_nil_iff.2 fun _ _ => rfl
  rw [reports, tokens, hitems, htoken, hreport, List.map_append, hlexemes]
  exact ⟨rfl, rfl⟩

/-- A slash before a comment with a quote in it, a string with slashes in it, and a number before
a point. -/
def crowded : String := "/ //\"\n\"//\"\t7\n."

def crowdedLexemes : List (Kind × String) :=
  [(.symbol .slash, "/"), (.string "//", "\"//\""),
    (.number (Number.Decimal.ofNumeral ['7']).toFloat, "7"), (.symbol .dot, ".")]

theorem crowded_scanned : Rendered crowdedLexemes crowded.toList ∧
    reports crowded = [] ∧ (tokens crowded).map (fun t => (t.kind, t.lexeme)) =
      crowdedLexemes ++ [(.symbol .endOfInput, "")] := by
  have hslash : Rule "/".toList (.token (.symbol .slash)) := .mark (by decide)
  have hstring : Rule "\"//\"".toList (.token (.string "//")) :=
    @Rule.string ['/', '/'] (by decide)
  have hnumber : Rule "7".toList
      (.token (.number (Number.Decimal.ofNumeral ['7']).toFloat)) :=
    rule_ofNumeral (.whole (by decide) (List.forall_mem_singleton.2 (by decide)))
  have hdot : Rule ".".toList (.token (.symbol .dot)) := .mark (by decide)
  have hcomment : Separator [' ', '/', '/', '"', '\n'] :=
    .mk (by decide) (@Filler.comment ['"'] [] (by decide) .empty)
  have htab : Separator ['\t'] := .mk (by decide) .empty
  have hline : Separator ['\n'] := .mk (by decide) .empty
  have hrendered : Rendered crowdedLexemes ("/".toList ++ ([' ', '/', '/', '"', '\n'] ++
      ("\"//\"".toList ++ (['\t'] ++ ("7".toList ++ (['\n'] ++ ".".toList)))))) :=
    .next hslash hcomment (.next hstring htab (.next hnumber hline (.last hdot)))
  have htext : crowded.toList = "/".toList ++ ([' ', '/', '/', '"', '\n'] ++
      ("\"//\"".toList ++ (['\t'] ++ ("7".toList ++ (['\n'] ++ ".".toList))))) := by decide
  rw [← htext] at hrendered
  exact ⟨hrendered, scan_rendered hrendered⟩

end TreeWalk.Scan
