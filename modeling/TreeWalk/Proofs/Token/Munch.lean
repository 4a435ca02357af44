import TreeWalk.Proofs.Number.Rounding
import TreeWalk.Proofs.Token.Tiling

/-!
The lexical grammar, and that the scan reads by it. Where rules match the text that is left, the
scan takes the longest text that one of them matches, and what it takes is what that rule says;
where none does, it finds a fault. A text is matched in one way only, so that a token's lexeme
determines its kind.
-/

namespace TreeWalk.Scan

open Number

/-! ## The rules -/

def marks : List (List Char × Symbol) :=
  [(['('], .leftParen), ([')'], .rightParen), (['{'], .leftBrace), (['}'], .rightBrace),
    ([','], .comma), (['.'], .dot), (['-'], .minus), (['+'], .plus), ([';'], .semicolon),
    (['*'], .star), (['/'], .slash), (['!'], .bang), (['!', '='], .bangEqual), (['='], .equal),
    (['=', '='], .equalEqual), (['<'], .less), (['<', '='], .lessEqual), (['>'], .greater),
    (['>', '='], .greaterEqual)]

/-- Digits, with an optional point that digits follow, and the number they write. -/
inductive Numeral : List Char → ℚ → Prop
  | whole {digits : List Char} : digits ≠ [] → (∀ c ∈ digits, isDigit c) →
    Numeral digits (Decimal.ofDigits digits)
  | point {whole fraction : List Char} : whole ≠ [] → (∀ c ∈ whole, isDigit c) →
    fraction ≠ [] → (∀ c ∈ fraction, isDigit c) →
    Numeral (whole ++ '.' :: fraction)
      (Decimal.ofDigits whole + Decimal.ofDigits fraction / 10 ^ fraction.length)

/-- The texts that are a piece, and the piece they are. -/
inductive Rule : List Char → Piece → Prop
  | mark {text : List Char} {symbol : Symbol} : (text, symbol) ∈ marks →
    Rule text (.token (.symbol symbol))
  | number {text : List Char} {x : ℚ} {code : Nat} : Numeral text x → RoundsTo x code →
    Rule text (.token (.number (ofCode false code)))
  | keyword (word : Keyword) : Rule word.spelling.toList (.token (.symbol (.keyword word)))
  | identifier {c : Char} {cs : List Char} : isLetter c → (∀ d ∈ cs, isWordPart d) →
    (∀ word : Keyword, word.spelling.toList ≠ c :: cs) →
    Rule (c :: cs) (.token (.symbol .identifier))
  | string {contents : List Char} : '"' ∉ contents →
    Rule ('"' :: contents ++ ['"']) (.token (.string (String.ofList contents)))
  | blank {c : Char} : c ∈ [' ', '\t', '\r', '\n'] → Rule [c] .skipped
  | comment {body : List Char} : '\n' ∉ body → Rule ('/' :: '/' :: body) .skipped

/-! ## First characters -/

/-- What holds of no blank tells from them. -/
theorem isBlank_eq_false {p : Char → Bool} (hp : [' ', '\t', '\r', '\n'].all fun c => !p c)
    {c : Char} (h : p c) : isBlank c = false := by
  rw [Bool.eq_false_iff]
  intro hblank
  have hnot := List.all_eq_true.1 hp c (mem_blanks.1 hblank)
  rw [h] at hnot
  cases hnot

theorem isBlank_of_isDigit {c : Char} (h : isDigit c) : isBlank c = false :=
  isBlank_eq_false (by decide) h

theorem isBlank_of_isLetter {c : Char} (h : isLetter c) : isBlank c = false :=
  isBlank_eq_false (by decide) h

theorem isDigit_of_isLetter {c : Char} (h : isLetter c) : isDigit c = false := by
  rw [Bool.eq_false_iff]
  intro hdigit
  simp only [isDigit, Bool.and_eq_true, decide_eq_true_eq] at hdigit
  simp only [isLetter, Bool.or_eq_true, Bool.and_eq_true, decide_eq_true_eq, beq_iff_eq] at h
  rcases h with (h | h) | rfl
  · exact absurd (Char.le_trans h.1 hdigit.2) (by decide)
  · exact absurd (Char.le_trans h.1 hdigit.2) (by decide)
  · exact absurd hdigit.2 (by decide)

theorem mark_class {c : Char} {symbol : Symbol} (h : single? c = some symbol) :
    isBlank c = false ∧ isDigit c = false ∧ isLetter c = false ∧ c ≠ '"' := by
  unfold single? at h
  split at h <;> first | decide | cases h

/-- A mark is one character, or one with an equal sign behind it. -/
theorem mem_marks {text : List Char} {symbol : Symbol} : (text, symbol) ∈ marks ↔
    (∃ c, text = [c] ∧ single? c = some symbol) ∨
      ∃ c, text = [c, '='] ∧ withEqual? c = some symbol := by
  constructor
  · intro h
    simp only [marks, List.mem_cons, Prod.mk.injEq, List.not_mem_nil, or_false] at h
    rcases h with ⟨rfl, rfl⟩ | ⟨rfl, rfl⟩ | ⟨rfl, rfl⟩ | ⟨rfl, rfl⟩ | ⟨rfl, rfl⟩ | ⟨rfl, rfl⟩ |
      ⟨rfl, rfl⟩ | ⟨rfl, rfl⟩ | ⟨rfl, rfl⟩ | ⟨rfl, rfl⟩ | ⟨rfl, rfl⟩ | ⟨rfl, rfl⟩ | ⟨rfl, rfl⟩ |
      ⟨rfl, rfl⟩ | ⟨rfl, rfl⟩ | ⟨rfl, rfl⟩ | ⟨rfl, rfl⟩ | ⟨rfl, rfl⟩ | ⟨rfl, rfl⟩ <;>
      first | exact .inl ⟨_, rfl, rfl⟩ | exact .inr ⟨_, rfl, rfl⟩
  · rintro (⟨c, rfl, h⟩ | ⟨c, rfl, h⟩)
    · unfold single? at h
      split at h <;> cases h <;> decide
    · unfold withEqual? at h
      split at h <;> cases h <;> decide

section

variable {c : Char} (cs : List Char)

theorem cut_blank (h : isBlank c) : cut c cs = ⟨.skipped, [c], cs⟩ := by
  simp [cut, h]

theorem cut_digit (h : isDigit c) : cut c cs = numeral c cs := by
  simp [cut, h, isBlank_of_isDigit h]

theorem cut_letter (h : isLetter c) : cut c cs = word c cs := by
  simp [cut, h, isBlank_of_isLetter h, isDigit_of_isLetter h]

theorem mark_pair {symbol : Symbol} (h : withEqual? c = some symbol) :
    mark c ('=' :: cs) = ⟨.token (.symbol symbol), [c, '='], cs⟩ := by
  simp [mark, h]

theorem cut_quote : cut '"' cs = quoted cs := rfl

theorem cut_comment : cut '/' ('/' :: cs) = comment ('/' :: cs) := rfl

theorem cut_mark (hblank : isBlank c = false) (hdigit : isDigit c = false)
    (hletter : isLetter c = false) (hquote : c ≠ '"') (hslash : c = '/' → cs.head? ≠ some '/') :
    cut c cs = mark c cs := by
  simp only [cut, hblank, hdigit, hletter, Bool.false_eq_true, if_false, beq_iff_eq, hquote]
  rw [if_neg]
  rw [Bool.and_eq_true, beq_iff_eq, beq_iff_eq]
  exact fun h => hslash h.1 h.2

end

/-! ## What is cut is in the rules -/

theorem ofSpelling?_eq_some {text : String} {word : Keyword} :
    Keyword.ofSpelling? text = some word ↔ word.spelling = text := by
  constructor
  · intro h
    simpa using List.find?_some h
  · rintro rfl
    cases word <;> rfl

theorem ofNumeral_value {text : List Char} {x : ℚ} (h : Numeral text x) :
    (Decimal.ofNumeral text).value = x := by
  have hnot : ∀ {digits : List Char}, (∀ c ∈ digits, isDigit c) → ∀ c ∈ digits,
      (c != '.') = true := by
    intro digits hdigits c hc
    rw [bne_iff_ne]
    rintro rfl
    exact absurd (hdigits _ hc) (by decide)
  cases h with
  | whole _ hdigits =>
    have htake := List.takeWhile_eq_self_iff.2 (hnot hdigits)
    have hdrop := List.dropWhile_eq_nil_iff.2 (hnot hdigits)
    simp [Decimal.ofNumeral, Decimal.value, htake, hdrop]
  | @point whole fraction _ hdigits _ _ =>
    have htake : (whole ++ '.' :: fraction).takeWhile (· != '.') = whole := by
      simp [List.takeWhile_append_of_pos (hnot hdigits)]
    have hdrop : (whole ++ '.' :: fraction).dropWhile (· != '.') = '.' :: fraction := by
      simp [List.dropWhile_append_of_pos (hnot hdigits)]
    simp only [Decimal.ofNumeral, Decimal.value, htake, hdrop, List.drop_one, List.tail_cons,
      Decimal.ofDigits_append, Nat.cast_add, Nat.cast_mul, Nat.cast_pow, Nat.cast_ofNat,
      zpow_neg, zpow_natCast]
    field_simp

theorem rule_ofNumeral {text : List Char} {x : ℚ} (h : Numeral text x) :
    Rule text (.token (.number (Decimal.ofNumeral text).toFloat)) := by
  have hrounds := Decimal.code_rounds (Decimal.ofNumeral text)
  rw [ofNumeral_value h] at hrounds
  exact .number h hrounds

theorem mem_takeWhile {p : Char → Bool} {cs : List Char} : ∀ c ∈ cs.takeWhile p, p c :=
  fun _ => List.mem_takeWhile_imp

theorem fraction_cases (cs : List Char) : (fraction cs).1 = [] ∨
    ∃ d ds, (∀ c ∈ d :: ds, isDigit c) ∧ (fraction cs).1 = '.' :: d :: ds := by
  unfold fraction
  split
  · next d ds =>
    split
    · next hd => exact .inr ⟨d, _, List.forall_mem_cons.2 ⟨hd, mem_takeWhile⟩, rfl⟩
    · exact .inl rfl
  · exact .inl rfl

theorem numeral_rule {c : Char} (hc : isDigit c) (cs : List Char) :
    Rule (numeral c cs).text (numeral c cs).piece := by
  have hdigits : ∀ d ∈ c :: cs.takeWhile isDigit, isDigit d :=
    List.forall_mem_cons.2 ⟨hc, mem_takeWhile⟩
  obtain ⟨x, hx⟩ : ∃ x, Numeral (numeral c cs).text x := by
    change ∃ x, Numeral (c :: cs.takeWhile isDigit ++ (fraction (cs.dropWhile isDigit)).1) x
    rcases fraction_cases (cs.dropWhile isDigit) with hnone | ⟨d, ds, hfraction, hsome⟩
    · rw [hnone, List.append_nil]
      exact ⟨_, .whole (List.cons_ne_nil _ _) hdigits⟩
    · rw [hsome]
      exact ⟨_, .point (List.cons_ne_nil _ _) hdigits (List.cons_ne_nil _ _) hfraction⟩
  exact rule_ofNumeral hx

theorem word_rule {c : Char} (hc : isLetter c) (cs : List Char) :
    Rule (word c cs).text (word c cs).piece := by
  unfold word
  dsimp only
  cases hword : Keyword.ofSpelling? (String.ofList (c :: cs.takeWhile isWordPart)) with
  | some keyword =>
    have htext := congrArg String.toList (ofSpelling?_eq_some.1 hword)
    rw [String.toList_ofList] at htext
    rw [← htext]
    exact .keyword keyword
  | none =>
    refine .identifier hc mem_takeWhile fun keyword htext => ?_
    rw [← htext, String.ofList_toList, ofSpelling?_eq_some.2 rfl] at hword
    cases hword

theorem quoted_rule {cs : List Char} (h : (quoted cs).piece ≠ .fault .unterminated) :
    Rule (quoted cs).text (quoted cs).piece := by
  have hnot := List.head?_dropWhile_not (· != '"') cs
  unfold quoted at h ⊢
  split
  · next quote rest hrest =>
    rw [hrest] at hnot
    obtain rfl : quote = '"' := by simpa using hnot
    apply Rule.string
    intro hmem
    simpa using mem_takeWhile '"' hmem
  · next hrest =>
    rw [hrest] at h
    exact absurd rfl h

theorem mark_rule {c : Char} {cs : List Char}
    (h : (mark c cs).piece ≠ .fault (.unexpected c)) :
    Rule (mark c cs).text (mark c cs).piece := by
  by_cases hpair : ∃ symbol rest, withEqual? c = some symbol ∧ cs = '=' :: rest
  · obtain ⟨symbol, rest, hsymbol, rfl⟩ := hpair
    rw [mark_pair rest hsymbol]
    exact .mark (mem_marks.2 (.inr ⟨c, rfl, hsymbol⟩))
  · have hnot : ∀ symbol rest, withEqual? c = some symbol → cs ≠ '=' :: rest :=
      fun symbol rest hsymbol hcs => hpair ⟨symbol, rest, hsymbol, hcs⟩
    rw [mark_of_not_pair hnot] at h ⊢
    cases hsingle : single? c with
    | none =>
      rw [hsingle] at h
      exact absurd rfl h
    | some symbol => exact .mark (mem_marks.2 (.inl ⟨c, rfl, hsingle⟩))

theorem comment_rule (cs : List Char) :
    Rule (comment ('/' :: cs)).text (comment ('/' :: cs)).piece := by
  have hslash : ('/' != '\n') = true := rfl
  simp only [comment, List.takeWhile_cons, hslash, if_true]
  apply Rule.comment
  intro hmem
  simpa using mem_takeWhile '\n' hmem

/-- What is cut without a fault is what one of the rules says. -/
theorem cut_rule {c : Char} {cs : List Char} (h : ∀ fault, (cut c cs).piece ≠ .fault fault) :
    Rule (cut c cs).text (cut c cs).piece := by
  by_cases hblank : isBlank c
  · rw [cut_blank cs hblank]
    exact .blank (mem_blanks.1 hblank)
  by_cases hdigit : isDigit c
  · rw [cut_digit cs hdigit]
    exact numeral_rule hdigit cs
  by_cases hletter : isLetter c
  · rw [cut_letter cs hletter]
    exact word_rule hletter cs
  by_cases hquote : c = '"'
  · subst hquote
    exact quoted_rule (h .unterminated)
  by_cases hcomment : c = '/' ∧ cs.head? = some '/'
  · obtain ⟨rfl, hhead⟩ := hcomment
    obtain ⟨ds, rfl⟩ := List.head?_eq_some_iff.1 hhead
    exact comment_rule ds
  · have hcut := cut_mark cs (Bool.eq_false_iff.2 hblank) (Bool.eq_false_iff.2 hdigit)
      (Bool.eq_false_iff.2 hletter) hquote fun hc hcs => hcomment ⟨hc, hcs⟩
    rw [hcut] at h ⊢
    exact mark_rule (h (.unexpected c))

/-! ## What is cut is the longest match -/

theorem prefix_takeWhile {p : Char → Bool} {text cs : List Char} (h : text <+: cs)
    (hp : ∀ d ∈ text, p d) : text <+: cs.takeWhile p := by
  obtain ⟨rest, rfl⟩ := h
  rw [List.takeWhile_append_of_pos hp]
  exact List.prefix_append _ _

/-- The first piece of the text is no fault and takes at least `n` characters. -/
def Takes (n : Nat) (piece : Cut) : Prop :=
  (∀ fault, piece.piece ≠ .fault fault) ∧ n ≤ piece.text.length

section

variable {c : Char} {cs : List Char}

theorem numeral_takes {text : List Char} {x : ℚ} (h : Numeral text x)
    (hbegins : text <+: c :: cs) : isDigit c ∧ Takes text.length (numeral c cs) := by
  cases h with
  | @whole digits hne hdigits =>
    obtain ⟨d, ds, rfl⟩ := List.exists_cons_of_ne_nil hne
    obtain ⟨hd, hds⟩ := List.forall_mem_cons.1 hdigits
    obtain ⟨rfl, hrest⟩ := List.cons_prefix_cons.1 hbegins
    have hlength := (prefix_takeWhile hrest hds).length_le
    refine ⟨hd, by simp [numeral], ?_⟩
    simp only [numeral, List.length_cons, List.length_append]
    omega
  | @point whole fraction' hne hdigits hne' hdigits' =>
    obtain ⟨d, ds, rfl⟩ := List.exists_cons_of_ne_nil hne
    obtain ⟨e, es, rfl⟩ := List.exists_cons_of_ne_nil hne'
    obtain ⟨hd, hds⟩ := List.forall_mem_cons.1 hdigits
    obtain ⟨he, hes⟩ := List.forall_mem_cons.1 hdigits'
    rw [List.cons_append] at hbegins
    obtain ⟨rfl, rest, rfl⟩ := List.cons_prefix_cons.1 hbegins
    have htake : (ds ++ '.' :: e :: es ++ rest).takeWhile isDigit = ds := by
      rw [List.append_assoc, List.takeWhile_append_of_pos hds]
      exact List.append_nil ds
    have hdrop : (ds ++ '.' :: e :: es ++ rest).dropWhile isDigit = '.' :: e :: (es ++ rest) := by
      rw [List.append_assoc, List.dropWhile_append_of_pos hds]
      rfl
    have hlength := (prefix_takeWhile (List.prefix_append es rest) hes).length_le
    refine ⟨hd, by simp [numeral], ?_⟩
    simp only [numeral, htake, hdrop, fraction, he, if_true, List.length_cons, List.length_append]
    omega

theorem word_takes (hc : isLetter c) {ds : List Char} (hds : ∀ d ∈ ds, isWordPart d)
    (hbegins : ds <+: cs) : Takes (ds.length + 1) (cut c cs) := by
  have hlength := (prefix_takeWhile hbegins hds).length_le
  rw [cut_letter cs hc]
  refine ⟨by simp [word], ?_⟩
  rw [word, List.length_cons]
  exact Nat.succ_le_succ hlength

theorem keyword_word (word : Keyword) :
    ∃ c cs, word.spelling.toList = c :: cs ∧ isLetter c ∧ ∀ d ∈ cs, isWordPart d := by
  cases word <;> exact ⟨_, _, rfl, by decide, List.all_eq_true.1 rfl⟩

/-- A mark that is no comment is cut, with the equal sign if it has one. -/
theorem cut_single {symbol : Symbol} (h : single? c = some symbol)
    (hslash : c = '/' → cs.head? ≠ some '/') : cut c cs = mark c cs := by
  obtain ⟨hblank, hdigit, hletter, hquote⟩ := mark_class h
  exact cut_mark cs hblank hdigit hletter hquote hslash

theorem single_takes {symbol : Symbol} (h : single? c = some symbol) : Takes 1 (cut c cs) := by
  have hlength : 1 ≤ (cut c cs).text.length := List.length_pos_iff.2 (cut_text_ne_nil c cs)
  refine ⟨?_, hlength⟩
  by_cases hcomment : c = '/' ∧ cs.head? = some '/'
  · obtain ⟨rfl, hhead⟩ := hcomment
    obtain ⟨ds, rfl⟩ := List.head?_eq_some_iff.1 hhead
    rw [cut_comment]
    simp [comment]
  · rw [cut_single h fun hc hcs => hcomment ⟨hc, hcs⟩]
    by_cases hpair : ∃ symbol rest, withEqual? c = some symbol ∧ cs = '=' :: rest
    · obtain ⟨symbol, rest, hsymbol, rfl⟩ := hpair
      simp [mark_pair rest hsymbol]
    · rw [mark_of_not_pair fun symbol rest hsymbol hcs => hpair ⟨symbol, rest, hsymbol, hcs⟩, h]
      simp

theorem withEqual?_single {symbol : Symbol} (h : withEqual? c = some symbol) :
    c ≠ '/' ∧ ∃ short, single? c = some short := by
  unfold withEqual? at h
  split at h <;> first | exact ⟨by decide, _, rfl⟩ | cases h

theorem pair_takes {symbol : Symbol} (h : withEqual? c = some symbol) :
    Takes 2 (cut c ('=' :: cs)) := by
  obtain ⟨hslash, short, hshort⟩ := withEqual?_single h
  rw [cut_single hshort fun hc => absurd hc hslash, mark_pair cs h]
  exact ⟨by simp, Nat.le_refl _⟩

theorem quoted_closed {contents : List Char} (h : '"' ∉ contents) (rest : List Char) :
    quoted (contents ++ '"' :: rest) =
      ⟨.token (.string (String.ofList contents)), '"' :: contents ++ ['"'], rest⟩ := by
  have hne : ∀ d ∈ contents, (d != '"') = true := by
    intro d hd
    rw [bne_iff_ne]
    rintro rfl
    exact h hd
  have htake : (contents ++ '"' :: rest).takeWhile (· != '"') = contents := by
    simp [List.takeWhile_append_of_pos hne]
  have hdrop : (contents ++ '"' :: rest).dropWhile (· != '"') = '"' :: rest := by
    simp [List.dropWhile_append_of_pos hne]
  simp only [quoted, htake, hdrop]

theorem comment_takes {body ds : List Char} (hbody : '\n' ∉ body) (hbegins : body <+: ds) :
    Takes (body.length + 2) (cut '/' ('/' :: ds)) := by
  have hne : ∀ d ∈ body, (d != '\n') = true := by
    intro d hd
    rw [bne_iff_ne]
    rintro rfl
    exact hbody hd
  have hlength := (prefix_takeWhile hbegins hne).length_le
  have hslash : ('/' != '\n') = true := rfl
  rw [cut_comment]
  refine ⟨by simp [comment], ?_⟩
  simp only [comment, List.takeWhile_cons, hslash, if_true, List.length_cons]
  omega

end

/-- Where a rule matches, what is cut is no fault, and no shorter. -/
theorem cut_takes {c : Char} {cs text : List Char} {piece : Piece} (h : Rule text piece)
    (hbegins : text <+: c :: cs) : Takes text.length (cut c cs) := by
  cases h with
  | mark hmark =>
    rcases mem_marks.1 hmark with ⟨d, rfl, hsingle⟩ | ⟨d, rfl, hpair⟩
    · obtain ⟨rfl, _⟩ := List.cons_prefix_cons.1 hbegins
      exact single_takes hsingle
    · obtain ⟨rfl, rest, rfl⟩ := List.cons_prefix_cons.1 hbegins
      exact pair_takes hpair
  | number hnumeral _ =>
    obtain ⟨hc, htakes⟩ := numeral_takes hnumeral hbegins
    rwa [cut_digit cs hc]
  | keyword word =>
    obtain ⟨d, ds, htext, hd, hds⟩ := keyword_word word
    rw [htext] at hbegins ⊢
    obtain ⟨rfl, hrest⟩ := List.cons_prefix_cons.1 hbegins
    exact word_takes hd hds hrest
  | identifier hd hds _ =>
    obtain ⟨rfl, hrest⟩ := List.cons_prefix_cons.1 hbegins
    exact word_takes hd hds hrest
  | @string contents hcontents =>
    rw [List.cons_append] at hbegins ⊢
    obtain ⟨rfl, rest, rfl⟩ := List.cons_prefix_cons.1 hbegins
    rw [cut_quote, List.append_assoc, List.singleton_append, quoted_closed hcontents]
    exact ⟨by simp, Nat.le_refl _⟩
  | blank hc =>
    obtain ⟨rfl, _⟩ := List.cons_prefix_cons.1 hbegins
    rw [cut_blank cs (mem_blanks.2 hc)]
    exact ⟨by simp, Nat.le_refl _⟩
  | comment hbody =>
    obtain ⟨rfl, hrest⟩ := List.cons_prefix_cons.1 hbegins
    obtain ⟨ds, rfl⟩ := hrest
    exact comment_takes hbody (List.prefix_append _ ds)

/-! ## A text is matched in one way -/

theorem cut_text_of_takes {c : Char} {cs : List Char} (h : Takes (c :: cs).length (cut c cs)) :
    (cut c cs).text = c :: cs := by
  have hall := cut_text_append_rest c cs
  have hlength := congrArg List.length hall
  have htakes := h.2
  rw [List.length_append] at hlength
  have hrest : (cut c cs).rest = [] := List.length_eq_zero_iff.1 (by omega)
  rwa [hrest, List.append_nil] at hall

/-- A text that a rule matches is cut as that rule says, if nothing stands behind it. -/
theorem cut_of_rule {text : List Char} {piece : Piece} (h : Rule text piece) :
    ∃ c cs, text = c :: cs ∧ (cut c cs).piece = piece := by
  have htext : ∀ {c : Char} {cs : List Char}, Rule (c :: cs) piece → (cut c cs).text = c :: cs :=
    fun h => cut_text_of_takes (cut_takes h (List.prefix_refl _))
  have hword : ∀ {c : Char} {cs : List Char}, isLetter c → Rule (c :: cs) piece →
      (cut c cs).piece = .token (.symbol
        (((Keyword.ofSpelling? (String.ofList (c :: cs))).map .keyword).getD .identifier)) := by
    intro c cs hc hrule
    have hall := htext hrule
    rw [cut_letter cs hc] at hall ⊢
    rw [← hall]
    rfl
  cases h with
  | mark hmark =>
    rcases mem_marks.1 hmark with ⟨c, rfl, hsingle⟩ | ⟨c, rfl, hpair⟩
    · refine ⟨c, [], rfl, ?_⟩
      rw [cut_single hsingle (by simp), mark_of_not_pair (by simp), hsingle]
    · obtain ⟨hslash, short, hshort⟩ := withEqual?_single hpair
      refine ⟨c, ['='], rfl, ?_⟩
      rw [cut_single hshort fun hc => absurd hc hslash, mark_pair [] hpair]
  | @number text x code hnumeral hrounds =>
    obtain ⟨c, cs, rfl⟩ : ∃ c cs, text = c :: cs := by
      apply List.exists_cons_of_ne_nil
      cases hnumeral with
      | whole hne _ => exact hne
      | point hne _ _ _ => simp
    have hall := htext (.number hnumeral hrounds)
    have hread := Decimal.code_rounds (Decimal.ofNumeral (c :: cs))
    rw [ofNumeral_value hnumeral] at hread
    have hc := (numeral_takes hnumeral (List.prefix_refl _)).1
    refine ⟨c, cs, rfl, ?_⟩
    rw [cut_digit cs hc] at hall ⊢
    change Piece.token (.number (Decimal.ofNumeral (numeral c cs).text).toFloat) = _
    rw [hall, hrounds.unique hread]
    rfl
  | keyword word =>
    obtain ⟨c, cs, hspelling, hc, _⟩ := keyword_word word
    refine ⟨c, cs, hspelling, ?_⟩
    rw [hword hc (hspelling ▸ .keyword word), ← hspelling, String.ofList_toList,
      ofSpelling?_eq_some.2 rfl]
    rfl
  | @identifier c cs hc hcs hno =>
    refine ⟨c, cs, rfl, ?_⟩
    rw [hword hc (.identifier hc hcs hno)]
    cases hfound : Keyword.ofSpelling? (String.ofList (c :: cs)) with
    | none => rfl
    | some word =>
      have hspelling := congrArg String.toList (ofSpelling?_eq_some.1 hfound)
      rw [String.toList_ofList] at hspelling
      exact absurd hspelling (hno word)
  | @string contents hcontents =>
    refine ⟨'"', contents ++ ['"'], rfl, ?_⟩
    rw [cut_quote, quoted_closed hcontents]
  | @blank c hc => exact ⟨c, [], rfl, by rw [cut_blank [] (mem_blanks.2 hc)]⟩
  | @comment body _ => exact ⟨'/', '/' :: body, rfl, rfl⟩

theorem Rule.unique {text : List Char} {piece other : Piece} (h : Rule text piece)
    (h' : Rule text other) : piece = other := by
  obtain ⟨c, cs, rfl, hpiece⟩ := cut_of_rule h
  obtain ⟨d, ds, htext, hother⟩ := cut_of_rule h'
  obtain ⟨rfl, rfl⟩ := List.cons.inj htext
  exact hpiece.symm.trans hother

/-! ## Every piece of a source -/

/-- The piece that is first on the text `left` by the rules. -/
structure Munched (left : List Char) (piece : Cut) : Prop where
  text : piece.text ++ piece.rest = left
  rule : (∀ fault, piece.piece ≠ .fault fault) → Rule piece.text piece.piece
  only : ∀ other, Rule piece.text other → other = piece.piece
  longest : ∀ text other, Rule text other → text <+: left → text.length ≤ piece.text.length
  unexpected : ∀ c, piece.piece = .fault (.unexpected c) ↔
    left.head? = some c ∧ c ≠ '"' ∧ ∀ text other, Rule text other → ¬ text <+: left
  unterminated : piece.piece = .fault .unterminated ↔ ∃ later, left = '"' :: later ∧ '"' ∉ later

/-- A fault is cut where no rule matches, and only there. -/
theorem cut_fault {c : Char} {cs : List Char} : (∃ fault, (cut c cs).piece = .fault fault) ↔
    ∀ text other, Rule text other → ¬ text <+: c :: cs := by
  constructor
  · rintro ⟨fault, hfault⟩ text other hrule hbegins
    exact (cut_takes hrule hbegins).1 fault hfault
  · intro hno
    by_contra hnone
    have hrule := cut_rule fun fault hfault => hnone ⟨fault, hfault⟩
    exact hno _ _ hrule ⟨(cut c cs).rest, cut_text_append_rest c cs⟩

theorem cut_unterminated {c : Char} {cs : List Char} : (cut c cs).piece = .fault .unterminated ↔
    ∃ later, c :: cs = '"' :: later ∧ '"' ∉ later := by
  constructor
  · intro h
    have htile := cut_tile c cs
    have hall := cut_text_append_rest c cs
    generalize cut c cs = piece at h htile hall
    cases htile with
    | unterminated hcontents => exact ⟨_, hall.symm.trans (List.append_nil _), hcontents⟩
    | _ => cases h
  · rintro ⟨later, hleft, hlater⟩
    obtain ⟨rfl, rfl⟩ := List.cons.inj hleft
    have hdrop : cs.dropWhile (· != '"') = [] := by
      rw [List.dropWhile_eq_nil_iff]
      intro d hd
      rw [bne_iff_ne]
      rintro rfl
      exact hlater hd
    rw [cut_quote, quoted, hdrop]

theorem cut_unexpected {c : Char} {cs : List Char} (d : Char) :
    (cut c cs).piece = .fault (.unexpected d) ↔
      c = d ∧ d ≠ '"' ∧ ∀ text other, Rule text other → ¬ text <+: c :: cs := by
  rw [← cut_fault]
  constructor
  · intro h
    have htile := cut_tile c cs
    have hall := cut_text_append_rest c cs
    have hquote : c ≠ '"' := by
      rintro rfl
      rw [cut_quote, quoted] at h
      split at h <;> cases h
    have hc : c = d := by
      generalize cut c cs = piece at h htile hall
      cases htile with
      | unexpected =>
        cases h
        exact (List.cons.inj hall).1.symm
      | _ => cases h
    exact ⟨hc, hc ▸ hquote, _, h⟩
  · rintro ⟨rfl, hquote, fault, hfault⟩
    cases fault with
    | unterminated =>
      obtain ⟨later, hleft, _⟩ := cut_unterminated.1 hfault
      exact absurd (List.cons.inj hleft).1 hquote
    | unexpected d =>
      have htile := cut_tile c cs
      have hall := cut_text_append_rest c cs
      rw [hfault]
      generalize cut c cs = piece at hfault htile hall
      cases htile with
      | unexpected =>
        cases hfault
        rw [(List.cons.inj hall).1]
      | _ => cases hfault

theorem cut_munched (c : Char) (cs : List Char) : Munched (c :: cs) (cut c cs) where
  text := cut_text_append_rest c cs
  rule := cut_rule
  only := by
    intro other hother
    have hbegins : (cut c cs).text <+: c :: cs := ⟨(cut c cs).rest, cut_text_append_rest c cs⟩
    exact hother.unique (cut_rule (cut_takes hother hbegins).1)
  longest := fun _ _ hrule hbegins => (cut_takes hrule hbegins).2
  unexpected := by
    intro d
    rw [cut_unexpected, List.head?_cons, Option.some.injEq]
  unterminated := cut_unterminated

/-! ## Tokens -/

/-- A token is as the rules say, or the end of input. -/
theorem rule_of_mem_tokens {source : String} {t : Token} (h : t ∈ tokens source) :
    Rule t.lexeme.toList (.token t.kind) ∨ ∃ line, t = .endOfInput line := by
  obtain ⟨item, hitem, htoken⟩ := List.mem_filterMap.1 h
  rw [items_eq, List.mem_append, List.mem_singleton] at hitem
  rcases hitem with hitem | rfl
  · left
    obtain ⟨before, after, hlisted⟩ := List.append_of_mem hitem
    obtain ⟨done, piece, rest, last, hpieces, hlast, _, _⟩ := listed_split hlisted
    obtain ⟨c, cs, rfl, _, _⟩ := cuts_split hpieces
    unfold Cut.item? at hlast
    split at hlast
    · cases hlast
    · next kind hkind =>
      cases hlast
      cases htoken
      have hsound : ∀ fault, (cut c cs).piece ≠ .fault fault := by simp [hkind]
      have hrule := cut_rule hsound
      rw [hkind] at hrule
      rwa [String.toList_ofList]
    · cases hlast
      cases htoken
  · right
    cases htoken
    exact ⟨_, rfl⟩

theorem kind_eq_of_lexeme_eq {source other : String} {t u : Token} (ht : t ∈ tokens source)
    (hu : u ∈ tokens other) (h : t.lexeme = u.lexeme) : t.kind = u.kind := by
  have hempty : ∀ {piece : Piece}, ¬ Rule "".toList piece := by
    intro piece hrule
    obtain ⟨_, _, htext, _⟩ := cut_of_rule hrule
    cases htext
  rcases rule_of_mem_tokens ht with ht | ⟨line, rfl⟩ <;>
    rcases rule_of_mem_tokens hu with hu | ⟨line', rfl⟩
  · rw [h] at ht
    exact Piece.token.inj (ht.unique hu)
  · rw [h] at ht
    exact absurd ht hempty
  · rw [← h] at hu
    exact absurd hu hempty
  · rfl

/-- Each piece of a source is the longest match of the lexical rules where it stands, or the fault
of a place where none matches. So tokens that are the same but for the values they carry are
equal. -/
theorem scan_munches :
    (∀ (source : String) (before : List Cut) (piece : Cut) (after : List Cut),
      cuts source.toList = before ++ piece :: after →
        ∃ left, source.toList = (before.map Cut.text).flatten ++ left ∧ Munched left piece) ∧
    (∀ source : String, items source = listed 1 (cuts source.toList) ++
      [.token (.endOfInput (lineAfter 1 source.toList))]) ∧
    ∀ (source other : String) (t u : Token), t ∈ tokens source → u ∈ tokens other →
      (t.same u = true ↔ t = u) := by
  refine ⟨?_, items_eq, ?_⟩
  · intro source before piece after h
    obtain ⟨c, cs, rfl, hsource, _⟩ := cuts_split h
    exact ⟨c :: cs, hsource, cut_munched c cs⟩
  · intro source other t u ht hu
    constructor
    · intro h
      simp only [Token.same, Bool.and_eq_true, beq_iff_eq] at h
      obtain ⟨⟨_, hlexeme⟩, hline⟩ := h
      have hkind := kind_eq_of_lexeme_eq ht hu hlexeme
      obtain ⟨kind, lexeme, line⟩ := t
      obtain ⟨kind', lexeme', line'⟩ := u
      cases hkind
      cases hlexeme
      cases hline
      rfl
    · rintro rfl
      cases hkind : t.kind <;> simp [Token.same, Kind.same, hkind]

/-- A number and a point that no digit follows. -/
theorem point_munched : cuts "7.".toList = [] ++ numeral '7' ['.'] :: cuts ['.'] ∧
    ∃ left, "7.".toList = [] ++ left ∧ Munched left (numeral '7' ['.']) := by
  have hcuts : cuts "7.".toList = [] ++ numeral '7' ['.'] :: cuts ['.'] := by
    have hchars : "7.".toList = ['7', '.'] := by decide
    rw [hchars, cuts_cons, cut_digit _ (by decide)]
    rfl
  exact ⟨hcuts, scan_munches.1 "7." [] (numeral '7' ['.']) (cuts ['.']) hcuts⟩

end TreeWalk.Scan
