import TreeWalk.Grammar.Expression
import TreeWalk.Proofs.Lines.Scan
import TreeWalk.Proofs.Number.Encoding
import TreeWalk.Proofs.Token.Numerals
import TreeWalk.Tree.Text

/-!
The number of a token is shown in two places: in the value column of a token listing, and as a leaf
of the syntax tree. Both texts are numerals of the number. They are the same text, with a digit
behind a point, unless the number is whole and has sixteen digits or more: a listing shows such a
number without a point.
-/

namespace TreeWalk.Scan

open Number

/-! ## Points -/

/-- Digits with a point among them. -/
def Pointed (text : List Char) : Prop :=
  ∃ whole fraction, text = whole ++ '.' :: fraction ∧ whole ≠ [] ∧ fraction ≠ [] ∧
    ∀ c ∈ whole ++ fraction, isDigit c

theorem point_not_digit : ¬ isDigit '.' := by decide

theorem Numeral.pointed_iff {text : List Char} {v : ℚ} (h : Numeral text v) :
    Pointed text ↔ '.' ∈ text := by
  constructor
  · rintro ⟨whole, fraction, rfl, _⟩
    simp
  · intro hpoint
    cases h with
    | whole _ hdigits => exact absurd (hdigits _ hpoint) point_not_digit
    | point hwhole hleft hfraction hright =>
      exact ⟨_, _, rfl, hwhole, hfraction, List.forall_mem_append.2 ⟨hleft, hright⟩⟩

theorem point_mem_positional (d : Decimal) : '.' ∈ d.positional ↔ d.exponent < 0 := by
  have hdigits : '.' ∉ Nat.toDigits 10 d.coefficient := fun h =>
    point_not_digit (isDigit_of_mem_toDigits _ h)
  unfold Decimal.positional
  dsimp only
  split
  · next hplaces => simpa [hdigits] using (show 0 ≤ d.exponent by omega)
  · next hplaces =>
    have hexponent : d.exponent < 0 := by omega
    split <;> simp [hexponent]

/-- The text of a whole number with a zero behind the point. -/
theorem numeral_tenths (n : Nat) : Numeral (Nat.toDigits 10 n ++ ['.', '0']) n := by
  have h := Numeral.point (Nat.toDigits_ne_nil (n := n) (b := 10)) isDigit_of_mem_toDigits
    (List.cons_ne_nil '0' []) (isDigit_of_mem_zeros (n := 1))
  have hzero : Decimal.ofDigits ['0'] = 0 := rfl
  rwa [ofDigits_toDigits, hzero, Nat.cast_zero, zero_div, add_zero] at h

/-! ## The two texts -/

section

variable {x : Float} (hsign : isNegative x = false)
include hsign

theorem sign_unsigned : sign x = [] := by
  rw [sign, hsign]
  rfl

theorem inTree_whole (h : isWhole x = true) :
    inTree x = Nat.toDigits 10 (wholePart x) ++ ['.', '0'] := by
  rw [inTree, if_pos h, printed, if_pos h, sign_unsigned hsign, List.nil_append]

theorem inListing_same (h : isWhole x = true → wholePart x < 10 ^ 15) :
    inListing x = inTree x := by
  by_cases hwhole : isWhole x = true
  · have hlow : (isWhole x && decide (wholePart x < Nat.pow 10 15)) = true := by
      simpa [hwhole] using h hwhole
    rw [inListing, if_pos hlow, inTree_whole hsign hwhole, sign_unsigned hsign, ite_self,
      List.nil_append]
  · rw [inListing, inTree, if_neg hwhole, if_neg (by simp [hwhole])]

variable (hx : code x < infinityCode)
include hx

theorem shortestText_unsigned : shortestText x = (Decimal.shortest .up (code x)).positional := by
  rw [shortestText_eq hx, sign_unsigned hsign, List.nil_append]

/-- A fraction is in the shortest decimal too. -/
theorem shortestText_pointed (h : ¬ isWhole x = true) : Pointed (shortestText x) := by
  rw [shortestText_unsigned hsign hx]
  refine (numeral_positional _).pointed_iff.2 ((point_mem_positional _).2 ?_)
  exact Decimal.exponent_shortest_neg .up hx.le fun hmod => h ((isWhole_iff hx).2 hmod)

theorem inTree_shown : Denotes (inTree x) (code x) ∧ Pointed (inTree x) := by
  by_cases hwhole : isWhole x = true
  · have hnumeral := numeral_tenths (wholePart x)
    rw [inTree_whole hsign hwhole]
    exact ⟨⟨_, hnumeral, wholePart_rounds hx hwhole⟩, hnumeral.pointed_iff.2 (by simp)⟩
  · rw [inTree, if_neg hwhole]
    refine ⟨?_, shortestText_pointed hsign hx hwhole⟩
    rw [shortestText_unsigned hsign hx]
    exact shortest_denotes .up hx.le

/-- A whole number past the bound is shown by its shortest digits and zeros behind them. -/
theorem inListing_long (hwhole : isWhole x = true) (hlong : 10 ^ 15 ≤ wholePart x) :
    Denotes (inListing x) (code x) ∧ ¬ Pointed (inListing x) := by
  have hpast : ¬ (isWhole x && decide (wholePart x < Nat.pow 10 15)) = true := by
    simpa [hwhole] using hlong
  have hpos : 0 < code x := by
    apply Nat.pos_of_ne_zero
    intro hzero
    have hnone : wholePart x = 0 := by rw [wholePart, hzero, units_small (by decide), Nat.zero_div]
    rw [hnone] at hlong
    exact absurd hlong (by decide)
  have hexponent := Decimal.exponent_shortest_nonneg .up hx.le hpos ((isWhole_iff hx).1 hwhole)
  rw [inListing, if_neg hpast, shortestText_unsigned hsign hx]
  refine ⟨shortest_denotes .up hx.le, fun hpointed => ?_⟩
  have hpoint := (numeral_positional _).pointed_iff.1 hpointed
  exact absurd ((point_mem_positional _).1 hpoint) (Int.not_lt.2 hexponent)

end

/-! ## Number tokens -/

theorem column_eq {t : Token} {x : Float} (hkind : t.kind = .number x) :
    t.kind.literal.toList = inListing x := by
  rw [hkind]
  exact String.toList_ofList

theorem leaf_text_eq (x : Float) : (Expr.literal (.number x)).text.toList = inTree x :=
  String.toList_ofList

theorem unsigned_of_mem_tokens {source : String} {t : Token} (ht : t ∈ tokens source) {x : Float}
    (hkind : t.kind = .number x) : isNegative x = false := by
  rcases rule_of_mem_tokens ht with hrule | ⟨line, rfl⟩
  · rw [hkind] at hrule
    generalize t.lexeme.toList = text at hrule
    cases hrule with
    | number _ hrounds => exact isNegative_ofCode false hrounds.bounded
  · cases hkind

/-- The digits of a whole number are a source of its token. -/
theorem exists_whole_token {k : Nat} (hk : k ≤ 2 ^ 52) : ∃ t ∈ tokens (Nat.repr k), ∃ x,
    t.kind = .number x ∧ code x < infinityCode ∧ isWhole x = true ∧ wholePart x = k := by
  obtain ⟨c, hc, hmagnitude⟩ := exists_magnitude_eq hk
  have hcode : code (ofCode false c) = c := code_ofCode false hc.le
  have hunits := magnitude_eq_iff.1 hmagnitude
  have hdenotes : Denotes (Nat.toDigits 10 k) c :=
    ⟨k, numeral_toDigits k, hmagnitude ▸ magnitude_rounds hc.le⟩
  have hone : 0 < unitsPerOne := by exact_mod_cast unitsPerOne_pos
  have hfinite : code (ofCode false c) < infinityCode := hcode.symm ▸ hc
  have htokens : ∃ line, ⟨.number (ofCode false c), Nat.repr k, line⟩ ∈ tokens (Nat.repr k) := by
    rw [tokens_eq, Nat.repr, String.toList_ofList, written, listed_numeral hdenotes]
    exact ⟨_, List.mem_append_left _ (List.mem_singleton_self _)⟩
  obtain ⟨line, ht⟩ := htokens
  refine ⟨_, ht, _, rfl, hfinite, ?_, ?_⟩
  · rw [isWhole_iff hfinite, hcode, hunits, Nat.mul_mod_left]
  · rw [wholePart, hcode, hunits, Nat.mul_div_cancel _ hone]

end TreeWalk.Scan

namespace TreeWalk

open Number Scan

/-- Wherever a number token comes from, the value column of its listing and the text of the literal
that is parsed from it are numerals of its number. The literal always has a point; the column has
one, and is the same text, exactly if the number has a fraction or is below `10 ^ 15`. -/
theorem number_shown_alike_iff {source : String} {t : Token} (ht : t ∈ tokens source) {x : Float}
    (hkind : t.kind = .number x) (hfinite : x.isFinite = true) :
    t.text = s!"NUMBER {t.lexeme} {t.kind.literal}" ∧ Denotes t.kind.literal.toList (code x) ∧
    ∃ leaf, Grammar.literal? t = some leaf ∧
      Denotes (Expr.literal leaf).text.toList (code x) ∧ Pointed (Expr.literal leaf).text.toList ∧
      (Pointed t.kind.literal.toList ↔ (isWhole x = true → wholePart x < 10 ^ 15)) ∧
      (t.kind.literal = (Expr.literal leaf).text ↔
        (isWhole x = true → wholePart x < 10 ^ 15)) := by
  have hx := (isFinite_iff x).1 hfinite
  have hsign := unsigned_of_mem_tokens ht hkind
  have hleaf := leaf_text_eq x
  have hliteral : Grammar.literal? t = some (.number x) := by rw [Grammar.literal?, hkind]
  obtain ⟨hdenotes, hpointed⟩ := inTree_shown hsign hx
  refine ⟨by rw [Token.text, hkind]; rfl, ?_⟩
  rw [column_eq hkind]
  by_cases hlow : isWhole x = true → wholePart x < 10 ^ 15
  · have hsame := inListing_same hsign hlow
    rw [hsame]
    refine ⟨hdenotes, .number x, hliteral, hleaf ▸ hdenotes, hleaf ▸ hpointed,
      iff_of_true hpointed hlow, iff_of_true ?_ hlow⟩
    rw [← String.toList_inj, column_eq hkind, hleaf, hsame]
  · have hlong := hlow
    rw [Classical.not_imp, Nat.not_lt] at hlong
    obtain ⟨hcolumnDenotes, hbare⟩ := inListing_long hsign hx hlong.1 hlong.2
    refine ⟨hcolumnDenotes, .number x, hliteral, hleaf ▸ hdenotes, hleaf ▸ hpointed,
      iff_of_false hbare hlow, iff_of_false ?_ hlow⟩
    intro hsame
    rw [← String.toList_inj, column_eq hkind, hleaf] at hsame
    exact hbare (hsame ▸ hpointed)

/-- A small number is shown alike in both places, with a point. -/
theorem three_shown_alike : ∃ t ∈ tokens "3", Pointed t.kind.literal.toList ∧
    ∃ leaf, Grammar.literal? t = some leaf ∧ t.kind.literal = (Expr.literal leaf).text := by
  obtain ⟨t, ht, x, hkind, hcode, _, hpart⟩ := exists_whole_token (k := 3) (by decide)
  obtain ⟨_, _, leaf, hleaf, _, _, hpoint, hsame⟩ :=
    number_shown_alike_iff ht hkind ((isFinite_iff x).2 hcode)
  have hlow : isWhole x = true → wholePart x < 10 ^ 15 := fun _ => hpart ▸ by decide
  exact ⟨t, ht, hpoint.2 hlow, leaf, hleaf, hsame.2 hlow⟩

/-- The first number of sixteen digits is finite, but its column has no point, and it is shown
otherwise in the tree. -/
theorem quadrillion_shown_otherwise : ∃ t ∈ tokens "1000000000000000", ∃ x,
    t.kind = .number x ∧ x.isFinite = true ∧ ¬ Pointed t.kind.literal.toList ∧
      ∀ leaf, Grammar.literal? t = some leaf → t.kind.literal ≠ (Expr.literal leaf).text := by
  obtain ⟨t, ht, x, hkind, hcode, hwhole, hpart⟩ := exists_whole_token (k := 10 ^ 15) (by decide)
  have hsign := unsigned_of_mem_tokens ht hkind
  obtain ⟨_, hbare⟩ := inListing_long hsign hcode hwhole hpart.ge
  rw [← column_eq hkind] at hbare
  refine ⟨t, ht, x, hkind, (isFinite_iff x).2 hcode, hbare, fun leaf hleaf hsame => ?_⟩
  rw [Grammar.literal?, hkind] at hleaf
  cases hleaf
  rw [hsame, leaf_text_eq] at hbare
  exact hbare (inTree_shown hsign hcode).2

end TreeWalk
