import TreeWalk.Number.Text
import TreeWalk.Proofs.Number.Shortest
import TreeWalk.Proofs.Token.Rendering

/-!
The texts of numbers are numerals. What is printed of a finite number is a sign and a numeral that
the scan reads as the number's code: its digits if the number is whole, and otherwise the shortest
decimal, in which a digit stands behind the point.
-/

namespace TreeWalk.Scan

open Number

/-! ## Digits -/

theorem isDigit_of_mem_toDigits {n : Nat} : ∀ c ∈ Nat.toDigits 10 n, isDigit c := by
  intro c hc
  have hdigit := Nat.isDigit_of_mem_toDigits (by decide) (Nat.le_refl 10) hc
  simp only [Char.isDigit, Bool.and_eq_true, decide_eq_true_eq] at hdigit
  simp only [isDigit, Bool.and_eq_true, decide_eq_true_eq]
  exact hdigit

theorem isDigit_of_mem_zeros {n : Nat} : ∀ c ∈ List.replicate n '0', isDigit c := by
  intro c hc
  rw [List.eq_of_mem_replicate hc]
  decide

theorem ofDigits_eq (digits : List Char) :
    Decimal.ofDigits digits = Nat.ofDigitChars 10 digits 0 := Nat.ofDigitChars_eq_foldl.symm

theorem ofDigits_toDigits (n : Nat) : Decimal.ofDigits (Nat.toDigits 10 n) = n := by
  rw [ofDigits_eq, Nat.ofDigitChars_ten_toDigits]

theorem ofDigits_zeros (n : Nat) : Decimal.ofDigits (List.replicate n '0') = 0 := by
  rw [ofDigits_eq, Nat.ofDigitChars_replicate_zero, Nat.mul_zero]

theorem numeral_toDigits (n : Nat) : Numeral (Nat.toDigits 10 n) n := by
  have h := Numeral.whole Nat.toDigits_ne_nil (isDigit_of_mem_toDigits (n := n))
  rwa [ofDigits_toDigits] at h

/-! ## Decimals -/

/-- Digits with some of them behind the point. -/
theorem numeral_point {whole fraction : List Char} {n : Nat} (hwhole : whole ≠ [])
    (hfraction : fraction ≠ []) (hdigits : ∀ c ∈ whole ++ fraction, isDigit c)
    (hn : Decimal.ofDigits (whole ++ fraction) = n) :
    Numeral (whole ++ '.' :: fraction) (n * 10 ^ (-(fraction.length : Int))) := by
  obtain ⟨hleft, hright⟩ := List.forall_mem_append.1 hdigits
  have hnumeral := Numeral.point hwhole hleft hfraction hright
  have hvalue : (n : ℚ) * 10 ^ (-(fraction.length : Int)) =
      Decimal.ofDigits whole + Decimal.ofDigits fraction / 10 ^ fraction.length := by
    rw [← hn, Decimal.ofDigits_append, zpow_neg, zpow_natCast]
    push_cast
    field_simp
  rwa [hvalue]

/-- The positional text of a decimal writes its value. -/
theorem numeral_positional (d : Decimal) : Numeral d.positional d.value := by
  obtain ⟨coefficient, exponent⟩ := d
  unfold Decimal.positional Decimal.value
  dsimp only
  have hdigits := isDigit_of_mem_toDigits (n := coefficient)
  have hcoefficient := ofDigits_toDigits coefficient
  have hpos : 0 < (Nat.toDigits 10 coefficient).length := Nat.length_toDigits_pos
  generalize Nat.toDigits 10 coefficient = digits at hdigits hcoefficient hpos ⊢
  have hne : digits ≠ [] := List.length_pos_iff.1 hpos
  split
  · next hplaces =>
    obtain ⟨k, rfl⟩ := Int.eq_ofNat_of_zero_le (show 0 ≤ exponent by omega)
    have hall : ∀ c ∈ digits ++ List.replicate k '0', isDigit c :=
      List.forall_mem_append.2 ⟨hdigits, isDigit_of_mem_zeros⟩
    have hnumeral := Numeral.whole (List.append_ne_nil_of_left_ne_nil hne _) hall
    rw [Decimal.ofDigits_append, ofDigits_zeros, hcoefficient, List.length_replicate] at hnumeral
    rw [zpow_natCast]
    exact_mod_cast hnumeral
  · next hplaces =>
    obtain ⟨k, rfl⟩ : ∃ k : Nat, exponent = -(k : Int) := ⟨(-exponent).toNat, by omega⟩
    rw [neg_neg, Int.toNat_natCast] at hplaces ⊢
    split
    · next hinside =>
      -- The last `k` digits stand behind the point.
      have hlength : (digits.drop (digits.length - k)).length = k := by
        rw [List.length_drop]
        omega
      have hsplit := List.take_append_drop (digits.length - k) digits
      have hwhole : digits.take (digits.length - k) ≠ [] := by
        apply List.ne_nil_of_length_pos
        rw [List.length_take]
        omega
      have hfraction : digits.drop (digits.length - k) ≠ [] := by
        apply List.ne_nil_of_length_pos
        rw [hlength]
        omega
      have hnumeral := numeral_point (n := coefficient) hwhole hfraction (by rwa [hsplit])
        (by rwa [hsplit])
      rwa [hlength] at hnumeral
    · next hinside =>
      have hlength : (List.replicate (k - digits.length) '0' ++ digits).length = k := by
        rw [List.length_append, List.length_replicate]
        omega
      have hzeros : ['0'] ++ (List.replicate (k - digits.length) '0' ++ digits) =
          List.replicate (k - digits.length + 1) '0' ++ digits := rfl
      have hall : ∀ c ∈ ['0'] ++ (List.replicate (k - digits.length) '0' ++ digits), isDigit c := by
        rw [hzeros]
        exact List.forall_mem_append.2 ⟨isDigit_of_mem_zeros, hdigits⟩
      have hsum : Decimal.ofDigits (['0'] ++ (List.replicate (k - digits.length) '0' ++ digits)) =
          coefficient := by
        rw [hzeros, Decimal.ofDigits_append, ofDigits_zeros, hcoefficient, Nat.zero_mul,
          Nat.zero_add]
      have hnumeral := numeral_point (List.cons_ne_nil '0' []) (by simp [hne]) hall hsum
      rwa [hlength] at hnumeral

/-! ## Finite numbers -/

/-- `text` is a numeral that is read as `code`. -/
def Denotes (text : List Char) (code : Nat) : Prop := ∃ v, Numeral text v ∧ RoundsTo v code

theorem shortest_denotes (tie : Tie) {c : Nat} (hc : c ≤ infinityCode) :
    Denotes (Decimal.shortest tie c).positional c := by
  have hrounds := Decimal.code_rounds (Decimal.shortest tie c)
  rw [Decimal.code_shortest tie hc] at hrounds
  exact ⟨_, numeral_positional _, hrounds⟩

section

variable {x : Float} (hx : code x < infinityCode)
include hx

theorem isWhole_iff : isWhole x = true ↔ units (code x) % unitsPerOne = 0 := by
  simp [isWhole, hx]

/-- The digits of a whole number write its magnitude. -/
theorem magnitude_of_isWhole (h : isWhole x = true) : magnitude (code x) = wholePart x := by
  rw [magnitude_eq_iff, wholePart]
  exact (Nat.div_mul_cancel (Nat.dvd_of_mod_eq_zero ((isWhole_iff hx).1 h))).symm

theorem shortestText_eq :
    shortestText x = sign x ++ (Decimal.shortest .up (code x)).positional :=
  if_neg (Nat.not_le.2 hx)

theorem wholePart_rounds (h : isWhole x = true) : RoundsTo (wholePart x) (code x) := by
  rw [← magnitude_of_isWhole hx h]
  exact magnitude_rounds hx.le

/-- Behind its sign, a printed number is a numeral that is read as the number's code. -/
theorem printed_denotes : ∃ text, printed x = sign x ++ text ∧ Denotes text (code x) := by
  by_cases hwhole : isWhole x = true
  · exact ⟨_, if_pos hwhole, _, numeral_toDigits _, wholePart_rounds hx hwhole⟩
  · exact ⟨_, (if_neg hwhole).trans (shortestText_eq hx), shortest_denotes .up hx.le⟩

end

/-! ## Their tokens -/

/-- A minus sign is a token of its own, whatever stands behind it. -/
theorem listed_minus (line : Nat) (cs : List Char) : listed line (cuts ('-' :: cs)) =
    .token ⟨.symbol .minus, "-", line⟩ :: listed line (cuts cs) := by
  rw [cuts_cons]
  rfl

theorem listed_numeral {text : List Char} {c : Nat} (htext : Denotes text c) (line : Nat) :
    listed line (cuts text) =
      [.token ⟨.number (ofCode false c), String.ofList text, lineAfter line text⟩] := by
  obtain ⟨v, h, hc⟩ := htext
  have hlisted := listed_lexeme (.number h hc) apart_nil line
  rwa [List.append_nil, cuts_nil] at hlisted

/-- The items of the text of a finite number: its sign and its magnitude. -/
theorem listed_printed {x : Float} (hx : code x < infinityCode) : ∃ lexeme line,
    listed 1 (cuts (printed x)) =
      (if isNegative x then [.token ⟨.symbol .minus, "-", 1⟩] else []) ++
        [.token ⟨.number (ofCode false (code x)), lexeme, line⟩] := by
  obtain ⟨text, htext, hdenotes⟩ := printed_denotes hx
  refine ⟨String.ofList text, lineAfter 1 text, ?_⟩
  rw [htext, sign]
  cases isNegative x with
  | true =>
    change listed 1 (cuts ('-' :: text)) = _
    rw [listed_minus, listed_numeral hdenotes]
    rfl
  | false => exact listed_numeral hdenotes 1

end TreeWalk.Scan
