import Mathlib.Algebra.Order.Field.Basic
import Mathlib.Algebra.Order.Ring.Rat
import Mathlib.Order.Monotone.Basic
import Mathlib.Tactic.FieldSimp
import Mathlib.Tactic.Linarith
import Mathlib.Tactic.Positivity
import Mathlib.Tactic.Ring
import TreeWalk.Number.Decimal

/-!
Which code a decimal reads as. Rounding is to the nearest magnitude, with ties to the even code;
infinity counts as the magnitude that the next exponent would begin with. Everything is compared
as whole numbers first: a code is off from `n / d` units by a whole number of `d`-th units.
-/

namespace TreeWalk.Number

/-- How far `k` is from `n / d`, counted in `d`-ths. -/
def off (n d k : Nat) : Nat := (k * d - n) + (n - k * d)

/-! ## The nearest whole number -/

section

variable (n : Nat) {d : Nat} (hd : 0 < d) (k : Nat)
include hd

/-- Only the whole numbers next to `n / d` are less than one off. -/
theorem off_cases :
    k < n / d ∧ d + n % d ≤ off n d k ∨ k = n / d ∧ off n d k = n % d ∨
      k = n / d + 1 ∧ off n d k = d - n % d ∨ n / d + 1 < k ∧ d + (d - n % d) ≤ off n d k := by
  have hn := Nat.div_add_mod' n d
  have hr := Nat.mod_lt n hd
  unfold off
  rcases Nat.lt_trichotomy k (n / d) with hk | rfl | hk
  · have hbelow := Nat.mul_le_mul_right d (Nat.succ_le_of_lt hk)
    rw [Nat.succ_mul] at hbelow
    omega
  · omega
  · rcases Nat.eq_or_lt_of_le (Nat.succ_le_of_lt hk) with rfl | hk
    · rw [Nat.succ_mul]
      omega
    · have habove := Nat.mul_le_mul_right d (Nat.succ_le_of_lt hk)
      rw [Nat.succ_mul, Nat.succ_mul] at habove
      omega

theorem off_nearest_le : off n d (nearest n d) ≤ off n d k := by
  have hr := Nat.mod_lt n hd
  have hk := off_cases n hd k
  have hnearest := off_cases n hd (nearest n d)
  unfold nearest at hnearest ⊢
  dsimp only at hnearest ⊢
  split <;> rename_i h <;> simp only [h, if_true, if_false] at hnearest <;> omega

theorem nearest_even_of_off_eq (hk : k ≠ nearest n d) (h : off n d k = off n d (nearest n d)) :
    nearest n d % 2 = 0 := by
  have hr := Nat.mod_lt n hd
  have hcases := off_cases n hd k
  have hnearest := off_cases n hd (nearest n d)
  unfold nearest at hk h hnearest ⊢
  dsimp only at hk h hnearest ⊢
  split <;> rename_i hbelow <;> simp only [hbelow, if_true, if_false] at hk h hnearest <;> omega

end

/-! ## Magnitudes -/

/-- The codes of one exponent begin every `2 ^ 52` codes. -/
theorem units_eq (exponent : Nat) {significand : Nat} (h : significand < 2 ^ 52) :
    units ((exponent + 1) * 2 ^ 52 + significand) = (2 ^ 52 + significand) * 2 ^ exponent := by
  have hdiv : ((exponent + 1) * 2 ^ 52 + significand) / 2 ^ 52 = exponent + 1 := by omega
  have hmod : ((exponent + 1) * 2 ^ 52 + significand) % 2 ^ 52 = significand := by omega
  have hlarge : ¬ (exponent + 1) * 2 ^ 52 + significand < 2 ^ 52 := by omega
  simp only [units, Nat.pow_eq, hlarge, if_false, hdiv, hmod, Nat.add_sub_cancel]

theorem units_small {code : Nat} (h : code < 2 ^ 52) : units code = code := by
  simp only [units, Nat.pow_eq, h, if_true]

/-- A code is a small one, or has an exponent and a significand. -/
theorem code_cases (code : Nat) : code < 2 ^ 52 ∨
    ∃ exponent significand, significand < 2 ^ 52 ∧
      code = (exponent + 1) * 2 ^ 52 + significand := by
  rcases Nat.lt_or_ge code (2 ^ 52) with h | h
  · exact .inl h
  · exact .inr ⟨code / 2 ^ 52 - 1, code % 2 ^ 52, by omega, by omega⟩

theorem units_strictMono : StrictMono units := by
  apply strictMono_nat_of_lt_succ
  intro code
  rcases code_cases code with h | ⟨exponent, significand, h, rfl⟩
  · rw [units_small h]
    rcases Nat.lt_or_ge (code + 1) (2 ^ 52) with hnext | hnext
    · rw [units_small hnext]
      exact Nat.lt_succ_self code
    · obtain rfl : code = 2 ^ 52 - 1 := by omega
      have hzero : 0 < 2 ^ 52 := by decide
      have hunits := units_eq 0 hzero
      simp only [Nat.zero_add, Nat.one_mul, Nat.add_zero, Nat.pow_zero, Nat.mul_one] at hunits
      rw [show 2 ^ 52 - 1 + 1 = 2 ^ 52 from rfl, hunits]
      decide
  · rw [units_eq exponent h]
    rcases Nat.lt_or_ge (significand + 1) (2 ^ 52) with hnext | hnext
    · rw [Nat.add_assoc, units_eq exponent hnext, ← Nat.add_assoc]
      exact Nat.mul_lt_mul_of_pos_right (Nat.lt_succ_self _) (Nat.two_pow_pos exponent)
    · have hcode : (exponent + 1) * 2 ^ 52 + significand + 1 = (exponent + 1 + 1) * 2 ^ 52 + 0 := by
        omega
      rw [hcode, units_eq (exponent + 1) (by decide), Nat.pow_succ 2 exponent]
      have hpos := Nat.two_pow_pos exponent
      nlinarith

/-! ## The nearest code -/

theorem off_mul_pow (n d k s : Nat) : off n d (k * 2 ^ s) = off n (d * 2 ^ s) k := by
  rw [off, off, Nat.mul_assoc, Nat.mul_comm (2 ^ s) d]

theorem nearest_bounds (n d : Nat) : n / d ≤ nearest n d ∧ nearest n d ≤ n / d + 1 := by
  unfold nearest
  dsimp only
  split <;> omega

/-- The magnitude of a code by its distance to the codes of exponent `shift`. -/
theorem units_grid (shift : Nat) {m : Nat} (hlow : shift = 0 ∨ 2 ^ 52 ≤ m) (hhigh : m ≤ 2 ^ 53) :
    units (shift * 2 ^ 52 + m) = m * 2 ^ shift := by
  rcases Nat.lt_or_ge m (2 ^ 52) with hm | hm
  · obtain rfl : shift = 0 := by omega
    simpa using units_small hm
  · rcases Nat.lt_or_ge m (2 ^ 53) with hm' | hm'
    · have hcode : shift * 2 ^ 52 + m = (shift + 1) * 2 ^ 52 + (m - 2 ^ 52) := by omega
      rw [hcode, units_eq shift (by omega), Nat.add_sub_cancel' hm]
    · obtain rfl : m = 2 ^ 53 := by omega
      have hcode : shift * 2 ^ 52 + 2 ^ 53 = (shift + 1 + 1) * 2 ^ 52 + 0 := by omega
      rw [hcode, units_eq (shift + 1) (by decide), Nat.pow_succ 2 shift]
      omega

/-- A magnitude is a multiple of `2 ^ shift`, unless it is below all that begin with a bit of at
least that weight. -/
theorem units_multiple (shift code : Nat) :
    (∃ k, units code = k * 2 ^ shift) ∨ 0 < shift ∧ units code < 2 ^ 52 * 2 ^ shift := by
  have hpos := Nat.two_pow_pos shift
  rcases Nat.eq_zero_or_pos shift with rfl | hshift
  · exact .inl ⟨units code, by simp⟩
  rcases code_cases code with h | ⟨exponent, significand, h, rfl⟩
  · rw [units_small h]
    exact .inr ⟨hshift, by nlinarith⟩
  · rw [units_eq exponent h]
    rcases Nat.lt_or_ge exponent shift with hlt | hge
    · right
      refine ⟨hshift, ?_⟩
      calc (2 ^ 52 + significand) * 2 ^ exponent
          < 2 ^ 53 * 2 ^ exponent :=
            Nat.mul_lt_mul_of_pos_right (by omega) (Nat.two_pow_pos exponent)
        _ = 2 ^ 52 * 2 ^ (exponent + 1) := by ring
        _ ≤ 2 ^ 52 * 2 ^ shift :=
            Nat.mul_le_mul_left _ (Nat.pow_le_pow_right (by decide) hlt)
    · left
      obtain ⟨more, rfl⟩ := Nat.exists_eq_add_of_le hge
      exact ⟨(2 ^ 52 + significand) * 2 ^ more, by rw [Nat.pow_add]; ring⟩

/-- The code nearest to `n / d` units if there were no greatest exponent. -/
def nearestUnbounded (n d : Nat) : Nat :=
  let shift := (n / d).log2 - 52
  shift * 2 ^ 52 + nearest n (d * 2 ^ shift)

theorem nearestCode_eq (n d : Nat) :
    nearestCode n d = min infinityCode (nearestUnbounded n d) := rfl

/-- What `nearestUnbounded` looks for: a whole number of steps of `2 ^ shift` units. -/
theorem nearestUnbounded_spec (n : Nat) {d : Nat} (hd : 0 < d) :
    ∃ shift m, nearestUnbounded n d = shift * 2 ^ 52 + m ∧ m = nearest n (d * 2 ^ shift) ∧
      units (nearestUnbounded n d) = m * 2 ^ shift ∧
      (0 < shift → 2 ^ 52 * 2 ^ shift * d ≤ n) := by
  obtain ⟨shift, hshift⟩ : ∃ shift, shift = (n / d).log2 - 52 := ⟨_, rfl⟩
  have hcode : nearestUnbounded n d = shift * 2 ^ 52 + nearest n (d * 2 ^ shift) := by
    rw [hshift]
    rfl
  have hdiv : n / (d * 2 ^ shift) = n / d / 2 ^ shift := (Nat.div_div_eq_div_mul _ _ _).symm
  have hbounds := nearest_bounds n (d * 2 ^ shift)
  have hhigh : n / d < 2 ^ 53 * 2 ^ shift := by
    calc n / d < 2 ^ ((n / d).log2 + 1) := Nat.lt_log2_self
      _ ≤ 2 ^ (53 + shift) := Nat.pow_le_pow_right (by decide) (by omega)
      _ = 2 ^ 53 * 2 ^ shift := Nat.pow_add 2 53 shift
  have hlow : 0 < shift → 2 ^ 52 * 2 ^ shift ≤ n / d := by
    intro hpos
    have hne : n / d ≠ 0 := by
      intro h
      simp [hshift, h] at hpos
    calc 2 ^ 52 * 2 ^ shift = 2 ^ (n / d).log2 := by
          rw [← Nat.pow_add]
          congr 1
          omega
      _ ≤ n / d := Nat.log2_self_le hne
  have hhigh' := (Nat.div_lt_iff_lt_mul (Nat.two_pow_pos shift)).2 hhigh
  refine ⟨shift, _, hcode, rfl, hcode ▸ units_grid shift ?_ (by omega), ?_⟩
  · rcases Nat.eq_zero_or_pos shift with h | h
    · exact .inl h
    · have := (Nat.le_div_iff_mul_le (Nat.two_pow_pos shift)).2 (hlow h)
      right
      omega
  · intro h
    exact (Nat.le_div_iff_mul_le hd).1 (hlow h)

theorem off_nearestUnbounded (n : Nat) {d : Nat} (hd : 0 < d) (code : Nat) :
    off n d (units (nearestUnbounded n d)) ≤ off n d (units code) ∧
      (code ≠ nearestUnbounded n d →
        off n d (units code) = off n d (units (nearestUnbounded n d)) →
          nearestUnbounded n d % 2 = 0) := by
  obtain ⟨shift, m, hcode, hm, hunits, hlow⟩ := nearestUnbounded_spec n hd
  have hstep : 0 < d * 2 ^ shift := Nat.mul_pos hd (Nat.two_pow_pos shift)
  have hinjective : ∀ k, units code = k * 2 ^ shift → code ≠ nearestUnbounded n d → k ≠ m := by
    rintro k hk hne rfl
    exact hne (units_strictMono.injective (hk.trans hunits.symm))
  rw [hunits, off_mul_pow]
  rcases units_multiple shift code with ⟨k, hk⟩ | ⟨hshift, hsmall⟩
  · have hle := off_nearest_le n hstep k
    rw [← hm] at hle
    rw [hk, off_mul_pow]
    refine ⟨hle, fun hne heq => ?_⟩
    have heven := nearest_even_of_off_eq n hstep k (hm ▸ hinjective k hk hne) (hm ▸ heq)
    rw [← hm] at heven
    omega
  · -- A smaller magnitude is below the first multiple, which is below `n / d`.
    have hfirst := off_nearest_le n hstep (2 ^ 52)
    have hn := hlow hshift
    have hbelow := Nat.mul_lt_mul_of_pos_right hsmall hd
    rw [← hm, ← off_mul_pow n d (2 ^ 52)] at hfirst
    have hlt : off n d (2 ^ 52 * 2 ^ shift) < off n d (units code) := by
      unfold off
      omega
    exact ⟨by omega, fun _ heq => by omega⟩

/-! ## Rounding of rationals -/

/-- The magnitude of a code; that of infinity is where the next exponent would begin. -/
def magnitude (code : Nat) : ℚ := units code / unitsPerOne

/-- Rounding to the nearest code, a half to the even one. -/
structure RoundsTo (x : ℚ) (code : Nat) : Prop where
  bounded : code ≤ infinityCode
  nearest : ∀ other ≤ infinityCode, |magnitude code - x| ≤ |magnitude other - x|
  even : ∀ other ≤ infinityCode, other ≠ code → |magnitude other - x| = |magnitude code - x| →
    code % 2 = 0

theorem unitsPerOne_pos : (0 : ℚ) < unitsPerOne := by
  rw [Nat.cast_pos]
  unfold unitsPerOne
  generalize 1074 = k
  exact Nat.two_pow_pos k

theorem magnitude_strictMono : StrictMono magnitude := by
  intro a b h
  have hunits : (units a : ℚ) < units b := Nat.cast_lt.2 (units_strictMono h)
  exact div_lt_div_of_pos_right hunits unitsPerOne_pos

/-- Two codes equally near have no code between them, so that one of them is odd. -/
theorem RoundsTo.unique {x : ℚ} {a b : Nat} (ha : RoundsTo x a) (hb : RoundsTo x b) : a = b := by
  by_contra hne
  have heq : |magnitude b - x| = |magnitude a - x| :=
    le_antisymm (hb.nearest a ha.bounded) (ha.nearest b hb.bounded)
  have hevenA := ha.even b hb.bounded (Ne.symm hne) heq
  have hevenB := hb.even a ha.bounded hne heq.symm
  have hbetween : ∀ {p q : Nat}, RoundsTo x p → RoundsTo x q → p < q →
      |magnitude q - x| = |magnitude p - x| → q ≤ p + 1 := by
    intro p q hp hq hlt heq
    by_contra hgap
    have hnearer := hp.nearest (p + 1) (by have := hq.bounded; omega)
    have hlow := magnitude_strictMono (Nat.lt_succ_self p)
    have hhigh := magnitude_strictMono (show p + 1 < q by omega)
    rcases abs_cases (magnitude p - x) with hp | hp <;>
      rcases abs_cases (magnitude q - x) with hq | hq <;>
      rcases abs_cases (magnitude (p + 1) - x) with hm | hm <;> linarith
  rcases Nat.lt_or_gt_of_ne hne with hlt | hlt
  · have := hbetween ha hb hlt heq
    omega
  · have := hbetween hb ha hlt heq.symm
    omega

theorem abs_magnitude_sub (n : Nat) {d : Nat} (hd : 0 < d) (code : Nat) :
    |magnitude code - n / (d * unitsPerOne)| = off n d (units code) / (d * unitsPerOne) := by
  have hd' : (0 : ℚ) < d := Nat.cast_pos.2 hd
  have hone := unitsPerOne_pos
  have hoff : (off n d (units code) : ℚ) = |(units code : ℚ) * d - n| := by
    unfold off
    rcases Nat.le_total (units code * d) n with h | h
    · have h' : (units code : ℚ) * d ≤ n := by exact_mod_cast h
      rw [Nat.sub_eq_zero_of_le h, Nat.zero_add, Nat.cast_sub h, Nat.cast_mul,
        abs_of_nonpos (sub_nonpos.2 h'), neg_sub]
    · have h' : (n : ℚ) ≤ units code * d := by exact_mod_cast h
      rw [Nat.sub_eq_zero_of_le h, Nat.add_zero, Nat.cast_sub h, Nat.cast_mul,
        abs_of_nonneg (sub_nonneg.2 h')]
  have hsub : magnitude code - n / (d * unitsPerOne) =
      ((units code : ℚ) * d - n) / (d * unitsPerOne) := by
    unfold magnitude
    field_simp
  rw [hsub, abs_div, hoff, abs_of_pos (mul_pos hd' hone)]

theorem nearestCode_off (n : Nat) {d : Nat} (hd : 0 < d) {other : Nat}
    (hother : other ≤ infinityCode) :
    off n d (units (nearestCode n d)) ≤ off n d (units other) ∧
      (other ≠ nearestCode n d → off n d (units other) = off n d (units (nearestCode n d)) →
        nearestCode n d % 2 = 0) := by
  have hfree := off_nearestUnbounded n hd other
  rw [nearestCode_eq]
  rcases Nat.le_total (nearestUnbounded n d) infinityCode with h | h
  · rwa [Nat.min_eq_right h]
  · -- What is nearest beyond infinity lies farther out than it.
    rw [Nat.min_eq_left h]
    have heven : infinityCode % 2 = 0 := by decide
    refine ⟨?_, fun _ _ => heven⟩
    have hmono := Nat.mul_le_mul_right d (units_strictMono.monotone hother)
    have hbeyond := Nat.mul_le_mul_right d (units_strictMono.monotone h)
    have hnear := hfree.1
    unfold off at hnear ⊢
    omega

theorem nearestCode_rounds (n : Nat) {d : Nat} (hd : 0 < d) :
    RoundsTo (n / (d * unitsPerOne)) (nearestCode n d) := by
  have hscale : (0 : ℚ) < d * unitsPerOne := mul_pos (Nat.cast_pos.2 hd) unitsPerOne_pos
  refine ⟨by rw [nearestCode_eq]; exact Nat.min_le_left _ _, ?_, ?_⟩
  · intro other hother
    rw [abs_magnitude_sub n hd, abs_magnitude_sub n hd, div_le_div_iff_of_pos_right hscale]
    exact Nat.cast_le.2 (nearestCode_off n hd hother).1
  · intro other hother hne h
    rw [abs_magnitude_sub n hd, abs_magnitude_sub n hd, div_left_inj' hscale.ne'] at h
    exact (nearestCode_off n hd hother).2 hne (Nat.cast_injective h)

/-! ## Decimals -/

namespace Decimal

/-- The number that a decimal writes. -/
def value (d : Decimal) : ℚ := d.coefficient * 10 ^ d.exponent

/-- A decimal reads as the code nearest to its value. -/
theorem code_rounds (d : Decimal) : RoundsTo d.value d.code := by
  have hone := unitsPerOne_pos.ne'
  have hpow : ∀ k, 0 < Nat.pow 10 k := fun k => Nat.pow_pos (by decide)
  have hvalue : d.value = ((d.coefficient * Nat.pow 10 d.exponent.toNat * unitsPerOne : Nat) : ℚ) /
      ((Nat.pow 10 (-d.exponent).toNat : Nat) * unitsPerOne) := by
    rw [value, Nat.cast_mul, mul_div_mul_right _ _ hone]
    obtain ⟨k, h | h⟩ := d.exponent.eq_nat_or_neg <;> rw [h]
    · simp
    · simp [div_eq_mul_inv]
  rw [hvalue]
  exact nearestCode_rounds _ (hpow _)

theorem ofDigits_append (whole fraction : List Char) :
    ofDigits (whole ++ fraction) = ofDigits whole * 10 ^ fraction.length + ofDigits fraction := by
  have hfrom : ∀ (digits : List Char) (n : Nat),
      digits.foldl (fun n c => 10 * n + (c.toNat - '0'.toNat)) n =
        n * 10 ^ digits.length + ofDigits digits := by
    intro digits
    induction digits with
    | nil => simp [ofDigits]
    | cons c digits ih =>
      intro n
      rw [ofDigits, List.foldl_cons, List.foldl_cons, ih, ih, List.length_cons]
      ring
  rw [ofDigits, List.foldl_append]
  exact hfrom fraction (ofDigits whole)

end Decimal

end TreeWalk.Number
