import Mathlib.Data.Rat.Floor
import TreeWalk.Proofs.Number.Rounding

/-!
Decimals that read back. A magnitude rounds to its own code, so that a decimal which writes it out
is read as the code it was made from; so is the shortest decimal for a code, as it is chosen among
those that are. That one has a fraction if the magnitude has, as whole decimals are read as whole
magnitudes; and none if the magnitude has none, as the first of its digits are enough.
-/

namespace TreeWalk.Number

theorem magnitude_rounds {c : Nat} (hc : c ≤ infinityCode) : RoundsTo (magnitude c) c where
  bounded := hc
  nearest := by
    intro other _
    rw [sub_self, abs_zero]
    exact abs_nonneg _
  even := by
    intro other _ hne h
    rw [sub_self, abs_zero, abs_eq_zero, sub_eq_zero] at h
    exact absurd (magnitude_strictMono.injective h) hne

/-! ## Whole magnitudes -/

/-- The exponent has a name, as the power is not to be computed. -/
theorem unitsPerOne_eq : ∃ n, n = 1074 ∧ unitsPerOne = 2 ^ n := by
  unfold unitsPerOne
  generalize 1074 = n
  exact ⟨n, rfl, Nat.pow_eq⟩

theorem magnitude_eq_iff {c k : Nat} : magnitude c = k ↔ units c = k * unitsPerOne := by
  rw [magnitude, div_eq_iff unitsPerOne_pos.ne']
  exact_mod_cast Iff.rfl

/-- Up to `2 ^ 52` all whole numbers are magnitudes. -/
theorem exists_magnitude_eq {k : Nat} (hk : k ≤ 2 ^ 52) :
    ∃ c < infinityCode, magnitude c = k := by
  rcases Nat.eq_zero_or_pos k with rfl | hpos
  · refine ⟨0, by decide, magnitude_eq_iff.2 ?_⟩
    rw [units_small (by decide), Nat.zero_mul]
  -- The significand has its first bit where that of `2 ^ 52` is.
  have hlog : k.log2 ≤ 52 := by
    have := (Nat.log2_lt hpos.ne').2 (show k < 2 ^ 53 by omega)
    omega
  have hsplit : 2 ^ 52 = 2 ^ k.log2 * 2 ^ (52 - k.log2) := by
    rw [← Nat.pow_add, Nat.add_sub_cancel' hlog]
  have hpow := Nat.two_pow_pos (52 - k.log2)
  have hlow : 2 ^ 52 ≤ k * 2 ^ (52 - k.log2) := by
    rw [hsplit]
    exact Nat.mul_le_mul_right _ (Nat.log2_self_le hpos.ne')
  have hhigh : k * 2 ^ (52 - k.log2) ≤ 2 ^ 53 := by
    calc k * 2 ^ (52 - k.log2) ≤ 2 ^ (k.log2 + 1) * 2 ^ (52 - k.log2) :=
          Nat.mul_le_mul_right _ Nat.lt_log2_self.le
      _ = 2 ^ 53 := by
          rw [← Nat.pow_add]
          congr 1
          omega
  obtain ⟨n, hn, hone⟩ := unitsPerOne_eq
  refine ⟨(n - (52 - k.log2)) * 2 ^ 52 + k * 2 ^ (52 - k.log2), ?_, magnitude_eq_iff.2 ?_⟩
  · have hcode : infinityCode = 2047 * 2 ^ 52 := rfl
    omega
  · rw [units_grid _ (.inr hlow) hhigh, Nat.mul_assoc, ← Nat.pow_add, hone]
    clear hone
    congr 2
    omega

/-- What is not whole lies between whole magnitudes. -/
theorem lt_of_not_whole {c : Nat} (h : units c % unitsPerOne ≠ 0) :
    units c / unitsPerOne + 1 ≤ 2 ^ 52 := by
  obtain ⟨n, _, hone⟩ := unitsPerOne_eq
  rw [hone] at h ⊢
  rcases units_multiple n c with ⟨k, hk⟩ | ⟨_, hlt⟩
  · rw [hk] at h
    exact absurd (Nat.mul_mod_left _ _) h
  · exact (Nat.div_lt_iff_lt_mul (Nat.two_pow_pos _)).2 hlt

/-- A whole number rounds to a whole magnitude. -/
theorem whole_of_rounds {n c : Nat} (h : RoundsTo n c) : units c % unitsPerOne = 0 := by
  by_contra hnot
  have hbound := lt_of_not_whole hnot
  obtain ⟨a, ha, hbelow⟩ := exists_magnitude_eq (Nat.le_of_succ_le hbound)
  obtain ⟨b, hb, habove⟩ := exists_magnitude_eq hbound
  have hone := unitsPerOne_pos
  have hdiv := Nat.div_add_mod (units c) unitsPerOne
  have hlt : magnitude a < magnitude c := by
    rw [hbelow, magnitude, lt_div_iff₀ hone]
    exact_mod_cast (by rw [Nat.mul_comm]; omega : units c / unitsPerOne * unitsPerOne < units c)
  have hgt : magnitude c < magnitude b := by
    rw [habove, magnitude, div_lt_iff₀ hone]
    exact_mod_cast Nat.lt_mul_of_div_lt (Nat.lt_succ_self _) (Nat.cast_pos.1 hone)
  have hnear := h.nearest a ha.le
  have hnear' := h.nearest b hb.le
  rcases Nat.lt_or_ge (units c / unitsPerOne) n with hn | hn
  · have hle : magnitude b ≤ n := by
      rw [habove]
      exact_mod_cast hn
    rw [abs_of_nonpos (by linarith), abs_of_nonpos (by linarith)] at hnear'
    linarith
  · have hle : (n : ℚ) ≤ magnitude a := by
      rw [hbelow]
      exact_mod_cast hn
    rw [abs_of_nonneg (by linarith), abs_of_nonneg (by linarith)] at hnear
    linarith

namespace Decimal

theorem code_eq_of_value {d : Decimal} {c : Nat} (hc : c ≤ infinityCode)
    (h : d.value = magnitude c) : d.code = c := by
  have hrounds := code_rounds d
  rw [h] at hrounds
  exact hrounds.unique (magnitude_rounds hc)

theorem value_exact (c : Nat) : (exact c).value = magnitude c := by
  unfold magnitude unitsPerOne
  change ((units c * Nat.pow 5 1074 : Nat) : ℚ) * 10 ^ (-((1074 : Nat) : Int)) = _
  generalize 1074 = n
  have hten : (10 : ℚ) ^ n = 5 ^ n * 2 ^ n := by
    rw [← mul_pow]
    norm_num
  rw [Nat.pow_eq, Nat.pow_eq, zpow_neg, zpow_natCast, hten]
  push_cast
  field_simp

/-- The shortest decimal reads back. -/
theorem code_shortest (tie : Tie) {c : Nat} (hc : c ≤ infinityCode) :
    (shortest tie c).code = c := by
  unfold shortest
  dsimp only
  generalize (List.range 21).map _ = exponents
  cases hhit : exponents.findSome? fun e => (neighbours tie c e).find? fun d => d.code == c with
  | none => exact code_eq_of_value hc (value_exact c)
  | some d =>
    obtain ⟨e, _, hfound⟩ := List.exists_of_findSome?_eq_some hhit
    have hreads := List.find?_some hfound
    exact beq_iff_eq.1 hreads

theorem exponent_shortest_neg (tie : Tie) {c : Nat} (hc : c ≤ infinityCode)
    (h : units c % unitsPerOne ≠ 0) : (shortest tie c).exponent < 0 := by
  by_contra hnot
  have hrounds := code_rounds (shortest tie c)
  rw [code_shortest tie hc] at hrounds
  obtain ⟨k, hk⟩ := Int.eq_ofNat_of_zero_le (Int.not_lt.1 hnot)
  have hvalue : (shortest tie c).value = ((shortest tie c).coefficient * 10 ^ k : Nat) := by
    rw [value, hk]
    push_cast
    rfl
  rw [hvalue] at hrounds
  exact h (whole_of_rounds hrounds)

/-! ## Whole decimals for whole magnitudes -/

theorem exponent_of_mem_neighbours {tie : Tie} {c : Nat} {e : Int} {d : Decimal}
    (h : d ∈ neighbours tie c e) : d.exponent = e := by
  unfold neighbours at h
  dsimp only at h
  split at h <;> rcases List.mem_pair.1 h with rfl | rfl <;> rfl

/-- Where a decimal with some exponent reads back, the shortest one has no smaller exponent. -/
theorem le_exponent_shortest {tie : Tie} {c i : Nat} (hi : i < 21) {d : Decimal}
    (hd : d ∈ neighbours tie c (topExponent c - i)) (hread : d.code = c) :
    topExponent c - i ≤ (shortest tie c).exponent := by
  obtain ⟨exponents, hexponents⟩ : ∃ exponents, exponents =
    (List.range 21).map fun (i : Nat) => topExponent c - i := ⟨_, rfl⟩
  have hmem : topExponent c - i ∈ exponents := by
    rw [hexponents]
    exact List.mem_map.2 ⟨i, List.mem_range.2 hi, rfl⟩
  have hsorted : exponents.Pairwise (· > ·) := by
    rw [hexponents, List.pairwise_map]
    exact List.pairwise_lt_range.imp fun h => by omega
  have hsome : ((neighbours tie c (topExponent c - i)).find? fun d => d.code == c) ≠ none := by
    intro hnone
    exact List.find?_eq_none.1 hnone d hd (beq_iff_eq.2 hread)
  unfold shortest
  dsimp only
  rw [← hexponents]
  cases hhit : exponents.findSome? fun e => (neighbours tie c e).find? fun d => d.code == c with
  | none => exact absurd (List.findSome?_eq_none_iff.1 hhit _ hmem) hsome
  | some found =>
    obtain ⟨before, e, after, hsplit, hfound, hbefore⟩ := List.findSome?_eq_some_iff.1 hhit
    have hexponent := exponent_of_mem_neighbours (List.mem_of_find?_eq_some hfound)
    rw [Option.getD_some, hexponent]
    rw [hsplit] at hmem hsorted
    rcases List.mem_append.1 hmem with hmem | hmem
    · exact absurd (hbefore _ hmem) hsome
    · rcases List.mem_cons.1 hmem with heq | hmem
      · exact heq.le
      · have hlater := (List.pairwise_cons.1 (List.pairwise_append.1 hsorted).2.1).1 _ hmem
        exact hlater.le

/-- A decimal reads as a code whose magnitude is more than twice as far from all others. -/
theorem code_eq_of_near {d : Decimal} {c : Nat} (hc : c ≤ infinityCode)
    (h : ∀ other ≤ infinityCode, other ≠ c →
      2 * |d.value - magnitude c| < |magnitude other - magnitude c|) : d.code = c := by
  have hfar : ∀ other ≤ infinityCode, other ≠ c →
      |magnitude c - d.value| < |magnitude other - d.value| := by
    intro other hother hne
    have hgap := h other hother hne
    have htriangle := abs_sub_le (magnitude other) d.value (magnitude c)
    rw [abs_sub_comm (magnitude c)]
    linarith
  refine (code_rounds d).unique ⟨hc, fun other hother => ?_, fun other hother hne heq => ?_⟩
  · rcases eq_or_ne other c with rfl | hne
    · exact le_rfl
    · exact (hfar other hother hne).le
  · exact absurd heq (hfar other hother hne).ne'

/-- A multiple of a power of ten that is at most half the power away, counted in units. -/
theorem two_mul_abs_le {c k b : Nat}
    (h : 2 * |(b * (unitsPerOne * 10 ^ k) : Int) - units c| ≤ unitsPerOne * 10 ^ k) :
    2 * |(⟨b, k⟩ : Decimal).value - magnitude c| ≤ 10 ^ k := by
  have hone := unitsPerOne_pos
  have hdistance : (⟨b, k⟩ : Decimal).value - magnitude c =
      ((b * (unitsPerOne * 10 ^ k) : Int) - units c : Int) / unitsPerOne := by
    rw [value, magnitude, zpow_natCast]
    generalize unitsPerOne = one at hone ⊢
    push_cast
    field_simp
  rw [hdistance, abs_div, abs_of_pos hone, ← mul_div_assoc, div_le_iff₀ hone, mul_comm (10 ^ k)]
  exact_mod_cast h

/-- The nearer one of the neighbours is at most half a step away. -/
theorem exists_near_neighbour (tie : Tie) (c k : Nat) :
    ∃ d ∈ neighbours tie c k, 2 * |d.value - magnitude c| ≤ 10 ^ k := by
  have hsplit := Nat.div_add_mod (units c) (unitsPerOne * 10 ^ k)
  have hlt : units c % (unitsPerOne * 10 ^ k) < unitsPerOne * 10 ^ k :=
    Nat.mod_lt _ (Nat.mul_pos (Nat.cast_pos.1 unitsPerOne_pos) (Nat.pow_pos (by decide)))
  have hsteps : neighbours tie c k =
      if 2 * (units c % (unitsPerOne * 10 ^ k)) < unitsPerOne * 10 ^ k ∨
          2 * (units c % (unitsPerOne * 10 ^ k)) = unitsPerOne * 10 ^ k ∧ tie = .even ∧
            units c / (unitsPerOne * 10 ^ k) % 2 = 0 then
        [⟨units c / (unitsPerOne * 10 ^ k), k⟩, ⟨units c / (unitsPerOne * 10 ^ k) + 1, k⟩]
      else [⟨units c / (unitsPerOne * 10 ^ k) + 1, k⟩, ⟨units c / (unitsPerOne * 10 ^ k), k⟩] := by
    have hscale : (-(k : Int)).toNat = 0 := by omega
    simp only [neighbours, hscale, Int.toNat_natCast, Nat.pow_eq, Nat.pow_zero, Nat.mul_one]
  rw [hsteps]
  generalize units c / (unitsPerOne * 10 ^ k) = b at hsplit ⊢
  generalize units c % (unitsPerOne * 10 ^ k) = r at hsplit hlt ⊢
  have hunits : (units c : Int) = unitsPerOne * 10 ^ k * b + r := by exact_mod_cast hsplit.symm
  have hlt' : (r : Int) < unitsPerOne * 10 ^ k := by exact_mod_cast hlt
  split
  · next hbelow =>
    refine ⟨_, List.mem_cons_self, two_mul_abs_le ?_⟩
    have hhalf : (2 * r : Int) ≤ unitsPerOne * 10 ^ k := by
      rcases hbelow with h | h
      · exact_mod_cast h.le
      · exact_mod_cast h.1.le
    have hgap : (b * (unitsPerOne * 10 ^ k) : Int) - (unitsPerOne * 10 ^ k * b + r) = -r := by ring
    rw [hunits, hgap, abs_neg, abs_of_nonneg (Int.natCast_nonneg r)]
    exact hhalf
  · next habove =>
    refine ⟨_, List.mem_cons_self, two_mul_abs_le ?_⟩
    have hhalf : (unitsPerOne * 10 ^ k : Int) ≤ 2 * r := by
      exact_mod_cast Nat.le_of_not_lt fun h => habove (.inl h)
    rw [hunits, show (((b + 1 : Nat) : Int) * (unitsPerOne * 10 ^ k)) -
        (unitsPerOne * 10 ^ k * b + r) = unitsPerOne * 10 ^ k - r by push_cast; ring,
      abs_of_nonneg (by omega)]
    omega

theorem magnitude_sub (a b : Nat) :
    magnitude a - magnitude b = ((units a - units b : Int) : ℚ) / unitsPerOne := by
  rw [magnitude, magnitude, ← sub_div]
  push_cast
  rfl

/-- Other magnitudes are at least half a step of the significand away. -/
theorem magnitude_gap {exponent significand other : Nat} (h : significand < 2 ^ 52)
    (hne : other ≠ (exponent + 1) * 2 ^ 52 + significand) :
    2 ^ exponent ≤
      2 * |(units other : Int) - units ((exponent + 1) * 2 ^ 52 + significand)| := by
  have hdistinct := units_strictMono.injective.ne hne
  rw [units_eq exponent h] at hdistinct ⊢
  have hapart : (units other : Int) - ((2 ^ 52 + significand) * 2 ^ exponent : Nat) ≠ 0 :=
    sub_ne_zero.2 (Nat.cast_injective.ne hdistinct)
  cases exponent with
  | zero =>
    have hone := Int.one_le_abs hapart
    rw [pow_zero]
    omega
  | succ exponent =>
    have hpos : (0 : Int) < 2 ^ exponent := by positivity
    rcases units_multiple exponent other with ⟨k, hk⟩ | ⟨_, hlt⟩
    · -- Both are multiples of half the step, and differ.
      have hfactor : (units other : Int) - ((2 ^ 52 + significand) * 2 ^ (exponent + 1) : Nat) =
          (k - 2 * (2 ^ 52 + significand)) * 2 ^ exponent := by
        rw [hk]
        push_cast
        ring
      rw [hfactor] at hapart ⊢
      have hone := Int.one_le_abs (left_ne_zero_of_mul hapart)
      rw [abs_mul, abs_of_pos hpos, pow_succ]
      nlinarith
    · have hlt' : (units other : Int) < 2 ^ 52 * 2 ^ exponent := by exact_mod_cast hlt
      have hlow := neg_abs_le
        ((units other : Int) - ((2 ^ 52 + significand) * 2 ^ (exponent + 1) : Nat))
      push_cast at hlow ⊢
      rw [pow_succ] at hlow ⊢
      nlinarith [mul_nonneg (Int.natCast_nonneg significand) hpos.le]

/-- A power by an approximation `p / r` of the logarithm from above. -/
theorem pow_le_of_logarithm {a b p r m : Nat} (ha : 0 < a) (hb : 0 < b) (hr : 0 < r)
    (hlogarithm : a ^ p ≤ b ^ (r + 1)) (hm : m ≤ r) : a ^ (m * p / r) ≤ b ^ (m + 1) := by
  rw [← Nat.pow_le_pow_iff_left hr.ne']
  calc (a ^ (m * p / r)) ^ r = a ^ (m * p / r * r) := (Nat.pow_mul ..).symm
    _ ≤ a ^ (p * m) := Nat.pow_le_pow_right ha (Nat.mul_comm m p ▸ Nat.div_mul_le_self _ _)
    _ = (a ^ p) ^ m := Nat.pow_mul ..
    _ ≤ (b ^ (r + 1)) ^ m := Nat.pow_le_pow_left hlogarithm m
    _ = b ^ ((r + 1) * m) := (Nat.pow_mul ..).symm
    _ ≤ b ^ ((m + 1) * r) := Nat.pow_le_pow_right hb (by nlinarith)
    _ = (b ^ (m + 1)) ^ r := Nat.pow_mul ..

theorem ten_pow_le {m : Nat} (hm : m ≤ 100000) : 10 ^ (m * 30103 / 100000) ≤ 2 ^ (m + 1) :=
  pow_le_of_logarithm (by decide) (by decide) (by decide) (by decide +kernel) hm

/-- A magnitude that is whole is its own neighbour. -/
theorem exists_whole_neighbour (tie : Tie) {c : Nat} (hc : c ≤ infinityCode)
    (hwhole : units c % unitsPerOne = 0) : ∃ d ∈ neighbours tie c (0 : Nat), d.code = c := by
  obtain ⟨d, hd, hnear⟩ := exists_near_neighbour tie c 0
  refine ⟨d, hd, code_eq_of_value hc ?_⟩
  have hmagnitude : magnitude c = (units c / unitsPerOne : Nat) :=
    magnitude_eq_iff.2 (Nat.div_mul_cancel (Nat.dvd_of_mod_eq_zero hwhole)).symm
  have hvalue : d.value = d.coefficient := by
    rw [value, exponent_of_mem_neighbours hd]
    simp
  rw [hvalue, hmagnitude] at hnear ⊢
  have hclose : 2 * |(d.coefficient : Int) - (units c / unitsPerOne : Nat)| ≤ 1 := by
    exact_mod_cast hnear
  have hsame : (d.coefficient : Int) - (units c / unitsPerOne : Nat) = 0 := by
    by_contra hne
    have hone := Int.one_le_abs hne
    omega
  exact_mod_cast sub_eq_zero.1 hsame

/-- Half a step of the significand is more than the power of ten twenty places below the top. -/
theorem ten_pow_lt {l e n k : Nat} (hl : n ≤ l) (hsmall : l - n ≤ 100000)
    (hstep : l < 53 + e) (hk : (l - n) * 30103 / 100000 = k + 19) : 2 * 10 ^ k * 2 ^ n < 2 ^ e := by
  have hten := ten_pow_le hsmall
  rw [hk, pow_add, pow_succ 2] at hten
  have hdigits : 2 ^ 54 < 10 ^ 19 := by decide
  have hpos : 0 < 10 ^ k := Nat.pow_pos (by decide)
  have hpower : 10 ^ k * 2 ^ 53 < 2 ^ (l - n) := by nlinarith
  have hpow : 2 ^ (l - n) * 2 ^ n ≤ 2 ^ e * 2 ^ 52 := by
    rw [← pow_add, ← pow_add]
    exact Nat.pow_le_pow_right (by decide) (by omega)
  have hscaled := Nat.mul_lt_mul_of_pos_right hpower (Nat.two_pow_pos n)
  nlinarith

/-- A magnitude of one or more has a significand of 53 bits. -/
theorem significand_of_le {c : Nat} (hc : c ≤ infinityCode) (h : unitsPerOne ≤ units c) :
    ∃ exponent ≤ 2046, ∃ significand < 2 ^ 52, c = (exponent + 1) * 2 ^ 52 + significand ∧
      (units c).log2 < 53 + exponent := by
  obtain ⟨n, hn, hone⟩ := unitsPerOne_eq
  have hpow : 2 ^ 52 ≤ 2 ^ n := Nat.pow_le_pow_right (by decide) (by omega)
  rcases code_cases c with hsmall | ⟨exponent, significand, hsignificand, hcode⟩
  · rw [units_small hsmall] at h
    omega
  · have hinfinity : infinityCode = 2047 * 2 ^ 52 := rfl
    refine ⟨exponent, by omega, significand, hsignificand, hcode, ?_⟩
    have hpos : 0 < units c := Nat.lt_of_lt_of_le (hone ▸ Nat.two_pow_pos n) h
    rw [Nat.log2_lt hpos.ne', hcode, units_eq exponent hsignificand, pow_add]
    exact Nat.mul_lt_mul_of_pos_right (by omega) (Nat.two_pow_pos _)

/-- The nearer neighbour reads back where its step is less than half a step of the significand. -/
theorem exists_reading_neighbour (tie : Tie) {c exponent significand k : Nat}
    (hc : c ≤ infinityCode) (hsignificand : significand < 2 ^ 52)
    (hcode : c = (exponent + 1) * 2 ^ 52 + significand)
    (hstep : 2 * 10 ^ k * unitsPerOne < 2 ^ exponent) : ∃ d ∈ neighbours tie c k, d.code = c := by
  obtain ⟨d, hd, hnear⟩ := exists_near_neighbour tie c k
  refine ⟨d, hd, code_eq_of_near hc fun other _ hne => lt_of_le_of_lt hnear ?_⟩
  have hgap := magnitude_gap hsignificand (hcode ▸ hne)
  rw [← hcode] at hgap
  have hfar : (10 ^ k * unitsPerOne : Int) < |(units other : Int) - units c| := by
    have hcast : (2 * 10 ^ k * unitsPerOne : Int) < 2 ^ exponent := by exact_mod_cast hstep
    linarith
  rw [magnitude_sub, abs_div, abs_of_pos unitsPerOne_pos, lt_div_iff₀ unitsPerOne_pos]
  exact_mod_cast hfar

/-- A whole magnitude has a whole decimal that reads back. -/
theorem exponent_shortest_nonneg (tie : Tie) {c : Nat} (hc : c ≤ infinityCode) (hpos : 0 < c)
    (hwhole : units c % unitsPerOne = 0) : 0 ≤ (shortest tie c).exponent := by
  obtain ⟨n, hn, hone⟩ := unitsPerOne_eq
  have hunits : 0 < units c := Nat.lt_of_le_of_lt (Nat.zero_le _) (units_strictMono hpos)
  have hlarge := Nat.le_of_dvd hunits (Nat.dvd_of_mod_eq_zero hwhole)
  have hlog : n ≤ (units c).log2 := (Nat.le_log2 hunits.ne').2 (hone ▸ hlarge)
  obtain ⟨exponent, hbound, significand, hsignificand, hcode, hstep⟩ := significand_of_le hc hlarge
  have htop : topExponent c = ((((units c).log2 - n) * 30103 / 100000 + 1 : Nat) : Int) := by
    rw [topExponent, hn]
    omega
  rcases Nat.lt_or_ge (((units c).log2 - n) * 30103 / 100000) 20 with hlow | hhigh
  · -- One is among the steps that are tried.
    obtain ⟨d, hd, hread⟩ := exists_whole_neighbour tie hc hwhole
    have hzero : topExponent c - (((units c).log2 - n) * 30103 / 100000 + 1 : Nat) = (0 : Nat) := by
      omega
    have hle := le_exponent_shortest (Nat.succ_lt_succ hlow) (hzero ▸ hd) hread
    omega
  · -- The last step that is tried is small enough to read back.
    obtain ⟨k, hk⟩ := Nat.exists_eq_add_of_le (Nat.le_of_succ_le hhigh)
    have hsmall := ten_pow_lt hlog (by omega) hstep (hk.trans (Nat.add_comm _ _))
    obtain ⟨d, hd, hread⟩ := exists_reading_neighbour tie hc hsignificand hcode (hone ▸ hsmall)
    have hlast : topExponent c - (20 : Nat) = (k : Nat) := by omega
    have hle := le_exponent_shortest (by decide) (hlast ▸ hd) hread
    omega

end Decimal

end TreeWalk.Number
