import ImageCircuit.Proofs.Double
import Mathlib.Algebra.Order.Field.Rat
import Mathlib.Algebra.Order.Field.Power
import Mathlib.Tactic.FieldSimp
import Mathlib.Tactic.Linarith
import Mathlib.Tactic.NormNum
import Mathlib.Tactic.Ring

/-!
# Rounding to the nearest double

A number between the two ends of the interval of a double is rounded to this double; at an end this
holds if the mantissa is even.

* `Decimal.divRoundEven_eq`: the integer that a quotient is rounded to
* `Decimal.isScale_mantissaExponent`: the exponent at which a number has its mantissa
* `Decimal.nearestBits_eq`: the double that a number is rounded to
-/

namespace ImageCircuit.Decimal

/-! ## Intervals -/

/-- The number lies between the ends, and at an end only of a closed interval. -/
structure Between (closed : Prop) (low x high : ℚ) : Prop where
  low_le : low ≤ x
  le_high : x ≤ high
  strict : ¬ closed → low < x ∧ x < high

theorem Between.mono {closed : Prop} {low low' x high high' : ℚ} (h : Between closed low x high)
    (hlow : low' ≤ low) (hhigh : high ≤ high') : Between closed low' x high' where
  low_le := hlow.trans h.low_le
  le_high := h.le_high.trans hhigh
  strict hopen := ⟨hlow.trans_lt (h.strict hopen).1, (h.strict hopen).2.trans_le hhigh⟩

theorem Between.mul {closed : Prop} {low x high s : ℚ} (h : Between closed low x high)
    (hs : 0 < s) : Between closed (low * s) (x * s) (high * s) where
  low_le := mul_le_mul_of_nonneg_right h.low_le hs.le
  le_high := mul_le_mul_of_nonneg_right h.le_high hs.le
  strict hopen := ⟨mul_lt_mul_of_pos_right (h.strict hopen).1 hs,
    mul_lt_mul_of_pos_right (h.strict hopen).2 hs⟩

theorem Between.div {closed : Prop} {low x high s : ℚ}
    (h : Between closed (low * s) x (high * s)) (hs : 0 < s) :
    Between closed low (x / s) high := by
  have := h.mul (inv_pos.mpr hs)
  rwa [mul_inv_cancel_right₀ hs.ne', mul_inv_cancel_right₀ hs.ne', ← div_eq_mul_inv] at this

/-! ## Quotients -/

/-- The integer nearest to a quotient, in natural numbers. -/
theorem divRoundEven_eq_of_le {n d m : Nat} (hd : 0 < d) (hlow : 2 * (m * d) ≤ 2 * n + d)
    (hhigh : 2 * n ≤ 2 * (m * d) + d)
    (hodd : m % 2 ≠ 0 → 2 * (m * d) < 2 * n + d ∧ 2 * n < 2 * (m * d) + d) :
    divRoundEven n d = m := by
  have hn := Nat.div_add_mod n d
  have hr := Nat.mod_lt n hd
  unfold divRoundEven
  dsimp only
  generalize n / d = k at *
  generalize n % d = r at *
  rw [Nat.mul_comm] at hn
  -- The quotient is the integer or the one below it.
  have hk : m = k ∨ m = k + 1 := by
    rcases Nat.lt_trichotomy m k with hlt | heq | hgt
    · have : (m + 1) * d ≤ k * d := Nat.mul_le_mul_right d hlt
      rw [Nat.add_one_mul] at this
      omega
    · exact .inl heq
    · rcases Nat.lt_or_ge m (k + 2) with hlt | hge
      · omega
      · have : (k + 2) * d ≤ m * d := Nat.mul_le_mul_right d hge
        rw [Nat.add_mul] at this
        omega
  rcases hk with rfl | rfl
  · split
    · rfl
    · split <;> omega
  · rw [Nat.add_one_mul k d] at hlow hhigh hodd
    split
    · omega
    · split <;> omega

/-- A quotient is rounded to the integer that is at most one half away; one half away it must be
even. -/
theorem divRoundEven_eq {n d m : Nat} (hd : 0 < d)
    (h : Between (m % 2 = 0) (m - 1 / 2) (n / d : ℚ) (m + 1 / 2)) : divRoundEven n d = m := by
  have hdQ : (0 : ℚ) < d := Nat.cast_pos.mpr hd
  have hdiv : (n : ℚ) / d * d = n := div_mul_cancel₀ _ hdQ.ne'
  obtain ⟨hlow, hhigh, hopen⟩ := h.mul hdQ
  rw [hdiv] at hlow hhigh hopen
  refine divRoundEven_eq_of_le hd ?_ ?_ fun hodd => ?_
  · exact_mod_cast (by linarith : 2 * (m * d : ℚ) ≤ 2 * n + d)
  · exact_mod_cast (by linarith : 2 * (n : ℚ) ≤ 2 * (m * d) + d)
  · obtain ⟨hlow, hhigh⟩ := hopen hodd
    constructor
    · exact_mod_cast (by linarith : 2 * (m * d : ℚ) < 2 * n + d)
    · exact_mod_cast (by linarith : 2 * (n : ℚ) < 2 * (m * d) + d)

/-! ## Powers of two -/

theorem two_zpow_pos (e : ℤ) : (0 : ℚ) < 2 ^ e :=
  zpow_pos (by norm_num) e

theorem two_zpow_succ (e : ℤ) : (2 : ℚ) ^ (e + 1) = 2 * 2 ^ e := by
  rw [zpow_add_one₀ (by norm_num), mul_comm]

theorem two_zpow_le {a b : ℤ} (h : a ≤ b) : (2 : ℚ) ^ a ≤ 2 ^ b :=
  zpow_le_zpow_right₀ (by norm_num) h

/-- A shift to the left by the positive or the negative part of an exponent. -/
theorem shiftLeft_div_shiftLeft (num den : Nat) (q : ℤ) :
    ((num <<< (-q).toNat : Nat) : ℚ) / (den <<< q.toNat : Nat) = num / den / 2 ^ q := by
  rw [Nat.shiftLeft_eq, Nat.shiftLeft_eq]
  push_cast
  obtain ⟨k, rfl | rfl⟩ := q.eq_nat_or_neg
  · rw [Int.toNat_natCast, Int.toNat_neg_natCast, pow_zero, mul_one, zpow_natCast, div_div]
  · rw [neg_neg, Int.toNat_natCast, Int.toNat_neg_natCast, pow_zero, mul_one, zpow_neg,
      zpow_natCast, div_inv_eq_mul, mul_div_right_comm]

/-! ## Exponents -/

variable {num den m : Nat} {e q : ℤ} {v : ℚ}

/-- The exponent at which a number has a mantissa of 53 bits, or the smallest exponent of all. -/
structure IsScale (v : ℚ) (q : ℤ) : Prop where
  minExponent_le : minExponent ≤ q
  lt : v < 2 * leadingBit * 2 ^ q
  leadingBit_le : leadingBit * 2 ^ q ≤ v ∨ q = minExponent

theorem IsScale.le (h : IsScale v q) (he : IsScale v e) : q ≤ e := by
  rcases h.leadingBit_le with hle | rfl
  · by_contra hlt
    have hstep : (2 : ℚ) ^ (e + 1) ≤ 2 ^ q := two_zpow_le (by omega)
    have hlb : (0 : ℚ) ≤ leadingBit := Nat.cast_nonneg _
    have := mul_le_mul_of_nonneg_left hstep hlb
    rw [two_zpow_succ] at this
    linarith [he.lt]
  · exact he.minExponent_le

theorem IsScale.unique (h : IsScale v q) (he : IsScale v e) : q = e :=
  le_antisymm (h.le he) (he.le h)

theorem lt_div_of_log2 (hnum : 0 < num) (hden : 0 < den) :
    (2 : ℚ) ^ (num.log2 - den.log2 - 1 : ℤ) < num / den ∧
      (num : ℚ) / den < 2 ^ (num.log2 - den.log2 + 1 : ℤ) := by
  have hdenQ : (0 : ℚ) < den := Nat.cast_pos.mpr hden
  have hnum₁ : (2 : ℚ) ^ (num.log2 : ℤ) ≤ num := by
    rw [zpow_natCast]
    exact_mod_cast Nat.log2_self_le hnum.ne'
  have hnum₂ : (num : ℚ) < 2 ^ (num.log2 + 1 : ℤ) := by
    exact_mod_cast @Nat.lt_log2_self num
  have hden₁ : (2 : ℚ) ^ (den.log2 : ℤ) ≤ den := by
    rw [zpow_natCast]
    exact_mod_cast Nat.log2_self_le hden.ne'
  have hden₂ : (den : ℚ) < 2 ^ (den.log2 + 1 : ℤ) := by
    exact_mod_cast @Nat.lt_log2_self den
  constructor
  · rw [lt_div_iff₀ hdenQ]
    calc (2 : ℚ) ^ (num.log2 - den.log2 - 1 : ℤ) * den
        < 2 ^ (num.log2 - den.log2 - 1 : ℤ) * 2 ^ (den.log2 + 1 : ℤ) :=
          mul_lt_mul_of_pos_left hden₂ (two_zpow_pos _)
      _ = 2 ^ (num.log2 : ℤ) := by rw [← zpow_add₀ (by norm_num)]; congr 1; ring
      _ ≤ num := hnum₁
  · rw [div_lt_iff₀ hdenQ]
    calc (num : ℚ) < 2 ^ (num.log2 + 1 : ℤ) := hnum₂
      _ = 2 ^ (num.log2 - den.log2 + 1 : ℤ) * 2 ^ (den.log2 : ℤ) := by
          rw [← zpow_add₀ (by norm_num)]; congr 1; ring
      _ ≤ 2 ^ (num.log2 - den.log2 + 1 : ℤ) * den :=
          mul_le_mul_of_nonneg_left hden₁ (two_zpow_pos _).le

/-- The smallest exponent of all is a scale of the numbers below its mantissas. -/
theorem IsScale.max {q : ℤ} (hle : leadingBit * 2 ^ q ≤ v) (hlt : v < 2 * leadingBit * 2 ^ q) :
    IsScale v (max minExponent q) := by
  rcases le_total minExponent q with h | h
  · rw [max_eq_right h]
    exact ⟨h, hlt, .inl hle⟩
  · rw [max_eq_left h]
    refine ⟨le_rfl, hlt.trans_le ?_, .inr rfl⟩
    exact mul_le_mul_of_nonneg_left (two_zpow_le h) (by positivity)

theorem isScale_mantissaExponent (hnum : 0 < num) (hden : 0 < den) :
    IsScale (num / den) (mantissaExponent num den) := by
  obtain ⟨hlow, hhigh⟩ := lt_div_of_log2 hnum hden
  unfold mantissaExponent
  dsimp only [scaleDown]
  have hd : 0 < den <<< (num.log2 - den.log2 - 53 : ℤ).toNat := by
    rw [Nat.shiftLeft_eq]
    positivity
  have hratio := shiftLeft_div_shiftLeft num den (num.log2 - den.log2 - 53)
  generalize hguess : (num.log2 - den.log2 - 53 : ℤ) = guess at *
  have hpos := two_zpow_pos guess
  rw [show (num.log2 - den.log2 - 1 : ℤ) = guess + 52 by omega, zpow_add₀ (by norm_num)] at hlow
  rw [show (num.log2 - den.log2 + 1 : ℤ) = guess + 54 by omega, zpow_add₀ (by norm_num)] at hhigh
  have hbit : (leadingBit : ℚ) = 2 ^ (52 : ℤ) := by norm_num [leadingBit]
  have hsplit : num <<< (-guess).toNat / den <<< guess.toNat < 2 * leadingBit ↔
      (num : ℚ) / den < 2 * leadingBit * 2 ^ guess := by
    rw [Nat.div_lt_iff_lt_mul hd, ← div_lt_iff₀ hpos, ← hratio,
      div_lt_iff₀ (Nat.cast_pos.mpr hd)]
    exact_mod_cast Iff.rfl
  split
  · next h =>
    refine .max ?_ (hsplit.mp h)
    rw [hbit]
    linarith
  · next h =>
    have hge := not_lt.mp (mt hsplit.mpr h)
    refine .max ?_ ?_
    · rw [two_zpow_succ]
      linarith
    · rw [two_zpow_succ, hbit]
      norm_num at hhigh ⊢
      linarith

/-! ## The nearest double -/

/-- How far below a double numbers are rounded to it, in its last place: the gap below a power of
two is half as wide as the gap above it. -/
def gapBelow (m : Nat) : ℚ :=
  if m = leadingBit then 1 / 4 else 1 / 2

/-- The number is rounded to the double with this mantissa and this exponent. -/
def RoundsTo (m : Nat) (e : ℤ) (v : ℚ) : Prop :=
  Between (m % 2 = 0) ((m - gapBelow m) * 2 ^ e) v ((m + 1 / 2) * 2 ^ e)

theorem gapBelow_le (m : Nat) : gapBelow m ≤ 1 / 2 := by
  unfold gapBelow
  split <;> norm_num

theorem magnitudeBits_lt (h : IsDouble m e) : magnitudeBits m e < infinityBits := by
  obtain ⟨hlt, hmin, hmax, -⟩ := h
  have hexp : (e - minExponent).toNat ≤ 2045 := by
    simp only [minExponent] at *
    omega
  have := Nat.mul_le_mul_right leadingBit hexp
  unfold magnitudeBits
  simp only [leadingBit, infinityBits] at *
  omega

/-- A number is counted from the bits of its scale. -/
theorem nearestBits_of_isScale (hnum : 0 < num) (hden : 0 < den) (hq : IsScale (num / den) q)
    {k : Nat}
    (hk : Between (k % 2 = 0) (k - 1 / 2) (num / den / 2 ^ q) (k + 1 / 2)) :
    nearestBits num den = min infinityBits ((q - minExponent).toNat * leadingBit + k) := by
  have hd : 0 < den <<< q.toNat := by
    rw [Nat.shiftLeft_eq]
    positivity
  rw [nearestBits, if_neg hnum.ne', (isScale_mantissaExponent hnum hden).unique hq]
  dsimp only [scaleDown]
  rw [divRoundEven_eq hd (shiftLeft_div_shiftLeft num den q ▸ hk)]

/-- The exponent of a double is the scale of the numbers rounded to it, except just below a power of
two. -/
theorem RoundsTo.isScale_or (hv : RoundsTo m e v) (h : IsDouble m e) :
    IsScale v e ∨ m = leadingBit ∧ IsScale v (e - 1) ∧ v < leadingBit * 2 ^ e := by
  have hpos := two_zpow_pos e
  have hm : (m : ℚ) + 1 ≤ 2 * leadingBit := by exact_mod_cast h.lt
  have hlt : v < 2 * leadingBit * 2 ^ e := by
    refine hv.le_high.trans_lt (mul_lt_mul_of_pos_right ?_ hpos)
    linarith
  by_cases hmin : e = minExponent
  · exact .inl ⟨h.minExponent_le, hlt, .inr hmin⟩
  rcases le_or_gt ((leadingBit : ℚ) * 2 ^ e) v with hle | hbelow
  · exact .inl ⟨h.minExponent_le, hlt, .inl hle⟩
  have hleading : m = leadingBit := by
    refine le_antisymm ?_ (h.leadingBit_le.resolve_right hmin)
    by_contra hgt
    have hstep : (leadingBit : ℚ) + 1 ≤ m := by exact_mod_cast not_le.mp hgt
    have hend : (leadingBit : ℚ) * 2 ^ e ≤ (m - gapBelow m) * 2 ^ e := by
      refine mul_le_mul_of_nonneg_right ?_ hpos.le
      linarith [gapBelow_le m]
    linarith [hv.low_le]
  have hhalf : (2 : ℚ) ^ e = 2 * 2 ^ (e - 1) := by rw [← two_zpow_succ, sub_add_cancel]
  have hlow := hv.low_le
  rw [hleading, gapBelow, if_pos rfl, hhalf] at hlow
  refine .inr ⟨hleading, ⟨?_, ?_, .inl ?_⟩, hbelow⟩
  · have := h.minExponent_le
    omega
  · rw [hhalf] at hbelow
    linarith
  · have hlb : (1 : ℚ) ≤ leadingBit := by exact_mod_cast (by decide : 1 ≤ leadingBit)
    have := two_zpow_pos (e - 1)
    nlinarith

/-- The double that a number is rounded to. -/
theorem nearestBits_eq (h : IsDouble m e) (hnum : 0 < num) (hden : 0 < den)
    (hv : RoundsTo m e (num / den)) : nearestBits num den = magnitudeBits m e := by
  have hpos := two_zpow_pos e
  rcases hv.isScale_or h with hscale | ⟨rfl, hscale, hbelow⟩
  · have hnear : Between (m % 2 = 0) (m - 1 / 2) (num / den / 2 ^ e : ℚ) (m + 1 / 2) :=
      (Between.div hv hpos).mono (sub_le_sub_left (gapBelow_le m) _) le_rfl
    rw [nearestBits_of_isScale hnum hden hscale hnear, ← magnitudeBits,
      min_eq_right (magnitudeBits_lt h).le]
  · -- Just below a power of two the mantissa is rounded up to 54 bits.
    have hhalf : (2 : ℚ) ^ e = 2 ^ (e - 1) * 2 := by
      rw [mul_comm, ← two_zpow_succ, sub_add_cancel]
    have hdouble : Between ((2 * leadingBit) % 2 = 0) ((2 * leadingBit : Nat) - 1 / 2)
        (num / den / 2 ^ (e - 1) : ℚ) ((2 * leadingBit : Nat) + 1 / 2) := by
      refine ⟨?_, ?_, fun hopen => absurd (by decide) hopen⟩
      · have hlow := hv.low_le
        rw [gapBelow, if_pos rfl, hhalf] at hlow
        rw [le_div_iff₀ (two_zpow_pos _)]
        push_cast
        linarith
      · rw [div_le_iff₀ (two_zpow_pos _)]
        rw [hhalf] at hbelow
        push_cast
        linarith [two_zpow_pos (e - 1)]
    have hbits : (e - 1 - minExponent).toNat * leadingBit + 2 * leadingBit =
        magnitudeBits leadingBit e := by
      have hstep : (e - minExponent).toNat = (e - 1 - minExponent).toNat + 1 := by
        have := hscale.minExponent_le
        omega
      rw [magnitudeBits, hstep]
      ring
    rw [nearestBits_of_isScale hnum hden hscale hdouble, hbits,
      min_eq_right (magnitudeBits_lt h).le]

end ImageCircuit.Decimal
