import ImageCircuit.Decimal.Shortest
import ImageCircuit.Proofs.Rounding

/-!
# The shortest decimal reads back

The decimal that is written for a double lies in the interval of the numbers that are rounded to the
double: seventeen digits are always enough to hit it.

* `Decimal.roundsTo_of_onGrid?`: a hit lies in the interval
* `Decimal.exists_onGrid?`: a grid that is finer than the interval is wide has a hit
* `Decimal.roundsTo_shortest`: what is written is rounded to the double
-/

namespace ImageCircuit.Decimal

variable {m : Nat} {e q : ℤ}

/-! ## Powers of ten -/

theorem ten_zpow_pos (e : ℤ) : (0 : ℚ) < 10 ^ e :=
  zpow_pos (by norm_num) e

@[simp] theorem cast_tenPow (n : Nat) : ((tenPow n : Nat) : ℚ) = 10 ^ n := by
  show ((10 ^ n : Nat) : ℚ) = _
  push_cast
  rfl

theorem tenPow_pos (n : Nat) : 0 < tenPow n :=
  Nat.pow_pos (by decide)

theorem tenPow_div_tenPow (e : ℤ) : (tenPow e.toNat : ℚ) / tenPow (-e).toNat = 10 ^ e := by
  rw [cast_tenPow, cast_tenPow]
  obtain ⟨k, rfl | rfl⟩ := e.eq_nat_or_neg
  · rw [Int.toNat_natCast, Int.toNat_neg_natCast, pow_zero, div_one, zpow_natCast]
  · rw [neg_neg, Int.toNat_natCast, Int.toNat_neg_natCast, pow_zero, one_div, zpow_neg,
      zpow_natCast]

theorem tenPow_succ (n : Nat) : tenPow (n + 1) = 10 * tenPow n :=
  Nat.pow_succ'

theorem lt_tenPow_digitCount (n : Nat) : n < tenPow (digitCount n) := by
  fun_induction digitCount n with
  | case1 => decide
  | case2 n hn ih =>
    rw [tenPow_succ]
    omega

theorem tenPow_digitCount_le {n : Nat} (h : 0 < n) : tenPow (digitCount n) ≤ 10 * n := by
  fun_induction digitCount n with
  | case1 => exact absurd h (Nat.lt_irrefl 0)
  | case2 n hn ih =>
    rw [tenPow_succ]
    rcases Nat.eq_zero_or_pos (n / 10) with hzero | hpos
    · rw [hzero, digitCount, if_pos rfl]
      show 10 * 1 ≤ 10 * n
      omega
    · have := ih hpos
      omega

/-- The leading exponent of a number is the exponent of a power of ten below it. -/
theorem leadingExponent_le {num den : Nat} (hnum : 0 < num) (hden : 0 < den) :
    (10 : ℚ) ^ leadingExponent num den ≤ num / den := by
  have hdenQ : (0 : ℚ) < den := Nat.cast_pos.mpr hden
  rw [le_div_iff₀ hdenQ]
  unfold leadingExponent
  split
  · next hle =>
    have hcount := tenPow_digitCount_le (Nat.div_pos hle hden)
    have hfloor := Nat.div_mul_le_self num den
    rw [zpow_sub_one₀ (by norm_num), zpow_natCast]
    have hcountQ : (10 : ℚ) ^ digitCount (num / den) ≤ 10 * (num / den : Nat) := by
      exact_mod_cast hcount
    have hfloorQ : ((num / den : Nat) : ℚ) * den ≤ num := by exact_mod_cast hfloor
    nlinarith
  · next hlt =>
    have hcount := lt_tenPow_digitCount ((den - 1) / num)
    rw [Nat.div_lt_iff_lt_mul hnum] at hcount
    have hle : den ≤ tenPow (digitCount ((den - 1) / num)) * num := by omega
    rw [zpow_neg, zpow_natCast, ← cast_tenPow, inv_mul_le_iff₀ (Nat.cast_pos.mpr (tenPow_pos _))]
    exact_mod_cast hle

/-! ## Grids -/

theorem holds_iff {i : Interval} {quarter n : Nat} :
    i.holds quarter n = true ↔ i.low * quarter ≤ n ∧ n ≤ i.high * quarter ∧
      (i.closed = false → i.low * quarter < n ∧ n < i.high * quarter) := by
  unfold Interval.holds
  cases i.closed
  · simp only [Bool.false_eq_true, if_false, Bool.and_eq_true, decide_eq_true_eq, true_implies]
    omega
  · simp

theorem between_of_holds {i : Interval} {quarter n : Nat} (h : i.holds quarter n = true) :
    Between (i.closed = true) (i.low * quarter : ℚ) n (i.high * quarter) := by
  obtain ⟨hlow, hhigh, hopen⟩ := holds_iff.mp h
  refine ⟨by exact_mod_cast hlow, by exact_mod_cast hhigh, fun hclosed => ?_⟩
  obtain ⟨hlow, hhigh⟩ := hopen (Bool.eq_false_iff.mpr hclosed)
  exact ⟨by exact_mod_cast hlow, by exact_mod_cast hhigh⟩

theorem Tie.pick_cases (tie : Tie) (lower : Nat) :
    tie.pick lower = lower ∨ tie.pick lower = lower + 1 := by
  cases tie with
  | up => exact .inr rfl
  | even =>
    show lower + lower % 2 = lower ∨ lower + lower % 2 = lower + 1
    omega

/-- How far apart the points of the grid `10 ^ e` are. -/
def pointOf (q e : ℤ) : Nat :=
  tenPow e.toNat <<< (-q).toNat

/-- A quarter of the last place of a double, on the same scale. -/
def quarterOf (q e : ℤ) : Nat :=
  tenPow (-e).toNat <<< q.toNat

theorem pointOf_pos (q e : ℤ) : 0 < pointOf q e := by
  rw [pointOf, Nat.shiftLeft_eq]
  exact Nat.mul_pos (tenPow_pos _) (Nat.two_pow_pos _)

theorem quarterOf_pos (q e : ℤ) : 0 < quarterOf q e := by
  rw [quarterOf, Nat.shiftLeft_eq]
  exact Nat.mul_pos (tenPow_pos _) (Nat.two_pow_pos _)

theorem pointOf_div_quarterOf (q e : ℤ) : (pointOf q e : ℚ) / quarterOf q e = 10 ^ e / 2 ^ q := by
  rw [pointOf, quarterOf, shiftLeft_div_shiftLeft, tenPow_div_tenPow]

theorem holds_of_onGrid? {i : Interval} {tie : Tie} {digits : Nat}
    (h : i.onGrid? tie q e = some digits) :
    i.holds (quarterOf q e) (digits * pointOf q e) = true := by
  unfold Interval.onGrid? at h
  dsimp only at h
  rw [← pointOf, ← quarterOf] at h
  split at h
  · next hlower _ => exact Option.some.inj h ▸ hlower
  · next hupper => exact Option.some.inj h ▸ hupper
  · next hlower hupper =>
    split at h
    · exact Option.some.inj h ▸ hlower
    · split at h
      · exact Option.some.inj h ▸ hupper
      · rw [← Option.some.inj h]
        rcases tie.pick_cases (i.mid * quarterOf q e / pointOf q e) with heq | heq <;> rw [heq]
        · exact hlower
        · exact hupper
  · cases h

/-- A grid that is finer than an interval is wide has a point in it. -/
theorem exists_onGrid? {i : Interval} (tie : Tie) (hlow : i.low < i.mid) (hhigh : i.mid < i.high)
    (hfine : pointOf q e + i.low * quarterOf q e < i.high * quarterOf q e) :
    ∃ digits, i.onGrid? tie q e = some digits := by
  rw [← Option.ne_none_iff_exists']
  intro hnone
  unfold Interval.onGrid? at hnone
  dsimp only at hnone
  rw [← pointOf, ← quarterOf] at hnone
  have hquarter := quarterOf_pos q e
  have hpoint := pointOf_pos q e
  generalize quarterOf q e = quarter at *
  generalize pointOf q e = point at *
  have hmid := Nat.div_add_mod (i.mid * quarter) point
  have hmod := Nat.mod_lt (i.mid * quarter) hpoint
  have hlow' := Nat.mul_lt_mul_of_pos_right hlow hquarter
  have hhigh' := Nat.mul_lt_mul_of_pos_right hhigh hquarter
  rw [Nat.mul_comm] at hmid
  generalize i.mid * quarter / point = lower at *
  have hupper : (lower + 1) * point = lower * point + point := Nat.add_one_mul lower point
  have hmiss : i.holds quarter (lower * point) = false ∧
      i.holds quarter ((lower + 1) * point) = false := by
    split at hnone
    · cases hnone
    · cases hnone
    · split at hnone
      · cases hnone
      · split at hnone <;> cases hnone
    · next h₁ h₂ => exact ⟨h₁, h₂⟩
  -- Both neighbours of the middle lie outside, so the interval lies between them.
  have h₁ := mt holds_iff.mpr (Bool.eq_false_iff.mp hmiss.1)
  have h₂ := mt holds_iff.mpr (Bool.eq_false_iff.mp hmiss.2)
  rw [hupper] at h₂
  cases hclosed : i.closed <;> simp only [hclosed, true_implies, reduceCtorEq, false_implies,
    and_true] at h₁ h₂ <;> omega

/-! ## The interval of a double -/

theorem low_ofMantissa (hm : 0 < m) : ((Interval.ofMantissa m).low : ℚ) = 4 * (m - gapBelow m) := by
  unfold Interval.ofMantissa gapBelow
  dsimp only
  split
  · rw [Nat.cast_sub (by omega)]
    push_cast
    ring
  · rw [Nat.cast_sub (by omega)]
    push_cast
    ring

theorem high_ofMantissa (m : Nat) : ((Interval.ofMantissa m).high : ℚ) = 4 * (m + 1 / 2) := by
  show ((4 * m + 2 : Nat) : ℚ) = _
  push_cast
  ring

theorem four_mul_zpow (e : ℤ) : 4 * (2 : ℚ) ^ (e - 2) = 2 ^ e := by
  rw [show (4 : ℚ) = 2 ^ (2 : ℤ) by norm_num, ← zpow_add₀ (by norm_num)]
  congr 1
  ring

/-- A point of a grid that lies in the interval of a double is rounded to the double. -/
theorem roundsTo_of_onGrid? {tie : Tie} {digits : Nat} (hm : 0 < m)
    (h : (Interval.ofMantissa m).onGrid? tie (e - 2) q = some digits) :
    RoundsTo m e (digits * 10 ^ q) := by
  have hquarter : (0 : ℚ) < quarterOf (e - 2) q := Nat.cast_pos.mpr (quarterOf_pos _ _)
  have hbetween := ((between_of_holds (holds_of_onGrid? h)).div hquarter).mul (two_zpow_pos (e - 2))
  have hpoint : ((digits * pointOf (e - 2) q : Nat) : ℚ) / quarterOf (e - 2) q * 2 ^ (e - 2) =
      digits * 10 ^ q := by
    rw [Nat.cast_mul, mul_div_assoc, pointOf_div_quarterOf, mul_assoc,
      div_mul_cancel₀ _ (two_zpow_pos _).ne']
  rw [low_ofMantissa hm, high_ofMantissa, hpoint] at hbetween
  have hclosed : (Interval.ofMantissa m).closed = true ↔ m % 2 = 0 := decide_eq_true_iff
  rw [hclosed] at hbetween
  unfold RoundsTo
  rw [← four_mul_zpow]
  convert hbetween using 1 <;> ring

/-- The interval is wider than the last place of seventeen digits. -/
theorem mantissa_lt (hlt : m < 2 * leadingBit) : (m : ℚ) < 10 ^ 16 * (1 / 2 + gapBelow m) := by
  unfold gapBelow
  split
  · next hm =>
    rw [hm]
    norm_num [leadingBit]
  · have hltQ : (m : ℚ) < 2 * leadingBit := by exact_mod_cast hlt
    norm_num [leadingBit] at hltQ ⊢
    linarith

/-- Seventeen digits are enough. -/
theorem exists_onGrid?_of_leading (tie : Tie) {leading : ℤ} (hm : 0 < m)
    (hlt : m < 2 * leadingBit) (hleading : (10 : ℚ) ^ leading ≤ m * 2 ^ e) :
    ∃ digits, (Interval.ofMantissa m).onGrid? tie (e - 2) (leading - 16) = some digits := by
  have hmid : (Interval.ofMantissa m).low < (Interval.ofMantissa m).mid := by
    show 4 * m - (if m = leadingBit then 1 else 2) < 4 * m
    split <;> omega
  have hhigh : (Interval.ofMantissa m).mid < (Interval.ofMantissa m).high :=
    Nat.lt_add_of_pos_right (by decide)
  refine exists_onGrid? tie hmid hhigh ?_
  have hquarter : (0 : ℚ) < quarterOf (e - 2) (leading - 16) := Nat.cast_pos.mpr (quarterOf_pos _ _)
  have hpos := two_zpow_pos (e - 2)
  have hpoint : (pointOf (e - 2) (leading - 16) : ℚ) / quarterOf (e - 2) (leading - 16) <
      4 * (1 / 2 + gapBelow m) := by
    rw [pointOf_div_quarterOf, div_lt_iff₀ hpos, zpow_sub₀ (by norm_num), div_lt_iff₀ (by norm_num)]
    calc (10 : ℚ) ^ leading ≤ m * 2 ^ e := hleading
      _ = m * (4 * 2 ^ (e - 2)) := by rw [four_mul_zpow]
      _ < 10 ^ 16 * (1 / 2 + gapBelow m) * (4 * 2 ^ (e - 2)) :=
          mul_lt_mul_of_pos_right (mantissa_lt hlt) (by positivity)
      _ = 4 * (1 / 2 + gapBelow m) * 2 ^ (e - 2) * 10 ^ (16 : ℤ) := by norm_num; ring
  rw [div_lt_iff₀ hquarter] at hpoint
  have hends : (pointOf (e - 2) (leading - 16) : ℚ) +
      (Interval.ofMantissa m).low * quarterOf (e - 2) (leading - 16) <
        (Interval.ofMantissa m).high * quarterOf (e - 2) (leading - 16) := by
    rw [low_ofMantissa hm, high_ofMantissa]
    linarith
  exact_mod_cast hends

/-- What is written for a double is rounded to the double. -/
theorem roundsTo_shortest (tie : Tie) (hm : 0 < m) (hlt : m < 2 * leadingBit) :
    RoundsTo m e ((shortest tie m e).digits * 10 ^ (shortest tie m e).exponent) := by
  have hden : 0 < 1 <<< (-e).toNat := by
    rw [Nat.shiftLeft_eq]
    positivity
  have hnum : 0 < m <<< (- -e).toNat := by
    rw [Nat.shiftLeft_eq]
    positivity
  have hleading := leadingExponent_le hnum hden
  rw [shiftLeft_div_shiftLeft, Nat.cast_one, div_one, zpow_neg, div_inv_eq_mul] at hleading
  unfold shortest
  dsimp only [scaleDown]
  generalize leadingExponent _ _ = leading at *
  obtain ⟨digits, hdigits⟩ := exists_onGrid?_of_leading tie hm hlt hleading
  cases hhit : (List.range 17).findSome? fun (more : Nat) =>
      ((Interval.ofMantissa m).onGrid? tie (e - 2) (leading - more)).map fun digits =>
        if digits = tenPow (more + 1) then (⟨1, leading + 1⟩ : Scientific)
        else ⟨digits, leading - more⟩ with
  | none =>
    have := List.findSome?_eq_none_iff.mp hhit 16 (by decide)
    rw [Option.map_eq_none_iff] at this
    cases hdigits.symm.trans this
  | some s =>
    obtain ⟨more, -, hmore⟩ := List.exists_of_findSome?_eq_some hhit
    obtain ⟨digits, hgrid, rfl⟩ := Option.map_eq_some_iff.mp hmore
    have hround := roundsTo_of_onGrid? hm hgrid
    rw [Option.getD_some]
    split
    · next hten =>
      -- A power of ten with the next exponent is the same number.
      rw [hten, cast_tenPow, ← zpow_natCast, ← zpow_add₀ (by norm_num)] at hround
      convert hround using 1
      rw [Nat.cast_one, one_mul]
      congr 1
      push_cast
      ring
    · exact hround

end ImageCircuit.Decimal
