import ImageCircuit.Decimal.Binary
import Mathlib

/-!
# The parts of a double

A double is its bits, of which only one pattern stands for the value that is not a number. Cutting
the bits into parts and counting them together again gives the same double. This is the one module
that imports the whole of Mathlib: no single file of it brings the lemmas on the bits of a double,
`Float.ofBits_toBits` and `Float.toBits_inj`.

* `Decimal.eq_signed`: a double is its sign and its magnitude
* `Decimal.ofFloat_nan`, `Decimal.ofFloat_infinite`, `Decimal.ofFloat_finite`: the double with some
  parts
-/

namespace ImageCircuit.Decimal

open Float.Model.UnpackedFloat

variable {x : Float} {negative : Bool} {m : Nat} {e : Int}

/-- The mantissa and the exponent of a finite double. -/
structure IsDouble (m : Nat) (e : Int) : Prop where
  lt : m < 2 * leadingBit
  minExponent_le : minExponent ≤ e
  le_maxExponent : e ≤ 971
  leadingBit_le : leadingBit ≤ m ∨ e = minExponent

/-- The bits of the magnitude of a finite double. -/
def magnitudeBits (m : Nat) (e : Int) : Nat :=
  (e - minExponent).toNat * leadingBit + m

/-- A double is its sign and its magnitude. -/
theorem eq_signed (x : Float) :
    x = signed (signBit ≤ x.toBits.toNat) (x.toBits.toNat % signBit) := by
  have hlt : x.toBits.toNat < 2 * signBit := x.toBits.toNat_lt
  have hbits : (if signBit ≤ x.toBits.toNat then signBit + x.toBits.toNat % signBit
      else x.toBits.toNat % signBit) = x.toBits.toNat := by
    by_cases hneg : signBit ≤ x.toBits.toNat
    · rw [if_pos hneg]
      simp only [signBit] at *
      omega
    · rw [if_neg hneg, Nat.mod_eq_of_lt (Nat.not_le.mp hneg)]
  simp only [signed, decide_eq_true_eq, hbits, UInt64.ofNat_toNat, Float.ofBits_toBits]

theorem toNat_unpackExponent (b : BitVec 64) :
    (@unpackExponent .binary64 b).toNat = b.toNat / leadingBit % 2048 := by
  show (b.extractLsb 62 52).toNat = _
  rw [BitVec.extractLsb_toNat, Nat.shiftRight_eq_div_pow]
  rfl

theorem toNat_unpackMantissa (b : BitVec 64) :
    (@unpackMantissa .binary64 b).toNat = b.toNat % leadingBit := by
  show (b.extractLsb 51 0).toNat = _
  rw [BitVec.extractLsb_toNat]
  rfl

/-- Only one double is not a number. -/
theorem ofFloat_nan (h : Parts.ofFloat x = .nan) : x = 0 / 0 := by
  have hbits : x.toBits.toBitVec = (0 / 0 : Float).toBits.toBitVec := by
    unfold Parts.ofFloat Parts.ofBits at h
    dsimp only at h
    split at h
    · next hexponent =>
      split at h
      · cases h
      · next hfraction =>
        refine x.toModel.valid.eq_packedNaN (BitVec.eq_of_toNat_eq ?_) fun hzero => hfraction ?_
        · rw [toNat_unpackExponent]
          exact hexponent
        · have := congrArg BitVec.toNat hzero
          rwa [toNat_unpackMantissa] at this
    · split at h <;> cases h
  exact Float.toBits_inj.mp (UInt64.toBitVec_inj.mp hbits)

theorem ofFloat_infinite (h : Parts.ofFloat x = .infinite negative) :
    x = signed negative infinityBits := by
  unfold Parts.ofFloat Parts.ofBits at h
  dsimp only at h
  split at h
  · split at h
    · next hexponent hfraction =>
      cases h
      have hmagnitude : x.toBits.toNat % signBit = infinityBits := by
        simp only [signBit, leadingBit, infinityBits] at *
        omega
      rw [← hmagnitude]
      exact eq_signed x
    · cases h
  · split at h <;> cases h

theorem ofFloat_finite (h : Parts.ofFloat x = .finite negative m e) :
    IsDouble m e ∧ x = signed negative (magnitudeBits m e) := by
  have hfraction : x.toBits.toNat % leadingBit < leadingBit := Nat.mod_lt _ (by decide)
  have hexponent : x.toBits.toNat / leadingBit % 2048 < 2048 := Nat.mod_lt _ (by decide)
  -- The fields below the sign bit, one behind the other.
  have hfields : x.toBits.toNat % signBit =
      x.toBits.toNat / leadingBit % 2048 * leadingBit + x.toBits.toNat % leadingBit := by
    simp only [signBit, leadingBit]
    omega
  unfold Parts.ofFloat Parts.ofBits at h
  dsimp only at h
  split at h
  · split at h <;> cases h
  · next hnotOnes =>
    split at h
    · next hzero =>
      cases h
      refine ⟨⟨by omega, Int.le_refl _, by decide, .inr rfl⟩, ?_⟩
      have hmagnitude : magnitudeBits (x.toBits.toNat % leadingBit) minExponent =
          x.toBits.toNat % signBit := by
        rw [hfields, hzero, magnitudeBits, Int.sub_self]
        rfl
      rw [hmagnitude]
      exact eq_signed x
    · next hnonzero =>
      cases h
      have hmagnitude : magnitudeBits (leadingBit + x.toBits.toNat % leadingBit)
          (minExponent + (x.toBits.toNat / leadingBit % 2048 - 1 : Nat)) =
            x.toBits.toNat % signBit := by
        rw [hfields, magnitudeBits, add_sub_cancel_left, Int.toNat_natCast, Nat.sub_mul,
          Nat.one_mul]
        have : leadingBit ≤ x.toBits.toNat / leadingBit % 2048 * leadingBit :=
          Nat.le_mul_of_pos_left _ (Nat.pos_of_ne_zero hnonzero)
        omega
      refine ⟨⟨by omega, ?_, ?_, .inl (Nat.le_add_right _ _)⟩, ?_⟩
      · omega
      · show -1074 + _ ≤ (971 : Int)
        omega
      · rw [hmagnitude]
        exact eq_signed x

end ImageCircuit.Decimal
