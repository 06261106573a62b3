import Arbor.Number.Word
import Arbor.Proofs.Number.Remainder

/-!
# Words are exact

Each step from a double to a word is exact: the cut, the remainder, the unsigned word and its sign.
The word is the one integer of its range that is congruent to the integer part of the double, and a
word that becomes a double is read back from it.
-/
namespace Arbor.Number

open Float.Model (UnpackedFloat)
open Float.Model.UnpackedFloat
open Float.Model.Format (binary64)

/-- The integer part as machines take it: zeros are added behind the bits, or bits are cut off. -/
theorem towardZero_apply (s : Sign) (m : ℕ) (e : ℤ) :
    towardZero (s.apply m * 2 ^ e) = s.apply ((m <<< e.toNat) >>> (-e).toNat : ℕ) := by
  have hquotient : (s.apply m * 2 ^ e : ℚ) =
      (s.apply (m <<< e.toNat : ℕ) : ℤ) / ((2 ^ (-e).toNat : ℕ) : ℤ) := by
    rw [← apply_shiftLeft_mul_zpow s m e.toNat e,
      show e - e.toNat = -((-e).toNat : ℤ) by omega, zpow_neg, zpow_natCast, div_eq_mul_inv]
    norm_cast
  rw [hquotient, towardZero_div, Nat.shiftRight_eq_div_pow]
  cases s with
  | positive => exact Int.ofNat_tdiv ..
  | negative => exact (Int.neg_tdiv ..).trans (congrArg _ (Int.ofNat_tdiv ..))

theorem mantissa_shiftRight (extended : ExtendedMantissa) (k : ℕ) :
    (extended >>> k).mantissa = extended.mantissa >>> k := by
  change (k.repeat ExtendedMantissa.shiftRightOne extended).mantissa = _
  induction k with
  | zero => rfl
  | succ k ih => rw [Nat.repeat, Nat.shiftRight_succ, ← ih, ExtendedMantissa.shiftRightOne]

theorem roundToInt_eq (s : Sign) (m : ℕ) (e : ℤ) :
    roundToInt s m e = towardZero (s.apply m * 2 ^ e) := by
  unfold roundToInt decreaseExponent shiftToExponent
  dsimp only
  rw [mantissa_shiftRight, towardZero_apply]
  change s.apply ((m <<< (e - 0).toNat) >>> (0 - (e - (e - 0).toNat)).toNat : ℕ) = _
  rw [sub_zero, show 0 - (e - (e.toNat : ℤ)) = ((-e).toNat : ℤ) by omega, Int.toNat_natCast]

variable {x : Float} {q : ℚ} {n : ℕ}

theorem Denotes.toInt (h : Denotes x q) (low high : ℤ) :
    x.toModel.unpack.toInt low high = towardZero q := by
  obtain ⟨s, hunpack, rfl⟩ | ⟨s, m, e, hm, hunpack, rfl, -⟩ := h.unpack_cases
  · rw [hunpack]
    rfl
  · rw [hunpack]
    exact roundToInt_eq s m e

theorem Denotes.toUInt32 (h : Denotes x n) (hn : n < 2 ^ 32) : x.toUInt32 = .ofNat n := by
  change UInt32.ofNatClamp (x.toModel.unpack.toInt 0 (UInt32.size - 1)).toNat = _
  rw [h.toInt, show towardZero (n : ℚ) = n from towardZero_intCast n, Int.toNat_natCast,
    UInt32.ofNatClamp_eq_ofNat n hn]

theorem Denotes.truncate (h : Denotes x q) : Denotes (truncate x) (towardZero q) := by
  unfold Number.truncate
  obtain ⟨s, hunpack, rfl⟩ | ⟨s, m, e, hm, hunpack, rfl, hcanonical⟩ := h.unpack_cases
  · rw [hunpack]
    simpa [towardZero] using h
  · rw [hunpack, towardZero_apply]
    dsimp only
    split
    · next he =>
      have halign := apply_align s m he
      rw [sub_zero, zpow_zero, mul_one] at halign
      rwa [show (-e).toNat = 0 by omega, Nat.shiftRight_zero, halign]
    · next he =>
      have hwidth : m >>> (-e).toNat < 2 ^ 53 :=
        (Nat.shiftRight_le ..).trans_lt hcanonical.width
      have hround := denotes_round (s := s) (e := 0)
        (fits_of_width hwidth (by decide) (by decide))
      rw [zpow_zero, mul_one] at hround
      rwa [show e.toNat = 0 by omega, Nat.shiftLeft_zero]

theorem Denotes.toWord (h : Denotes x q) : toWord x = .ofInt (towardZero q) := by
  unfold Number.toWord
  rw [if_pos h.finite]
  obtain ⟨n, hn⟩ : ∃ n : ℕ, (n : ℤ) = towardZero q % 2 ^ 32 :=
    ⟨(towardZero q % 2 ^ 32).toNat, by omega⟩
  have hmodulo := h.truncate.modulo
  rw [← hn, Int.cast_natCast] at hmodulo
  rw [hmodulo.toUInt32 (by omega)]
  refine Int32.toBitVec_inj.mp (BitVec.eq_of_toNat_eq ?_)
  rw [Int32.toBitVec_ofInt, BitVec.toNat_ofInt]
  change n % 2 ^ 32 = _
  omega

/-- A finite double is read as the one word that is congruent to its integer part. -/
theorem Denotes.eq_toWord_iff (h : Denotes x q) (i : ℤ) :
    i = (Number.toWord x).toInt ↔
      -2 ^ 31 ≤ i ∧ i < 2 ^ 31 ∧ i ≡ towardZero q [ZMOD 2 ^ 32] := by
  rw [h.toWord, Int32.toInt_ofInt, eq_comm, Int.bmod_eq_iff (by decide), Int.modEq_comm,
    Int.modEq_iff_dvd]
  rfl

theorem isFinite_eq_false (h : x.isNaN = true ∨ x.isInf = true) : x.isFinite = false := by
  change x.toModel.unpack.isNaN = true ∨ x.toModel.unpack.isInf = true at h
  change x.toModel.unpack.isFinite = false
  cases hunpack : x.toModel.unpack with
  | notANumber | infinity => rfl
  | zero | finite =>
    rw [hunpack] at h
    rcases h with h | h <;> cases h

theorem toWord_of_not_finite (h : x.isFinite = false) : toWord x = 0 := by
  unfold toWord
  rw [h]
  rfl

theorem denotes_ofWord (w : Int32) : Denotes (ofWord w) w.toInt := by
  have hless := w.toInt_lt
  have hmore := w.le_toInt
  have hfits : Fits (w.toInt * 2 ^ (0 : ℤ)) := by
    rw [zpow_zero, mul_one]
    exact fits_intCast (by omega)
  have hnormalize := denotes_normalize hfits .positive
  rwa [zpow_zero, mul_one] at hnormalize

end Arbor.Number
