import Mathlib

/-!
# Doubles as rational numbers

A finite double is a rational number: a significand of at most 53 bits times a power of two from a
range. Rounding leaves such a number as it is, however many zeros are written behind its bits, and
packing keeps what rounding makes. What rounds an exact result once is therefore exact where that
result is a double; a sum is the first case.
-/
namespace Arbor.Number

open Float.Model (UnpackedFloat totalExponent)
open Float.Model.UnpackedFloat
open Float.Model.Format (binary64)

/-- The significands and exponents of finite doubles. The leading bit of the 53 may be missing only
at the least exponent. -/
structure Canonical (m : ℕ) (e : ℤ) : Prop where
  width : m < 2 ^ 53
  least : -1074 ≤ e
  most : e ≤ 971
  full : 2 ^ 52 ≤ m ∨ e = -1074

variable {s : Sign} {m n : ℕ} {e d : ℤ}

theorem toNat_implicit (v : BitVec 52) : (1#1 ++ v).toNat = 2 ^ 52 + v.toNat := by
  rw [BitVec.toNat_append, ← Nat.shiftLeft_add_eq_or_of_lt v.isLt]
  rfl

theorem canonical_unpack {x : Float} {hm : 0 < m} (h : x.toModel.unpack = .finite s m e hm) :
    Canonical m e := by
  change unpack binary64 x.toModel.toBits.toBitVec = _ at h
  revert h
  fun_cases unpack binary64 x.toModel.toBits.toBitVec with
  | case1 => nofun
  | case2 => nofun
  | case3 => nofun
  | case4 mantissa biased exponent _ _ hinfinite hzero hmantissa =>
    intro h
    obtain ⟨-, rfl, rfl⟩ := UnpackedFloat.finite.inj h
    have hwidth : mantissa.toNat < 2 ^ 52 := mantissa.isLt
    have hexponent : exponent = -1075 := by
      change (biased.toNat : ℤ) - (1023 + 52) = -1075
      rw [hzero]
      rfl
    exact ⟨by omega, by omega, by omega, Or.inr (by omega)⟩
  | case5 mantissa biased exponent _ _ hinfinite hzero =>
    intro h
    obtain ⟨-, rfl, rfl⟩ := UnpackedFloat.finite.inj h
    have hwidth : mantissa.toNat < 2 ^ 52 := mantissa.isLt
    have hbiased : biased.toNat < 2 ^ 11 := biased.isLt
    have hleast : biased.toNat ≠ 0 := fun h => hzero (BitVec.eq_of_toNat_eq h)
    have hmost : biased.toNat ≠ 2047 := fun h => hinfinite (BitVec.eq_of_toNat_eq h)
    have hexponent : exponent = (biased.toNat : ℤ) - (1023 + 52) := rfl
    rw [show (1#1 ++ mantissa).toNat = 2 ^ 52 + mantissa.toNat from toNat_implicit mantissa]
    exact ⟨by omega, by omega, by omega, Or.inl (by omega)⟩

theorem unpack_normal {biased : BitVec 11} {mantissa : BitVec 52} {hm : 0 < m}
    (hinfinite : biased.toNat ≠ 2047) (hzero : biased.toNat ≠ 0)
    (hmantissa : 2 ^ 52 + mantissa.toNat = m) (hbiased : (biased.toNat : ℤ) = e + 1075) :
    unpack binary64 (packComponents binary64 s biased mantissa) = .finite s m e hm := by
  unfold unpack
  simp only [unpackSign_packComponents, unpackExponent_packComponents,
    unpackMantissa_packComponents, Sign.ofBitVec_toBitVec]
  rw [if_neg (fun h => hinfinite (congrArg BitVec.toNat h)),
    if_neg (fun h => hzero (congrArg BitVec.toNat h))]
  congr 1
  · exact (toNat_implicit mantissa).trans hmantissa
  · change (biased.toNat : ℤ) - (1023 + 52) = e
    omega

theorem unpack_subnormal {mantissa : BitVec 52} {hm : 0 < m} (hmantissa : mantissa.toNat = m) :
    unpack binary64 (packComponents binary64 s 0#11 mantissa) = .finite s m (-1074) hm := by
  have hne : mantissa ≠ 0#52 := fun h => hm.ne' (hmantissa.symm.trans (congrArg BitVec.toNat h))
  unfold unpack
  simp only [unpackSign_packComponents, unpackExponent_packComponents,
    unpackMantissa_packComponents, Sign.ofBitVec_toBitVec]
  rw [if_neg (by decide), if_pos trivial, dif_neg hne]
  congr 1

theorem unpack_pack {hm : 0 < m} (h : Canonical m e) :
    (Float.Model.pack (.finite s m e hm)).unpack = .finite s m e hm := by
  obtain ⟨hwidth, hleast, hmost, hfull⟩ := h
  have hne : m ≠ 0 := hm.ne'
  obtain ⟨b, hb⟩ : ∃ b : ℕ, (b : ℤ) = e + 1075 := ⟨(e + 1075).toNat, by omega⟩
  have hbias : (e + (1023 : ℕ) + (52 : ℕ)).toNat = b := by omega
  have hbiased : (BitVec.ofNat 11 b).toNat = b := Nat.mod_eq_of_lt (by omega)
  have hmantissa : (BitVec.ofNat 52 m).toNat = m % 2 ^ 52 := rfl
  change unpack binary64 (if 2 ^ 11 ≤ (e + (1023 : ℕ) + (52 : ℕ)).toNat + 1 then _
    else if m.log2 + 1 = 53
    then packComponents binary64 s (.ofNat 11 (e + (1023 : ℕ) + (52 : ℕ)).toNat) (.ofNat 52 m)
    else packComponents binary64 s 0#11 (.ofNat 52 m)) = _
  rw [hbias, if_neg (by omega)]
  split
  · next hlog =>
    obtain ⟨hlow, -⟩ := (Nat.log2_eq_iff hne).mp (show m.log2 = 52 by omega)
    exact unpack_normal (by omega) (by omega) (by omega) (by omega)
  · next hlog =>
    have hlow : m < 2 ^ 52 := by
      have hlog' := (Nat.log2_lt hne).mpr hwidth
      exact (Nat.log2_lt hne).mp (by omega)
    obtain rfl : e = -1074 := hfull.resolve_left (by omega)
    exact unpack_subnormal (Nat.mod_eq_of_lt hlow)

def aim (m : ℕ) (e : ℤ) : ℤ := max (m.log2 + e - 52) (-1074)

theorem targetExponent_eq (m : ℕ) (e : ℤ) :
    binary64.targetExponent (totalExponent m e) = aim m e := by
  change max ((m.log2 : ℤ) + 1 + e - (53 : ℕ)) (3 - 2 ^ 10 - (53 : ℕ)) = _
  unfold aim
  omega

theorem log2_shiftLeft (hm : 0 < m) (k : ℕ) : (m <<< k).log2 = m.log2 + k := by
  obtain ⟨hlow, hhigh⟩ := (Nat.log2_eq_iff hm.ne').mp rfl
  refine (Nat.log2_eq_iff (Nat.shiftLeft_pos_iff.mpr hm).ne').mpr ⟨?_, ?_⟩
  · rw [Nat.shiftLeft_eq, pow_add]
    exact Nat.mul_le_mul_right _ hlow
  · rw [Nat.shiftLeft_eq, add_right_comm, pow_add]
    exact Nat.mul_lt_mul_of_pos_right hhigh (by positivity)

theorem aim_shiftLeft (hm : 0 < m) (e : ℤ) (k : ℕ) : aim (m <<< k) (e - k) = aim m e := by
  unfold aim
  rw [log2_shiftLeft hm]
  omega

theorem aim_le (hwidth : m < 2 ^ 53) (hleast : -1074 ≤ e) : aim m e ≤ e := by
  have hlog : m.log2 ≤ 52 := by
    rcases Nat.eq_zero_or_pos m with rfl | hm
    · decide
    · exact Nat.le_of_lt_succ ((Nat.log2_lt hm.ne').mpr hwidth)
  unfold aim
  omega

theorem canonical_aim (hm : 0 < m) (haim : aim m e ≤ e) (hmost : aim m e ≤ 971) :
    Canonical (m <<< (e - aim m e).toNat) (aim m e) := by
  have hne : m <<< (e - aim m e).toNat ≠ 0 := (Nat.shiftLeft_pos_iff.mpr hm).ne'
  have hlog := log2_shiftLeft hm (e - aim m e).toNat
  have hsum : (m.log2 : ℤ) + e - 52 ≤ aim m e := le_max_left ..
  refine ⟨(Nat.log2_lt hne).mp (by omega), le_max_right .., hmost, ?_⟩
  by_cases hleast : aim m e = -1074
  · exact Or.inr hleast
  · have hfull : aim m e = m.log2 + e - 52 := (max_choice ..).resolve_right hleast
    exact Or.inl ((Nat.le_log2 hne).mp (by omega))

theorem shiftRight_exact (m : ℕ) {n k : ℕ} (h : k ≤ n) :
    (⟨m <<< n, false, false⟩ : ExtendedMantissa) >>> k = ⟨m <<< (n - k), false, false⟩ := by
  change k.repeat ExtendedMantissa.shiftRightOne _ = _
  induction k with
  | zero => rfl
  | succ k ih =>
    rw [Nat.repeat, ih (by omega), show n - k = n - (k + 1) + 1 by omega]
    simp [ExtendedMantissa.shiftRightOne, Nat.shiftLeft_succ]

theorem roundedMantissa_exact (m : ℕ) :
    (⟨m, false, false⟩ : ExtendedMantissa).roundedMantissa = m := by
  simp [ExtendedMantissa.roundedMantissa, ExtendedMantissa.accuracy, Accuracy.roundToNearestEven]

theorem shiftToTargetExponent_exact (hm : 0 < m) (haim : aim m e ≤ e) {k : ℕ}
    (hk : e ≤ aim m e + k) :
    shiftToTargetExponent binary64 (m <<< k) (e - k) .exact =
      (⟨m <<< (e - aim m e).toNat, false, false⟩, aim m e) := by
  unfold shiftToTargetExponent shiftToExponent
  dsimp only
  rw [targetExponent_eq, aim_shiftLeft hm]
  refine Prod.ext ?_ ?_
  · refine (shiftRight_exact m (by omega)).trans ?_
    congr 2
    omega
  · dsimp only
    omega

theorem roundWithAccuracy_exact (hm : 0 < m) (haim : aim m e ≤ e) {k : ℕ}
    (hk : e ≤ aim m e + k) (hpos : 0 < m <<< (e - aim m e).toNat) :
    roundWithAccuracy binary64 s (m <<< k) (e - k) .exact =
      .finite s (m <<< (e - aim m e).toNat) (aim m e) hpos := by
  have hfirst := shiftToTargetExponent_exact hm haim hk
  -- nothing was rounded up, so the second shift finds the number in its place
  have hsecond := shiftToTargetExponent_exact hm haim (k := (e - aim m e).toNat) (by omega)
  rw [show e - (e - aim m e).toNat = aim m e by omega] at hsecond
  unfold roundWithAccuracy
  simp only [hfirst, roundedMantissa_exact, hsecond]
  rw [dif_neg hpos.ne']

/-- Rounding fills up or takes away zeros behind a significand that has room. -/
theorem round_exact (hm : 0 < m) (haim : aim m e ≤ e) (k : ℕ)
    (hpos : 0 < m <<< (e - aim m e).toNat) :
    UnpackedFloat.round binary64 s (m <<< k) (e - k) =
      .finite s (m <<< (e - aim m e).toNat) (aim m e) hpos := by
  unfold UnpackedFloat.round decreaseExponent
  dsimp only
  rw [targetExponent_eq, aim_shiftLeft hm]
  obtain ⟨j, hj⟩ : ∃ j, (e - k - aim m e).toNat = j := ⟨_, rfl⟩
  rw [hj, ← Nat.shiftLeft_add, show e - (k : ℤ) - j = e - (k + j : ℕ) by omega]
  exact roundWithAccuracy_exact hm haim (by omega) hpos

theorem round_zero (s : Sign) (e : ℤ) : UnpackedFloat.round binary64 s 0 e = .zero s := by
  have hshift (e : ℤ) : (shiftToTargetExponent binary64 0 e .exact).1 = ⟨0, false, false⟩ := by
    have h := shiftRight_exact 0 (le_refl (binary64.targetExponent (totalExponent 0 e) - e).toNat)
    rw [Nat.zero_shiftLeft, Nat.zero_shiftLeft] at h
    exact h
  unfold UnpackedFloat.round decreaseExponent
  simp only [Nat.zero_shiftLeft]
  unfold roundWithAccuracy
  simp only [hshift, roundedMantissa_exact]
  rfl

/-- The rational number that an unpacked double is. One that is not finite counts as zero. -/
def amount : UnpackedFloat → ℚ
  | .finite s m e _ => s.apply m * 2 ^ e
  | _ => 0

def value (x : Float) : ℚ := amount x.toModel.unpack

structure Denotes (x : Float) (q : ℚ) : Prop where
  finite : x.isFinite = true
  value_eq : value x = q

/-- Up to the sign, a number of 53 bits times a power of two from the range. -/
def Fits (q : ℚ) : Prop := ∃ (n : ℕ) (d : ℤ), n < 2 ^ 53 ∧ -1074 ≤ d ∧ d ≤ 971 ∧ |q| = n * 2 ^ d

theorem fits_of_width (hwidth : m < 2 ^ 53) (hleast : -1074 ≤ e) (hmost : e ≤ 971) :
    Fits (m * 2 ^ e) :=
  ⟨m, e, hwidth, hleast, hmost, abs_of_nonneg (by positivity)⟩

theorem fits_intCast {i : ℤ} (h : i.natAbs < 2 ^ 53) : Fits i :=
  ⟨i.natAbs, 0, h, by decide, by decide, by simp⟩

theorem Fits.neg {q : ℚ} (h : Fits q) : Fits (-q) := by
  unfold Fits
  rwa [abs_neg]

theorem shiftLeft_mul_zpow (m k : ℕ) (e : ℤ) :
    ((m <<< k : ℕ) : ℚ) * 2 ^ (e - k) = m * 2 ^ e := by
  rw [Nat.shiftLeft_eq, Nat.cast_mul, Nat.cast_pow, Nat.cast_two, mul_assoc, ← zpow_natCast,
    ← zpow_add₀ two_ne_zero, add_sub_cancel]

theorem apply_shiftLeft_mul_zpow (s : Sign) (m k : ℕ) (e : ℤ) :
    (s.apply (m <<< k : ℕ) : ℚ) * 2 ^ (e - k) = s.apply m * 2 ^ e := by
  cases s with
  | positive => exact shiftLeft_mul_zpow m k e
  | negative =>
    simp only [Sign.apply, Int.cast_neg, Int.cast_natCast, neg_mul, shiftLeft_mul_zpow]

theorem apply_align (s : Sign) (m : ℕ) (h : d ≤ e) :
    (s.apply (m <<< (e - d).toNat : ℕ) : ℚ) * 2 ^ d = s.apply m * 2 ^ e := by
  have hshift := apply_shiftLeft_mul_zpow s m (e - d).toNat e
  rwa [show e - ((e - d).toNat : ℤ) = d by omega] at hshift

theorem eq_shiftLeft (h : (m : ℚ) * 2 ^ e = n * 2 ^ d) (hle : e ≤ d) :
    m = n <<< (d - e).toNat := by
  have halign := apply_align .positive n hle
  simp only [Sign.apply, Int.cast_natCast] at halign
  rw [← h] at halign
  exact_mod_cast (mul_right_cancel₀ (by positivity) halign).symm

/-- What fits is a significand that has room, with zeros behind it. -/
theorem Fits.exists_shift (hm : 0 < m) (h : Fits (m * 2 ^ e)) :
    ∃ (n k : ℕ) (d : ℤ), 0 < n ∧ m = n <<< k ∧ e = d - k ∧ aim n d ≤ d ∧ aim n d ≤ 971 := by
  obtain ⟨n, d, hwidth, hleast, hmost, habs⟩ := h
  rw [abs_of_nonneg (by positivity)] at habs
  have haim : aim n d ≤ d := aim_le hwidth hleast
  rcases le_total e d with hle | hle
  · obtain rfl := eq_shiftLeft habs hle
    exact ⟨n, _, d, Nat.shiftLeft_pos_iff.mp hm, rfl, by omega, haim, by omega⟩
  · have hn := eq_shiftLeft habs.symm hle
    have hwidth' : m < 2 ^ 53 := Nat.le_shiftLeft.trans_lt (hn ▸ hwidth)
    have haim' := aim_shiftLeft hm e (e - d).toNat
    rw [← hn, show e - ((e - d).toNat : ℤ) = d by omega] at haim'
    exact ⟨m, 0, e, hm, rfl, by simp, aim_le hwidth' (by omega), by omega⟩

theorem denotes_zero (s : Sign) : Denotes (.ofModel (.pack (.zero s))) 0 := by
  cases s <;> exact ⟨rfl, rfl⟩

theorem denotes_pack {hm : 0 < m} (h : Canonical m e) :
    Denotes (.ofModel (.pack (.finite s m e hm))) (s.apply m * 2 ^ e) := by
  have hunpack : (Float.Model.pack (.finite s m e hm)).unpack = .finite s m e hm := unpack_pack h
  exact ⟨congrArg UnpackedFloat.isFinite hunpack, congrArg amount hunpack⟩

theorem denotes_round (h : Fits (m * 2 ^ e)) :
    Denotes (.ofModel (.pack (UnpackedFloat.round binary64 s m e))) (s.apply m * 2 ^ e) := by
  rcases Nat.eq_zero_or_pos m with rfl | hm
  · have hzero : (s.apply (0 : ℕ) : ℚ) * 2 ^ e = 0 := by cases s <;> simp [Sign.apply]
    rw [round_zero, hzero]
    exact denotes_zero s
  · obtain ⟨n, k, d, hn, rfl, rfl, haim, hmost⟩ := h.exists_shift hm
    rw [round_exact hn haim k (Nat.shiftLeft_pos_iff.mpr hn), apply_shiftLeft_mul_zpow,
      ← apply_align s n haim]
    exact denotes_pack (canonical_aim hn haim hmost)

theorem denotes_normalize {i : ℤ} (h : Fits (i * 2 ^ e)) (s : Sign) :
    Denotes (.ofModel (.pack (UnpackedFloat.normalize binary64 i e s))) (i * 2 ^ e) := by
  unfold UnpackedFloat.normalize
  rcases lt_trichotomy i 0 with hi | rfl | hi
  · obtain ⟨m, rfl⟩ : ∃ m : ℕ, i = -m := ⟨(-i).toNat, by omega⟩
    rw [Int.compare_eq_lt.mpr hi, neg_neg, Int.toNat_natCast]
    exact denotes_round (by simpa using h.neg)
  · simpa using denotes_zero s
  · obtain ⟨m, rfl⟩ := Int.eq_ofNat_of_zero_le hi.le
    rw [Int.compare_eq_gt.mpr hi, Int.toNat_natCast]
    exact denotes_round (by simpa using h)

variable {x y : Float} {p q : ℚ}

theorem Denotes.unpack_cases (h : Denotes x q) :
    (∃ s, x.toModel.unpack = .zero s ∧ q = 0) ∨
      ∃ s m e hm, x.toModel.unpack = .finite s m e hm ∧ q = s.apply m * 2 ^ e ∧
        Canonical m e := by
  obtain ⟨hfinite, rfl⟩ := h
  change x.toModel.unpack.isFinite = true at hfinite
  unfold value
  cases hunpack : x.toModel.unpack with
  | notANumber =>
    rw [hunpack] at hfinite
    cases hfinite
  | infinity s =>
    rw [hunpack] at hfinite
    cases hfinite
  | zero s => exact Or.inl ⟨s, rfl, rfl⟩
  | finite s m e hm => exact Or.inr ⟨s, m, e, hm, rfl, rfl, canonical_unpack hunpack⟩

theorem Denotes.notNan (h : Denotes x q) : x.isNaN = false := by
  change x.toModel.unpack.isNaN = false
  obtain ⟨s, hunpack, -⟩ | ⟨s, m, e, hm, hunpack, -⟩ := h.unpack_cases <;>
    rw [hunpack] <;> rfl

theorem Denotes.add (hx : Denotes x p) (hy : Denotes y q) (h : Fits (p + q)) :
    Denotes (x + y) (p + q) := by
  change Denotes (.ofModel (.pack (UnpackedFloat.add binary64 x.toModel.unpack y.toModel.unpack))) _
  obtain ⟨s, hleft, rfl⟩ | ⟨s, m, e, hm, hleft, rfl, hcanonical⟩ := hx.unpack_cases <;>
    obtain ⟨t, hright, rfl⟩ | ⟨t, n, d, hn, hright, rfl, hcanonical'⟩ := hy.unpack_cases <;>
    rw [hleft, hright]
  · rw [add_zero]
    unfold UnpackedFloat.add
    dsimp only
    split <;> exact denotes_zero _
  · rw [zero_add]
    exact denotes_pack hcanonical'
  · rw [add_zero]
    exact denotes_pack hcanonical
  · have hsum : (s.apply m * 2 ^ e + t.apply n * 2 ^ d : ℚ) =
        (s.apply (m <<< (e - min e d).toNat : ℕ) + t.apply (n <<< (d - min e d).toNat : ℕ) : ℤ) *
          2 ^ min e d := by
      rw [Int.cast_add, add_mul, apply_align s m (min_le_left ..),
        apply_align t n (min_le_right ..)]
    rw [hsum] at h ⊢
    exact denotes_normalize h .positive

end Arbor.Number
