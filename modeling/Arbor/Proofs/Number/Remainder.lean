import Arbor.Number.Remainder
import Arbor.Proofs.Number.Exact
import Arbor.Proofs.Number.Order

/-!
# Remainders are exact

The remainder of two finite doubles is what is left of the first when the second is taken from it
as often as their quotient, cut toward zero, says. No bit of it is rounded. Of an integer and
`2 ^ 32` the remainder that is not below zero is exact, too, since the sum that it may take has no
more than 32 bits.
-/
namespace Arbor.Number

open Float.Model (UnpackedFloat)
open Float.Model.UnpackedFloat

/-- The integer part of a rational number, which is left when the fraction is cut off. -/
def towardZero (q : ℚ) : ℤ := if 0 ≤ q then ⌊q⌋ else ⌈q⌉

theorem towardZero_neg (q : ℚ) : towardZero (-q) = -towardZero q := by
  unfold towardZero
  rcases lt_trichotomy q 0 with hq | rfl | hq
  · rw [if_pos (neg_nonneg.mpr hq.le), if_neg hq.not_ge, Int.floor_neg]
  · simp
  · rw [if_neg (neg_lt_zero.mpr hq).not_ge, if_pos hq.le, Int.ceil_neg]

theorem towardZero_natCast_div (m n : ℕ) : towardZero (m / n) = (m / n : ℕ) := by
  unfold towardZero
  rw [if_pos (by positivity), Rat.floor_natCast_div_natCast, Int.natCast_div]

theorem towardZero_div (a b : ℤ) : towardZero (a / b) = a.tdiv b := by
  obtain ⟨m, rfl | rfl⟩ := a.eq_nat_or_neg <;> obtain ⟨n, rfl | rfl⟩ := b.eq_nat_or_neg <;>
    simp [neg_div, div_neg, towardZero_neg, towardZero_natCast_div, Int.neg_tdiv, Int.tdiv_neg]

theorem towardZero_intCast (a : ℤ) : towardZero a = a := by
  simpa using towardZero_div a 1

theorem sub_mul_towardZero (a b e : ℤ) :
    (a * 2 ^ e - b * 2 ^ e * towardZero (a * 2 ^ e / (b * 2 ^ e)) : ℚ) =
      (a.tmod b : ℤ) * 2 ^ e := by
  rw [mul_div_mul_right _ _ (by positivity), towardZero_div, Int.tmod_def]
  push_cast
  ring

theorem apply_tmod (s t : Sign) (m n : ℕ) :
    (s.apply m).tmod (t.apply n) = s.apply (m % n : ℕ) := by
  cases s <;> cases t <;>
    simp [Sign.apply, Int.neg_tmod, Int.tmod_neg, Int.tmod_eq_emod_of_nonneg]

variable {x y : Float} {p q : ℚ}

/-- The remainder is exact, whatever the two numbers are. -/
theorem Denotes.remainder (hx : Denotes x p) (hy : Denotes y q) (hne : q ≠ 0) :
    Denotes (remainder x y) (p - q * towardZero (p / q)) := by
  unfold Number.remainder
  obtain ⟨t, hright, rfl⟩ | ⟨t, n, d, hn, hright, rfl, hcanonical'⟩ := hy.unpack_cases
  · exact absurd rfl hne
  obtain ⟨s, hleft, rfl⟩ | ⟨s, m, e, hm, hleft, rfl, hcanonical⟩ := hx.unpack_cases
  · rw [hleft, hright]
    simpa [towardZero] using hx
  · rw [hleft, hright, ← apply_align s m (min_le_left e d), ← apply_align t n (min_le_right e d),
      sub_mul_towardZero, apply_tmod]
    -- one of the two is not shifted, and the remainder is no longer than that one
    have hwidth : m <<< (e - min e d).toNat % n <<< (d - min e d).toNat < 2 ^ 53 := by
      rcases le_total e d with hle | hle
      · rw [min_eq_left hle, sub_self, Int.toNat_zero, Nat.shiftLeft_zero]
        exact (Nat.mod_le ..).trans_lt hcanonical.width
      · rw [min_eq_right hle, sub_self, Int.toNat_zero, Nat.shiftLeft_zero]
        exact (Nat.mod_lt _ hn).trans hcanonical'.width
    have hround := denotes_round (s := s) (fits_of_width hwidth
      (le_min hcanonical.least hcanonical'.least) (min_le_of_left_le hcanonical.most))
    dsimp only
    split
    · next hzero =>
      rw [hzero, round_zero] at hround
      rwa [hzero]
    · exact hround

theorem Denotes.order_zero (h : Denotes x q) : order x 0 = some (cmp q 0) := by
  have hzero : (0 : Float).toModel.unpack = .zero .positive := rfl
  unfold order
  rw [hzero]
  obtain ⟨s, hunpack, rfl⟩ | ⟨s, m, e, hm, hunpack, rfl, -⟩ := h.unpack_cases
  · rw [hunpack, cmp_self_eq_eq]
    cases s <;> rfl
  · rw [hunpack]
    have hpos : (0 : ℚ) < m * 2 ^ e := by positivity
    cases s with
    | negative =>
      have hcmp : cmp ((Sign.negative.apply m : ℤ) * 2 ^ e : ℚ) 0 = .lt :=
        (cmp_eq_lt_iff ..).mpr (by simpa [Sign.apply] using hpos)
      rw [hcmp]
      rfl
    | positive =>
      have hcmp : cmp ((Sign.positive.apply m : ℤ) * 2 ^ e : ℚ) 0 = .gt :=
        (cmp_eq_gt_iff ..).mpr (by simpa [Sign.apply] using hpos)
      rw [hcmp]
      rfl

theorem Denotes.lt_zero (h : Denotes x q) : x < 0 ↔ q < 0 := by
  rw [lt_iff_order, h.order_zero, Option.some_inj, cmp_eq_lt_iff]

theorem Denotes.beq_zero (h : Denotes x q) : (x == 0) = true ↔ q = 0 := by
  rw [beq_iff_order, h.order_zero, Option.some_inj, cmp_eq_eq_iff]

theorem denotes_wordCount : Denotes 4294967296 (2 ^ 32 : ℤ) := by
  refine ⟨rfl, ?_⟩
  change ((Sign.positive.apply (2 ^ 52 : ℕ) : ℤ) : ℚ) * 2 ^ (-20 : ℤ) = _
  norm_num [Sign.apply]

theorem Denotes.modulo {i : ℤ} (h : Denotes x i) :
    Denotes (modulo x 4294967296) (i % 2 ^ 32 : ℤ) := by
  have hremainder : Denotes (Number.remainder x 4294967296) (i.tmod (2 ^ 32) : ℤ) := by
    have hexact := h.remainder denotes_wordCount (by norm_num)
    rwa [towardZero_div, ← Int.cast_mul, ← Int.cast_sub, ← Int.tmod_def] at hexact
  have habs : (4294967296 : Float).abs = 4294967296 := by decide +kernel
  have hquotient := Int.tmod_add_mul_tdiv i (2 ^ 32)
  have hless := Int.tmod_lt_of_pos i (show (0 : ℤ) < 2 ^ 32 by decide)
  have hmore := Int.lt_tmod_of_pos i (show (0 : ℤ) < 2 ^ 32 by decide)
  unfold Number.modulo
  dsimp only
  rw [habs]
  split
  · next hbelow =>
    have hneg : i.tmod (2 ^ 32) < 0 := by exact_mod_cast hremainder.lt_zero.mp hbelow
    rw [show i % 2 ^ 32 = i.tmod (2 ^ 32) + 2 ^ 32 by omega, Int.cast_add]
    refine hremainder.add denotes_wordCount ?_
    rw [← Int.cast_add]
    exact fits_intCast (by omega)
  · next hbelow =>
    have hnonneg : ¬ i.tmod (2 ^ 32) < 0 := fun hneg =>
      hbelow (hremainder.lt_zero.mpr (by exact_mod_cast hneg))
    rwa [show i % 2 ^ 32 = i.tmod (2 ^ 32) by omega]

end Arbor.Number
