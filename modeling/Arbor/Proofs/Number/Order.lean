import Arbor.Operator.Apply
import Mathlib

/-!
# The order of numbers

Two numbers compare unless one of them is not-a-number. The order goes by sign, exponent and
significand; the two zeros are equal in it. Turning a comparison around turns its answer around, and
the five tests of a program read the answer.
-/
namespace Arbor.Number

open Float.Model (UnpackedFloat)

/-- How two numbers compare. Not-a-number compares with nothing. -/
def order (x y : Float) : Option Ordering := x.toModel.unpack.compare y.toModel.unpack

theorem compare_swap (a b : UnpackedFloat) : (a.compare b).map Ordering.swap = b.compare a := by
  cases a with
  | notANumber => cases b <;> rfl
  | infinity s =>
    cases b with
    | infinity s' => cases s <;> cases s' <;> rfl
    | _ => cases s <;> rfl
  | zero s =>
    cases b with
    | infinity s' => cases s' <;> rfl
    | finite s' => cases s' <;> rfl
    | _ => rfl
  | finite s m e =>
    cases b with
    | notANumber => cases s <;> rfl
    | infinity s' => cases s' <;> rfl
    | zero => cases s <;> rfl
    | finite s' m' e' =>
      have he := Int.compare_swap e e'
      have hm := Nat.compare_swap m m'
      -- below zero the order of the amounts is turned around once more
      cases s <;> cases s'
      · simp [UnpackedFloat.compare, Ordering.swap_then, ← he, ← hm]
      · rfl
      · rfl
      · simp [UnpackedFloat.compare, Ordering.swap_then, he, hm]

theorem compare_eq_none (a b : UnpackedFloat) :
    a.compare b = none ↔ a.isNaN = true ∨ b.isNaN = true := by
  fun_cases UnpackedFloat.compare a b <;> simp_all [UnpackedFloat.isNaN]

variable {x y : Float}

theorem order_swap (x y : Float) : (order x y).map Ordering.swap = order y x := compare_swap ..

theorem order_eq_none : order x y = none ↔ x.isNaN = true ∨ y.isNaN = true := compare_eq_none ..

theorem lt_iff_order : x < y ↔ order x y = some .lt := by
  change decide (x.toModel.lt y.toModel = true) = true ↔ _
  rw [decide_eq_true_iff]
  exact beq_iff_eq

theorem beq_iff_order : (x == y) = true ↔ order x y = some .eq := by
  change (order x y == some .eq) = true ↔ _
  exact beq_iff_eq

theorem le_iff_order : x ≤ y ↔ order x y = some .lt ∨ order x y = some .eq := by
  change decide (x.toModel.le y.toModel = true) = true ↔ _
  rw [decide_eq_true_iff]
  change (order x y).any (·.isLE) = true ↔ _
  cases order x y with
  | none => simp
  | some o => cases o <;> simp [Ordering.isLE]

theorem gt_iff_order : x > y ↔ order x y = some .gt := by
  rw [gt_iff_lt, lt_iff_order, ← order_swap y x, Option.map_eq_some_iff]
  simp

theorem ge_iff_order : x ≥ y ↔ order x y = some .gt ∨ order x y = some .eq := by
  rw [ge_iff_le, le_iff_order, ← order_swap y x, Option.map_eq_some_iff, Option.map_eq_some_iff]
  simp [Ordering.swap_eq_eq]

end Arbor.Number
