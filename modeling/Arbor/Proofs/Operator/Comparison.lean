import Arbor.Proofs.Number.Order

/-!
# Comparisons agree

All six comparisons look at one order of values: that of numbers when a side is a number, and that of
texts otherwise. So they agree with each other, also where the sides are of different kinds. Only
not-a-number compares with nothing.
-/
namespace Arbor

namespace Value

/-- How two values compare: as numbers when a side is a number, and as texts otherwise. -/
def order (left right : Value) : Option Ordering :=
  if left.isNumber || right.isNumber then Number.order left.toNumber right.toNumber
  else some (cmp left.display right.display)

/-- Neither value is a number, so that their texts are compared, or none is read as not-a-number. -/
def Comparable (left right : Value) : Prop :=
  (left.isNumber = false ∧ right.isNumber = false) ∨
    (left.toNumber.isNaN = false ∧ right.toNumber.isNaN = false)

variable {left right : Value}

theorem order_swap (left right : Value) :
    (left.order right).map Ordering.swap = right.order left := by
  simp only [order, Bool.or_comm right.isNumber]
  split
  · exact Number.order_swap ..
  · exact congrArg some (cmp_swap ..)

theorem Comparable.exists_order (h : left.Comparable right) : ∃ o, left.order right = some o := by
  unfold order
  split
  · next hnumber =>
    refine Option.ne_none_iff_exists'.mp fun hnone => ?_
    have hnan := Number.order_eq_none.mp hnone
    rcases h with ⟨hl, hr⟩ | ⟨hl, hr⟩
    · rw [hl, hr] at hnumber
      cases hnumber
    · rw [hl, hr] at hnan
      rcases hnan with hnan | hnan <;> cases hnan
  · exact ⟨_, rfl⟩

theorem order_eq_none (hnumber : left.isNumber = true ∨ right.isNumber = true)
    (hnan : left.toNumber.isNaN = true ∨ right.toNumber.isNaN = true) :
    left.order right = none := by
  rw [order, if_pos ((Bool.or_eq_true _ _).mpr hnumber)]
  exact Number.order_eq_none.mpr hnan

theorem compareBy_eq {numbers : Float → Float → Bool} {texts : String → String → Bool}
    (test : Option Ordering → Bool)
    (hnumbers : ∀ x y, numbers x y = true ↔ test (Number.order x y) = true)
    (htexts : ∀ s t, texts s t = true ↔ test (some (cmp s t)) = true) (left right : Value) :
    compareBy numbers texts left right = test (left.order right) := by
  rw [Bool.eq_iff_iff]
  unfold compareBy order
  split
  · exact hnumbers ..
  · exact htexts ..

/-- Equality and order choose the same reading of two values: the numbers that they are read as when
a side is a number, and their texts otherwise. -/
theorem looselyEqual_eq_compareBy (left right : Value) :
    looselyEqual left right = compareBy (· == ·) (· == ·) left right := by
  cases left <;> cases right <;> rfl

theorem orZero_ofBool (b : Bool) : (ofBool b).orZero = ofBool b := by
  cases b <;> decide

theorem ofBool_eq_one {b : Bool} : ofBool b = number 1 ↔ b = true := by
  cases b <;> decide

theorem ofBool_eq_zero {b : Bool} : ofBool b = number 0 ↔ b = false := by
  cases b <;> decide

end Value

namespace Operator

open Value

def isComparison : Operator → Bool
  | less | greater | atMost | atLeast | equal | unequal => true
  | _ => false

def holds (op : Operator) (order : Option Ordering) : Bool :=
  match op with
  | less => order == some .lt
  | greater => order == some .gt
  | atMost => order == some .lt || order == some .eq
  | atLeast => order == some .gt || order == some .eq
  | equal => order == some .eq
  | unequal => !(order == some .eq)
  | _ => false

def converse : Operator → Operator
  | less => greater
  | greater => less
  | atMost => atLeast
  | atLeast => atMost
  | op => op

theorem holds_converse (op : Operator) (order : Option Ordering) :
    op.converse.holds (order.map Ordering.swap) = op.holds order := by
  cases order with
  | none => cases op <;> rfl
  | some o => cases o <;> cases op <;> rfl

theorem looselyEqual_eq (left right : Value) :
    looselyEqual left right = equal.holds (left.order right) := by
  rw [looselyEqual_eq_compareBy]
  exact compareBy_eq equal.holds (by simp [holds, Number.beq_iff_order]) (by simp [holds]) left right

theorem result_comparison {op : Operator} (h : op.isComparison = true) (left right : Value) :
    op.result left right = ofBool (op.holds (left.order right)) := by
  cases op with
  | less =>
    exact congrArg ofBool (compareBy_eq less.holds (by simp [holds, Number.lt_iff_order])
      (by simp [holds]) left right)
  | greater =>
    exact congrArg ofBool (compareBy_eq greater.holds (by simp [holds, Number.gt_iff_order])
      (by simp [holds]) left right)
  | atMost =>
    exact congrArg ofBool (compareBy_eq atMost.holds (by simp [holds, Number.le_iff_order])
      (by simp [holds, le_iff_lt_or_eq]) left right)
  | atLeast =>
    exact congrArg ofBool (compareBy_eq atLeast.holds (by simp [holds, Number.ge_iff_order])
      (fun s t => by simp [holds, le_iff_lt_or_eq, @eq_comm _ t s]) left right)
  | equal => exact congrArg ofBool (looselyEqual_eq left right)
  | unequal => exact congrArg (fun b => ofBool !b) (looselyEqual_eq left right)
  | _ => cases h

theorem apply_comparison {op : Operator} (h : op.isComparison = true) (left right : Value) :
    apply op.symbol left right = ofBool (op.holds (left.order right)) := by
  simp only [apply, ofSymbol?_symbol, result_comparison h, orZero_ofBool]

theorem apply_eq_one {op : Operator} (h : op.isComparison = true) {left right : Value} :
    apply op.symbol left right = number 1 ↔ op.holds (left.order right) = true := by
  rw [apply_comparison h, ofBool_eq_one]

theorem apply_eq_zero {op : Operator} (h : op.isComparison = true) {left right : Value} :
    apply op.symbol left right = number 0 ↔ op.holds (left.order right) = false := by
  rw [apply_comparison h, ofBool_eq_zero]

theorem apply_converse {op : Operator} (h : op.isComparison = true) (left right : Value) :
    apply op.symbol left right = apply op.converse.symbol right left := by
  have hconverse : op.converse.isComparison = true := by
    cases op with
    | less | greater | atMost | atLeast | equal | unequal => rfl
    | _ => cases h
  rw [apply_comparison h, apply_comparison hconverse, ← order_swap left right, holds_converse]

def ofOrdering : Ordering → Operator
  | .lt => less
  | .eq => equal
  | .gt => greater

theorem exists_unique_holds (o : Ordering) :
    ∃! op, op ∈ [less, equal, greater] ∧ op.holds (some o) = true := by
  refine ⟨ofOrdering o, by cases o <;> decide, ?_⟩
  rintro op ⟨hop, hholds⟩
  simp only [List.mem_cons, List.not_mem_nil, or_false] at hop
  rcases hop with rfl | rfl | rfl <;> cases o <;> first | rfl | cases hholds

/-- Comparisons of any two values agree: equality does not depend on the order of the sides, and the
four others can be turned around. Between comparable values exactly one of `<`, `==` and `>` holds,
and `<=` and `>=` hold where it is one of two. Where a side is a number and a side is read as
not-a-number, no comparison holds but `!=`. -/
theorem comparisons_coherent (left right : Value) :
    apply equal.symbol left right = apply equal.symbol right left ∧
    (apply unequal.symbol left right = number 1 ↔ apply equal.symbol left right = number 0) ∧
    apply less.symbol left right = apply greater.symbol right left ∧
    apply atMost.symbol left right = apply atLeast.symbol right left ∧
    (∀ op : Operator, op.isComparison = true →
      apply op.symbol left right = number 0 ∨ apply op.symbol left right = number 1) ∧
    (left.Comparable right →
      (∃! op, op ∈ [less, equal, greater] ∧ apply op.symbol left right = number 1) ∧
      (apply atMost.symbol left right = number 1 ↔
        apply less.symbol left right = number 1 ∨ apply equal.symbol left right = number 1) ∧
      (apply atLeast.symbol left right = number 1 ↔
        apply greater.symbol left right = number 1 ∨ apply equal.symbol left right = number 1)) ∧
    (left.isNumber = true ∨ right.isNumber = true →
      left.toNumber.isNaN = true ∨ right.toNumber.isNaN = true →
      ∀ op ∈ [less, greater, atMost, atLeast, equal],
        apply op.symbol left right = number 0) := by
  refine ⟨apply_converse rfl .., ?_, apply_converse rfl .., apply_converse rfl .., ?_, ?_, ?_⟩
  · rw [apply_eq_one rfl, apply_eq_zero rfl]
    exact iff_of_eq (Bool.not_eq_true' _)
  · intro op hop
    rw [apply_eq_zero hop, apply_eq_one hop]
    exact (Bool.eq_false_or_eq_true _).symm
  · intro hcomparable
    obtain ⟨o, ho⟩ := hcomparable.exists_order
    refine ⟨?_, ?_, ?_⟩
    · obtain ⟨op, ⟨hop, hholds⟩, hunique⟩ := exists_unique_holds o
      have hcomparison : ∀ op ∈ [less, equal, greater], op.isComparison = true := by decide
      refine ⟨op, ⟨hop, ?_⟩, ?_⟩
      · rw [apply_eq_one (hcomparison op hop), ho]
        exact hholds
      · rintro op' ⟨hop', hone⟩
        rw [apply_eq_one (hcomparison op' hop'), ho] at hone
        exact hunique op' ⟨hop', hone⟩
    · rw [apply_eq_one rfl, apply_eq_one rfl, apply_eq_one rfl]
      exact iff_of_eq (Bool.or_eq_true ..)
    · rw [apply_eq_one rfl, apply_eq_one rfl, apply_eq_one rfl]
      exact iff_of_eq (Bool.or_eq_true ..)
  · intro hnumber hnan op hop
    have hnone := order_eq_none hnumber hnan
    have hcomparison : ∀ op ∈ [less, greater, atMost, atLeast, equal],
        op.isComparison = true ∧ op.holds none = false := by decide
    rw [apply_eq_zero (hcomparison op hop).1, hnone]
    exact (hcomparison op hop).2

/-- A number and a text that spells one compare as numbers. With a text that spells none a number
does not compare. -/
theorem nine_and_texts_compared :
    (number 9).Comparable (text "10") ∧
    apply less.symbol (number 9) (text "10") = number 1 ∧
    apply less.symbol (text "9") (text "10") = number 0 ∧
    (∃! op, op ∈ [less, equal, greater] ∧ apply op.symbol (number 9) (text "10") = number 1) ∧
    (text "nine").toNumber.isNaN = true ∧
    ∀ op ∈ [less, greater, atMost, atLeast, equal],
      apply op.symbol (number 9) (text "nine") = number 0 := by
  have hcomparable : (number 9).Comparable (text "10") := Or.inr ⟨by decide, by decide +kernel⟩
  have hnan : (text "nine").toNumber.isNaN = true := by decide +kernel
  obtain ⟨-, -, -, -, -, hten, -⟩ := comparisons_coherent (number 9) (text "10")
  obtain ⟨-, -, -, -, -, -, hnine⟩ := comparisons_coherent (number 9) (text "nine")
  exact ⟨hcomparable, by decide +kernel, by decide +kernel, (hten hcomparable).1, hnan,
    hnine (Or.inl rfl) (Or.inr hnan)⟩

end Operator

end Arbor
