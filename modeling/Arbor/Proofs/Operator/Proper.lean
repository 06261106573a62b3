import Arbor.Proofs.Number.Unsigned
import Arbor.Proofs.Operator.Comparison

/-!
# What operators keep out

Inside of an operator a number may become not-a-number or the zero below zero. Both are falsy, so
that neither comes out. Of the values without them each one equals itself.
-/
namespace Arbor

namespace Number

theorem order_self {x : Float} (h : x.isNaN = false) : order x x = some .eq := by
  have hsome : order x x ≠ none := by
    rw [Ne, order_eq_none, h]
    simp
  obtain ⟨o, ho⟩ := Option.ne_none_iff_exists'.mp hsome
  have hswap := order_swap x x
  rw [ho] at hswap ⊢
  cases o with
  | eq => rfl
  | lt | gt => cases hswap

theorem proper_of_truthy {x : Float} (h : (Value.number x).truthy = true) : Proper x := by
  obtain ⟨hzero, hnan⟩ := Bool.and_eq_true_iff.mp h
  refine ⟨by simpa using hnan, ?_⟩
  -- both zeros equal zero
  rintro rfl
  exact absurd hzero (by decide +kernel)

theorem proper_zero : Proper 0 := proper_of_unsigned (by decide +kernel)

end Number

namespace Value

def Proper : Value → Prop
  | number x => Number.Proper x
  | _ => True

variable {v : Value}

theorem proper_of_truthy (h : v.truthy = true) : v.Proper := by
  cases v with
  | number x => exact Number.proper_of_truthy h
  | _ => trivial

theorem proper_orZero (v : Value) : v.orZero.Proper := by
  unfold orZero
  split
  · next htruthy => exact proper_of_truthy htruthy
  · exact Number.proper_zero

theorem Proper.order_self (h : v.Proper) : v.order v = some .eq := by
  unfold order
  split
  · cases v with
    | number x => exact Number.order_self h.notNan
    | _ => contradiction
  · exact congrArg some (cmp_self_eq_eq _)

end Value

namespace Operator

theorem proper_apply (symbol : String) (left right : Value) : (apply symbol left right).Proper := by
  unfold apply
  split
  · exact Value.proper_orZero _
  · exact Number.proper_zero

theorem equal_self {v : Value} (h : v.Proper) : apply equal.symbol v v = .number 1 := by
  rw [apply_eq_one rfl, h.order_self]
  rfl

end Operator

end Arbor
