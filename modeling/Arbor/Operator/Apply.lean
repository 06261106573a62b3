import Arbor.Number.Remainder
import Arbor.Operator
import Arbor.Value
/-!
# Applying operators

Arithmetic reads both sides as numbers, but `+` joins two texts unless both sides are numbers.
Comparisons are between numbers as soon as one side is a number, and otherwise between texts in the
order of code points. A result that is falsy, such as not-a-number or the empty text, becomes zero.
-/
namespace Arbor

namespace Value

/-- Compares as numbers when a side is a number, and as texts otherwise. -/
def compareBy (numbers : Float → Float → Bool) (texts : String → String → Bool)
    (left right : Value) : Bool :=
  if left.isNumber || right.isNumber then numbers left.toNumber right.toNumber
  else texts left.display right.display

def looselyEqual (left right : Value) : Bool :=
  match left, right with
  | number x, number y => x == y
  | number _, _ | _, number _ => left.toNumber == right.toNumber
  | _, _ => left.display == right.display

def orZero (v : Value) : Value := if v.truthy then v else number 0

end Value

namespace Operator

open Value in
def result (op : Operator) (left right : Value) : Value :=
  match op with
  | plus =>
    match left, right with
    | number x, number y => number (x + y)
    | _, _ => text (left.display ++ right.display)
  | minus => number (left.toNumber - right.toNumber)
  | times => number (left.toNumber * right.toNumber)
  | divide => number (left.toNumber / right.toNumber)
  | remainder => number (Number.remainder left.toNumber right.toNumber)
  | power => number (Float.pow left.toNumber right.toNumber)
  | bitXor => number (Number.ofWord (left.toWord ^^^ right.toWord))
  | bitAnd => number (Number.ofWord (left.toWord &&& right.toWord))
  | bitOr => number (Number.ofWord (left.toWord ||| right.toWord))
  | less => ofBool (compareBy (· < ·) (· < ·) left right)
  | greater => ofBool (compareBy (· > ·) (· > ·) left right)
  | atMost => ofBool (compareBy (· ≤ ·) (· ≤ ·) left right)
  | atLeast => ofBool (compareBy (· ≥ ·) (· ≥ ·) left right)
  | equal => ofBool (looselyEqual left right)
  | unequal => ofBool (!looselyEqual left right)
  | and => ofBool (left.truthy && right.truthy)
  | or => ofBool (left.truthy || right.truthy)

/-- The value of an operator given by its text. A text that names no operator gives zero. -/
def apply (symbol : String) (left right : Value) : Value :=
  match ofSymbol? symbol with
  | some op => (op.result left right).orZero
  | none => .number 0

end Operator

end Arbor
