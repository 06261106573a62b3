import Arbor.Number.Reading
/-!
# The remainder of a division

The quotient is cut toward zero, so the remainder has the sign of the dividend. It is exact: the
two numbers are brought to one exponent and divided as integers. `modulo` raises a remainder below
zero by the size of the divisor, and this sum is rounded.
-/
namespace Arbor.Number

open Float.Model (UnpackedFloat)
open Float.Model.Format (binary64)

def remainder (x y : Float) : Float :=
  match x.toModel.unpack, y.toModel.unpack with
  | .finite sign m p _, .finite _ n q _ =>
    let e := min p q
    let r := (m <<< (p - e).toNat) % (n <<< (q - e).toNat)
    Float.ofModel <| .pack <|
      if r = 0 then .zero sign else UnpackedFloat.round binary64 sign r e
  | .finite .., .infinity _ | .zero _, .finite .. | .zero _, .infinity _ => x
  | _, _ => nan

def modulo (x y : Float) : Float :=
  let r := remainder x y
  if r < 0 then r + y.abs else r

end Arbor.Number
