import Arbor.Number.Remainder
/-!
# Words of 32 bits

A double is read as a word in steps from double to double: its fraction is cut off, and of the
integer that is left the remainder modulo `2 ^ 32` is taken. That is an unsigned word, whose bits
are then read with a sign. A number that is not finite reads as zero.
-/
namespace Arbor.Number

open Float.Model (UnpackedFloat)
open Float.Model.Format (binary64)

/-- The number without its fraction. What is cut to nothing keeps its sign as a zero. -/
def truncate (x : Float) : Float :=
  match x.toModel.unpack with
  | .finite sign significand exponent _ =>
    if 0 ≤ exponent then x
    else Float.ofModel <| .pack <|
      UnpackedFloat.round binary64 sign (significand >>> (-exponent).toNat) 0
  | _ => x

def toWord (x : Float) : Int32 :=
  if x.isFinite then (modulo (truncate x) 4294967296).toUInt32.toInt32 else 0

def ofWord (w : Int32) : Float := Float.ofModel (.ofInt32 w)

end Arbor.Number
