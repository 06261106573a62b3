/-!
# The shortest text of a number

A finite number is written with the fewest digits that read back as the same double. Of two texts
with as few digits the nearer one is taken, and the greater one when both are equally near. There
is never an exponent, and an integer has no point.
-/
namespace Arbor.Number

def powerOfTen (n : Nat) : Nat := Nat.pow 10 n

def leastSignificand : Nat := Nat.pow 2 52

/-- A positive double and the reals that round to it, as quotients by one denominator. -/
structure Interval where
  value : Nat
  low : Nat
  high : Nat
  denominator : Nat
  /-- Whether the two ends round to the double as well. -/
  closed : Bool
  deriving Repr

/-- The gap below a power of two is half the gap above it, except below the least normal number. -/
def Interval.of (significand : Nat) (exponent : Int) : Interval :=
  let scale := 4 <<< exponent.toNat
  let value := significand * scale
  let gap := scale / 2
  { value
    low := value - if significand = leastSignificand ∧ -1074 < exponent then gap / 2 else gap
    high := value + gap
    denominator := 4 <<< (-exponent).toNat
    closed := significand % 2 = 0 }

def Interval.holds (i : Interval) (count : Nat) (place : Int) : Bool :=
  let scaled := count * powerOfTen place.toNat * i.denominator
  let unit := powerOfTen (-place).toNat
  if i.closed then i.low * unit ≤ scaled && scaled ≤ i.high * unit
  else i.low * unit < scaled && scaled < i.high * unit

/-- The multiple of `10^place` nearest to the double, if one rounds to it. -/
def Interval.onGrid? (i : Interval) (place : Int) : Option Nat :=
  let dividend := i.value * powerOfTen (-place).toNat
  let divisor := i.denominator * powerOfTen place.toNat
  let below := dividend / divisor
  let above := below + 1
  match i.holds below place, i.holds above place with
  | true, true => if 2 * dividend < (below + above) * divisor then some below else some above
  | true, false => some below
  | false, true => some above
  | false, false => none

def Interval.scaleFrom (i : Interval) : Nat → Int → Int
  | 0, n => n
  | fuel + 1, n =>
    if i.value * powerOfTen (-n).toNat < i.denominator * powerOfTen n.toNat then n
    else i.scaleFrom fuel (n + 1)

/-- The decimal on the coarsest of `fuel` grids, each ten times finer than the one before. -/
def Interval.search (i : Interval) : Nat → Int → Nat × Int
  | 0, place =>
    (i.value * powerOfTen (-place).toNat / (i.denominator * powerOfTen place.toNat), place)
  | fuel + 1, place =>
    match i.onGrid? place with
    | some count => (count, place)
    | none => i.search fuel (place - 1)

/-- The decimal `count · 10^place` with the fewest digits that reads back as
`significand · 2^exponent`. -/
def shortest (significand : Nat) (exponent : Int) : Nat × Int :=
  let i := Interval.of significand exponent
  let bits := significand.log2 + exponent
  -- Three tenths are just below the decimal logarithm of two.
  let estimate := if 0 ≤ bits then bits * 3 / 10 else bits * 31 / 100
  i.search 18 (i.scaleFrom 40 estimate)

def positional (count : Nat) (place : Int) : String :=
  let digits := Nat.repr count
  if 0 ≤ place then digits ++ "".pushn '0' place.toNat
  else
    let cs := digits.toList
    let places := (-place).toNat
    let cs := List.replicate (places + 1 - cs.length) '0' ++ cs
    String.ofList (cs.take (cs.length - places) ++ '.' :: cs.drop (cs.length - places))

/-- The text of a number. Both zeros are written alike. -/
def text (x : Float) : String :=
  match x.toModel.unpack with
  | .notANumber => "NaN"
  | .infinity .positive => "Infinity"
  | .infinity .negative => "-Infinity"
  | .zero _ => "0"
  | .finite sign significand exponent _ =>
    let (count, place) := shortest significand exponent
    match sign with
    | .positive => positional count place
    | .negative => "-" ++ positional count place

end Arbor.Number
