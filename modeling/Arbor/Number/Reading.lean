/-!
# Reading numbers

The text of a number is an optional sign before a decimal or one of the words `inf`, `infinity` and
`nan`, in any case of letters. A decimal has digits, at most one point with a digit on at least one
side, and an optional exponent. It is read as the nearest double, ties to even.
-/
namespace Arbor.Number

def nan : Float := 0 / 0

def infinity : Float := 1 / 0

def digitsValue (digits : List Char) : Nat :=
  digits.foldl (fun n c => 10 * n + (c.toNat - '0'.toNat)) 0

/-- The double nearest to `significand · 10^exponent`. -/
def nearest (significand : Nat) (exponent : Int) : Float :=
  Float.ofScientific significand (exponent < 0) exponent.natAbs

def exponent? : List Char → Option Int
  | [] => some 0
  | mark :: rest =>
    let (negative, digits) := match rest with
      | '-' :: digits => (true, digits)
      | '+' :: digits => (false, digits)
      | digits => (false, digits)
    if (mark == 'e' || mark == 'E') && !digits.isEmpty && digits.all Char.isDigit then
      some (if negative then -digitsValue digits else digitsValue digits)
    else none

def decimal? (cs : List Char) : Option Float :=
  let whole := cs.takeWhile Char.isDigit
  let (fraction, rest) := match cs.dropWhile Char.isDigit with
    | '.' :: rest => (rest.takeWhile Char.isDigit, rest.dropWhile Char.isDigit)
    | rest => ([], rest)
  if whole.isEmpty && fraction.isEmpty then none
  else (exponent? rest).map fun exponent =>
    nearest (digitsValue (whole ++ fraction)) (exponent - fraction.length)

def word? (cs : List Char) : Option Float :=
  match String.ofList (cs.map Char.toLower) with
  | "inf" | "infinity" => some infinity
  | "nan" => some nan
  | _ => none

def unsigned? (cs : List Char) : Option Float := (decimal? cs).or (word? cs)

/-- The number that `cs` spells. -/
def read? : List Char → Option Float
  | '-' :: cs => (unsigned? cs).map (-·)
  | '+' :: cs => unsigned? cs
  | cs => unsigned? cs

end Arbor.Number
