import Arbor.Number.Reading
import Mathlib

/-!
# Numbers without a sign

A number that is read from digits alone is neither not-a-number nor the zero below zero. It is the
rounded product or quotient of two numbers that have no sign, and rounding gives them none.
-/
namespace Arbor.Number

open Float.Model (UnpackedFloat)
open Float.Model.UnpackedFloat
open Float.Model.Format (binary64)

/-- Neither not-a-number nor the zero below zero. -/
structure Proper (x : Float) : Prop where
  notNan : x.isNaN = false
  notNegativeZero : x ≠ -0

def positive : UnpackedFloat → Bool
  | .finite .positive .. => true
  | _ => false

def unsigned : UnpackedFloat → Bool
  | .infinity .positive | .zero .positive | .finite .positive .. => true
  | _ => false

variable {f g : UnpackedFloat} {x : Float}

theorem exists_of_positive (h : positive f = true) : ∃ m e hm, f = .finite .positive m e hm := by
  cases f with
  | finite s m e hm =>
    cases s with
    | negative => cases h
    | positive => exact ⟨m, e, hm, rfl⟩
  | _ => cases h

theorem cases_of_unsigned (h : unsigned f = true) :
    f = .infinity .positive ∨ f = .zero .positive ∨ ∃ m e hm, f = .finite .positive m e hm := by
  cases f with
  | notANumber => cases h
  | infinity s =>
    cases s with
    | negative => cases h
    | positive => exact Or.inl rfl
  | zero s =>
    cases s with
    | negative => cases h
    | positive => exact Or.inr (Or.inl rfl)
  | finite s m e hm =>
    cases s with
    | negative => cases h
    | positive => exact Or.inr (Or.inr ⟨m, e, hm, rfl⟩)

theorem proper_of_unsigned (h : unsigned x.toModel.unpack = true) : Proper x where
  notNan := by
    change x.toModel.unpack.isNaN = false
    obtain hx | hx | ⟨m, e, hm, hx⟩ := cases_of_unsigned h <;> rw [hx] <;> rfl
  notNegativeZero := by
    rintro rfl
    exact absurd h (by decide +kernel)

theorem unsigned_unpack {exponent : BitVec binary64.exponentBits}
    {mantissa : BitVec binary64.mantissaBitsWithoutImplicit}
    (h : exponent = -1#_ → mantissa = 0#_) :
    unsigned (unpack binary64 (packComponents binary64 .positive exponent mantissa)) = true := by
  unfold unpack
  simp only [unpackSign_packComponents, unpackExponent_packComponents,
    unpackMantissa_packComponents, Sign.ofBitVec_toBitVec]
  split
  · next he =>
    rw [if_pos (h he)]
    rfl
  · split
    · split <;> rfl
    · rfl

theorem unsigned_pack (h : unsigned f = true) :
    unsigned (Float.Model.pack f).unpack = true := by
  change unsigned (unpack binary64 (pack binary64 f)) = true
  obtain rfl | rfl | ⟨m, e, hm, rfl⟩ := cases_of_unsigned h
  · exact unsigned_unpack fun _ => rfl
  · exact unsigned_unpack fun _ => rfl
  · unfold pack
    dsimp only
    split
    · exact unsigned_unpack fun _ => rfl
    · split
      · -- the exponent is below the one that is all ones
        refine unsigned_unpack fun he => ?_
        have he := congrArg BitVec.toNat he
        rw [BitVec.neg_one_eq_allOnes, BitVec.toNat_allOnes, BitVec.toNat_ofNat,
          Nat.mod_eq_of_lt (by omega)] at he
        omega
      · exact unsigned_unpack fun he => absurd he (by decide)

theorem Proper.pack (h : unsigned f = true) : Proper (.ofModel (.pack f)) :=
  proper_of_unsigned (unsigned_pack h)

theorem unsigned_roundWithAccuracy (m : Nat) (e : Int) (accuracy : Accuracy) :
    unsigned (roundWithAccuracy binary64 .positive m e accuracy) = true := by
  unfold roundWithAccuracy
  dsimp only
  split <;> rfl

theorem unsigned_ofNat (n : Nat) : unsigned (ofNat binary64 n) = true := by
  unfold ofNat ofInt UnpackedFloat.normalize
  split
  · next hlt =>
    rw [Int.compare_eq_lt] at hlt
    omega
  · rfl
  · exact unsigned_roundWithAccuracy ..

theorem unsigned_mul (hf : unsigned f = true) (hg : positive g = true) :
    unsigned (mul binary64 f g) = true := by
  obtain ⟨n, d, hn, rfl⟩ := exists_of_positive hg
  obtain rfl | rfl | ⟨m, e, hm, rfl⟩ := cases_of_unsigned hf
  · rfl
  · rfl
  · exact unsigned_roundWithAccuracy ..

theorem unsigned_div (hf : unsigned f = true) (hg : positive g = true) :
    unsigned (div binary64 f g) = true := by
  obtain ⟨n, d, hn, rfl⟩ := exists_of_positive hg
  obtain rfl | rfl | ⟨m, e, hm, rfl⟩ := cases_of_unsigned hf
  · rfl
  · rfl
  · exact unsigned_roundWithAccuracy ..

theorem unsigned_ofScientific (m : Nat) (e : Int) :
    unsigned (ofScientific binary64 m e) = true := by
  unfold ofScientific
  split
  · rfl
  split
  · rfl
  split
  · rfl
  split
  · exact unsigned_mul rfl rfl
  · exact unsigned_div rfl rfl

theorem positive_powersOfTen : ∀ i (h : i < Float.exactlyRepresentablePowersOfTen.size),
    positive Float.exactlyRepresentablePowersOfTen[i].toModel.unpack = true := by
  decide +kernel

theorem proper_ofScientific (m : Nat) (below : Bool) (e : Nat) :
    Proper (Float.ofScientific m below e) := by
  unfold Float.ofScientific
  split
  · -- a short significand is a double itself, and so is a small power of ten
    have hm : unsigned m.toUInt64.toFloat.toModel.unpack = true :=
      unsigned_pack (unsigned_ofNat _)
    split
    · exact .pack (unsigned_div hm (positive_powersOfTen e _))
    · exact .pack (unsigned_mul hm (positive_powersOfTen e _))
  · exact .pack (unsigned_ofScientific ..)

theorem proper_nearest (significand : Nat) (exponent : Int) :
    Proper (nearest significand exponent) :=
  proper_ofScientific ..

end Arbor.Number
