import Arbor.Proofs.Number.Word
import Arbor.Proofs.Operator.Proper

/-!
# Operators on bits

Every value is read as a word of 32 bits, exactly where its number is finite and as zero elsewhere.
The three operators on bits give the number that their word is, so that the next operator reads the
same word again.
-/
namespace Arbor

namespace Value

/-- The value is the number that this integer is. -/
def IsInteger (v : Value) (i : ℤ) : Prop :=
  ∃ x, v = number x ∧ Number.Denotes x i ∧ Number.Proper x

variable {x : Float} {v : Value} {i : ℤ}

theorem isInteger_orZero (h : Number.Denotes x i) : (number x).orZero.IsInteger i := by
  unfold orZero
  split
  · next htruthy => exact ⟨x, rfl, h, Number.proper_of_truthy htruthy⟩
  · next hfalsy =>
    -- a finite number is falsy only where it equals zero
    have hzero : (x == 0) = true := by
      by_contra hne
      refine hfalsy (Bool.and_eq_true_iff.mpr ⟨?_, ?_⟩)
      · exact congrArg _ (Bool.eq_false_iff.mpr hne)
      · exact congrArg _ h.notNan
    obtain rfl : i = 0 := by exact_mod_cast h.beq_zero.mp hzero
    exact ⟨0, rfl, ⟨rfl, Int.cast_zero.symm⟩, Number.proper_zero⟩

theorem IsInteger.toWord {w : Int32} (h : v.IsInteger w.toInt) : v.toWord = w := by
  obtain ⟨x, rfl, hx, -⟩ := h
  change Number.toWord x = w
  rw [hx.toWord, Number.towardZero_intCast, Int32.ofInt_toInt]

end Value

namespace Operator

open Value

theorem apply_words {op : Operator} {onWords : Int32 → Int32 → Int32}
    (hop : ∀ left right : Value,
      op.result left right = number (Number.ofWord (onWords left.toWord right.toWord)))
    (left right : Value) :
    (apply op.symbol left right).IsInteger (onWords left.toWord right.toWord).toInt := by
  unfold apply
  rw [ofSymbol?_symbol]
  dsimp only
  rw [hop]
  exact isInteger_orZero (Number.denotes_ofWord _)

/-- A value is read as the one word that is congruent modulo `2 ^ 32` to the integer part of its
number, and as zero where that is not finite. What an operator on bits gives is the number that the
word is, and a second `^` with the same side takes back the first. -/
theorem words_exact (left right : Value) :
    (left.toNumber.isNaN = true ∨ left.toNumber.isInf = true → left.toWord = 0) ∧
    (left.toNumber.isFinite = true → ∀ i : ℤ, i = left.toWord.toInt ↔
      -2 ^ 31 ≤ i ∧ i < 2 ^ 31 ∧
        i ≡ Number.towardZero (Number.value left.toNumber) [ZMOD 2 ^ 32]) ∧
    (apply bitXor.symbol left right).IsInteger (left.toWord ^^^ right.toWord).toInt ∧
    (apply bitAnd.symbol left right).IsInteger (left.toWord &&& right.toWord).toInt ∧
    (apply bitOr.symbol left right).IsInteger (left.toWord ||| right.toWord).toInt ∧
    (apply bitXor.symbol (apply bitXor.symbol left right) right).toWord = left.toWord := by
  have hxor (left right : Value) :
      (apply bitXor.symbol left right).IsInteger (left.toWord ^^^ right.toWord).toInt :=
    apply_words (fun _ _ => rfl) left right
  refine ⟨fun h => ?_, fun h => ?_, hxor left right, apply_words (fun _ _ => rfl) left right,
    apply_words (fun _ _ => rfl) left right, ?_⟩
  · exact Number.toWord_of_not_finite (Number.isFinite_eq_false h)
  · exact Number.Denotes.eq_toWord_iff ⟨h, rfl⟩
  · rw [(hxor _ right).toWord, (hxor left right).toWord, Int32.xor_assoc, Int32.xor_self,
      Int32.xor_zero]

/-- A negative number beyond the range of words is cut toward zero and wrapped. A text that spells
no number is read as zero. -/
theorem long_number_and_text_as_words :
    (text "word").toNumber.isNaN = true ∧ (text "word").toWord = 0 ∧
    (number (-6442450945.5)).toNumber.isFinite = true ∧
    (∀ i : ℤ, i = 2 ^ 31 - 1 ↔ -2 ^ 31 ≤ i ∧ i < 2 ^ 31 ∧
      i ≡ Number.towardZero (Number.value (-6442450945.5)) [ZMOD 2 ^ 32]) ∧
    (apply bitXor.symbol (number (-6442450945.5)) (text "word")).IsInteger (2 ^ 31 - 1) := by
  have hnan : (text "word").toNumber.isNaN = true := by decide +kernel
  have hfinite : (number (-6442450945.5)).toNumber.isFinite = true := by decide +kernel
  have hword : (number (-6442450945.5)).toWord = 2 ^ 31 - 1 := by decide +kernel
  obtain ⟨htext, -⟩ := words_exact (text "word") (text "word")
  obtain ⟨-, hnumber, hxor, -⟩ := words_exact (number (-6442450945.5)) (text "word")
  have hzero := htext (Or.inl hnan)
  rw [hword] at hnumber hxor
  rw [hzero, Int32.xor_zero] at hxor
  exact ⟨hnan, hzero, hfinite, hnumber hfinite, hxor⟩

end Operator

end Arbor
