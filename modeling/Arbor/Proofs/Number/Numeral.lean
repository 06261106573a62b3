import Arbor.Proofs.Number.Unsigned
import Arbor.Proofs.Token.RoundTrip

/-!
# Numerals

The text of a number in a program has digits and at most one point behind them. It is read as a
number, and always as a proper one.
-/
namespace Arbor.Number

variable {whole fraction tail : List Char} {head : Char}

theorem decimal?_digits (hne : whole ≠ []) (hwhole : ∀ c ∈ whole, c.isDigit = true) :
    decimal? whole = some (nearest (digitsValue whole) 0) := by
  have htake : whole.takeWhile Char.isDigit = whole := List.takeWhile_eq_self_iff.mpr hwhole
  have hdrop : whole.dropWhile Char.isDigit = [] := List.dropWhile_eq_nil_iff.mpr hwhole
  simp [decimal?, htake, hdrop, exponent?, hne]

theorem decimal?_point (hne : whole ≠ []) (hwhole : ∀ c ∈ whole, c.isDigit = true)
    (hfraction : ∀ c ∈ fraction, c.isDigit = true) :
    decimal? (whole ++ '.' :: fraction) =
      some (nearest (digitsValue (whole ++ fraction)) (-fraction.length)) := by
  have hpoint : ∀ next ∈ ('.' :: fraction).head?, next.isDigit = false := by simp
  have htake : fraction.takeWhile Char.isDigit = fraction :=
    List.takeWhile_eq_self_iff.mpr hfraction
  have hdrop : fraction.dropWhile Char.isDigit = [] := List.dropWhile_eq_nil_iff.mpr hfraction
  simp [decimal?, Token.takeWhile_run hwhole hpoint, Token.dropWhile_run hwhole hpoint, htake,
    hdrop, exponent?, hne]

theorem read?_of_decimal {x : Float} (h : head.isDigit = true)
    (hx : decimal? (head :: tail) = some x) : read? (head :: tail) = some x := by
  have hread : read? (head :: tail) = unsigned? (head :: tail) := by
    unfold read?
    split
    · next heq =>
      cases heq
      cases h
    · next heq =>
      cases heq
      cases h
    · rfl
  rw [hread, unsigned?, hx]
  rfl

/-- Every text that the scanner takes for a number is read as one. -/
theorem read?_of_spells {cs : List Char} (h : Token.Spells .number cs) :
    ∃ x, read? cs = some x ∧ Proper x := by
  cases h with
  | @digits head tail hhead htail =>
    have hdecimal := decimal?_digits (List.cons_ne_nil head tail)
      (List.forall_mem_cons.mpr ⟨hhead, htail⟩)
    exact ⟨_, read?_of_decimal hhead hdecimal, proper_nearest ..⟩
  | @decimal head whole fraction hhead hwhole hfraction =>
    have hdecimal := decimal?_point (List.cons_ne_nil head whole)
      (List.forall_mem_cons.mpr ⟨hhead, hwhole⟩) hfraction
    exact ⟨_, read?_of_decimal hhead hdecimal, proper_nearest ..⟩

theorem read?_of_scan {source : String} {tokens : List Token} {t : Token}
    (h : Token.scan source = .ok tokens) (ht : t ∈ tokens) (hkind : t.kind = .number) :
    ∃ x, read? t.text.toList = some x ∧ Proper x := by
  obtain ⟨pieces, htiling⟩ := Token.exists_tiling h
  obtain rfl := Except.ok.inj (h.symm.trans htiling.scan)
  rcases List.mem_append.mp ht with ht | ht
  · cases htiling.tiles.writable t ht with
    | plain hspells =>
      rw [hkind] at hspells
      exact read?_of_spells hspells
    | quoted hstring =>
      rw [hkind] at hstring
      cases hstring
  · obtain rfl := List.mem_singleton.mp ht
    cases hkind

end Arbor.Number
