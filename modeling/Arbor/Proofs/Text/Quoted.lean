import Arbor.Text.Quoted
import Mathlib

/-!
# Reading quoted text back

Every character of a quoted text is written in a way of its own, and one can see where it ends: what
follows a backslash says how much belongs to it, and the digits of a code point end at the brace. So
a quoted text says which text it quotes and where it ends, whatever stands behind it.
-/
namespace Arbor.Text

def hexValue (c : Char) : Nat := if c.isDigit then c.toNat - '0'.toNat else c.toNat - 'a'.toNat + 10

def ofHexDigits (cs : List Char) : Nat := cs.foldl (fun n c => 16 * n + hexValue c) 0

/-- The first character of an escaped text, and the rest. -/
def unescape : List Char → Char × List Char
  | '\\' :: 'n' :: rest => ('\n', rest)
  | '\\' :: 'r' :: rest => ('\r', rest)
  | '\\' :: 't' :: rest => ('\t', rest)
  | '\\' :: '0' :: rest => ('\x00', rest)
  | '\\' :: 'u' :: '{' :: rest =>
    (Char.ofNat (ofHexDigits (rest.takeWhile (· ≠ '}'))), (rest.dropWhile (· ≠ '}')).tail)
  | '\\' :: c :: rest => (c, rest)
  | c :: rest => (c, rest)
  | [] => default

variable {c d : Char} {cs ds r s : List Char} {n : Nat}

theorem hexValue_digitChar (h : n < 16) : hexValue n.digitChar = n := by
  have hall : ∀ n < 16, hexValue n.digitChar = n := by decide
  exact hall n h

theorem ofHexDigits_hexDigits (n : Nat) : ofHexDigits (hexDigits n) = n := by
  induction n using Nat.strongRecOn with
  | ind n ih =>
    unfold hexDigits at ih ⊢
    rw [Nat.toDigits_eq_if (by omega)]
    split
    · next h => simp [ofHexDigits, hexValue_digitChar h]
    · next h =>
      have hrest := ih (n / 16) (by omega)
      have hlast := hexValue_digitChar (Nat.mod_lt n (by omega : 16 > 0))
      rw [ofHexDigits] at hrest ⊢
      rw [List.foldl_append, hrest, List.foldl_cons, List.foldl_nil, hlast]
      omega

theorem ne_brace_of_mem_hexDigits (h : c ∈ hexDigits n) : c ≠ '}' := by
  induction n using Nat.strongRecOn with
  | ind n ih =>
    unfold hexDigits at ih h
    have hdigit : ∀ n < 16, n.digitChar ≠ '}' := by decide
    rw [Nat.toDigits_eq_if (by omega)] at h
    split at h
    · next hn =>
      rw [List.mem_singleton.mp h]
      exact hdigit n hn
    · next hn =>
      rcases List.mem_append.mp h with h | h
      · exact ih (n / 16) (by omega) h
      · rw [List.mem_singleton.mp h]
        exact hdigit _ (Nat.mod_lt n (by omega))

theorem unescape_plain (h : c ≠ '\\') (r : List Char) : unescape (c :: r) = (c, r) := by
  unfold unescape
  split <;> simp_all

theorem unescape_codePoint (c : Char) (r : List Char) :
    unescape ('\\' :: 'u' :: '{' :: (hexDigits c.toNat ++ '}' :: r)) = (c, r) := by
  have hdigits : ∀ x ∈ hexDigits c.toNat, decide (x ≠ '}') = true := fun x hx =>
    decide_eq_true (ne_brace_of_mem_hexDigits hx)
  rw [unescape, List.takeWhile_append_of_pos hdigits, List.dropWhile_append_of_pos hdigits]
  simp [ofHexDigits_hexDigits]

theorem unescape_escaped (c : Char) (r : List Char) : unescape (escaped c ++ r) = (c, r) := by
  unfold escaped
  split
  · next h => subst h; rfl
  split
  · next h => subst h; rfl
  split
  · next h => subst h; rfl
  split
  · next h => subst h; rfl
  split
  · next h => subst h; rfl
  split
  · next h => subst h; rfl
  split
  · next h _ _ _ _ _ => exact unescape_plain h r
  · simpa using unescape_codePoint c r

theorem escaped_append_inj (h : escaped c ++ r = escaped d ++ s) : c = d ∧ r = s := by
  -- reading the first character back gives both
  have hread := congrArg unescape h
  rw [unescape_escaped, unescape_escaped] at hread
  exact Prod.mk.inj hread

theorem escaped_append_ne_quote (c : Char) (r s : List Char) : escaped c ++ r ≠ '\x22' :: s := by
  intro h
  have hquote : unescape ('\x22' :: s) = ('\x22', s) := unescape_plain (by decide) s
  rw [← h, unescape_escaped] at hquote
  rw [(Prod.mk.inj hquote).1] at h
  cases h

theorem flatMap_escaped_inj
    (h : cs.flatMap escaped ++ '\x22' :: r = ds.flatMap escaped ++ '\x22' :: s) :
    cs = ds ∧ r = s := by
  induction cs generalizing ds with
  | nil =>
    cases ds with
    | nil => exact ⟨rfl, List.tail_eq_of_cons_eq h⟩
    | cons d ds =>
      rw [List.flatMap_cons, List.append_assoc] at h
      exact False.elim (escaped_append_ne_quote _ _ _ h.symm)
  | cons c cs ih =>
    rw [List.flatMap_cons, List.append_assoc] at h
    cases ds with
    | nil => exact False.elim (escaped_append_ne_quote _ _ _ h)
    | cons d ds =>
      rw [List.flatMap_cons, List.append_assoc] at h
      obtain ⟨rfl, htail⟩ := escaped_append_inj h
      obtain ⟨rfl, hrest⟩ := ih htail
      exact ⟨rfl, hrest⟩

/-- A quoted text says which text it quotes and where it ends. -/
theorem quoted_append_inj (h : quoted cs ++ r = quoted ds ++ s) : cs = ds ∧ r = s := by
  refine flatMap_escaped_inj ?_
  simpa [quoted] using h

/-- A text with a quote, a backslash, a line break and a character outside of the plain ones. -/
example : quoted ['"', '\\', '\n', '\x1b'] = "\"\\\"\\\\\\n\\u\x7b1b\x7d\"".toList := by decide

end Arbor.Text
