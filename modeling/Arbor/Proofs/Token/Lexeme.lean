import Arbor.Token.Scan

/-!
# Lexemes

Which characters of a text a lexeme takes. A line break or a semicolon behind a text changes nothing
at its front, since no lexeme but a quoted text goes on over one, and a quoted text ends inside of
the text or not at all. Only a comment goes on over a semicolon.
-/
namespace Arbor.Token

/-- The characters of a lexeme. A quoted text loses its quotes; every other lexeme keeps all that it
takes. -/
inductive Lexeme (c : Char) (rest : List Char) : Kind → List Char → Nat → Nat → Prop where
  | plain {kind : Kind} {text : List Char} {extra : Nat} : kind ≠ .eof → kind ≠ .string →
      (kind = .keyword → (Keyword.ofText? (String.ofList text)).isSome = true) →
      text = c :: rest.take extra → extra ≤ rest.length → Lexeme c rest kind text 0 extra
  | quoted {text after : List Char} : isQuote c = true → c ∉ text → rest = text ++ c :: after →
      Lexeme c rest .string text 1 (text.length + 1)

variable {c : Char} {rest text : List Char} {kind : Kind} {lead extra : Nat}

theorem take_length_of_isFront {l m : List Char} (h : l <+: m) : m.take l.length = l :=
  (List.prefix_iff_eq_take.mp h).symm

theorem numberTail_isFront (rest : List Char) : numberTail rest <+: rest := by
  have hsplit := List.takeWhile_append_dropWhile (p := Char.isDigit) (l := rest)
  unfold numberTail
  dsimp only
  split
  · next fraction hdrop =>
    rw [hdrop] at hsplit
    have hfraction := List.takeWhile_prefix Char.isDigit (l := fraction)
    obtain ⟨after, hafter⟩ := hfraction
    refine ⟨after, ?_⟩
    rw [List.append_assoc, List.cons_append, hafter, hsplit]
  · exact List.takeWhile_prefix _

theorem punctuation?_some (h : punctuation? c = some kind) : kind ≠ .eof ∧ kind ≠ .string ∧
    (kind = .keyword → (Keyword.ofText? (String.ofList [c])).isSome = true) := by
  unfold punctuation? at h
  split at h
  all_goals first | (cases h; decide) | cases h

theorem wordKind_keyword (h : wordKind text = .keyword) :
    (Keyword.ofText? (String.ofList text)).isSome = true := by
  unfold wordKind at h
  split at h
  · next hword =>
    obtain ⟨k, hk, htext⟩ := List.any_eq_true.mp hword
    exact List.find?_isSome.mpr ⟨k, List.mem_append_left _ hk, htext⟩
  · cases h

theorem wordKind_cases (text : List Char) : wordKind text = .keyword ∨ wordKind text = .name := by
  unfold wordKind
  split
  · exact Or.inl rfl
  · exact Or.inr rfl

theorem operatorAt?_some (h : operatorAt? c rest = some text) :
    text = c :: rest.take (text.length - 1) ∧ text.length - 1 ≤ rest.length := by
  unfold operatorAt? at h
  cases rest with
  | nil =>
    dsimp only at h
    split at h
    · cases h
      exact ⟨rfl, Nat.le_refl _⟩
    · cases h
  | cons d rest =>
    dsimp only at h
    split at h
    · cases h
      simp
    · split at h
      · cases h
        simp
      · cases h

theorem cut_at_first (h : c ∈ rest) : c ∉ rest.takeWhile (· != c) ∧
    ∃ after, rest = rest.takeWhile (· != c) ++ c :: after := by
  induction rest with
  | nil => cases h
  | cons d rest ih =>
    by_cases hd : d = c
    · subst hd
      exact ⟨by simp, rest, by simp⟩
    · have hmem : c ∈ rest := (List.mem_cons.mp h).resolve_left fun hcd => hd hcd.symm
      obtain ⟨hfirst, after, hafter⟩ := ih hmem
      rw [List.takeWhile_cons_of_pos (by simpa using hd)]
      refine ⟨?_, after, ?_⟩
      · intro hc
        rcases List.mem_cons.mp hc with hcd | hc
        · exact hd hcd.symm
        · exact hfirst hc
      · rw [List.cons_append, ← hafter]

theorem front_lexeme (h : front c rest = .lexeme kind text lead extra) :
    Lexeme c rest kind text lead extra := by
  unfold front at h
  split at h
  · cases h
  split at h
  · cases h
  split at h
  · next hp =>
    cases h
    obtain ⟨heof, hstring, hkeyword⟩ := punctuation?_some hp
    exact .plain heof hstring hkeyword rfl (Nat.zero_le _)
  split at h
  · next hop =>
    cases h
    obtain ⟨htext, hle⟩ := operatorAt?_some hop
    exact .plain (by decide) (by decide) (fun hk => by cases hk) htext hle
  split at h
  · cases h
    have hprefix := List.takeWhile_prefix isNameChar (l := rest)
    refine .plain ?_ ?_ wordKind_keyword ?_ hprefix.length_le
    · rcases wordKind_cases (c :: rest.takeWhile isNameChar) with hk | hk <;> rw [hk] <;> decide
    · rcases wordKind_cases (c :: rest.takeWhile isNameChar) with hk | hk <;> rw [hk] <;> decide
    · rw [take_length_of_isFront hprefix]
  split at h
  · cases h
    have hprefix := numberTail_isFront rest
    refine .plain (by decide) (by decide) (fun hk => by cases hk) ?_ hprefix.length_le
    rw [take_length_of_isFront hprefix]
  split at h
  · next hquote =>
    split at h
    · next hmem =>
      cases h
      obtain ⟨hfirst, after, hafter⟩ := cut_at_first (List.contains_iff_mem.mp hmem)
      exact .quoted hquote hfirst hafter
    · cases h
  · cases h

theorem front_gap (h : front c rest = .gap extra) : extra ≤ rest.length := by
  unfold front at h
  split at h
  · cases h
    exact Nat.zero_le _
  split at h
  · cases h
    exact (List.takeWhile_prefix _).length_le
  split at h
  · cases h
  split at h
  · cases h
  split at h
  · cases h
  split at h
  · cases h
  split at h
  · split at h <;> cases h
  · cases h

theorem Lexeme.extra_le (h : Lexeme c rest kind text lead extra) : extra ≤ rest.length := by
  cases h with
  | plain _ _ _ _ hle => exact hle
  | quoted _ _ hrest =>
    rw [hrest, List.length_append, List.length_cons]
    omega

/-- No lexeme but a quoted text goes on over the character `d`. -/
structure Separates (d : Char) : Prop where
  name : isNameChar d = false
  point : d ≠ '.'
  operator : ∀ op : Operator, d ∉ op.symbol.toList

theorem Separates.digit {d : Char} (h : Separates d) : d.isDigit = false := by
  have hname := h.name
  simp only [isNameChar, Char.isAlphanum, Bool.or_eq_false_iff] at hname
  exact hname.1.2

theorem separates_lineBreak : Separates '\n' where
  name := by decide
  point := by decide
  operator op := by cases op <;> decide

theorem separates_semicolon : Separates ';' where
  name := by decide
  point := by decide
  operator op := by cases op <;> decide

variable {d : Char}

theorem takeWhile_before {p : Char → Bool} (hp : p d = false) (rest more : List Char) :
    (rest ++ d :: more).takeWhile p = rest.takeWhile p := by
  induction rest with
  | nil => simp [hp]
  | cons e rest ih =>
    rw [List.cons_append, List.takeWhile_cons, List.takeWhile_cons, ih]

theorem dropWhile_before {p : Char → Bool} (hp : p d = false) (rest more : List Char) :
    (rest ++ d :: more).dropWhile p = rest.dropWhile p ++ d :: more := by
  induction rest with
  | nil => simp [hp]
  | cons e rest ih =>
    rw [List.cons_append, List.dropWhile_cons, List.dropWhile_cons, ih]
    split <;> rfl

theorem Separates.numberTail_eq (h : Separates d) (rest more : List Char) :
    numberTail (rest ++ d :: more) = numberTail rest := by
  unfold numberTail
  dsimp only
  rw [takeWhile_before h.digit, dropWhile_before h.digit]
  cases hdrop : rest.dropWhile Char.isDigit with
  | nil =>
    rw [List.nil_append]
    split
    · next hd => exact absurd (List.head_eq_of_cons_eq hd) h.point
    · rfl
  | cons e fraction =>
    by_cases he : e = '.'
    · subst he
      simp only [List.cons_append, takeWhile_before h.digit]
    · simp [he]

theorem Separates.operatorAt?_eq (h : Separates d) (c : Char) (rest more : List Char) :
    operatorAt? c (rest ++ d :: more) = operatorAt? c rest := by
  cases rest with
  | nil =>
    have hnone : (Operator.ofSymbol? (String.ofList [c, d])).isSome = false := by
      cases hop : Operator.ofSymbol? (String.ofList [c, d]) with
      | none => rfl
      | some op =>
        have hsymbol := congrArg String.toList (Operator.symbol_of_ofSymbol? hop)
        rw [String.toList_ofList] at hsymbol
        exact absurd (by simp [hsymbol]) (h.operator op)
    simp only [operatorAt?, List.nil_append, hnone]
    rfl
  | cons e rest => rfl

theorem takeWhile_quoted (h : c ∈ rest) (more : List Char) :
    (rest ++ more).takeWhile (· != c) = rest.takeWhile (· != c) := by
  obtain ⟨hfirst, after, hafter⟩ := cut_at_first h
  have hall : ∀ d ∈ rest.takeWhile (· != c), (d != c) = true := by
    intro d hd
    simpa using fun hdc : d = c => hfirst (hdc ▸ hd)
  generalize rest.takeWhile (· != c) = text at hafter hall
  rw [hafter, List.append_assoc, List.takeWhile_append_of_pos hall]
  simp

/-- A separator behind a text does not change what stands at its front, unless that is a quote
which nothing closes, or a comment that goes on over it. -/
theorem Separates.front_eq (hd : Separates d) (more : List Char)
    (hcomment : isLineEnd d = true ∨ c ≠ '\\') (h : front c rest ≠ .unclosed) :
    front c (rest ++ d :: more) = front c rest := by
  have hskipped : (c == '\\') = true → (rest ++ d :: more).takeWhile (!isLineEnd ·) =
      rest.takeWhile (!isLineEnd ·) := by
    intro hc
    rcases hcomment with hend | hne
    · exact takeWhile_before (by rw [hend]; rfl) rest more
    · exact absurd (beq_iff_eq.mp hc) hne
  unfold front at h ⊢
  rw [takeWhile_before hd.name, hd.operatorAt?_eq, hd.numberTail_eq]
  by_cases hblank : Text.isBlank c = true
  · rw [if_pos hblank, if_pos hblank]
  rw [if_neg hblank, if_neg hblank]
  by_cases hc : (c == '\\') = true
  · rw [if_pos hc, if_pos hc, hskipped hc]
  rw [if_neg hc, if_neg hc]
  cases hp : punctuation? c with
  | some kind => rfl
  | none =>
    cases hop : operatorAt? c rest with
    | some text => rfl
    | none =>
      dsimp only
      split
      · rfl
      split
      · rfl
      split
      · next hstart hdigit hq =>
        -- a quote that nothing closes in `rest` is excluded
        have hmem : c ∈ rest := Classical.byContradiction fun hnot => by
          simp [hblank, hc, hp, hop, hstart, hdigit, hq, hnot] at h
        have hcontains : (rest ++ d :: more).contains c = rest.contains c := by simp [hmem]
        rw [hcontains, takeWhile_quoted hmem]
      · rfl

end Arbor.Token
