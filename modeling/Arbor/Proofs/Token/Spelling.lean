import Arbor.Proofs.Token.Lexeme

/-!
# How tokens are spelled

Which characters each kind of token is written with, and which character behind a lexeme would have
made it longer. Neither mentions the scanner. `front` takes a spelled lexeme with nothing behind it
that goes on with it, and takes nothing else.
-/
namespace Arbor.Token

/-- What is left of a token when its place is forgotten. -/
abbrev Word := Kind × String

def word (t : Token) : Word := (t.kind, t.text)

/-- The texts of each kind of token but a quoted text. -/
inductive Spells : Kind → List Char → Prop where
  | semicolon : Spells .semicolon [';']
  | comma : Spells .comma [',']
  | assign : Spells .assign [':']
  | opening : Spells .opening ['(']
  | closing : Spells .closing [')']
  | brace {c : Char} : c = '{' ∨ c = '}' → Spells .keyword [c]
  | operator (op : Operator) : Spells .operator op.symbol.toList
  | keyword {k : Keyword} : k ∈ Keyword.words → Spells .keyword k.text.toList
  | name {head : Char} {tail : List Char} : isNameStart head = true →
      (∀ c ∈ tail, isNameChar c = true) → (∀ k ∈ Keyword.words, k.text.toList ≠ head :: tail) →
      Spells .name (head :: tail)
  | digits {head : Char} {tail : List Char} : head.isDigit = true →
      (∀ c ∈ tail, c.isDigit = true) → Spells .number (head :: tail)
  | decimal {head : Char} {whole fraction : List Char} : head.isDigit = true →
      (∀ c ∈ whole, c.isDigit = true) → (∀ c ∈ fraction, c.isDigit = true) →
      Spells .number (head :: (whole ++ '.' :: fraction))

/-- With `next` behind it, the lexeme `text` of this kind is not all of its lexeme. -/
def GoesOn (kind : Kind) (text : List Char) (next : Char) : Prop :=
  match kind with
  | .name => isNameChar next = true
  | .keyword => text ≠ ['{'] ∧ text ≠ ['}'] ∧ isNameChar next = true
  | .number => next.isDigit = true ∨ next = '.' ∧ '.' ∉ text
  | .operator => ∃ op : Operator, op.symbol.toList = text ++ [next]
  | _ => False

variable {c : Char} {rest after text : List Char} {kind : Kind}

theorem takeWhile_run {p : Char → Bool} {run : List Char} (hrun : ∀ d ∈ run, p d = true)
    (hafter : ∀ next ∈ after.head?, p next = false) : (run ++ after).takeWhile p = run := by
  rw [List.takeWhile_append_of_pos hrun]
  cases after with
  | nil => simp
  | cons d after => simp [hafter d rfl]

theorem dropWhile_run {p : Char → Bool} {run : List Char} (hrun : ∀ d ∈ run, p d = true)
    (hafter : ∀ next ∈ after.head?, p next = false) : (run ++ after).dropWhile p = after := by
  rw [List.dropWhile_append_of_pos hrun]
  cases after with
  | nil => rfl
  | cons d after => simp [hafter d rfl]

theorem exists_run (p : Char → Bool) (cs : List Char) : ∃ run after, cs = run ++ after ∧
    (∀ d ∈ run, p d = true) ∧ ∀ next ∈ after.head?, p next = false := by
  induction cs with
  | nil => exact ⟨[], [], rfl, fun d hd => (List.not_mem_nil hd).elim, fun d hd => by cases hd⟩
  | cons d cs ih =>
    by_cases hd : p d = true
    · obtain ⟨run, after, rfl, hrun, hafter⟩ := ih
      exact ⟨d :: run, after, rfl, List.forall_mem_cons.mpr ⟨hd, hrun⟩, hafter⟩
    · refine ⟨[], d :: cs, rfl, fun e he => (List.not_mem_nil he).elim, ?_⟩
      intro next hnext
      cases hnext
      simpa using hd

structure Passed (c : Char) : Prop where
  blank : Text.isBlank c = false
  comment : c ≠ '\\'
  punctuation : punctuation? c = none

theorem Passed.front (h : Passed c) : front c rest =
    match operatorAt? c rest with
    | some text => .lexeme .operator text 0 (text.length - 1)
    | none =>
      if isNameStart c then
        .lexeme (wordKind (c :: rest.takeWhile isNameChar)) (c :: rest.takeWhile isNameChar) 0
          (rest.takeWhile isNameChar).length
      else if c.isDigit then .lexeme .number (c :: numberTail rest) 0 (numberTail rest).length
      else if isQuote c then
        if rest.contains c then
          .lexeme .string (rest.takeWhile (· != c)) 1 ((rest.takeWhile (· != c)).length + 1)
        else .unclosed
      else .unknown := by
  unfold Token.front
  rw [if_neg (by simp [h.blank]), if_neg (by simp [h.comment])]
  cases hpunctuation : punctuation? c with
  | none => rfl
  | some kind =>
    rw [h.punctuation] at hpunctuation
    cases hpunctuation

theorem ascii_of_nameStart (h : isNameStart c = true) : c.toNat < 128 := by
  change (decide (c.val ≥ 65 ∧ c.val ≤ 90) || (c.val ≥ 97 && c.val ≤ 122) || c == '_') = true at h
  simp only [Bool.or_eq_true, Bool.and_eq_true, decide_eq_true_eq, beq_iff_eq,
    UInt32.le_iff_toNat_le, ge_iff_le] at h
  rcases h with (⟨-, h⟩ | ⟨-, h⟩) | rfl
  · exact Nat.lt_of_le_of_lt h (by decide)
  · exact Nat.lt_of_le_of_lt h (by decide)
  · decide

theorem ascii_of_isDigit (h : c.isDigit = true) : c.toNat < 128 := by
  change (c.val ≥ 48 && c.val ≤ 57) = true at h
  simp only [Bool.and_eq_true, decide_eq_true_eq, UInt32.le_iff_toNat_le, ge_iff_le] at h
  exact Nat.lt_of_le_of_lt h.2 (by decide)

theorem isQuote_iff : isQuote c = true ↔ c = '\x27' ∨ c = '\x22' ∨ c = '\x60' := by
  simp [isQuote, or_assoc]

/-- The classes that the last three branches of the scanner ask for have nothing in common with each
other, nor with what the branches before them take. -/
theorem classes_apart : ∀ n, n < 128 →
    (isNameStart (Char.ofNat n) = true ∨ (Char.ofNat n).isDigit = true ∨
      isQuote (Char.ofNat n) = true) →
    (Text.isBlank (Char.ofNat n) = false ∧ Char.ofNat n ≠ '\\' ∧
      punctuation? (Char.ofNat n) = none) ∧
    (∀ op ∈ Operator.all, op.symbol.toList.head? ≠ some (Char.ofNat n)) ∧
    ((Char.ofNat n).isDigit = true → isNameStart (Char.ofNat n) = false) ∧
    (isQuote (Char.ofNat n) = true →
      isNameStart (Char.ofNat n) = false ∧ (Char.ofNat n).isDigit = false) := by
  unfold Text.isBlank
  decide

theorem class_apart (h : isNameStart c = true ∨ c.isDigit = true ∨ isQuote c = true) :
    Passed c ∧ (∀ op : Operator, op.symbol.toList.head? ≠ some c) ∧
      (c.isDigit = true → isNameStart c = false) ∧
      (isQuote c = true → isNameStart c = false ∧ c.isDigit = false) := by
  have hascii : c.toNat < 128 := by
    rcases h with h | h | h
    · exact ascii_of_nameStart h
    · exact ascii_of_isDigit h
    · rcases isQuote_iff.mp h with rfl | rfl | rfl <;> decide
  have hapart := classes_apart c.toNat hascii
  rw [Char.ofNat_toNat] at hapart
  obtain ⟨⟨hblank, hcomment, hpunctuation⟩, hoperator, hdigit, hquote⟩ := hapart h
  refine ⟨⟨hblank, hcomment, hpunctuation⟩, fun op => hoperator op ?_, hdigit, hquote⟩
  cases op <;> decide

theorem operator_passed {op : Operator} (h : op.symbol.toList.head? = some c) : Passed c := by
  have hall : Text.isBlank c = false ∧ c ≠ '\\' ∧ punctuation? c = none := by
    unfold Text.isBlank
    cases op <;> cases h <;> decide
  exact ⟨hall.1, hall.2.1, hall.2.2⟩

theorem punctuation_passed (h : punctuation? c = some kind) :
    Text.isBlank c = false ∧ c ≠ '\\' := by
  unfold punctuation? at h
  unfold Text.isBlank
  split at h
  all_goals first | exact (by decide) | cases h

theorem symbol_short (op : Operator) :
    (∃ c, op.symbol.toList = [c]) ∨ ∃ c d, op.symbol.toList = [c, d] := by
  cases op
  all_goals first | exact Or.inl ⟨_, rfl⟩ | exact Or.inr ⟨_, _, rfl⟩

theorem named_iff : (Operator.ofSymbol? (String.ofList text)).isSome = true ↔
    ∃ op : Operator, op.symbol.toList = text := by
  constructor
  · intro h
    obtain ⟨op, hop⟩ := Option.isSome_iff_exists.mp h
    exact ⟨op, by rw [Operator.symbol_of_ofSymbol? hop, String.toList_ofList]⟩
  · rintro ⟨op, rfl⟩
    rw [String.ofList_toList, Operator.ofSymbol?_symbol]
    rfl

theorem operatorAt?_none (h : ∀ op : Operator, op.symbol.toList.head? ≠ some c) :
    operatorAt? c rest = none := by
  have hnone : ∀ tail, ¬(Operator.ofSymbol? (String.ofList (c :: tail))).isSome = true := by
    intro tail htail
    obtain ⟨op, hop⟩ := named_iff.mp htail
    exact h op (by rw [hop]; rfl)
  unfold operatorAt?
  cases rest with
  | nil => exact if_neg (hnone [])
  | cons d rest =>
    dsimp only
    rw [if_neg (hnone [d]), if_neg (hnone [])]

theorem operatorAt?_symbol {op : Operator} (hop : op.symbol.toList = c :: text)
    (hafter : ∀ next ∈ after.head?, ¬GoesOn .operator (c :: text) next) :
    operatorAt? c (text ++ after) = some (c :: text) := by
  have hnamed := named_iff.mpr ⟨op, hop⟩
  unfold operatorAt?
  rcases symbol_short op with ⟨e, he⟩ | ⟨e, d, he⟩
  · rw [hop] at he
    cases he
    cases after with
    | nil => exact if_pos hnamed
    | cons d after =>
      have hlonger : ¬(Operator.ofSymbol? (String.ofList [c, d])).isSome = true :=
        fun h => hafter d rfl (named_iff.mp h)
      dsimp only [List.nil_append]
      rw [if_neg hlonger, if_pos hnamed]
  · rw [hop] at he
    cases he
    exact if_pos hnamed

theorem operatorAt?_spells (h : operatorAt? c rest = some text) :
    ∃ tail after, rest = tail ++ after ∧ text = c :: tail ∧ Spells .operator text ∧
      ∀ next ∈ after.head?, ¬GoesOn .operator text next := by
  have spelled : ∀ {text}, (Operator.ofSymbol? (String.ofList text)).isSome = true →
      Spells .operator text := by
    intro text hnamed
    obtain ⟨op, rfl⟩ := named_iff.mp hnamed
    exact .operator op
  have hpair : ∀ d next, ¬GoesOn .operator [c, d] next := by
    rintro d next ⟨op, hop⟩
    rcases symbol_short op with ⟨e, he⟩ | ⟨e, f, he⟩ <;> rw [hop] at he <;> cases he
  unfold operatorAt? at h
  cases rest with
  | nil =>
    dsimp only at h
    split at h
    · next hnamed =>
      cases h
      exact ⟨[], [], rfl, rfl, spelled hnamed, fun next hnext => by cases hnext⟩
    · cases h
  | cons d rest =>
    dsimp only at h
    split at h
    · next hnamed =>
      cases h
      exact ⟨[d], rest, rfl, rfl, spelled hnamed, fun next _ => hpair d next⟩
    split at h
    · next hlonger hnamed =>
      cases h
      refine ⟨[], d :: rest, rfl, rfl, spelled hnamed, ?_⟩
      intro next hnext hlong
      cases hnext
      exact hlonger (named_iff.mpr hlong)
    · cases h

theorem isWord_iff : Keyword.isWord (String.ofList text) = true ↔
    ∃ k ∈ Keyword.words, k.text.toList = text := by
  unfold Keyword.isWord
  rw [List.any_eq_true]
  constructor
  · rintro ⟨k, hk, htext⟩
    exact ⟨k, hk, by rw [beq_iff_eq.mp htext, String.toList_ofList]⟩
  · rintro ⟨k, hk, rfl⟩
    exact ⟨k, hk, by rw [String.ofList_toList]; exact beq_self_eq_true _⟩

theorem keyword_letters {k : Keyword} (hk : k ∈ Keyword.words) :
    ∃ head tail, k.text.toList = head :: tail ∧ isNameStart head = true ∧
      tail.all isNameChar = true ∧ k.text.toList ≠ ['{'] ∧ k.text.toList ≠ ['}'] := by
  revert hk
  cases k
  all_goals first
    | exact fun _ => ⟨_, _, rfl, by decide, by decide, by decide, by decide⟩
    | exact fun hk => absurd hk (by decide)

theorem front_word (hc : isNameStart c = true) : front c rest =
    .lexeme (wordKind (c :: rest.takeWhile isNameChar)) (c :: rest.takeWhile isNameChar) 0
      (rest.takeWhile isNameChar).length := by
  obtain ⟨hpassed, hoperator, -⟩ := class_apart (Or.inl hc)
  rw [hpassed.front, operatorAt?_none hoperator]
  exact if_pos hc

theorem word_spells (hc : isNameStart c = true) (hrest : ∀ d ∈ rest, isNameChar d = true)
    (hafter : ∀ next ∈ after.head?, isNameChar next = false) :
    Spells (wordKind (c :: rest)) (c :: rest) ∧
      ∀ next ∈ after.head?, ¬GoesOn (wordKind (c :: rest)) (c :: rest) next := by
  unfold wordKind
  split
  · next hword =>
    obtain ⟨k, hk, htext⟩ := isWord_iff.mp hword
    rw [← htext]
    refine ⟨.keyword hk, ?_⟩
    rintro next hnext ⟨-, -, hname⟩
    rw [hafter next hnext] at hname
    cases hname
  · next hword =>
    refine ⟨.name hc hrest fun k hk htext => hword (isWord_iff.mpr ⟨k, hk, htext⟩), ?_⟩
    intro next hnext hname
    rw [GoesOn, hafter next hnext] at hname
    cases hname

theorem front_number (hc : c.isDigit = true) : front c rest =
    .lexeme .number (c :: numberTail rest) 0 (numberTail rest).length := by
  obtain ⟨hpassed, hoperator, hdigit, -⟩ := class_apart (Or.inr (Or.inl hc))
  rw [hpassed.front, operatorAt?_none hoperator]
  dsimp only
  rw [if_neg (by simp [hdigit hc]), if_pos hc]

theorem isDigit_point : Char.isDigit '.' = false := by decide

theorem numberTail_digits (hrest : ∀ d ∈ rest, d.isDigit = true)
    (hafter : ∀ next ∈ after.head?, next.isDigit = false ∧ next ≠ '.') :
    numberTail (rest ++ after) = rest := by
  have hstop : ∀ next ∈ after.head?, next.isDigit = false := fun next h => (hafter next h).1
  unfold numberTail
  dsimp only
  rw [takeWhile_run hrest hstop, dropWhile_run hrest hstop]
  cases after with
  | nil => rfl
  | cons d after =>
    split
    · next hpoint =>
      cases hpoint
      exact absurd rfl (hafter '.' rfl).2
    · rfl

theorem numberTail_decimal {fraction : List Char} (hrest : ∀ d ∈ rest, d.isDigit = true)
    (hfraction : ∀ d ∈ fraction, d.isDigit = true)
    (hafter : ∀ next ∈ after.head?, next.isDigit = false) :
    numberTail (rest ++ '.' :: (fraction ++ after)) = rest ++ '.' :: fraction := by
  have hpoint : ∀ next ∈ ('.' :: (fraction ++ after)).head?, next.isDigit = false := by
    intro next hnext
    cases hnext
    exact isDigit_point
  unfold numberTail
  dsimp only
  rw [takeWhile_run hrest hpoint, dropWhile_run hrest hpoint]
  exact congrArg (rest ++ '.' :: ·) (takeWhile_run hfraction hafter)

/-- A number takes all digits that follow, and a point unless it has one. -/
theorem number_spells (hc : c.isDigit = true) (rest : List Char) :
    ∃ after, rest = numberTail rest ++ after ∧ Spells .number (c :: numberTail rest) ∧
      ∀ next ∈ after.head?, ¬GoesOn .number (c :: numberTail rest) next := by
  obtain ⟨whole, after, rfl, hwhole, hstop⟩ := exists_run Char.isDigit rest
  by_cases hpoint : after.head? = some '.'
  · obtain ⟨tail, rfl⟩ := List.head?_eq_some_iff.mp hpoint
    obtain ⟨fraction, after, rfl, hfraction, hstop⟩ := exists_run Char.isDigit tail
    rw [numberTail_decimal hwhole hfraction hstop]
    refine ⟨after, by simp, .decimal hc hwhole hfraction, ?_⟩
    rintro next hnext (hdigit | ⟨-, hnone⟩)
    · rw [hstop next hnext] at hdigit
      cases hdigit
    · exact hnone (by simp)
  · have hstop' : ∀ next ∈ after.head?, next.isDigit = false ∧ next ≠ '.' := by
      intro next hnext
      refine ⟨hstop next hnext, ?_⟩
      rintro rfl
      exact hpoint hnext
    rw [numberTail_digits hwhole hstop']
    refine ⟨after, rfl, .digits hc hwhole, ?_⟩
    rintro next hnext (hdigit | ⟨hdot, -⟩)
    · rw [hstop next hnext] at hdigit
      cases hdigit
    · exact (hstop' next hnext).2 hdot

theorem front_quoted (hc : isQuote c = true) (htext : c ∉ text) :
    front c (text ++ c :: after) = .lexeme .string text 1 (text.length + 1) := by
  obtain ⟨hpassed, hoperator, -, hquote⟩ := class_apart (Or.inr (Or.inr hc))
  have hrun : ∀ d ∈ text, (d != c) = true := by
    intro d hd
    rw [bne_iff_ne]
    rintro rfl
    exact htext hd
  have hend : ∀ next ∈ (c :: after).head?, (next != c) = false := by
    intro next hnext
    cases hnext
    simp
  rw [hpassed.front, operatorAt?_none hoperator]
  dsimp only
  rw [if_neg (by simp [(hquote hc).1]), if_neg (by simp [(hquote hc).2]), if_pos hc,
    if_pos (by simp), takeWhile_run hrun hend]

end Arbor.Token
