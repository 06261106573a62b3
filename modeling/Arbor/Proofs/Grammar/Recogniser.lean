import Arbor.Token

/-!
# The grammar

Which token lists are programs, said without a tree and without looking back. Expressions are taken
by descent, and of the bodies that are open only two facts are kept: whether a body belongs to an
`if`, and what the last statement in it is.
-/
namespace Arbor.Grammar

/-- What is left of `ts` after a part of it was taken. -/
abbrev Rest (ts : List Token) := { rest : List Token // rest.length < ts.length }

namespace Rest

variable {ts more : List Token}

def taken (t : Token) (rest : List Token) : Rest (t :: rest) := ⟨rest, Nat.lt_succ_self _⟩

def under (h : more.length ≤ ts.length) (r : Rest more) : Rest ts :=
  ⟨r.1, Nat.lt_of_lt_of_le r.2 h⟩

end Rest

def starts : List Token → Bool
  | t :: _ => t.kind = .string ∨ t.kind = .number ∨ t.kind = .name
  | [] => false

mutual

/-- A literal, a name or a call. A name before a bracket is a call. -/
def operand? (ts : List Token) : Option (Rest ts) :=
  match ts with
  | [] => none
  | t :: rest =>
    match t.kind with
    | .string | .number => some (.taken t rest)
    | .name =>
      match rest with
      | [] => some (.taken t [])
      | bracket :: more =>
        if bracket.kind = .opening then (arguments? more).map (.under (by simp; omega))
        else some (.taken t (bracket :: more))
    | _ => none
termination_by (ts.length, 0)

def expression? (ts : List Token) : Option (Rest ts) :=
  match operand? ts with
  | none => none
  | some ⟨[], h⟩ => some ⟨[], h⟩
  | some ⟨t :: rest, h⟩ =>
    if t.kind = .operator then
      (expression? rest).map (.under (by simp only [List.length_cons] at h; omega))
    else some ⟨t :: rest, h⟩
termination_by (ts.length, 1)
decreasing_by
  · exact Prod.Lex.right _ (by decide)
  · exact Prod.Lex.left _ _ (by simp only [List.length_cons] at h; omega)

def furtherArguments? (ts : List Token) : Option (Rest ts) :=
  match expression? ts with
  | none => none
  | some ⟨[], _⟩ => none
  | some ⟨t :: rest, h⟩ =>
    if t.kind = .comma then
      (furtherArguments? rest).map (.under (by simp only [List.length_cons] at h; omega))
    else if t.kind = .closing then
      some ⟨rest, by simp only [List.length_cons] at h; omega⟩
    else none
termination_by (ts.length, 2)
decreasing_by
  · exact Prod.Lex.right _ (by decide)
  · exact Prod.Lex.left _ _ (by simp only [List.length_cons] at h; omega)

def arguments? (ts : List Token) : Option (Rest ts) :=
  match ts with
  | [] => none
  | t :: rest =>
    if starts (t :: rest) then furtherArguments? (t :: rest)
    else if t.kind = .closing then some (.taken t rest)
    else none
termination_by (ts.length, 3)

end

/-- An expression is taken exactly where one starts. -/
def optional? (ts : List Token) : Option (List Token) :=
  if starts ts then (expression? ts).map (·.1) else some ts

def token? (kind : Token.Kind) : List Token → Option (List Token)
  | t :: rest => if t.kind = kind then some rest else none
  | [] => none

def names? : List Token → Option (List Token)
  | name :: t :: rest =>
    if name.kind = .name then
      if t.kind = .comma then names? rest
      else if t.kind = .closing then some rest
      else none
    else none
  | _ => none

def parameters? (ts : List Token) : Option (List Token) :=
  match token? .closing ts with
  | some rest => some rest
  | none => names? ts

def declaration? (ts : List Token) : Option (List Token) := do
  let rest ← token? .name ts
  let rest ← token? .opening rest
  parameters? rest

structure OpenBody where
  /-- Whether it belongs to an `if`. -/
  ofBranch : Bool
  /-- Whether its last statement is an `if`, when it has one. -/
  last : Option Bool
  deriving DecidableEq, Repr

/-- The innermost open body and those around it, innermost first. -/
structure Bodies where
  inner : OpenBody
  outer : List OpenBody
  deriving DecidableEq, Repr

namespace Bodies

def initial : Bodies := ⟨⟨false, none⟩, []⟩

def hold (b : Bodies) (isBranch : Bool) : Bodies := { b with inner.last := some isBranch }

/-- A further body of the `if` that the innermost body belongs to. -/
def otherwise? (b : Bodies) : Option Bodies :=
  if b.inner.ofBranch then some { b with inner := ⟨true, none⟩ } else none

def open? (b : Bodies) : Option Bodies :=
  b.inner.last.map fun isBranch => ⟨⟨isBranch, none⟩, b.inner :: b.outer⟩

def close? (b : Bodies) : Option Bodies :=
  match b.outer with
  | [] => none
  | inner :: outer => some ⟨inner, outer⟩

end Bodies

def statement? (b : Bodies) (t : Token) (rest : List Token) : Option (Bodies × List Token) :=
  match t.kind with
  | .semicolon => some (b.hold false, rest)
  | .keyword =>
    match Keyword.ofText? t.text with
    | some .branch => (optional? rest).map (b.hold true, ·)
    | some .loop | some .output | some .giveBack => (optional? rest).map (b.hold false, ·)
    | some .otherwise => b.otherwise?.bind fun b => (optional? rest).map (b, ·)
    | some .remove | some .input => (token? .name rest).map (b.hold false, ·)
    | some .function => (declaration? rest).map (b.hold false, ·)
    | some .openBody => b.open?.map (·, rest)
    | some .closeBody => b.close?.map (·, rest)
    | none => none
  | .name =>
    match rest with
    | [] => none
    | next :: more =>
      if next.kind = .opening then (arguments? more).map (b.hold false, ·.1)
      else if next.kind = .assign then (optional? more).map (b.hold false, ·)
      else none
  | _ => none

variable {ts rest : List Token} {t : Token} {b b' : Bodies}

theorem operand?_literal (h : t.kind = .string ∨ t.kind = .number) :
    operand? (t :: rest) = some (.taken t rest) := by
  rw [operand?.eq_def]
  rcases h with h | h <;> simp only [h]

theorem operand?_name (h : t.kind = .name)
    (hr : ∀ bracket more, rest = bracket :: more → bracket.kind ≠ .opening) :
    operand? (t :: rest) = some (.taken t rest) := by
  rw [operand?.eq_def]
  cases rest with
  | nil => simp only [h]
  | cons bracket more => simp only [h, if_neg (hr bracket more rfl)]

theorem operand?_call {bracket : Token} {more : List Token} (h : t.kind = .name)
    (hb : bracket.kind = .opening) : operand? (t :: bracket :: more) =
      (arguments? more).map (.under (Nat.le_add_right more.length 2)) := by
  rw [operand?.eq_def]
  simp only [h, if_pos hb]

theorem operand?_none (h : starts ts = false) : operand? ts = none := by
  cases ts with
  | nil => rw [operand?.eq_def]
  | cons t rest =>
    rw [operand?.eq_def]
    simp only [starts, decide_eq_false_iff_not, not_or] at h
    obtain ⟨hs, hnum, hname⟩ := h
    cases hk : t.kind with
    | string => exact absurd hk hs
    | number => exact absurd hk hnum
    | name => exact absurd hk hname
    | _ => simp only [hk]

theorem expression?_none (h : operand? ts = none) : expression? ts = none := by
  rw [expression?.eq_def, h]

theorem expression?_ended {r : Rest ts} (h : operand? ts = some r)
    (hr : ∀ t more, r.1 = t :: more → t.kind ≠ .operator) : expression? ts = some r := by
  obtain ⟨r, hlt⟩ := r
  rw [expression?.eq_def, h]
  cases r with
  | nil => rfl
  | cons t more => simp only [if_neg (hr t more rfl)]

theorem expression?_operator {more : List Token} {hlt : (t :: more).length < ts.length}
    (h : operand? ts = some ⟨t :: more, hlt⟩) (hk : t.kind = .operator) : expression? ts =
      (expression? more).map (.under (Nat.le_of_lt (Nat.lt_of_succ_lt hlt))) := by
  rw [expression?.eq_def, h]
  simp only [if_pos hk]

theorem furtherArguments?_none (h : expression? ts = none) : furtherArguments? ts = none := by
  rw [furtherArguments?.eq_def, h]

theorem furtherArguments?_comma {more : List Token} {hlt : (t :: more).length < ts.length}
    (h : expression? ts = some ⟨t :: more, hlt⟩) (hk : t.kind = .comma) : furtherArguments? ts =
      (furtherArguments? more).map (.under (Nat.le_of_lt (Nat.lt_of_succ_lt hlt))) := by
  rw [furtherArguments?.eq_def, h]
  simp only [if_pos hk]

theorem furtherArguments?_closing {more : List Token} {hlt : (t :: more).length < ts.length}
    (h : expression? ts = some ⟨t :: more, hlt⟩) (hk : t.kind = .closing) :
    furtherArguments? ts = some ⟨more, Nat.lt_of_succ_lt hlt⟩ := by
  have hne : t.kind ≠ .comma := by simp [hk]
  rw [furtherArguments?.eq_def, h]
  simp only [if_neg hne, if_pos hk]

theorem furtherArguments?_other {r : Rest ts} (h : expression? ts = some r)
    (hr : ∀ t more, r.1 = t :: more → t.kind ≠ .comma ∧ t.kind ≠ .closing) :
    furtherArguments? ts = none := by
  obtain ⟨r, hlt⟩ := r
  rw [furtherArguments?.eq_def, h]
  cases r with
  | nil => rfl
  | cons t more =>
    obtain ⟨hcomma, hclosing⟩ := hr t more rfl
    simp only [if_neg hcomma, if_neg hclosing]

theorem arguments?_some (h : starts ts = true) : arguments? ts = furtherArguments? ts := by
  cases ts with
  | nil => cases h
  | cons t rest =>
    rw [arguments?.eq_def]
    simp only [if_pos h]

theorem arguments?_closing (h : t.kind = .closing) :
    arguments? (t :: rest) = some (.taken t rest) := by
  have hstarts : ¬starts (t :: rest) = true := by simp [starts, h]
  rw [arguments?.eq_def]
  simp only [if_neg hstarts, if_pos h]

theorem arguments?_none (h : starts ts = false)
    (hr : ∀ t more, ts = t :: more → t.kind ≠ .closing) : arguments? ts = none := by
  cases ts with
  | nil => rw [arguments?.eq_def]
  | cons t rest =>
    have hstarts : ¬starts (t :: rest) = true := by simp [h]
    rw [arguments?.eq_def]
    simp only [if_neg hstarts, if_neg (hr t rest rfl)]

theorem optional?_length (h : optional? ts = some rest) : rest.length ≤ ts.length := by
  simp only [optional?] at h
  split at h
  · obtain ⟨r, _, rfl⟩ := Option.map_eq_some_iff.mp h
    exact Nat.le_of_lt r.2
  · cases h
    exact Nat.le_refl _

theorem token?_eq_some {kind : Token.Kind} :
    token? kind ts = some rest ↔ ∃ t, ts = t :: rest ∧ t.kind = kind := by
  cases ts with
  | nil => simp [token?]
  | cons t tail =>
    by_cases hk : t.kind = kind
    · simp [token?, hk, and_assoc, eq_comm]
    · simp only [token?, if_neg hk]
      constructor
      · intro h
        cases h
      · rintro ⟨u, hu, huk⟩
        cases hu
        exact absurd huk hk

theorem names?_length (h : names? ts = some rest) : rest.length ≤ ts.length := by
  fun_induction names? ts with
  | case1 _ _ _ _ _ ih => have := ih h; simp only [List.length_cons]; omega
  | case2 => cases h; simp only [List.length_cons]; omega
  | case3 => cases h
  | case4 => cases h
  | case5 => cases h

theorem token?_length {kind : Token.Kind} (h : token? kind ts = some rest) :
    rest.length ≤ ts.length := by
  obtain ⟨_, rfl, _⟩ := token?_eq_some.mp h
  exact Nat.le_succ _

theorem parameters?_length (h : parameters? ts = some rest) : rest.length ≤ ts.length := by
  simp only [parameters?] at h
  split at h
  · next hc =>
    cases h
    exact token?_length hc
  · exact names?_length h

theorem declaration?_length (h : declaration? ts = some rest) : rest.length ≤ ts.length := by
  obtain ⟨r₁, h₁, h⟩ := Option.bind_eq_some_iff.mp h
  obtain ⟨r₂, h₂, h⟩ := Option.bind_eq_some_iff.mp h
  exact Nat.le_trans (parameters?_length h) (Nat.le_trans (token?_length h₂) (token?_length h₁))

theorem statement?_length (h : statement? b t ts = some (b', rest)) :
    rest.length ≤ ts.length := by
  unfold statement? at h
  split at h
  · cases h
    exact Nat.le_refl _
  · split at h
    iterate 4
      obtain ⟨r, hr, h⟩ := Option.map_eq_some_iff.mp h
      cases h
      exact optional?_length hr
    · obtain ⟨b₁, _, h⟩ := Option.bind_eq_some_iff.mp h
      obtain ⟨r, hr, h⟩ := Option.map_eq_some_iff.mp h
      cases h
      exact optional?_length hr
    iterate 2
      obtain ⟨r, hr, h⟩ := Option.map_eq_some_iff.mp h
      cases h
      exact token?_length hr
    · obtain ⟨r, hr, h⟩ := Option.map_eq_some_iff.mp h
      cases h
      exact declaration?_length hr
    iterate 2
      obtain ⟨b₁, _, h⟩ := Option.map_eq_some_iff.mp h
      cases h
      exact Nat.le_refl _
    · cases h
  · split at h
    · cases h
    · split at h
      · obtain ⟨r, _, h⟩ := Option.map_eq_some_iff.mp h
        cases h
        exact Nat.le_succ_of_le (Nat.le_of_lt r.2)
      · split at h
        · obtain ⟨r, hr, h⟩ := Option.map_eq_some_iff.mp h
          cases h
          exact Nat.le_succ_of_le (optional?_length hr)
        · cases h
  · cases h

/-- Whether `ts` goes on from the open bodies `b` as a program does. Bodies may stay open at the
end. -/
def accepts (b : Bodies) (ts : List Token) : Bool :=
  match ts with
  | [] => true
  | t :: rest =>
    match _h : statement? b t rest with
    | some (b, rest) => accepts b rest
    | none => false
termination_by ts.length
decreasing_by exact Nat.lt_succ_of_le (statement?_length _h)

end Arbor.Grammar
