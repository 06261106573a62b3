import Arbor.Proofs.Token.Located

/-!
# Scanning over a seam

A text behind a line break is scanned as if it stood alone: the tokens before the break stay as they
are, and those behind it stand later by the length of what stands before, as does a fault. A text
before a semicolon stays as it is, too, but a comment at its end takes the semicolon.
-/
namespace Arbor

def Token.later (d : Nat) (t : Token) : Token := { t with position := t.position + d }

namespace Fault

def later (d : Nat) : Fault → Fault
  | unknownCharacter c position => unknownCharacter c (position + d)
  | unclosedText quote position => unclosedText quote (position + d)
  | misplaced why found => misplaced why (found.later d)
  | callsTooDeep name position limit => callsTooDeep name (position + d) limit
  | nestsTooDeep text position limit => nestsTooDeep text (position + d) limit

@[simp] theorem kind_later (d : Nat) (f : Fault) : (f.later d).kind = f.kind := by
  cases f with
  | misplaced why found => cases why <;> rfl
  | _ => rfl

@[simp] theorem text_later (d : Nat) (f : Fault) : (f.later d).text = f.text := by
  cases f <;> rfl

@[simp] theorem start_later (d : Nat) (f : Fault) : (f.later d).start = f.start + d := by
  cases f <;> rfl

@[simp] theorem message_later (d : Nat) (f : Fault) : (f.later d).message = f.message := by
  cases f with
  | misplaced why found => cases why <;> rfl
  | _ => rfl

@[simp] theorem help_later (d : Nat) (f : Fault) : (f.later d).help = f.help := by
  cases f with
  | misplaced why found => cases why <;> rfl
  | _ => rfl

theorem stop_later (d : Nat) (f : Fault) : (f.later d).stop = f.stop + d := by
  simp only [stop_eq, start_later, kind_later, text_later]
  omega

end Fault

namespace Token

def scanLater (d : Nat) : Except Fault (List Token) → Except Fault (List Token)
  | .ok tokens => .ok (tokens.map (later d))
  | .error f => .error (f.later d)

variable {a b source : String} {cs rest text : List Char} {c : Char} {position extra d : Nat}
  {done tokens : List Token}

theorem scanFrom_later (d position : Nat) (cs : List Char) (done : List Token) :
    scanFrom (position + d) cs (done.map (later d)) = scanLater d (scanFrom position cs done) := by
  fun_induction scanFrom position cs done with
  | case1 position done =>
    rw [scanFrom]
    simp [scanLater, later]
  | case2 position done c rest extra hf ih =>
    have hposition : position + d + 1 + extra = position + 1 + extra + d := by omega
    simp only [scanFrom.eq_2, hf, hposition]
    exact ih
  | case3 position done c rest kind text lead extra hf ih =>
    have hposition : position + d + 1 + extra = position + 1 + extra + d := by omega
    have hlead : position + d + lead = position + lead + d := by omega
    simp only [scanFrom.eq_2, hf, hposition, hlead]
    exact ih
  | case4 position done c rest hf =>
    simp only [scanFrom.eq_2, hf]
    rfl
  | case5 position done c rest hf =>
    simp only [scanFrom.eq_2, hf]
    rfl

theorem scanFrom_done (position : Nat) (cs : List Char) (done : List Token) :
    scanFrom position cs done = (scanFrom position cs []).map (done.reverse ++ ·) := by
  induction hn : cs.length using Nat.strongRecOn generalizing position cs done with
  | ind n ih =>
    cases cs with
    | nil =>
      rw [scanFrom, scanFrom]
      simp [Except.map]
    | cons c rest =>
      have hlt : ∀ extra, (rest.drop extra).length < n := by
        intro extra
        rw [List.length_drop, ← hn, List.length_cons]
        omega
      rw [scanFrom.eq_2, scanFrom.eq_2]
      cases front c rest with
      | gap extra => exact ih _ (hlt extra) _ _ _ rfl
      | lexeme kind text lead extra =>
        dsimp only
        rw [ih _ (hlt extra) _ _ _ rfl, ih _ (hlt extra) _ _ [_] rfl]
        cases scanFrom (position + 1 + extra) (rest.drop extra) [] with
        | error f => rfl
        | ok tokens => simp [Except.map]
      | unknown => rfl
      | unclosed => rfl

theorem scanFrom_gap (h : front c rest = .gap extra) : scanFrom position (c :: rest) done =
    scanFrom (position + 1 + extra) (rest.drop extra) done := by
  rw [scanFrom.eq_2, h]

theorem scanFrom_lexeme {kind : Kind} {lead : Nat} (h : front c rest = .lexeme kind text lead extra) :
    scanFrom position (c :: rest) done = scanFrom (position + 1 + extra) (rest.drop extra)
      (⟨kind, String.ofList text, position + lead⟩ :: done) := by
  rw [scanFrom.eq_2, h]

theorem front_comment (rest : List Char) :
    front '\\' rest = .gap (rest.takeWhile (!isLineEnd ·)).length := by
  have hblank : ¬Text.isBlank '\\' = true := by
    unfold Text.isBlank
    decide
  rw [front, if_neg hblank]
  rfl

def commentLength (cs : List Char) : Nat := (cs.takeWhile (!isLineEnd ·)).length

/-- A gap at the front of a text ends where it does without what follows, or it is a comment that
goes on to the end of the line. -/
theorem front_gap_separator {d : Char} (hd : Separates d) (more : List Char)
    (h : front c rest = .gap extra) : front c (rest ++ d :: more) = .gap extra ∨
      extra = rest.length ∧
        front c (rest ++ d :: more) = .gap (rest.length + commentLength (d :: more)) := by
  by_cases hc : c = '\\'
  · subst hc
    rw [front_comment] at h ⊢
    have hextra := Front.gap.inj h
    rw [List.takeWhile_append]
    split
    · next hall =>
      refine Or.inr ⟨hextra.symm.trans hall, ?_⟩
      rw [List.length_append]
      rfl
    · rw [hextra]
      exact Or.inl rfl
  · refine Or.inl ?_
    rw [hd.front_eq more (Or.inr hc) (by rw [h]; exact Front.noConfusion), h]

theorem position_behind (position : Nat) (c : Char) {extra : Nat} (h : extra ≤ rest.length) :
    position + 1 + extra + (rest.drop extra).length = position + (c :: rest).length := by
  rw [List.length_drop, List.length_cons]
  omega

/-- A text that can be scanned is scanned before a separator as it is alone. A comment at the end of
the text takes what follows, up to the end of the line. -/
theorem scanFrom_separator {d : Char} (hd : Separates d) (more : List Char)
    (h : scanFrom position cs done = .ok tokens) :
    ∃ before k, tokens = before.reverse ++ [ending (position + cs.length)] ∧
      (k = 0 ∨ k = commentLength (d :: more)) ∧ scanFrom position (cs ++ d :: more) done =
        scanFrom (position + cs.length + k) ((d :: more).drop k) before := by
  fun_induction scanFrom position cs done with
  | case1 position done =>
    cases h
    exact ⟨done, 0, by simp [ending], Or.inl rfl, rfl⟩
  | case2 position done c rest extra hf ih =>
    have hle := front_gap hf
    have hend := position_behind position c hle
    rw [List.cons_append]
    rcases front_gap_separator hd more hf with hfront | ⟨rfl, hfront⟩
    · obtain ⟨before, k, htokens, hk, hscan⟩ := ih h
      rw [hend] at htokens hscan
      refine ⟨before, k, htokens, hk, ?_⟩
      rw [scanFrom_gap hfront, List.drop_append_of_le_length hle]
      exact hscan
    · rw [List.drop_length, scanFrom] at h
      cases h
      refine ⟨done, _, ?_, Or.inr rfl, ?_⟩
      · rw [← hend, List.drop_length, List.length_nil]
        simp [ending]
      · rw [scanFrom_gap hfront, ← List.drop_drop, List.drop_left, ← hend, List.drop_length,
          List.length_nil]
        congr 1
        omega
  | case3 position done c rest kind text lead extra hf ih =>
    obtain ⟨before, k, htokens, hk, hscan⟩ := ih h
    have hle := (front_lexeme hf).extra_le
    have hend := position_behind position c hle
    rw [hend] at htokens hscan
    have hcomment : c ≠ '\\' := by
      rintro rfl
      rw [front_comment] at hf
      cases hf
    have hfront := hd.front_eq more (Or.inr hcomment) (by rw [hf]; exact Front.noConfusion)
    refine ⟨before, k, htokens, hk, ?_⟩
    rw [List.cons_append, scanFrom_lexeme (hfront.trans hf), List.drop_append_of_le_length hle]
    exact hscan
  | case4 => cases h
  | case5 => cases h

theorem scanFrom_lineBreak (more : List Char) (h : scanFrom position cs done = .ok tokens) :
    ∃ before, tokens = before.reverse ++ [ending (position + cs.length)] ∧
      scanFrom position (cs ++ '\n' :: more) done =
        scanFrom (position + cs.length) ('\n' :: more) before := by
  obtain ⟨before, k, htokens, hk, hscan⟩ := scanFrom_separator separates_lineBreak more h
  obtain rfl : k = 0 := hk.elim id id
  exact ⟨before, htokens, hscan⟩

theorem scan_behind {lexemes : List Token} (more : List Char)
    (ha : scan a = .ok (lexemes ++ [ending a.length])) :
    scanFrom 0 (a.toList ++ '\n' :: more) [] =
      (scanFrom a.length ('\n' :: more) []).map (lexemes ++ ·) := by
  obtain ⟨before, htokens, hscan⟩ := scanFrom_lineBreak more ha
  rw [Nat.zero_add, String.length_toList] at htokens hscan
  have hbefore : before.reverse = lexemes := (List.append_cancel_right htokens).symm
  rw [hscan, scanFrom_done, hbefore]

/-- The tokens of two texts with a line break and a semicolon between them. -/
theorem scan_seam {lexemes : List Token} (b : String)
    (ha : scan a = .ok (lexemes ++ [ending a.length])) :
    match scan ("\n;" ++ b) with
    | .ok tokens => scan (a ++ "\n;" ++ b) = .ok (lexemes ++ tokens.map (later a.length))
    | .error _ => ∃ f, scan (a ++ "\n;" ++ b) = .error f := by
  have htail : '\n' :: ';' :: b.toList = ("\n;" ++ b).toList := by simp
  have hall : (a ++ "\n;" ++ b).toList = a.toList ++ '\n' :: ';' :: b.toList := by simp
  have hlater := scanFrom_later a.length 0 ("\n;" ++ b).toList []
  rw [List.map_nil, Nat.zero_add] at hlater
  unfold scan
  rw [hall, scan_behind _ ha, htail, hlater]
  cases scanFrom 0 ("\n;" ++ b).toList [] with
  | error f => exact ⟨f.later a.length, rfl⟩
  | ok tokens => rfl

theorem scanFrom_newline (position : Nat) (cs : List Char) (done : List Token) :
    scanFrom position ('\n' :: cs) done = scanFrom (position + 1) cs done := by
  have hbreak : front '\n' cs = .gap 0 := by
    have hblank : Text.isBlank '\n' = true := by
      unfold Text.isBlank
      decide
    unfold front
    rw [if_pos hblank]
  simp only [scanFrom.eq_2, hbreak, Nat.add_zero, List.drop_zero]

theorem front_semicolon (cs : List Char) : front ';' cs = .lexeme .semicolon [';'] 0 0 := by
  have hblank : ¬Text.isBlank ';' = true := by
    unfold Text.isBlank
    decide
  unfold front
  rw [if_neg hblank]
  rfl

theorem scanFrom_semicolon (position : Nat) (cs : List Char) :
    scanFrom position ('\n' :: ';' :: cs) [] =
      (scanFrom (position + 2) cs []).map (⟨.semicolon, ";", position + 1⟩ :: ·) := by
  rw [scanFrom_newline, scanFrom_lexeme (front_semicolon cs), List.drop_zero, scanFrom_done]
  rfl

theorem scan_semicolon (h : scan ("\n;" ++ b) = .ok tokens) :
    ∃ t second e, tokens = t :: second ++ [e] ∧ t.kind = .semicolon ∧ e.kind = .eof ∧
      ∀ u ∈ t :: second, u.kind ≠ .eof := by
  obtain ⟨lexemes, htokens, hkinds⟩ := scan_ends h
  have htail : ("\n;" ++ b).toList = '\n' :: ';' :: b.toList := by simp
  unfold scan at h
  rw [htail, scanFrom_semicolon] at h
  cases hb : scanFrom (0 + 2) b.toList [] with
  | error f =>
    rw [hb] at h
    cases h
  | ok more =>
    rw [hb] at h
    have hsplit : (⟨.semicolon, ";", 0 + 1⟩ : Token) :: more =
        lexemes ++ [ending ("\n;" ++ b).length] := (Except.ok.inj h).trans htokens
    cases lexemes with
    | nil =>
      have hkind := congrArg Token.kind (List.head_eq_of_cons_eq hsplit)
      cases hkind
    | cons t second =>
      have hhead := List.head_eq_of_cons_eq hsplit
      exact ⟨t, second, _, htokens, by rw [← hhead], rfl, hkinds⟩

end Token

end Arbor
