import Arbor.Proofs.Token.Lexeme

/-!
# Tokens stand in their source

Every token of a scanned text is a piece of the text, at the offset that the token names, and so is
what a fault of the scan complains about.
-/
namespace Arbor

/-- `text` stands in `source` at the offset `start`. An empty text stands at the end of the source
or between two quotes. -/
def Located (source : String) (start : Nat) (text : String) : Prop :=
  ∃ before after, source.toList = before ++ text.toList ++ after ∧ before.length = start ∧
    (text = "" → after = [] ∨ ∃ quote, Token.isQuote quote = true ∧
      before.getLast? = some quote ∧ after.head? = some quote)

namespace Token

structure From (source : String) (t : Token) : Prop where
  located : Located source t.position t.text
  keyword : t.kind = .keyword → (Keyword.ofText? t.text).isSome = true

variable {source : String} {before cs rest text : List Char} {c : Char} {kind : Kind}
  {position lead extra : Nat} {done tokens : List Token} {fault : Fault}

theorem located_char (hs : source.toList = before ++ c :: rest) (hp : before.length = position) :
    Located source position c.toString := by
  refine ⟨before, rest, ?_, hp, ?_⟩
  · simp [hs, Char.toString]
  · intro hempty
    have := congrArg String.length hempty
    simp [Char.toString] at this

theorem located_end (hs : source.toList = before) (hp : before.length = position) :
    Located source position "" :=
  ⟨before, [], by simp [hs], hp, fun _ => Or.inl rfl⟩

theorem Lexeme.from (h : Lexeme c rest kind text lead extra)
    (hs : source.toList = before ++ c :: rest) (hp : before.length = position) :
    From source ⟨kind, String.ofList text, position + lead⟩ := by
  cases h with
  | plain _ _ hkeyword htext _ =>
    refine ⟨⟨before, rest.drop extra, ?_, hp, ?_⟩, hkeyword⟩
    · rw [String.toList_ofList, htext, hs, List.append_assoc, List.cons_append,
        List.take_append_drop]
    · intro hempty
      have := congrArg String.toList hempty
      simp [htext] at this
  | @quoted _ after hquote _ hrest =>
    refine ⟨⟨before ++ [c], c :: after, ?_, ?_, ?_⟩, fun hk => by cases hk⟩
    · rw [String.toList_ofList, hs, hrest]
      simp
    · simp [hp]
    · intro _
      exact Or.inr ⟨c, hquote, by simp, rfl⟩

theorem rest_stands (hs : source.toList = before ++ c :: rest) (hp : before.length = position)
    (hle : extra ≤ rest.length) : source.toList = (before ++ c :: rest.take extra) ++ rest.drop extra ∧
      (before ++ c :: rest.take extra).length = position + 1 + extra := by
  constructor
  · rw [hs, List.append_assoc, List.cons_append, List.take_append_drop]
  · rw [List.length_append, List.length_cons, List.length_take, Nat.min_eq_left hle, hp]
    omega

def Scanned (source : String) : Except Fault (List Token) → Prop
  | .ok tokens => ∀ t ∈ tokens, From source t
  | .error fault => fault.kind = .character ∧ Located source fault.start fault.text

theorem scanFrom_scanned (before : List Char) (hs : source.toList = before ++ cs) (hp : before.length = position)
    (hd : ∀ t ∈ done, From source t) : Scanned source (scanFrom position cs done) := by
  fun_induction scanFrom position cs done generalizing before with
  | case1 position done =>
    intro t ht
    rw [List.append_nil] at hs
    rcases List.mem_cons.mp (List.mem_reverse.mp ht) with rfl | ht
    · exact ⟨located_end hs hp, fun hk => by cases hk⟩
    · exact hd t ht
  | case2 position done c rest extra hf ih =>
    obtain ⟨hs', hp'⟩ := rest_stands hs hp (front_gap hf)
    exact ih _ hs' hp' hd
  | case3 position done c rest kind text lead extra hf ih =>
    have hlexeme := front_lexeme hf
    obtain ⟨hs', hp'⟩ := rest_stands hs hp hlexeme.extra_le
    refine ih _ hs' hp' ?_
    intro t ht
    rcases List.mem_cons.mp ht with rfl | ht
    · exact hlexeme.from hs hp
    · exact hd t ht
  | case4 => exact ⟨rfl, located_char hs hp⟩
  | case5 => exact ⟨rfl, located_char hs hp⟩

theorem scan_scanned (source : String) : Scanned source (scan source) :=
  scanFrom_scanned [] rfl rfl fun t ht => by cases ht

def ending (length : Nat) : Token := ⟨.eof, "", length⟩

theorem scanFrom_ends (h : scanFrom position cs done = .ok tokens) :
    ∃ lexemes, tokens = done.reverse ++ lexemes ++ [ending (position + cs.length)] ∧
      ∀ t ∈ lexemes, t.kind ≠ .eof := by
  fun_induction scanFrom position cs done with
  | case1 =>
    cases h
    exact ⟨[], by simp [ending], fun t ht => by cases ht⟩
  | case2 position done c rest extra hf ih =>
    obtain ⟨lexemes, htokens, hkinds⟩ := ih h
    have hle := front_gap hf
    refine ⟨lexemes, ?_, hkinds⟩
    rw [htokens, List.length_drop, List.length_cons]
    congr 3
    omega
  | case3 position done c rest kind text lead extra hf ih =>
    obtain ⟨lexemes, htokens, hkinds⟩ := ih h
    have hlexeme := front_lexeme hf
    have hle := hlexeme.extra_le
    refine ⟨⟨kind, String.ofList text, position + lead⟩ :: lexemes, ?_, ?_⟩
    · have hend : position + 1 + extra + (rest.drop extra).length =
          position + (c :: rest).length := by
        rw [List.length_drop, List.length_cons]
        omega
      rw [htokens, hend]
      simp
    · intro t ht
      rcases List.mem_cons.mp ht with rfl | ht
      · cases hlexeme with
        | plain heof => exact heof
        | quoted => exact Token.Kind.noConfusion
      · exact hkinds t ht
  | case4 => cases h
  | case5 => cases h

theorem scan_ends (h : scan source = .ok tokens) :
    ∃ lexemes, tokens = lexemes ++ [ending source.length] ∧ ∀ t ∈ lexemes, t.kind ≠ .eof := by
  obtain ⟨lexemes, htokens, hkinds⟩ := scanFrom_ends h
  refine ⟨lexemes, ?_, hkinds⟩
  rw [htokens, String.length_toList]
  simp

end Token

end Arbor
