import Arbor.Proofs.Token.Located
import Arbor.Proofs.Token.Spelling
import Mathlib

/-!
# Tokens tile their source

A text that can be scanned is cut into blank characters, comments and lexemes, with nothing left
over. Each lexeme is written as its token says and is as long as it can be. There is one such cut of
a text, and the scan gives its tokens.
-/
namespace Arbor.Token

/-- A stretch of a source. Those between two lexemes are a gap. -/
inductive Piece where
  | blank (c : Char)
  /-- A comment, without the backslash that opens it. -/
  | comment (text : List Char)
  | lexeme (written : List Char) (token : Token)

namespace Piece

def text : Piece → List Char
  | blank c => [c]
  | comment text => '\\' :: text
  | lexeme written _ => written

def token? : Piece → Option Token
  | lexeme _ token => some token
  | _ => none

/-- The piece may stand at `position` with `after` behind it. -/
inductive Fits (position : Nat) (after : List Char) : Piece → Prop where
  | blank {c : Char} : Text.isBlank c = true → Fits position after (.blank c)
  | comment {text : List Char} : (∀ c ∈ text, isLineEnd c = false) →
      (∀ next ∈ after.head?, isLineEnd next = true) → Fits position after (.comment text)
  | plain {kind : Kind} {text : List Char} : Spells kind text →
      (∀ next ∈ after.head?, ¬GoesOn kind text next) →
      Fits position after (.lexeme text ⟨kind, String.ofList text, position⟩)
  | quoted {quote : Char} {text : List Char} : isQuote quote = true → quote ∉ text →
      Fits position after
        (.lexeme (quote :: (text ++ [quote])) ⟨.string, String.ofList text, position + 1⟩)

end Piece

def covered (pieces : List Piece) : List Char := pieces.flatMap Piece.text

def Tiles : Nat → List Piece → Prop
  | _, [] => True
  | position, piece :: pieces =>
    piece.Fits position (covered pieces) ∧ Tiles (position + piece.text.length) pieces

/-- `pieces` are a cut of `source` into gaps and lexemes. -/
structure Tiling (source : String) (pieces : List Piece) : Prop where
  covers : source.toList = covered pieces
  tiles : Tiles 0 pieces

/-- A scanner under way: its place, the text from there on and its tokens, latest first. -/
structure Scanner where
  position : Nat
  rest : List Char
  done : List Token

namespace Scanner

def start (source : String) : Scanner := ⟨0, source.toList, []⟩

def result (s : Scanner) : Except Fault (List Token) := scanFrom s.position s.rest s.done

inductive Turn : Scanner → Scanner → Prop where
  | gap {position : Nat} {c : Char} {rest : List Char} {done : List Token} {extra : Nat} :
      front c rest = .gap extra →
      Turn ⟨position, c :: rest, done⟩ ⟨position + 1 + extra, rest.drop extra, done⟩
  | lexeme {position : Nat} {c : Char} {rest text : List Char} {done : List Token} {kind : Kind}
      {lead extra : Nat} : front c rest = .lexeme kind text lead extra →
      Turn ⟨position, c :: rest, done⟩ ⟨position + 1 + extra, rest.drop extra,
        ⟨kind, String.ofList text, position + lead⟩ :: done⟩

abbrev Runs : Scanner → Scanner → Prop := Relation.ReflTransGen Turn

theorem Turn.result {s t : Scanner} (h : s.Turn t) : s.result = t.result := by
  cases h with
  | gap hfront => rw [Scanner.result, scanFrom.eq_2, hfront]; rfl
  | lexeme hfront => rw [Scanner.result, scanFrom.eq_2, hfront]; rfl

theorem Runs.result {s t : Scanner} (h : s.Runs t) : s.result = t.result := by
  induction h with
  | refl => rfl
  | tail _ hturn ih => rw [ih, hturn.result]

end Scanner

variable {source : String} {c : Char} {rest after text : List Char} {kind : Kind} {piece : Piece}
  {pieces : List Piece} {position : Nat} {done tokens : List Token}

namespace Piece

def front (position : Nat) (piece : Piece) : Front :=
  match piece with
  | lexeme _ token =>
    .lexeme token.kind token.text.toList (token.position - position) (piece.text.length - 1)
  | _ => .gap (piece.text.length - 1)

theorem front_punctuation (h : punctuation? c = some kind) :
    Token.front c rest = .lexeme kind [c] 0 0 := by
  obtain ⟨hblank, hcomment⟩ := punctuation_passed h
  unfold Token.front
  rw [if_neg (by simp [hblank]), if_neg (by simpa using hcomment), h]

theorem front_spelled (h : Spells kind text) (hafter : ∀ next ∈ after.head?, ¬GoesOn kind text next) :
    ∃ c tail, text = c :: tail ∧
      Token.front c (tail ++ after) = .lexeme kind text 0 tail.length := by
  cases h with
  | semicolon => exact ⟨_, [], rfl, front_punctuation rfl⟩
  | comma => exact ⟨_, [], rfl, front_punctuation rfl⟩
  | assign => exact ⟨_, [], rfl, front_punctuation rfl⟩
  | opening => exact ⟨_, [], rfl, front_punctuation rfl⟩
  | closing => exact ⟨_, [], rfl, front_punctuation rfl⟩
  | brace hc =>
    rcases hc with rfl | rfl
    · exact ⟨_, [], rfl, front_punctuation rfl⟩
    · exact ⟨_, [], rfl, front_punctuation rfl⟩
  | operator op =>
    obtain ⟨c, tail, hop⟩ : ∃ c tail, op.symbol.toList = c :: tail := by
      rcases symbol_short op with ⟨c, hop⟩ | ⟨c, d, hop⟩
      · exact ⟨c, [], hop⟩
      · exact ⟨c, [d], hop⟩
    rw [hop] at hafter ⊢
    refine ⟨c, tail, rfl, ?_⟩
    have hhead : op.symbol.toList.head? = some c := by
      rw [hop]
      rfl
    rw [(operator_passed hhead).front, operatorAt?_symbol hop hafter]
    rfl
  | @keyword k hk =>
    obtain ⟨head, tail, htext, hhead, htail, hopen, hclose⟩ := keyword_letters hk
    have hstop : ∀ next ∈ after.head?, isNameChar next = false := by
      intro next hnext
      exact Bool.eq_false_iff.mpr fun hname => hafter next hnext ⟨hopen, hclose, hname⟩
    refine ⟨head, tail, htext, ?_⟩
    rw [front_word hhead, takeWhile_run (List.all_eq_true.mp htail) hstop, htext]
    congr 1
    exact if_pos (isWord_iff.mpr ⟨k, hk, htext⟩)
  | @name head tail hhead htail hfree =>
    have hstop : ∀ next ∈ after.head?, isNameChar next = false := by
      intro next hnext
      exact Bool.eq_false_iff.mpr fun hname => hafter next hnext hname
    refine ⟨head, tail, rfl, ?_⟩
    rw [front_word hhead, takeWhile_run htail hstop]
    congr 1
    refine if_neg fun hword => ?_
    obtain ⟨k, hk, htext⟩ := isWord_iff.mp hword
    exact hfree k hk htext
  | @digits head tail hhead htail =>
    have hpoint : '.' ∉ head :: tail := by
      intro hmem
      rcases List.mem_cons.mp hmem with rfl | hmem
      · cases hhead
      · cases htail '.' hmem
    have hstop : ∀ next ∈ after.head?, next.isDigit = false ∧ next ≠ '.' := by
      intro next hnext
      exact ⟨Bool.eq_false_iff.mpr fun hdigit => hafter next hnext (Or.inl hdigit),
        fun hdot => hafter next hnext (Or.inr ⟨hdot, hpoint⟩)⟩
    refine ⟨head, tail, rfl, ?_⟩
    rw [front_number hhead, numberTail_digits htail hstop]
  | @decimal head whole fraction hhead hwhole hfraction =>
    have hstop : ∀ next ∈ after.head?, next.isDigit = false := by
      intro next hnext
      exact Bool.eq_false_iff.mpr fun hdigit => hafter next hnext (Or.inl hdigit)
    refine ⟨head, whole ++ '.' :: fraction, rfl, ?_⟩
    rw [front_number hhead, List.append_assoc, List.cons_append,
      numberTail_decimal hwhole hfraction hstop]

theorem front_comment (htext : ∀ c ∈ text, isLineEnd c = false)
    (hafter : ∀ next ∈ after.head?, isLineEnd next = true) :
    Token.front '\\' (text ++ after) = .gap text.length := by
  have hblank : ¬Text.isBlank '\\' = true := by
    unfold Text.isBlank
    decide
  have hrun : ∀ c ∈ text, (!isLineEnd c) = true := fun c hc => by rw [htext c hc]; rfl
  have hstop : ∀ next ∈ after.head?, (!isLineEnd next) = false :=
    fun next hnext => by rw [hafter next hnext]; rfl
  unfold Token.front
  rw [if_neg hblank, if_pos (by decide), takeWhile_run hrun hstop]

theorem Fits.front (h : piece.Fits position after) : ∃ c tail, piece.text = c :: tail ∧
    Token.front c (tail ++ after) = piece.front position := by
  cases h with
  | @blank c hc => exact ⟨c, [], rfl, if_pos hc⟩
  | @comment text htext hafter => exact ⟨'\\', text, rfl, front_comment htext hafter⟩
  | plain hspells hafter =>
    obtain ⟨c, tail, rfl, hfront⟩ := front_spelled hspells hafter
    refine ⟨c, tail, rfl, ?_⟩
    rw [hfront]
    simp [Piece.front, Piece.text]
  | @quoted quote text hquote htext =>
    refine ⟨quote, text ++ [quote], rfl, ?_⟩
    rw [List.append_assoc, List.singleton_append, front_quoted hquote htext]
    simp [Piece.front, Piece.text]

theorem punctuation_spells (h : punctuation? c = some kind) :
    Spells kind [c] ∧ ∀ next, ¬GoesOn kind [c] next := by
  unfold punctuation? at h
  split at h
  all_goals cases h
  · exact ⟨.semicolon, fun _ => id⟩
  · exact ⟨.comma, fun _ => id⟩
  · exact ⟨.assign, fun _ => id⟩
  · exact ⟨.brace (Or.inl rfl), fun _ hgoes => hgoes.1 rfl⟩
  · exact ⟨.brace (Or.inr rfl), fun _ hgoes => hgoes.2.1 rfl⟩
  · exact ⟨.opening, fun _ => id⟩
  · exact ⟨.closing, fun _ => id⟩

theorem exists_fits (position : Nat) (hunknown : Token.front c rest ≠ .unknown)
    (hunclosed : Token.front c rest ≠ .unclosed) : ∃ (piece : Piece) (tail after : List Char),
      rest = tail ++ after ∧ piece.text = c :: tail ∧ piece.Fits position after := by
  by_cases hblank : Text.isBlank c = true
  · exact ⟨.blank c, [], rest, rfl, rfl, .blank hblank⟩
  by_cases hcomment : c = '\\'
  · subst hcomment
    obtain ⟨text, after, rfl, htext, hafter⟩ := exists_run (!isLineEnd ·) rest
    exact ⟨.comment text, text, after, rfl, rfl,
      .comment (by simpa using htext) (by simpa using hafter)⟩
  cases hpunctuation : punctuation? c with
  | some kind =>
    obtain ⟨hspells, hafter⟩ := punctuation_spells hpunctuation
    exact ⟨_, [], rest, rfl, rfl, .plain hspells fun next _ => hafter next⟩
  | none =>
    have hpassed : Passed c := ⟨by simpa using hblank, hcomment, hpunctuation⟩
    rw [hpassed.front] at hunknown hunclosed
    cases hoperator : operatorAt? c rest with
    | some text =>
      obtain ⟨tail, after, hrest, rfl, hspells, hafter⟩ := operatorAt?_spells hoperator
      exact ⟨_, tail, after, hrest, rfl, .plain hspells hafter⟩
    | none =>
      rw [hoperator] at hunknown hunclosed
      dsimp only at hunknown hunclosed
      by_cases hword : isNameStart c = true
      · obtain ⟨tail, after, rfl, htail, hstop⟩ := exists_run isNameChar rest
        obtain ⟨hspells, hafter⟩ := word_spells hword htail hstop
        exact ⟨_, tail, after, rfl, rfl, .plain hspells hafter⟩
      by_cases hdigit : c.isDigit = true
      · obtain ⟨after, hrest, hspells, hafter⟩ := number_spells hdigit rest
        exact ⟨_, _, after, hrest, rfl, .plain hspells hafter⟩
      by_cases hquote : isQuote c = true
      · by_cases hmem : c ∈ rest
        · obtain ⟨hfirst, after, hrest⟩ := cut_at_first hmem
          refine ⟨_, rest.takeWhile (· != c) ++ [c], after, ?_, rfl, .quoted hquote hfirst⟩
          rw [List.append_assoc, List.singleton_append, ← hrest]
        · simp [hword, hdigit, hquote, hmem] at hunclosed
      · simp [hword, hdigit, hquote] at hunknown

theorem front_length {piece' : Piece} (h : piece.front position = piece'.front position) :
    piece.text.length - 1 = piece'.text.length - 1 := by
  cases piece <;> cases piece' <;> simp [Piece.front] at h
  all_goals first | exact h | exact h.2.2.2

theorem Fits.token_span {written : List Char} {t : Token}
    (h : (lexeme written t).Fits position after) :
    position ≤ t.position ∧ t.position < position + written.length := by
  cases h with
  | plain hspells _ =>
    obtain ⟨c, tail, rfl, -⟩ := @front_spelled [] _ _ hspells fun next hnext => by cases hnext
    exact ⟨Nat.le_refl _, Nat.lt_add_of_pos_right (by simp)⟩
  | quoted => simp

theorem Fits.unique {piece' : Piece} {after' : List Char} (h : piece.Fits position after)
    (h' : piece'.Fits position after') (htext : piece.text ++ after = piece'.text ++ after') :
    piece = piece' ∧ after = after' := by
  obtain ⟨c, tail, hpiece, hfront⟩ := h.front
  obtain ⟨c', tail', hpiece', hfront'⟩ := h'.front
  rw [hpiece, hpiece', List.cons_append, List.cons_append] at htext
  obtain ⟨rfl, hrest⟩ := List.cons.inj htext
  -- both are what the scanner finds at the front
  have hsame : piece.front position = piece'.front position := by
    rw [← hfront, ← hfront', hrest]
  have hlength : tail.length = tail'.length := by
    have := front_length hsame
    rwa [hpiece, hpiece', List.length_cons, List.length_cons] at this
  obtain ⟨rfl, rfl⟩ := List.append_inj hrest hlength
  refine ⟨?_, rfl⟩
  have hbackslash : Text.isBlank '\\' = false := by
    unfold Text.isBlank
    decide
  have hwritten := hpiece.trans hpiece'.symm
  cases piece with
  | blank d =>
    cases piece' with
    | blank d' => rw [List.singleton_inj.mp hwritten]
    | comment text =>
      cases h with
      | blank hblank =>
        rw [(List.cons.inj hwritten).1, hbackslash] at hblank
        cases hblank
    | lexeme => cases hsame
  | comment text =>
    cases piece' with
    | blank d =>
      cases h' with
      | blank hblank =>
        rw [← (List.cons.inj hwritten).1, hbackslash] at hblank
        cases hblank
    | comment text' => rw [(List.cons.inj hwritten).2]
    | lexeme => cases hsame
  | lexeme written t =>
    cases piece' with
    | blank => cases hsame
    | comment => cases hsame
    | lexeme written' t' =>
      obtain ⟨hkind, htext, hposition, -⟩ := Front.lexeme.inj hsame
      have hle := h.token_span.1
      have hle' := h'.token_span.1
      have htokens : t = t' := by
        cases t
        cases t'
        rw [Token.mk.injEq]
        exact ⟨hkind, String.toList_injective htext, by dsimp only at *; omega⟩
      rw [htokens, show written = written' from hwritten]

end Piece

theorem Piece.Fits.turn (h : piece.Fits position after) :
    Scanner.Turn ⟨position, piece.text ++ after, done⟩
      ⟨position + piece.text.length, after, piece.token?.toList ++ done⟩ := by
  obtain ⟨c, tail, hpiece, hfront⟩ := h.front
  have hnext : position + piece.text.length = position + 1 + tail.length := by
    rw [hpiece, List.length_cons]
    omega
  have hlength : piece.text.length - 1 = tail.length := by rw [hpiece]; rfl
  have hdrop : (tail ++ after).drop tail.length = after := List.drop_left
  rw [hpiece, List.cons_append, ← hpiece, hnext]
  cases piece with
  | blank d =>
    have hturn := @Scanner.Turn.gap position c _ done _ hfront
    rwa [hlength, hdrop] at hturn
  | comment text =>
    have hturn := @Scanner.Turn.gap position c _ done _ hfront
    rwa [hlength, hdrop] at hturn
  | lexeme written t =>
    have hle := h.token_span.1
    have hturn := @Scanner.Turn.lexeme position c _ _ done _ _ _ hfront
    rwa [hlength, hdrop, String.ofList_toList, Nat.add_sub_cancel' hle] at hturn

theorem scanFrom_piece (h : piece.Fits position after) :
    scanFrom position (piece.text ++ after) done =
      scanFrom (position + piece.text.length) after (piece.token?.toList ++ done) :=
  h.turn.result

/-- The tokens of `pieces`, the first of which stands at `position`. -/
def tokensOf (position : Nat) (pieces : List Piece) : List Token :=
  pieces.filterMap Piece.token? ++ [ending (position + (covered pieces).length)]

theorem tokensOf_cons (position : Nat) (piece : Piece) (pieces : List Piece) :
    tokensOf position (piece :: pieces) =
      piece.token?.toList ++ tokensOf (position + piece.text.length) pieces := by
  have hend : position + (covered (piece :: pieces)).length =
      position + piece.text.length + (covered pieces).length := by
    rw [covered, List.flatMap_cons, List.length_append, ← covered, Nat.add_assoc]
  unfold tokensOf
  rw [hend]
  cases piece <;> rfl

theorem scanFrom_tiles (done : List Token) (h : Tiles position pieces) :
    scanFrom position (covered pieces) done = .ok (done.reverse ++ tokensOf position pieces) := by
  induction pieces generalizing position done with
  | nil =>
    rw [covered, List.flatMap_nil, scanFrom, List.reverse_cons]
    rfl
  | cons piece pieces ih =>
    obtain ⟨hfits, htiles⟩ := h
    have hcovered : covered (piece :: pieces) = piece.text ++ covered pieces := rfl
    rw [hcovered, scanFrom_piece hfits, ih _ htiles, tokensOf_cons]
    cases piece <;> simp [Piece.token?]

/-- What the scanner takes piece by piece is tiled by the pieces. -/
theorem exists_tiles (h : scanFrom position rest done = .ok tokens) :
    ∃ pieces, rest = covered pieces ∧ Tiles position pieces := by
  induction hn : rest.length using Nat.strongRecOn generalizing position rest done with
  | ind n ih =>
    cases rest with
    | nil => exact ⟨[], rfl, trivial⟩
    | cons c rest =>
      have hunknown : front c rest ≠ .unknown := by
        intro hf
        rw [scanFrom.eq_2, hf] at h
        cases h
      have hunclosed : front c rest ≠ .unclosed := by
        intro hf
        rw [scanFrom.eq_2, hf] at h
        cases h
      obtain ⟨piece, tail, after, rfl, hpiece, hfits⟩ :=
        Piece.exists_fits position hunknown hunclosed
      have htext : c :: (tail ++ after) = piece.text ++ after := by rw [hpiece, List.cons_append]
      rw [htext, scanFrom_piece hfits] at h
      have hlt : after.length < n := by
        rw [← hn, List.length_cons, List.length_append]
        omega
      obtain ⟨pieces, rfl, htiles⟩ := ih _ hlt h rfl
      exact ⟨piece :: pieces, htext, hfits, htiles⟩

theorem Tiles.unique {others : List Piece} (h : Tiles position pieces)
    (h' : Tiles position others) (hcovered : covered pieces = covered others) :
    pieces = others := by
  have hcons : ∀ piece pieces, covered (piece :: pieces) = Piece.text piece ++ covered pieces :=
    fun _ _ => rfl
  have hsome : ∀ {position : Nat} {piece : Piece} {after : List Char},
      piece.Fits position after → piece.text ++ after ≠ [] := by
    intro position piece after hfits hnil
    obtain ⟨c, tail, hpiece, -⟩ := hfits.front
    rw [hpiece] at hnil
    cases hnil
  induction pieces generalizing position others with
  | nil =>
    cases others with
    | nil => rfl
    | cons other others => exact absurd hcovered.symm (hsome h'.1)
  | cons piece pieces ih =>
    cases others with
    | nil => exact absurd hcovered (hsome h.1)
    | cons other others =>
      rw [hcons, hcons] at hcovered
      obtain ⟨rfl, hrest⟩ := h.1.unique h'.1 hcovered
      rw [ih h.2 h'.2 hrest]

theorem Tiles.positions (h : Tiles position pieces) :
    (tokensOf position pieces).Pairwise (·.position < ·.position) ∧
      ∀ t ∈ tokensOf position pieces, position ≤ t.position := by
  induction pieces generalizing position with
  | nil => simp [tokensOf, covered, ending]
  | cons piece pieces ih =>
    obtain ⟨hfits, htiles⟩ := h
    obtain ⟨hpairs, hbehind⟩ := ih htiles
    rw [tokensOf_cons]
    cases piece with
    | blank c => exact ⟨hpairs, fun t ht => Nat.le_of_add_right_le (hbehind t ht)⟩
    | comment text => exact ⟨hpairs, fun t ht => Nat.le_of_add_right_le (hbehind t ht)⟩
    | lexeme written token =>
      obtain ⟨hle, hlt⟩ := hfits.token_span
      refine ⟨List.pairwise_cons.mpr ⟨fun t ht => Nat.lt_of_lt_of_le hlt (hbehind t ht), hpairs⟩, ?_⟩
      intro t ht
      rcases List.mem_cons.mp ht with rfl | ht
      · exact hle
      · exact Nat.le_of_add_right_le (hbehind t ht)

theorem Tiling.scan (h : Tiling source pieces) :
    scan source = .ok (pieces.filterMap Piece.token? ++ [ending source.length]) := by
  have hlength : 0 + (covered pieces).length = source.length := by
    rw [← h.covers, String.length_toList, Nat.zero_add]
  unfold Token.scan
  rw [h.covers, scanFrom_tiles [] h.tiles, tokensOf, hlength]
  rfl

theorem Tiling.unique {others : List Piece} (h : Tiling source pieces)
    (h' : Tiling source others) : pieces = others :=
  h.tiles.unique h'.tiles (h.covers.symm.trans h'.covers)

theorem exists_tiling (h : scan source = .ok tokens) : ∃ pieces, Tiling source pieces := by
  obtain ⟨pieces, hcovers, htiles⟩ := exists_tiles h
  exact ⟨pieces, hcovers, htiles⟩

/-- The tokens of a text end in one token for its end and stand in order, and they are those of the
one cut of the text into gaps and lexemes. -/
theorem scan_tiles (h : scan source = .ok tokens) :
    (∃ lexemes, tokens = lexemes ++ [⟨.eof, "", source.length⟩] ∧ ∀ t ∈ lexemes, t.kind ≠ .eof) ∧
    tokens.Pairwise (·.position < ·.position) ∧
    ∃ pieces, Tiling source pieces ∧
      tokens = pieces.filterMap Piece.token? ++ [⟨.eof, "", source.length⟩] ∧
      ∀ others, Tiling source others → others = pieces := by
  obtain ⟨pieces, htiling⟩ := exists_tiling h
  have htokens : tokens = pieces.filterMap Piece.token? ++ [ending source.length] :=
    Except.ok.inj (h.symm.trans htiling.scan)
  have hlength : 0 + (covered pieces).length = source.length := by
    rw [← htiling.covers, String.length_toList, Nat.zero_add]
  have hpairs := htiling.tiles.positions.1
  rw [tokensOf, hlength, ← htokens] at hpairs
  exact ⟨scan_ends h, hpairs, pieces, htiling, htokens, fun others hothers =>
    hothers.unique htiling⟩

/-- A quoted text in which a semicolon stands, an operator of two characters, a number that ends in
a point and a comment. -/
theorem quoted_beside_number_tiled : ∃ pieces, Tiling "x:'a;b'<=1.\\ end" pieces ∧
    pieces.filterMap Piece.token? = [⟨.name, "x", 0⟩, ⟨.assign, ":", 1⟩, ⟨.string, "a;b", 3⟩,
      ⟨.operator, "<=", 7⟩, ⟨.number, "1.", 9⟩] ∧
    ∀ others, Tiling "x:'a;b'<=1.\\ end" others → others = pieces := by
  have hscan : scan "x:'a;b'<=1.\\ end" = .ok ([⟨.name, "x", 0⟩, ⟨.assign, ":", 1⟩,
      ⟨.string, "a;b", 3⟩, ⟨.operator, "<=", 7⟩, ⟨.number, "1.", 9⟩] ++ [⟨.eof, "", 16⟩]) := by
    cbv
  obtain ⟨-, -, pieces, htiling, htokens, honly⟩ := scan_tiles hscan
  exact ⟨pieces, htiling, (List.append_cancel_right htokens).symm, honly⟩

end Arbor.Token
