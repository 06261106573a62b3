import Arbor.Proofs.Token.Tiling
import Mathlib

/-!
# Where a scan is blocked

A text that cannot be scanned is cut like one that can, up to a quote that nothing closes or a
character that starts no piece. There is one such place in it. The fault of the scan is at that
place, and what stands before it can be scanned on its own.
-/
namespace Arbor.Token

/-- No piece starts with `c` when `rest` stands behind it. -/
structure StartsNone (c : Char) (rest : List Char) : Prop where
  blank : Text.isBlank c = false
  comment : c ≠ '\\'
  mark : c ∉ [';', ',', ':', '{', '}', '(', ')']
  name : isNameStart c = false
  digit : c.isDigit = false
  quote : isQuote c = false
  single : ∀ op : Operator, op.symbol.toList ≠ [c]
  double : ∀ next ∈ rest.head?, ∀ op : Operator, op.symbol.toList ≠ [c, next]

def Fails (c : Char) (rest : List Char) : Prop :=
  front c rest = .unknown ∨ front c rest = .unclosed

def TilesBefore (after : List Char) : Nat → List Piece → Prop
  | _, [] => True
  | position, piece :: pieces =>
    piece.Fits position (covered pieces ++ after) ∧
      TilesBefore after (position + piece.text.length) pieces

/-- Behind `pieces`, `c` starts no piece of `source`. -/
structure Blocked (source : String) (pieces : List Piece) (c : Char) (rest : List Char) : Prop where
  covers : source.toList = covered pieces ++ c :: rest
  tiles : TilesBefore (c :: rest) 0 pieces
  /-- The line end of a comment is before `c`. -/
  ended : ∀ before text behind, pieces = before ++ .comment text :: behind →
    ∃ next ∈ (covered behind).head?, isLineEnd next = true
  fails : isQuote c = true ∧ c ∉ rest ∨ StartsNone c rest

variable {source : String} {c : Char} {rest after : List Char} {piece : Piece}
  {pieces : List Piece} {position : Nat} {done : List Token}

theorem punctuation?_none : punctuation? c = none ↔ c ∉ [';', ',', ':', '{', '}', '(', ')'] := by
  unfold punctuation?
  split <;> simp_all

theorem operatorAt?_none_iff : operatorAt? c rest = none ↔
    (∀ op : Operator, op.symbol.toList ≠ [c]) ∧
      ∀ next ∈ rest.head?, ∀ op : Operator, op.symbol.toList ≠ [c, next] := by
  have hnamed : ∀ text : List Char, (∀ op : Operator, op.symbol.toList ≠ text) ↔
      ¬(Operator.ofSymbol? (String.ofList text)).isSome = true := by
    intro text
    rw [named_iff, not_exists]
  unfold operatorAt?
  cases rest with
  | nil => simp [hnamed]
  | cons d rest =>
    simp only [hnamed, List.head?_cons, Option.mem_some_iff, forall_eq']
    split_ifs <;> simp_all

theorem passed_of_fails (h : Fails c rest) : Passed c := by
  unfold Fails front at h
  by_cases hblank : Text.isBlank c = true
  · simp [hblank] at h
  by_cases hcomment : c = '\\'
  · simp only [hcomment, beq_self_eq_true, if_true] at h
    split at h <;> simp at h
  cases hpunctuation : punctuation? c with
  | some kind => simp [hblank, hcomment, hpunctuation] at h
  | none => exact ⟨by simpa using hblank, hcomment, hpunctuation⟩

theorem front_unknown : front c rest = .unknown ↔ StartsNone c rest := by
  constructor
  · intro h
    have hpassed := passed_of_fails (Or.inl h)
    rw [hpassed.front] at h
    cases hoperator : operatorAt? c rest with
    | some text =>
      rw [hoperator] at h
      cases h
    | none =>
      obtain ⟨hsingle, hdouble⟩ := operatorAt?_none_iff.mp hoperator
      rw [hoperator] at h
      by_cases hname : isNameStart c = true
      · simp [hname] at h
      by_cases hdigit : c.isDigit = true
      · simp [hname, hdigit] at h
      by_cases hquote : isQuote c = true
      · by_cases hmem : c ∈ rest <;> simp [hname, hdigit, hquote, hmem] at h
      exact ⟨hpassed.blank, hpassed.comment, punctuation?_none.mp hpassed.punctuation,
        by simpa using hname, by simpa using hdigit, by simpa using hquote, hsingle, hdouble⟩
  · intro h
    have hpassed : Passed c := ⟨h.blank, h.comment, punctuation?_none.mpr h.mark⟩
    rw [hpassed.front, operatorAt?_none_iff.mpr ⟨h.single, h.double⟩]
    simp [h.name, h.digit, h.quote]

theorem front_unclosed : front c rest = .unclosed ↔ isQuote c = true ∧ c ∉ rest := by
  constructor
  · intro h
    have hpassed := passed_of_fails (Or.inr h)
    rw [hpassed.front] at h
    cases hoperator : operatorAt? c rest with
    | some text =>
      rw [hoperator] at h
      cases h
    | none =>
      rw [hoperator] at h
      by_cases hname : isNameStart c = true
      · simp [hname] at h
      by_cases hdigit : c.isDigit = true
      · simp [hname, hdigit] at h
      by_cases hquote : isQuote c = true
      · by_cases hmem : c ∈ rest
        · simp [hname, hdigit, hquote, hmem] at h
        · exact ⟨hquote, hmem⟩
      · simp [hname, hdigit, hquote] at h
  · rintro ⟨hquote, hmem⟩
    obtain ⟨hpassed, hoperator, -, hclasses⟩ := class_apart (Or.inr (Or.inr hquote))
    rw [hpassed.front, operatorAt?_none hoperator]
    simp [(hclasses hquote).1, (hclasses hquote).2, hquote, hmem]

theorem fails_iff : Fails c rest ↔ isQuote c = true ∧ c ∉ rest ∨ StartsNone c rest := by
  rw [Fails, front_unknown, front_unclosed, or_comm]

theorem scanFrom_fails (h : Fails c rest) :
    ∃ f, scanFrom position (c :: rest) done = .error f ∧ f.kind = .character ∧
      f.start = position ∧ f.stop = position + 1 ∧ f.text = c.toString := by
  rcases h with hfront | hfront
  · refine ⟨.unknownCharacter c position, ?_, rfl, rfl, rfl, rfl⟩
    rw [scanFrom.eq_2, hfront]
  · refine ⟨.unclosedText c position, ?_, rfl, rfl, rfl, rfl⟩
    rw [scanFrom.eq_2, hfront]

/-- What goes on with a lexeme is the next character, so a piece that fits before a text fits before
the front of it. -/
theorem Piece.Fits.of_append {behind : List Char} (h : piece.Fits position (after ++ behind)) :
    piece.Fits position after := by
  have hhead : ∀ next ∈ after.head?, next ∈ (after ++ behind).head? := by
    intro next hnext
    rw [List.head?_append, hnext]
    rfl
  cases h with
  | blank hblank => exact .blank hblank
  | comment htext hafter => exact .comment htext fun next hnext => hafter next (hhead next hnext)
  | plain hspells hafter => exact .plain hspells fun next hnext => hafter next (hhead next hnext)
  | quoted hquote htext => exact .quoted hquote htext

theorem TilesBefore.alone (h : TilesBefore after position pieces) : Tiles position pieces := by
  induction pieces generalizing position with
  | nil => trivial
  | cons piece pieces ih => exact ⟨h.1.of_append, ih h.2⟩

theorem TilesBefore.fits {before behind : List Piece}
    (h : TilesBefore after position (before ++ piece :: behind)) :
    ∃ place, piece.Fits place (covered behind ++ after) := by
  induction before generalizing position with
  | nil => exact ⟨position, h.1⟩
  | cons first before ih => exact ih h.2

theorem TilesBefore.runs (h : TilesBefore after position pieces) (done : List Token) :
    Scanner.Runs ⟨position, covered pieces ++ after, done⟩
      ⟨position + (covered pieces).length, after,
        (pieces.filterMap Piece.token?).reverse ++ done⟩ := by
  induction pieces generalizing position done with
  | nil => exact .refl
  | cons piece pieces ih =>
    obtain ⟨hfits, htiles⟩ := h
    have hcovered : covered (piece :: pieces) = piece.text ++ covered pieces := rfl
    have hend : position + (covered (piece :: pieces)).length =
        position + piece.text.length + (covered pieces).length := by
      rw [hcovered, List.length_append, Nat.add_assoc]
    have htokens : ((piece :: pieces).filterMap Piece.token?).reverse ++ done =
        (pieces.filterMap Piece.token?).reverse ++ (piece.token?.toList ++ done) := by
      cases piece <;> simp [Piece.token?, List.filterMap_cons]
    rw [hend, htokens, hcovered, List.append_assoc]
    exact .head hfits.turn (ih htiles _)

theorem exists_blocked {f : Fault} (h : scanFrom position rest done = .error f) :
    ∃ pieces c after, rest = covered pieces ++ c :: after ∧
      TilesBefore (c :: after) position pieces ∧ Fails c after := by
  induction hn : rest.length using Nat.strongRecOn generalizing position rest done with
  | ind n ih =>
    cases rest with
    | nil =>
      rw [scanFrom] at h
      cases h
    | cons c rest =>
      by_cases hfails : Fails c rest
      · exact ⟨[], c, rest, rfl, trivial, hfails⟩
      obtain ⟨hunknown, hunclosed⟩ := not_or.mp hfails
      obtain ⟨piece, tail, behind, rfl, hpiece, hfits⟩ :=
        Piece.exists_fits position hunknown hunclosed
      have htext : c :: (tail ++ behind) = piece.text ++ behind := by rw [hpiece, List.cons_append]
      rw [htext, scanFrom_piece hfits] at h
      have hlt : behind.length < n := by
        rw [← hn, List.length_cons, List.length_append]
        omega
      obtain ⟨pieces, d, after, rfl, htiles, hblock⟩ := ih _ hlt h rfl
      refine ⟨piece :: pieces, d, after, ?_, ⟨hfits, htiles⟩, hblock⟩
      rw [htext, ← List.append_assoc]
      rfl

theorem Piece.Fits.succeeds (h : piece.Fits position after)
    (htext : piece.text ++ after = c :: rest) : ¬Fails c rest := by
  obtain ⟨head, tail, hpiece, hfront⟩ := h.front
  rw [hpiece, List.cons_append] at htext
  obtain ⟨rfl, rfl⟩ := List.cons.inj htext
  rw [Fails, hfront]
  cases piece <;> simp [Piece.front]

theorem TilesBefore.unique {others : List Piece} {d : Char} {more : List Char}
    (h : TilesBefore (c :: rest) position pieces) (h' : TilesBefore (d :: more) position others)
    (htext : covered pieces ++ c :: rest = covered others ++ d :: more) (hc : Fails c rest)
    (hd : Fails d more) : pieces = others ∧ d = c ∧ more = rest := by
  have hcons : ∀ piece pieces after, covered (piece :: pieces) ++ after =
      Piece.text piece ++ (covered pieces ++ after) := fun _ _ _ => List.append_assoc ..
  induction pieces generalizing position others with
  | nil =>
    cases others with
    | nil =>
      obtain ⟨rfl, rfl⟩ := List.cons.inj htext
      exact ⟨rfl, rfl, rfl⟩
    | cons other others =>
      rw [hcons] at htext
      exact absurd hc (h'.1.succeeds htext.symm)
  | cons piece pieces ih =>
    cases others with
    | nil =>
      rw [hcons] at htext
      exact absurd hd (h.1.succeeds htext)
    | cons other others =>
      rw [hcons, hcons] at htext
      obtain ⟨rfl, hrest⟩ := h.1.unique h'.1 htext
      obtain ⟨rfl, hsame⟩ := ih h.2 h'.2 hrest
      exact ⟨rfl, hsame⟩

theorem Blocked.failed (h : Blocked source pieces c rest) : Fails c rest :=
  fails_iff.mpr h.fails

theorem blocked_of_front (hcovers : source.toList = covered pieces ++ c :: rest)
    (htiles : TilesBefore (c :: rest) 0 pieces) (hfront : Fails c rest) :
    Blocked source pieces c rest := by
  refine ⟨hcovers, htiles, ?_, fails_iff.mp hfront⟩
  rintro before text behind rfl
  obtain ⟨place, hfits⟩ := htiles.fits
  cases hfits with
  | comment _ hafter =>
    cases hbehind : covered behind with
    | nil =>
      -- the line end is `c` itself
      rw [hbehind] at hafter
      have hend : isLineEnd c = true := hafter c rfl
      have hblank := (passed_of_fails hfront).blank
      have hline : c = '\n' ∨ c = '\r' := by simpa [isLineEnd] using hend
      unfold Text.isBlank at hblank
      rcases hline with rfl | rfl <;> exact absurd hblank (by decide)
    | cons next more =>
      rw [hbehind] at hafter
      exact ⟨next, rfl, hafter next rfl⟩

theorem Blocked.fault (h : Blocked source pieces c rest) :
    ∃ f, scan source = .error f ∧ f.kind = .character ∧ f.start = (covered pieces).length ∧
      f.stop = (covered pieces).length + 1 ∧ f.text = c.toString := by
  have hruns := h.tiles.runs []
  rw [← h.covers, Nat.zero_add] at hruns
  obtain ⟨f, herror, hf⟩ := scanFrom_fails h.failed
  exact ⟨f, hruns.result.trans herror, hf⟩

/-- A scan fails if and only if it is blocked somewhere. That is at one place, and the scanner comes
there with the tokens before it. The fault spans that one character, and the text before it is
scanned to those tokens. -/
theorem scan_blocked (source : String) :
    ((∃ f, scan source = .error f) ↔ ∃ pieces c rest, Blocked source pieces c rest) ∧
    ∀ pieces c rest, Blocked source pieces c rest →
      (∀ others d more, Blocked source others d more → pieces = others ∧ d = c ∧ more = rest) ∧
      (∃ f, scan source = .error f ∧ f.kind = .character ∧ f.start = (covered pieces).length ∧
        f.stop = (covered pieces).length + 1 ∧ f.text = c.toString) ∧
      ∃ done, (Scanner.start source).Runs ⟨(covered pieces).length, c :: rest, done⟩ ∧
        (∀ s, ¬Scanner.Turn ⟨(covered pieces).length, c :: rest, done⟩ s) ∧
        scan (String.ofList (covered pieces)) =
          .ok (done.reverse ++ [⟨.eof, "", (covered pieces).length⟩]) := by
  refine ⟨⟨?_, ?_⟩, ?_⟩
  · rintro ⟨f, herror⟩
    obtain ⟨pieces, c, rest, hcovers, htiles, hfront⟩ := exists_blocked herror
    exact ⟨pieces, c, rest, blocked_of_front hcovers htiles hfront⟩
  · rintro ⟨pieces, c, rest, h⟩
    obtain ⟨f, herror, -⟩ := h.fault
    exact ⟨f, herror⟩
  · intro pieces c rest h
    refine ⟨?_, h.fault, (pieces.filterMap Piece.token?).reverse, ?_, ?_, ?_⟩
    · intro others d more h'
      exact h.tiles.unique h'.tiles (h.covers.symm.trans h'.covers) h.failed h'.failed
    · have hruns := h.tiles.runs []
      rwa [← h.covers, Nat.zero_add, List.append_nil] at hruns
    · intro s hturn
      have hfront := h.failed
      cases hturn with
      | gap hgap => simp [Fails, hgap] at hfront
      | lexeme hlexeme => simp [Fails, hlexeme] at hfront
    · have hscan := Tiling.scan ⟨String.toList_ofList, h.tiles.alone⟩
      rwa [String.length_ofList, ending, ← List.reverse_reverse (pieces.filterMap _)] at hscan

/-- A text in quotes holds a backslash, a comment holds `=` and ends, and the `=` behind its line
end starts nothing, since a blank is behind it. -/
theorem lone_equals_blocked : ∃ pieces rest, Blocked "x '\\' \\ =\n= 1" pieces '=' rest ∧
    (covered pieces).length = 10 ∧
    (∀ others d more, Blocked "x '\\' \\ =\n= 1" others d more → others = pieces) ∧
    scan (String.ofList (covered pieces)) =
      .ok [⟨.name, "x", 0⟩, ⟨.string, "\\", 3⟩, ⟨.eof, "", 10⟩] := by
  have herror : scan "x '\\' \\ =\n= 1" = .error (.unknownCharacter '=' 10) := by cbv
  obtain ⟨hiff, hblocked⟩ := scan_blocked "x '\\' \\ =\n= 1"
  obtain ⟨pieces, c, rest, h⟩ := hiff.mp ⟨_, herror⟩
  obtain ⟨honly, ⟨f, hf, -, hstart, -, -⟩, -⟩ := hblocked pieces c rest h
  obtain rfl := Except.error.inj (herror.symm.trans hf)
  have hlength : (covered pieces).length = 10 := hstart.symm
  have hcovered : covered pieces = "x '\\' \\ =\n".toList := by
    have htake := congrArg (List.take 10) h.covers
    rw [← hlength, List.take_left, hlength] at htake
    rw [← htake]
    rfl
  have hcovers := h.covers
  rw [hcovered] at hcovers
  obtain ⟨rfl, -⟩ := List.cons.inj (List.append_cancel_left
    (show "x '\\' \\ =\n".toList ++ '=' :: " 1".toList = _ from hcovers))
  refine ⟨pieces, rest, h, hlength, fun others d more h' => (honly others d more h').1.symm, ?_⟩
  rw [hcovered, String.ofList_toList]
  cbv

end Arbor.Token
