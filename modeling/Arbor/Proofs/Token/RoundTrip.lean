import Arbor.Proofs.Token.Tiling
import Arbor.Token.Render

/-!
# Written tokens are read back

The tokens of a text, written with one space between them, tile what was written: no lexeme goes on
with a space, and a quoted text leaves one of the three quotes free, since it was read between two
of them.
-/
namespace Arbor.Token

variable {source : String} {position : Nat} {t : Token} {tokens others : List Token}
  {pieces : List Piece}

/-- The token is spelled as its kind is, or its text leaves a quote free. -/
inductive Writable (t : Token) : Prop where
  | plain : Spells t.kind t.text.toList → Writable t
  | quoted {quote : Char} : t.kind = .string → isQuote quote = true → quote ∉ t.text.toList →
      Writable t

theorem Piece.Fits.writable {written after : List Char}
    (h : (Piece.lexeme written t).Fits position after) : Writable t := by
  cases h with
  | plain hspells => exact .plain (by rwa [String.toList_ofList])
  | quoted hquote htext => exact .quoted rfl hquote (by rwa [String.toList_ofList])

theorem Tiles.writable (h : Tiles position pieces) :
    ∀ t ∈ pieces.filterMap Piece.token?, Writable t := by
  induction pieces generalizing position with
  | nil => exact fun t ht => (List.not_mem_nil ht).elim
  | cons piece pieces ih =>
    obtain ⟨hfits, htiles⟩ := h
    cases piece with
    | blank c => exact ih htiles
    | comment text => exact ih htiles
    | lexeme written token =>
      exact List.forall_mem_cons.mpr ⟨hfits.writable, ih htiles⟩

theorem Spells.kind_ne {kind : Kind} {text : List Char} (h : Spells kind text) :
    kind ≠ .eof ∧ kind ≠ .string := by
  cases h <;> decide

theorem goesOn_space (kind : Kind) (text : List Char) : ¬GoesOn kind text ' ' := by
  cases kind with
  | name => exact fun h => by cases h
  | keyword => exact fun h => by cases h.2.2
  | number =>
    rintro (h | ⟨h, -⟩)
    · cases h
    · cases h
  | operator =>
    rintro ⟨op, hop⟩
    have hlast := congrArg List.getLast? hop
    rw [List.getLast?_concat] at hlast
    exact absurd hlast (by cases op <;> decide)
  | _ => exact id

theorem freeQuote_free {quote : Char} {text : List Char} (hquote : isQuote quote = true)
    (htext : quote ∉ text) : isQuote (freeQuote text) = true ∧ freeQuote text ∉ text := by
  unfold freeQuote
  cases hfind : ['\x22', '\x27', '\x60'].find? (!text.contains ·) with
  | none =>
    have hall := List.find?_eq_none.mp hfind
    have hmem : quote ∈ ['\x22', '\x27', '\x60'] := by
      rcases isQuote_iff.mp hquote with rfl | rfl | rfl <;> decide
    exact absurd (by simpa using htext) (hall quote hmem)
  | some found =>
    have hmem := List.mem_of_find?_eq_some hfind
    have hfree := List.find?_some hfind
    refine ⟨?_, by simpa using hfree⟩
    have hquotes : found = '\x22' ∨ found = '\x27' ∨ found = '\x60' := by simpa using hmem
    rcases hquotes with rfl | rfl | rfl <;> rfl

def rewritten (position : Nat) (t : Token) : Piece :=
  .lexeme t.written { t with position := position + if t.kind = .string then 1 else 0 }

def spaced : Nat → List Token → List Piece
  | _, [] => []
  | position, [t] => [rewritten position t]
  | position, t :: u :: tokens =>
    rewritten position t :: .blank ' ' :: spaced (position + t.written.length + 1) (u :: tokens)

theorem covered_spaced (position : Nat) (tokens : List Token) :
    covered (spaced position tokens) = [' '].intercalate (tokens.map written) := by
  fun_induction spaced position tokens with
  | case1 => rfl
  | case2 position t => simp [covered, Piece.text, rewritten]
  | case3 position t u tokens ih =>
    have hcovered : covered (rewritten position t :: .blank ' ' ::
        spaced (position + t.written.length + 1) (u :: tokens)) =
        t.written ++ ' ' :: covered (spaced (position + t.written.length + 1) (u :: tokens)) := rfl
    rw [hcovered, ih]
    simp [List.intercalate]

theorem Writable.fits {after : List Char} (h : Writable t)
    (hafter : ∀ next ∈ after.head?, next = ' ') : (rewritten position t).Fits position after := by
  obtain ⟨kind, text, place⟩ := t
  cases h with
  | plain hspells =>
    obtain ⟨-, hstring⟩ := hspells.kind_ne
    have hwritten : written ⟨kind, text, place⟩ = text.toList := by
      cases kind <;> first | rfl | exact absurd rfl hstring
    have hstop : ∀ next ∈ after.head?, ¬GoesOn kind text.toList next := by
      intro next hnext
      rw [hafter next hnext]
      exact goesOn_space _ _
    have hfits := @Piece.Fits.plain position after _ _ hspells hstop
    rw [rewritten, hwritten, if_neg hstring]
    rwa [String.ofList_toList] at hfits
  | quoted hkind hquote htext =>
    cases hkind
    obtain ⟨hfree, hnotin⟩ := freeQuote_free hquote htext
    have hfits := @Piece.Fits.quoted position after _ _ hfree hnotin
    rwa [String.ofList_toList] at hfits

theorem spaced_tiles (position : Nat) (h : ∀ t ∈ tokens, Writable t) :
    Tiles position (spaced position tokens) := by
  fun_induction spaced position tokens with
  | case1 => trivial
  | case2 position t =>
    exact ⟨(h t List.mem_cons_self).fits fun next hnext => (by cases hnext), trivial⟩
  | case3 position t u tokens ih =>
    obtain ⟨ht, hrest⟩ := List.forall_mem_cons.mp h
    have hblank : Text.isBlank ' ' = true := by
      unfold Text.isBlank
      decide
    refine ⟨ht.fits ?_, .blank hblank, ih hrest⟩
    intro next hnext
    cases hnext
    rfl

theorem words_spaced (position : Nat) (tokens : List Token) :
    ((spaced position tokens).filterMap Piece.token?).map word = tokens.map word := by
  fun_induction spaced position tokens with
  | case1 => rfl
  | case2 => rfl
  | case3 position t u tokens ih =>
    rw [List.map_cons, ← ih]
    rfl

/-- What is written does not depend on where the tokens stand. -/
theorem render_words (h : tokens.map word = others.map word) : render tokens = render others := by
  have hpieces : (tokens.filter (·.kind != .eof)).map written =
      (others.filter (·.kind != .eof)).map written := by
    induction tokens generalizing others with
    | nil => rw [List.map_eq_nil_iff.mp h.symm]
    | cons t tokens ih =>
      cases others with
      | nil => cases h
      | cons u others =>
        obtain ⟨hword, hrest⟩ := List.cons.inj h
        obtain ⟨hkind, htext⟩ := Prod.mk.inj hword
        have hwritten : t.written = u.written := by
          unfold written
          rw [hkind, htext]
        rw [List.filter_cons, List.filter_cons, hkind]
        split
        · rw [List.map_cons, List.map_cons, hwritten, ih hrest]
        · exact ih hrest
  unfold render
  rw [hpieces]

/-- The tokens of a text, written and read again, are the same tokens in the same order, and are
written the same. A quoted text is put between quotes that it does not hold. -/
theorem scan_render (h : scan source = .ok tokens) :
    (∃ again, scan (render tokens) = .ok again ∧ again.map word = tokens.map word ∧
      render again = render tokens) ∧
    ∀ t ∈ tokens, t.kind = .string → ∃ quote, isQuote quote = true ∧ quote ∉ t.text.toList ∧
      t.written = quote :: (t.text.toList ++ [quote]) := by
  obtain ⟨pieces, htiling⟩ := exists_tiling h
  have htokens : tokens = pieces.filterMap Piece.token? ++ [ending source.length] :=
    Except.ok.inj (h.symm.trans htiling.scan)
  have hwritable := htiling.tiles.writable
  generalize pieces.filterMap Piece.token? = lexemes at htokens hwritable
  have hkinds : ∀ t ∈ lexemes, t.kind ≠ .eof := by
    intro t ht
    cases hwritable t ht with
    | plain hspells => exact hspells.kind_ne.1
    | quoted hkind => rw [hkind]; decide
  have hfilter : tokens.filter (·.kind != .eof) = lexemes := by
    rw [htokens, List.filter_append, List.filter_eq_self.mpr (by simpa using hkinds)]
    exact List.append_nil _
  have hrender : (render tokens).toList = covered (spaced 0 lexemes) := by
    rw [render, hfilter, String.toList_ofList, covered_spaced]
  have hagain := Tiling.scan ⟨hrender, spaced_tiles 0 hwritable⟩
  have hwords : ((spaced 0 lexemes).filterMap Piece.token? ++
      [ending (render tokens).length]).map word = tokens.map word := by
    rw [htokens, List.map_append, List.map_append, words_spaced]
    rfl
  refine ⟨⟨_, hagain, hwords, render_words hwords⟩, ?_⟩
  intro t ht hkind
  have hmem : t ∈ lexemes := by
    rw [← hfilter]
    exact List.mem_filter.mpr ⟨ht, by rw [hkind]; rfl⟩
  have hwritten : t.written = freeQuote t.text.toList ::
      (t.text.toList ++ [freeQuote t.text.toList]) := by
    unfold written
    rw [hkind]
  cases hwritable t hmem with
  | plain hspells => exact absurd hkind hspells.kind_ne.2
  | quoted _ hquote htext =>
    obtain ⟨hfree, hnotin⟩ := freeQuote_free hquote htext
    exact ⟨_, hfree, hnotin, hwritten⟩

/-- A text that holds a double quote, a backslash and a line break is written in single quotes. -/
theorem doubly_quoted_again : ∃ tokens again, scan "a<=`\x22\\\n`1." = .ok tokens ∧
    render tokens = "a <= '\x22\\\n' 1." ∧ scan (render tokens) = .ok again ∧
    again.map word = tokens.map word := by
  have hscan : ∃ tokens, scan "a<=`\x22\\\n`1." = .ok tokens ∧
      render tokens = "a <= '\x22\\\n' 1." := ⟨_, by cbv, by cbv⟩
  obtain ⟨tokens, hscan, hrender⟩ := hscan
  obtain ⟨⟨again, hagain, hwords, -⟩, -⟩ := scan_render hscan
  exact ⟨tokens, again, hscan, hrender, hagain, hwords⟩

end Arbor.Token
