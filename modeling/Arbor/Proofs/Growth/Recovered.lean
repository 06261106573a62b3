import Arbor.Proofs.Growth.Seam
import Arbor.Proofs.Growth.Wording
import Mathlib

/-!
# Programs known by their shape

Reading drops nothing: the words of a program are read off the shape of its tree, up to the braces
right before the end and to a condition `1` behind `else`.
-/
namespace Arbor

namespace Token

variable {source : String} {tokens : List Token}

theorem Spells.regular {t : Token} (h : Spells t.kind t.text.toList) : t.Regular := by
  obtain ⟨kind, text, position⟩ := t
  dsimp only at h
  have htext : ∀ {c : Char}, text.toList = [c] → text = String.ofList [c] := by
    intro c hc
    rw [← hc, String.ofList_toList]
  generalize hcs : text.toList = cs at h
  constructor
  · rintro rfl
    cases h
    exact congrArg (Prod.mk _) (htext hcs)
  · rintro rfl
    cases h
    exact congrArg (Prod.mk _) (htext hcs)
  · rintro rfl
    cases h
    exact congrArg (Prod.mk _) (htext hcs)
  · rintro rfl
    cases h
    exact congrArg (Prod.mk _) (htext hcs)

theorem Writable.regular {t : Token} (h : Writable t) : t.Regular := by
  cases h with
  | plain hspells => exact hspells.regular
  | quoted hkind =>
    constructor <;> intro hk <;> rw [hkind] at hk <;> cases hk

theorem scan_regular (h : scan source = .ok tokens) :
    ∃ lexemes, tokens = lexemes ++ [ending source.length] ∧ (∀ t ∈ lexemes, t.kind ≠ .eof) ∧
      ∀ t ∈ lexemes, t.Regular := by
  obtain ⟨lexemes, htokens, hkinds⟩ := scan_ends h
  obtain ⟨pieces, htiling⟩ := exists_tiling h
  have hpieces := Except.ok.inj (h.symm.trans htiling.scan)
  have heq : lexemes = pieces.filterMap Piece.token? :=
    List.append_cancel_right (htokens.symm.trans hpieces)
  exact ⟨lexemes, htokens, hkinds, heq ▸ fun t ht => (htiling.tiles.writable t ht).regular⟩

end Token

namespace Tree

variable {source : String} {t u : Tree}

theorem planted_worded : Growth.Worded ⟨planted, root⟩ [] := by
  have hnone : planted.parts root = [] := by
    rw [parts, planted, children_add, children_of_le (Nat.zero_le _)]
    rfl
  refine ⟨⟨[], 0, .outermost, ?_⟩, ?_⟩
  · rw [hnone]
    rfl
  · intro s hs
    dsimp only at hs
    rw [hnone] at hs
    cases hs

/-- What is left of the words of a source is read off the shape of its tree. -/
theorem ofSource_words (h : ofSource source = .ok t) : ∃ tokens, Token.scan source = .ok tokens ∧
    Token.essential (tokens.map Token.word) = (t.shape root).program := by
  unfold ofSource at h
  split at h
  · cases h
  · next tokens hscan =>
    obtain ⟨lexemes, rfl, hkinds, hregular⟩ := Token.scan_regular hscan
    refine ⟨_, hscan, ?_⟩
    cases hgrow : planted.grow (lexemes ++ [Token.ending source.length]) with
    | error stunted =>
      rw [hgrow] at h
      cases h
    | ok u =>
      rw [hgrow] at h
      cases h
      have hgrown := hgrow
      rw [grow_ended rfl hkinds] at hgrow
      obtain ⟨loose, hgrove⟩ := grow_grove planted_grove hgrown
      obtain ⟨scope, hworded⟩ := Growth.grow_worded planted_worded
        ⟨⟨[], planted_grove⟩, .refl⟩ hregular hgrow
      obtain ⟨before, depth, hopened, hwords⟩ := hworded.opened
      have hprogram := hopened.program hgrove
      rw [← hwords, List.nil_append] at hprogram
      have hends : ∀ w ∈ lexemes.map Token.word, w.1 ≠ .eof := by
        intro w hw
        obtain ⟨token, htoken, rfl⟩ := List.mem_map.mp hw
        exact hkinds token htoken
      rw [List.map_append, hgrove.shape_eq, Shape.program, hprogram, Token.rdropWhile_braces]
      exact Token.essential_ended hends ""

/-- Two sources whose trees have the same shape have the same words in the same order, except for
the braces right before the end and for a condition `1` behind `else`. -/
theorem same_shape_same_words {first second : String} (hfirst : ofSource first = .ok t)
    (hsecond : ofSource second = .ok u) (hshape : t.shape root = u.shape root) :
    ∃ tokens others, Token.scan first = .ok tokens ∧ Token.scan second = .ok others ∧
      Token.essential (tokens.map Token.word) = Token.essential (others.map Token.word) := by
  obtain ⟨tokens, htokens, hwords⟩ := ofSource_words hfirst
  obtain ⟨others, hothers, hwords'⟩ := ofSource_words hsecond
  refine ⟨tokens, others, htokens, hothers, ?_⟩
  rw [hwords, hwords', hshape]

/-- A missing condition, a condition `1`, and the braces at the end. -/
theorem braces_left_open : ∃ t u,
    ofSource "if a \x7bx:1 else 1 print f(2)*3" = .ok t ∧
    ofSource "if a\x7b x:1 else print f(2)*3 \x7d" = .ok u ∧ t.shape root = u.shape root ∧
    ∃ tokens others, Token.scan "if a \x7bx:1 else 1 print f(2)*3" = .ok tokens ∧
      Token.scan "if a\x7b x:1 else print f(2)*3 \x7d" = .ok others ∧
      tokens.map Token.word ≠ others.map Token.word ∧
      Token.essential (tokens.map Token.word) = Token.essential (others.map Token.word) := by
  have hfirst : ∃ t u, ofSource "if a \x7bx:1 else 1 print f(2)*3" = .ok t ∧
      ofSource "if a\x7b x:1 else print f(2)*3 \x7d" = .ok u ∧ t.shape root = u.shape root :=
    ⟨_, _, by cbv, by cbv, by cbv⟩
  obtain ⟨t, u, ht, hu, hshape⟩ := hfirst
  obtain ⟨tokens, others, htokens, hothers, hwords⟩ := same_shape_same_words ht hu hshape
  refine ⟨t, u, ht, hu, hshape, tokens, others, htokens, hothers, ?_, hwords⟩
  have hdiffer : ∃ tokens others, Token.scan "if a \x7bx:1 else 1 print f(2)*3" = .ok tokens ∧
      Token.scan "if a\x7b x:1 else print f(2)*3 \x7d" = .ok others ∧
      tokens.map Token.word ≠ others.map Token.word := ⟨_, _, by cbv, by cbv, by decide⟩
  obtain ⟨tokens', others', htokens', hothers', hne⟩ := hdiffer
  cases htokens.symm.trans htokens'
  cases hothers.symm.trans hothers'
  exact hne

end Tree

end Arbor
