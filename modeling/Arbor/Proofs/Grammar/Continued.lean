import Arbor.Proofs.Grammar.Statements
import Arbor.Proofs.Growth.Placed
import Arbor.Proofs.Tree.Grove

/-!
# Programs behind programs

Of what the root holds already a further text can see the last statement only, and only by opening a
body on it. A text that starts otherwise is accepted behind another one exactly if it is accepted on
its own; one that starts with a body is never accepted on its own.
-/
namespace Arbor

def Token.startBody (tokens : List Token) : Bool := tokens.head?.any Token.opens

theorem Token.startBody_takeWhile (tokens : List Token) :
    Token.startBody (tokens.takeWhile (·.kind ≠ .eof)) = Token.startBody tokens := by
  cases tokens with
  | nil => rfl
  | cons t rest =>
    by_cases hk : t.kind = .eof
    · have hopens : t.opens = false := Token.opens_of_ne_keyword (by rw [hk]; decide)
      simp [startBody, hk, hopens]
    · simp [startBody, hk]

namespace Grammar

open Arbor.Tree

variable {t : Tree} {loose : List NodeId} {token : Token} {rest ts tokens : List Token}
  {last : Option Bool}

def Bodies.behind (last : Option Bool) : Bodies := ⟨⟨false, last⟩, []⟩

theorem behind_tracks (h : t.Grove loose) :
    Tracks t root (.behind ((t.lastChild? root).map (isBranch t))) := by
  refine .root h.root_free ⟨h.size_pos, rfl, fun c hc => ?_⟩
  have hparent := (h.parent_iff root c).mpr (Array.mem_of_back? hc)
  have hne : c ≠ root := by
    rintro rfl
    rw [h.root_free] at hparent
    cases hparent
  exact ⟨Nat.pos_of_ne_zero hne, lt_of_parent hparent, hparent⟩

theorem statement?_behind (hopens : token.opens = false) (last : Option Bool)
    (rest : List Token) : statement? (.behind last) token rest = statement? .initial token rest := by
  unfold statement?
  cases hkind : token.kind with
  | keyword =>
    cases hk : Keyword.ofText? token.text with
    | none => rfl
    | some k =>
      cases k with
      | openBody =>
        rw [Token.opens_of_keyword hkind hk] at hopens
        cases hopens
      | _ => rfl
  | _ => rfl

theorem accepts_behind (hstart : Token.startBody ts = false) (last : Option Bool) :
    accepts (.behind last) ts = accepts .initial ts := by
  cases ts with
  | nil => rw [accepts, accepts]
  | cons token rest =>
    have hs := statement?_behind hstart last rest
    cases hinitial : statement? .initial token rest with
    | none => rw [accepts_none hinitial, accepts_none (hs.trans hinitial)]
    | some r => rw [accepts_some hinitial, accepts_some (hs.trans hinitial)]

theorem accepts_startBody (hstart : Token.startBody ts = true) : accepts .initial ts = false := by
  cases ts with
  | nil => cases hstart
  | cons token rest =>
    have hopens : token.opens = true := hstart
    apply accepts_none
    rw [Token.opens, Bool.and_eq_true, beq_iff_eq, beq_iff_eq] at hopens
    unfold statement?
    simp only [hopens.1, hopens.2, Keyword.ofText?_text]
    rfl

theorem grow_iff_behind (h : t.Grove loose) (tokens : List Token) :
    (∃ u, t.grow tokens = .ok u) ↔
      accepts (.behind ((t.lastChild? root).map (isBranch t)))
        (tokens.takeWhile (·.kind ≠ .eof)) = true := by
  refine grow_iff_accepts (g := ⟨t, root⟩) ?_ (behind_tracks h) _
  rw [eof_kind]
  decide

/-- What a tree holds already makes no difference to a text that does not start with a body. -/
theorem grow_iff_planted (h : t.Grove loose) (hstart : Token.startBody tokens = false) :
    (∃ u, t.grow tokens = .ok u) ↔ ∃ u, planted.grow tokens = .ok u := by
  rw [grow_iff_behind h, grow_iff_behind planted_grove, accepts_behind, accepts_behind]
  · rw [Token.startBody_takeWhile, hstart]
  · rw [Token.startBody_takeWhile, hstart]

theorem planted_refuses_body (hstart : Token.startBody tokens = true) :
    ¬∃ u, planted.grow tokens = .ok u := by
  rw [grow_iff_behind planted_grove]
  have hnone := accepts_startBody ((Token.startBody_takeWhile tokens).trans hstart)
  intro haccepts
  exact absurd (hnone.symm.trans haccepts) Bool.false_ne_true

end Grammar

end Arbor
