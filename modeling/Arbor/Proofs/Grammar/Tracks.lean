import Arbor.Proofs.Grammar.Recogniser
import Arbor.Proofs.Tree.Extension

/-!
# Open bodies in the tree

The bodies that are open in a growing tree are found by climbing from the innermost one. A node is
numbered before the nodes that are hung below it later, so what is hung on an inner body or on its
owner does not reach the bodies around.
-/
namespace Arbor.Grammar

open Arbor.Tree

def isBranch (t : Tree) (n : NodeId) : Bool := t.tag n = .branch

structure Holds (t : Tree) (scope : Nat) (last : Option Bool) : Prop where
  scope_lt : scope < t.size
  last_eq : (t.lastChild? scope).map (isBranch t) = last
  later : ∀ c : Nat, t.lastChild? scope = some c →
    scope < c ∧ c < t.size ∧ t.parent c = some scope

/-- The bodies that are open from `scope` outwards are as `bodies` says. -/
inductive Tracks (t : Tree) : Nat → Bodies → Prop where
  | root {last : Option Bool} : t.parent root = none → Holds t root last → Tracks t root ⟨⟨false, last⟩, []⟩
  | body {scope owner enclosing : Nat} {last : Option Bool} {inner : OpenBody}
      {outer : List OpenBody} :
      t.parent scope = some owner → t.parent owner = some enclosing →
      enclosing < owner → owner < scope → Holds t scope last →
      Tracks t enclosing ⟨inner, outer⟩ →
      Tracks t scope ⟨⟨isBranch t owner, last⟩, inner :: outer⟩

variable {t u w : Tree} {p c n scope owner : Nat} {b : Bodies} {last : Option Bool}

theorem Holds.grows (h : Holds t scope last) (hg : GrowsAt p t u) (hp : scope ≠ p) :
    Holds u scope last := by
  have hlast : u.lastChild? scope = t.lastChild? scope := by
    rw [lastChild?, hg.children scope h.scope_lt hp, lastChild?]
  refine ⟨Nat.lt_of_lt_of_le h.scope_lt hg.size_le, ?_, ?_⟩
  · rw [hlast, ← h.last_eq]
    cases hl : t.lastChild? scope with
    | none => rfl
    | some c => exact congrArg some (by rw [isBranch, hg.tag c (h.later c hl).2.1, isBranch])
  · intro c hc
    obtain ⟨hlt, hsize, hparent⟩ := h.later c (hlast ▸ hc)
    exact ⟨hlt, Nat.lt_of_lt_of_le hsize hg.size_le, by rw [hg.parent c hsize, hparent]⟩

theorem holds_none (hn : n < t.size) (hc : t.children n = #[]) : Holds t n none := by
  have hlast : t.lastChild? n = none := by rw [lastChild?, hc]; rfl
  refine ⟨hn, by rw [hlast]; rfl, ?_⟩
  intro c h
  rw [hlast] at h
  cases h

theorem Tracks.holds (h : Tracks t scope b) : Holds t scope b.inner.last := by
  cases h with
  | root _ hl => exact hl
  | body _ _ _ _ hl _ => exact hl

/-- Growth below a later node does not reach the bodies around. -/
theorem Tracks.grows (h : Tracks t scope b) (hg : GrowsAt p t u) (hp : scope < p) :
    Tracks u scope b := by
  induction h with
  | root hr hl =>
    have hlt := hl.scope_lt
    exact .root (by rw [hg.parent _ hlt, hr]) (hl.grows hg (Nat.ne_of_lt hp))
  | @body scope owner enclosing last inner outer ho he hlt hlt' hl _ ih =>
    have hscope := hl.scope_lt
    have howner : owner < t.size := Nat.lt_trans hlt' hscope
    have hbranch : isBranch u owner = isBranch t owner := by
      rw [isBranch, hg.tag _ howner, isBranch]
    rw [← hbranch]
    exact .body (by rw [hg.parent _ hscope, ho]) (by rw [hg.parent _ howner, he]) hlt hlt'
      (hl.grows hg (Nat.ne_of_lt hp)) (ih (by omega))

theorem Tracks.attach (h : Tracks t scope b) (hw : t.PrefixOf w) (hc : t.size ≤ c)
    (hlt : c < w.size) : Tracks (w.attach scope c) scope (b.hold (isBranch w c)) := by
  have hg : GrowsAt scope t (w.attach scope c) := (GrowsAt.of_stands hw scope).attach hc
  have hscope := h.holds.scope_lt
  have hscope' : scope < w.size := Nat.lt_of_lt_of_le hscope hw.size_le
  have hlast : (w.attach scope c).lastChild? scope = some c := by
    rw [lastChild?, children_attach, if_pos ⟨rfl, hscope'⟩, Array.back?_push]
  have hholds : Holds (w.attach scope c) scope (some (isBranch w c)) := by
    refine ⟨by rw [size_attach]; exact hscope', ?_, ?_⟩
    · rw [hlast, Option.map_some, isBranch, tag_attach, isBranch]
    · intro d hd
      rw [hlast] at hd
      cases hd
      refine ⟨by omega, by rw [size_attach]; exact hlt, ?_⟩
      rw [parent_attach, if_pos ⟨rfl, hlt⟩]
  cases h with
  | root hr _ => exact .root (by rw [hg.parent _ hscope, hr]) hholds
  | @body _ owner enclosing last inner outer ho he henc howner _ hout =>
    have hlt' : owner < t.size := Nat.lt_trans howner hscope
    have hbranch : isBranch (w.attach scope c) owner = isBranch t owner := by
      rw [isBranch, hg.tag _ hlt', isBranch]
    have hbody := Tracks.body (by rw [hg.parent _ hscope, ho]) (by rw [hg.parent _ hlt', he]) henc
      howner hholds (hout.grows hg (by omega))
    rw [hbranch] at hbody
    exact hbody

theorem Tracks.inside (h : Tracks t scope b) (hg : GrowsAt owner t u) (ho : t.parent owner = some scope)
    (hlt : scope < owner) (hnew : owner < n) (hn : u.parent n = some owner) (hl : Holds u n none) :
    Tracks u n ⟨⟨isBranch t owner, none⟩, b.inner :: b.outer⟩ := by
  have howner := lt_of_parent ho
  have hbranch : isBranch u owner = isBranch t owner := by
    rw [isBranch, hg.tag _ howner, isBranch]
  rw [← hbranch]
  exact .body hn (by rw [hg.parent _ howner, ho]) hlt hnew hl (h.grows hg hlt)

end Arbor.Grammar
