import Arbor.Proofs.Growth.Extension
import Arbor.Proofs.Tree.Planting

/-!
# Growth keeps a grove

Between two statements the tree is a grove and the open body stands under the root. Only litter is
loose.
-/
namespace Arbor.Tree

open Arbor.Expr (Stuck)

theorem Grove.hangOperand {w : Tree} {statement : NodeId} {loose : List NodeId}
    (h : w.Grove (statement :: loose)) (operand : Except Stuck Expr) :
    ∃ loose', (w.hangOperand statement operand).Grove (statement :: loose') := by
  cases operand with
  | ok e => exact ⟨loose, (h.graft e).attach (List.mem_cons_of_mem _ List.mem_cons_self) .refl⟩
  | error stuck =>
    obtain ⟨extra, hlitter⟩ := h.litter stuck
    exact ⟨extra ++ loose, hlitter.perm List.perm_middle⟩

theorem Grove.graftCondition {w : Tree} {body : NodeId} {loose : List NodeId}
    (h : w.Grove (body :: loose)) (position : Nat) (operand : Except Stuck Expr) :
    ∃ loose', (w.graftCondition position operand).1.Grove
      ((w.graftCondition position operand).2 :: body :: loose') := by
  cases operand with
  | ok e => exact ⟨loose, h.graft e⟩
  | error stuck =>
    obtain ⟨extra, hlitter⟩ := h.litter stuck
    have hone := hlitter.add .numberLiteral "1" position
    exact ⟨extra ++ loose, hone.perm (List.perm_middle.cons _)⟩

namespace Growth

variable {g g' : Growth} {eof : Token} {token : Token} {rest rest' : List Token}

structure Rooted (g : Growth) : Prop where
  grove : ∃ loose, g.tree.Grove loose
  scope_under : g.tree.Under root g.scope

/-- What a statement places makes a grove with the tree before, but for its litter. -/
theorem Placed.grove {litter loose : List NodeId} (h : g.Placed token litter g')
    (hg : g.tree.Grove loose) (hs : g.tree.Under root g.scope) :
    g'.tree.Grove (litter ++ loose) ∧ g'.tree.Under root g'.scope := by
  have hroot : ∀ {l : List NodeId}, root ∈ root :: l := List.mem_cons_self
  cases h with
  | hang _ hu _ =>
    have hgrove := hu.grove hg
    have hunder := hu.stands.under hs
    exact ⟨hgrove.attach hroot hunder, hunder.attach (hgrove.top_free _ (by simp))⟩
  | @enter owner position _ _ _ hlast hlitter =>
    subst hlitter
    have hmem : owner ∈ g.tree.children g.scope := Array.mem_of_back? hlast
    have howner : g.tree.Under root owner := .step ((hg.parent_iff _ _).mpr hmem) hs
    have hbody := hg.add .body "body" position
    have hunder := ((PrefixOf.refl g.tree).add .body "body" position).under howner
    exact ⟨hbody.attach hroot hunder,
      (hunder.attach parent_new).trans (under_attached lt_size_add)⟩
  | @further u branch c _ _ _ hparent _ hu _ _ =>
    have hgrove := hu.grove hg
    have hunder := hu.stands.under (hs.parent hg.root_free hparent)
    have hbranch := hgrove.attach hroot hunder
    have hunder' : (u.attach branch c).Under root branch :=
      hunder.attach (hgrove.top_free c (by simp))
    have hfree := hbranch.top_free g.tree.size (by simp)
    exact ⟨hbranch.attach hroot hunder',
      (hunder'.attach hfree).trans (under_attached (hbranch.top_lt _ (by simp)))⟩
  | leave _ _ _ _ howner henclosing hlitter =>
    subst hlitter
    have howner' := hs.parent hg.root_free howner
    exact ⟨hg, howner'.parent hg.root_free henclosing⟩

theorem statement_rooted (hg : g.Rooted) (h : g.statement eof token rest = .ok (g', rest')) :
    g'.Rooted := by
  obtain ⟨loose, hgrove⟩ := hg.grove
  obtain ⟨litter, hplaced, -⟩ := statement_places h
  obtain ⟨hgrove', hunder⟩ := hplaced.grove hgrove hg.scope_under
  exact ⟨⟨_, hgrove'⟩, hunder⟩

theorem grow_grove {t : Tree} (hg : g.Rooted) (h : grow eof g rest = .ok t) :
    ∃ loose, t.Grove loose := by
  fun_induction grow eof g rest with
  | case1 => cases h; exact hg.grove
  | case2 _ _ _ _ _ hs ih => exact ih (statement_rooted hg hs) h
  | case3 => cases h

end Growth

theorem grow_grove {t t' : Tree} {loose : List NodeId} {tokens : List Token}
    (h : t.Grove loose) (hg : t.grow tokens = .ok t') : ∃ loose, t'.Grove loose :=
  Growth.grow_grove ⟨⟨loose, h⟩, .refl⟩ hg

end Arbor.Tree
