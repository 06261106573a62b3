import Arbor.Proofs.Growth.Shape

/-!
# What a statement turns to

A statement adds nodes and hangs them on one old node at most: the open body, the statement before,
or the `if` around. Only braces and `else` change which body is open.
-/
namespace Arbor.Tree

variable {t : Tree} {p c : NodeId}

theorem parent_attached (hc : c < t.size) : (t.attach p c).parent c = some p := by
  rw [parent_attach, if_pos ⟨rfl, hc⟩]

namespace Growth

variable {g g' : Growth} {eof token : Token} {rest rest' : List Token}

/-- What a statement that starts with `token` comes to: the same body is open, or a new one on the
statement before, or a further one of the `if` around, or the body around. -/
inductive Turn (g : Growth) (token : Token) : Growth → Prop where
  | stay {t : Tree} : token.opens = false → token.closes = false → g.tree.GrowsAt g.scope t →
      Turn g token ⟨t, g.scope⟩
  | enter {t : Tree} {owner : NodeId} : token.opens = true → token.closes = false →
      g.tree.lastChild? g.scope = some owner → g.tree.GrowsAt owner t →
      t.parent g.tree.size = some owner → Turn g token ⟨t, g.tree.size⟩
  | further {t : Tree} {branch : NodeId} : token.opens = false → token.closes = false →
      g.tree.parent g.scope = some branch → g.tree.tag branch = .branch → g.tree.GrowsAt branch t →
      t.parent g.tree.size = some branch → Turn g token ⟨t, g.tree.size⟩
  | leave {owner enclosing : NodeId} : token.opens = false → token.closes = true →
      g.tree.parent g.scope = some owner → g.tree.parent owner = some enclosing →
      Turn g token ⟨g.tree, enclosing⟩

theorem Placed.turn {litter : List NodeId} (h : g.Placed token litter g') : Turn g token g' := by
  cases h with
  | hang hstays hu _ =>
    exact .stay hstays.opens hstays.closes
      ((GrowsAt.of_stands hu.stands _).attach (hu.top List.mem_cons_self).1)
  | enter position hopens hcloses _ hlast _ =>
    apply Turn.enter hopens hcloses hlast
    · exact (GrowsAt.of_stands ((PrefixOf.refl g.tree).add ..) _).attach (Nat.le_refl _)
    · exact parent_attached lt_size_add
  | further hopens hcloses _ hparent hbranch hu _ _ =>
    have hbody := hu.top (List.mem_cons_of_mem _ List.mem_cons_self)
    apply Turn.further hopens hcloses hparent hbranch
    · exact ((GrowsAt.of_stands hu.stands _).attach (hu.top List.mem_cons_self).1).attach
        (Nat.le_refl _)
    · apply parent_attached
      rw [size_attach]
      exact hbody.2
  | leave hopens hcloses _ _ howner henclosing _ =>
    exact .leave hopens hcloses howner henclosing

theorem statement_turn (h : g.statement eof token rest = .ok (g', rest')) : Turn g token g' := by
  obtain ⟨litter, hplaced, -⟩ := statement_places h
  exact hplaced.turn

end Growth

end Arbor.Tree
