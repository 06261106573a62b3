import Arbor.Proofs.Growth.Changes
import Arbor.Proofs.Session.Litter
import Arbor.Proofs.Tree.Forest

/-!
# The tree of a session is a forest

Bodies that hang on statements of earlier texts, names that become the targets of stores, and texts
that are taken back leave it one.
-/
namespace Arbor.Session

open Arbor.Tree (Growth)

variable {s : Session}

/-- Between two texts every node but the root hangs on one other node, in one place, and every climb
ends at the root. So the loops over the tree end, and enclosing is an order. While a further text is
read, whether it is accepted or refused, no node that hangs on another one is attached. -/
theorem reachable_forest (h : s.Reachable) : s.tree.Forest ∧ s.tree.Ordered ∧
    ∀ tokens, Growth.Leaves s.tree.AttachesFree id (s.tree.grow tokens) :=
  ⟨h.grove_nil.forest, h.grove_nil.ordered, h.grove_nil.grow_attachesFree⟩

/-- After a refused text that hung two bodies on an old `if`, and an accepted one that hung one. -/
theorem forest_with_body_on_old_if : ∃ (s : Session) (tokens : List Token) (t : Tree),
    s.Reachable ∧ s.tree.size = 3 ∧ Token.scan "\x7b print f(1, a) \x7d" = .ok tokens ∧
    s.tree.grow tokens = .ok t ∧ t.parent 3 = some 1 ∧ t.size = 9 ∧ s.tree.Forest ∧
    s.tree.AttachesFree t := by
  have hrun : ∃ s fault s' tokens t,
      (Session.start ⟨"", 0⟩ {} []).runSource 9 "if a" = .done () s ∧
      s.load "\x7b;else f(a" = .failed fault s' ∧ s'.tree.size = 3 ∧
      Token.scan "\x7b print f(1, a) \x7d" = .ok tokens ∧ s'.tree.grow tokens = .ok t ∧
      t.parent 3 = some 1 ∧ t.size = 9 :=
    ⟨_, _, _, _, _, by cbv, by cbv, by cbv, by cbv, by cbv, by cbv, by cbv⟩
  obtain ⟨s, fault, s', tokens, t, hs, hl, hold, htokens, hgrow, hparent, hnew⟩ := hrun
  have hfirst : s.Reachable := .run 9 "if a" (.start ..) (congrArg Outcome.state? hs)
  have hreach : s'.Reachable := .load _ hfirst (congrArg Outcome.state? hl)
  obtain ⟨hforest, -, hfree⟩ := reachable_forest hreach
  have hleaves := hfree tokens
  rw [hgrow] at hleaves
  exact ⟨s', tokens, t, hreach, hold, htokens, hgrow, hparent, hnew, hforest, hleaves⟩

end Arbor.Session
