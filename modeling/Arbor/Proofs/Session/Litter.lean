import Arbor.Proofs.Growth.Clean
import Arbor.Proofs.Session.Reachable
import Mathlib

/-!
# Sessions hold no litter

A text that is accepted has read every operand that it started, and one that is refused is taken
back. So nothing in the tree of a session hangs loose: a path leads from the root to every node.
-/
namespace Arbor.Session

open Arbor.Tree (Growth)

variable {s s' : Session} {t : Tree} {source : String} {tokens : List Token}

theorem load_grove (h : s.tree.Grove []) (hs : (s.load source).state? = some s') :
    s'.tree.Grove [] := by
  rcases load_cases h source with ⟨fault, hl⟩ | ⟨tokens, tree, _, hgrow, hl⟩
  · rw [hl] at hs
    cases hs
    exact h
  · rw [hl] at hs
    cases hs
    exact Tree.grow_grove_same h hgrow

theorem Reachable.grove_nil (h : s.Reachable) : s.tree.Grove [] := by
  induction h with
  | start => exact Tree.planted_grove
  | load source _ hs ih => exact load_grove ih hs
  | run fuel source _ hs ih =>
    rcases runSource_cases hs with ⟨fault, hl, _⟩ | ⟨first, loaded, hl, state, rfl, _⟩
    · exact load_grove ih (congrArg Outcome.state? hl)
    · have hloaded : loaded.tree.Grove [] := load_grove ih (congrArg Outcome.state? hl)
      exact hloaded

/-- While a text is read that is accepted, an operand is given up only where none starts: no token
is taken for it and no node is added. In the tree that grows out of it a path leads from the root to
every node. -/
theorem accepted_without_litter (h : s.Reachable) (hgrow : s.tree.grow tokens = .ok t) :
    (∀ (g : Growth) (token : Token) (rest ts : List Token) (stuck : Expr.Stuck),
      s.tree.Reads tokens g (token :: rest) → g.Tries token rest ts →
      (Expr.readOptional ts).1 = .error stuck →
      Grammar.starts ts = false ∧ (Expr.readOptional ts).2 = ts ∧
        ∀ u : Tree, u.litter stuck = u) ∧
    ∀ n < t.size, ∃ path, t.follow? path = some n := by
  constructor
  · intro g token rest ts stuck hreads htries hstuck
    have hrest := hreads.grow.symm.trans hgrow
    have hbare := Growth.clean_of_grow hrest ts htries stuck hstuck
    rcases htries.read_or_bare hrest with ⟨e, he⟩ | hstarts
    · rw [he] at hstuck
      cases hstuck
    · exact ⟨hstarts, by rw [Expr.readOptional_bare hstarts], hbare⟩
  · intro n hn
    exact (Tree.grow_grove_same h.grove_nil hgrow).exists_path hn

/-- An empty `print` and a call behind it, on the tree of an earlier text. -/
theorem empty_print_without_litter : ∃ (s : Session) (t : Tree) (stuck : Expr.Stuck), s.Reachable ∧
    s.tree.size = 3 ∧
    s.tree.grow [⟨.keyword, "print", 0⟩, ⟨.semicolon, ";", 5⟩, ⟨.name, "f", 6⟩, ⟨.opening, "(", 7⟩,
      ⟨.name, "a", 8⟩, ⟨.closing, ")", 9⟩] = .ok t ∧ t.size = 8 ∧
    (Expr.readOptional [⟨.semicolon, ";", 5⟩, ⟨.name, "f", 6⟩, ⟨.opening, "(", 7⟩,
      ⟨.name, "a", 8⟩, ⟨.closing, ")", 9⟩]).1 = .error stuck ∧
    (∀ u : Tree, u.litter stuck = u) ∧ ∀ n < t.size, ∃ path, t.follow? path = some n := by
  have hrun : ∃ s t stuck, (Session.start ⟨"", 0⟩ {} []).runSource 9 "if a" = .done () s ∧
      s.tree.size = 3 ∧
      s.tree.grow [⟨.keyword, "print", 0⟩, ⟨.semicolon, ";", 5⟩, ⟨.name, "f", 6⟩,
        ⟨.opening, "(", 7⟩, ⟨.name, "a", 8⟩, ⟨.closing, ")", 9⟩] = .ok t ∧ t.size = 8 ∧
      (Expr.readOptional [⟨.semicolon, ";", 5⟩, ⟨.name, "f", 6⟩, ⟨.opening, "(", 7⟩,
        ⟨.name, "a", 8⟩, ⟨.closing, ")", 9⟩]).1 = .error stuck :=
    ⟨_, _, _, by cbv, by cbv, by cbv, by cbv, by cbv⟩
  obtain ⟨s, t, stuck, hs, hold, hgrow, hnew, hstuck⟩ := hrun
  have hreach : s.Reachable := .run 9 "if a" (.start ..) (congrArg Outcome.state? hs)
  obtain ⟨hbare, hpaths⟩ := accepted_without_litter hreach hgrow
  obtain ⟨-, -, hlitter⟩ := hbare _ _ _ _ stuck .refl
    (.operand rfl (k := .output) (by decide) (by decide)) hstuck
  exact ⟨s, t, stuck, hreach, hold, hgrow, hnew, hstuck, hlitter, hpaths⟩

end Arbor.Session
