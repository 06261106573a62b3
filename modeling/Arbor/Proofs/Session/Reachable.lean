import Arbor.Proofs.Growth.Rooted
import Arbor.Proofs.Run.Effect
import Arbor.Session

/-!
# Reachable sessions

A session is reached from its start by loading and running texts, whether they end well or not. A
run that does not end reaches nothing. Its tree is a grove, since a text that is refused leaves the
tree as it was.
-/
namespace Arbor

namespace Session

inductive Reachable : Session → Prop where
  | start (clock settings input) : Reachable (Session.start clock settings input)
  | load {s s'} (source : String) : Reachable s → (s.load source).state? = some s' → Reachable s'
  | run {s s'} (fuel : Nat) (source : String) : Reachable s →
      (s.runSource fuel source).state? = some s' → Reachable s'

variable {s s' : Session} {source : String}

theorem load_of_tree (h : s'.tree = s.tree) (source : String) :
    s'.load source = (s.load source).update fun t => { s' with tree := t.tree } := by
  obtain ⟨tree, settings, state⟩ := s'
  cases h
  unfold Session.load
  cases Token.scan source with
  | error fault => rfl
  | ok tokens =>
    dsimp only
    cases s.tree.grow tokens <;> rfl

/-- A text is refused and nothing has changed, or its statements are added to the tree. -/
theorem load_cases {loose : List NodeId} (h : s.tree.Grove loose) (source : String) :
    (∃ fault, s.load source = .failed fault s) ∨
    ∃ tokens tree, Token.scan source = .ok tokens ∧ s.tree.grow tokens = .ok tree ∧
      s.load source = .done (s.tree.children Tree.root).size { s with tree } := by
  cases hscan : Token.scan source with
  | error fault => exact Or.inl ⟨fault, by simp only [Session.load, hscan]⟩
  | ok tokens =>
    cases hgrow : s.tree.grow tokens with
    | error stunted =>
      have hleaves := Tree.grow_leaves s.tree tokens
      rw [hgrow] at hleaves
      have htree := Tree.GrowsTo.truncate hleaves fun _ _ hc => h.child_lt hc
      exact Or.inl ⟨stunted.fault, by simp only [Session.load, hscan, hgrow, htree]⟩
    | ok tree =>
      exact Or.inr ⟨tokens, tree, rfl, hgrow, by simp only [Session.load, hscan, hgrow]⟩

theorem load_grows {loose : List NodeId} (h : s.tree.Grove loose)
    (hs : (s.load source).state? = some s') :
    ∃ tree, s' = { s with tree } ∧ s.tree.GrowsTo tree ∧ ∃ loose, tree.Grove loose := by
  rcases load_cases h source with ⟨fault, hl⟩ | ⟨tokens, tree, _, hgrow, hl⟩
  · rw [hl] at hs
    exact ⟨s.tree, (Option.some.inj hs).symm, .refl _, loose, h⟩
  · rw [hl] at hs
    have hleaves := Tree.grow_leaves s.tree tokens
    rw [hgrow] at hleaves
    exact ⟨tree, (Option.some.inj hs).symm, hleaves, Tree.grow_grove h hgrow⟩

theorem runSource_cases {fuel : Nat} (hs : (s.runSource fuel source).state? = some s') :
    (∃ fault, s.load source = .failed fault s' ∧ s.runSource fuel source = .failed fault s') ∨
    ∃ first loaded, s.load source = .done first loaded ∧
      ∃ state, s' = { loaded with state } ∧
        (execute loaded.program fuel Tree.root first loaded.state).state? = some state := by
  simp only [runSource] at hs
  cases hl : s.load source with
  | outOfFuel => rw [hl] at hs; cases hs
  | failed fault t =>
    rw [hl] at hs
    have ht : t = s' := Option.some.inj hs
    exact Or.inl ⟨fault, ht ▸ rfl, by simp only [runSource, hl, ht]⟩
  | done first loaded =>
    rw [hl] at hs
    refine Or.inr ⟨first, loaded, rfl, ?_⟩
    simp only [perform] at hs
    cases he : execute loaded.program fuel Tree.root first loaded.state with
    | outOfFuel => rw [he] at hs; cases hs
    | done r state =>
      rw [he] at hs
      exact ⟨state, (Option.some.inj hs).symm, rfl⟩
    | failed fault state =>
      rw [he] at hs
      exact ⟨state, (Option.some.inj hs).symm, rfl⟩

theorem runSource_of_load {fault : Fault} (hl : s.load source = .failed fault s') (fuel : Nat) :
    s.runSource fuel source = .failed fault s' := by
  simp only [runSource, hl]

theorem report_failed {fuel : Nat} {fault : Fault} (h : s.runSource fuel source = .failed fault s')
    (name : String) : s.report fuel source name = .failed fault { s' with state := { s'.state with
      output := s'.state.output.push (.diagnostic (fault.diagnostic name)) } } := by
  rw [report, h]
  rfl

theorem Reachable.grove (h : s.Reachable) : ∃ loose, s.tree.Grove loose := by
  induction h with
  | start => exact ⟨[], Tree.planted_grove⟩
  | load source _ hs ih =>
    obtain ⟨loose, hg⟩ := ih
    obtain ⟨tree, rfl, _, hgrove⟩ := load_grows hg hs
    exact hgrove
  | run fuel source _ hs ih =>
    obtain ⟨loose, hg⟩ := ih
    rcases runSource_cases hs with ⟨fault, hl, _⟩ | ⟨first, loaded, hl, state, rfl, _⟩
    · obtain ⟨tree, rfl, _, hgrove⟩ := load_grows hg (congrArg Outcome.state? hl)
      exact hgrove
    · obtain ⟨tree, rfl, _, hgrove⟩ := load_grows hg (congrArg Outcome.state? hl)
      exact hgrove

end Session

end Arbor
