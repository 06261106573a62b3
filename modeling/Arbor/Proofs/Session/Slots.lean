import Arbor.Proofs.Return.Slots
import Arbor.Proofs.Session.Layered
import Arbor.Proofs.Session.Litter
import Arbor.Proofs.Session.References
import Mathlib

/-!
# Slots in sessions

The slots of a session outlive its texts, whether these end well or not. What a text empties is
named by a `rem` that it executes, and without one the text makes no more slots than its tree has
names and places, however many calls and turns it makes.
-/
namespace Arbor.Session

open Machine (counters Reaches Control)

variable {s t loaded : Session} {source : String} {fuel first : Nat}

/-- The text that was loaded, with its first statement at `first`, comes to `control`. -/
def Comes (loaded : Session) (first : Nat) (control : Control) (state : State) : Prop :=
  Reaches loaded.program (counters loaded.state)
    (.running (.execute Tree.root first [] .run) loaded.state) (.running control state)

def Executes (loaded : Session) (first : Nat) (n : NodeId) : Prop :=
  Machine.Executes loaded.program (counters loaded.state)
    (.running (.execute Tree.root first [] .run) loaded.state) n

theorem Reachable.resting (h : s.Reachable) : s.tree.Resting :=
  ⟨h.grove_nil, h.standing.formed, h.standing.root⟩

theorem exists_halted {state : State}
    (he : (execute loaded.program fuel Tree.root first loaded.state).state? = some state) :
    ∃ c, Reaches loaded.program (counters loaded.state)
      (.running (.execute Tree.root first [] .run) loaded.state) c ∧ c.memory = state.memory := by
  cases hx : execute loaded.program fuel Tree.root first loaded.state with
  | done r state' =>
    rw [hx] at he
    cases he
    exact ⟨_, Machine.halts_of_done hx, rfl⟩
  | failed f state' =>
    rw [hx] at he
    cases he
    exact ⟨_, Machine.halts_of_failed hx, rfl⟩
  | outOfFuel =>
    rw [hx] at he
    cases he

theorem Reachable.sited (h : loaded.Reachable) (first : Nat) :
    Machine.Config.Sited loaded.tree
      (.running (.execute Tree.root first [] .run) loaded.state) := by
  refine ⟨?_, h.sound⟩
  intro control state heq
  cases heq
  exact ⟨Or.inl rfl, List.forall_mem_nil _, trivial⟩

theorem Reachable.load_done (h : s.Reachable) (hl : s.load source = .done first loaded) :
    loaded.Reachable ∧ loaded.state = s.state := by
  have hreach : loaded.Reachable := .load source h (congrArg Outcome.state? hl)
  obtain ⟨tree, rfl, -⟩ := load_grows h.grove_nil (congrArg Outcome.state? hl)
  exact ⟨hreach, rfl⟩

/-- A text is refused, or a run of the machine leads to the memory that it leaves. -/
theorem Reachable.ran (h : s.Reachable) (hr : (s.runSource fuel source).state? = some t) :
    t.state = s.state ∨ ∃ first loaded c, s.load source = .done first loaded ∧
      loaded.Reachable ∧ loaded.state = s.state ∧ t.tree = loaded.tree ∧
      Reaches loaded.program (counters loaded.state)
        (.running (.execute Tree.root first [] .run) loaded.state) c ∧
      c.memory = t.state.memory := by
  rcases runSource_cases hr with ⟨f, hl, -⟩ | ⟨first, loaded, hl, state, rfl, he⟩
  · obtain ⟨tree, rfl, -⟩ := load_grows h.grove_nil (congrArg Outcome.state? hl)
    exact Or.inl rfl
  · obtain ⟨hreach, hstate⟩ := h.load_done hl
    obtain ⟨c, hreaches, hmemory⟩ := exists_halted he
    exact Or.inr ⟨first, loaded, c, hl, hreach, hstate, rfl, hreaches, hmemory⟩

theorem Reachable.step_slots {control : Control} {state : State} {next : Machine.Config}
    (h : loaded.Reachable) (hcomes : loaded.Comes first control state)
    (hnext : Machine.step loaded.program (counters loaded.state) control state = next) :
    state.memory.Persists next.memory ∧
      ∀ i b, state.memory.get? i = some b → next.memory.get? i = none →
        ∃ n, control.Executes n ∧ loaded.tree.Removes n b := by
  subst hnext
  have hsited := (Reaches.written h.resting (h.sited first) hcomes).1
  refine ⟨Reaches.persists h.resting hsited ⟨1, rfl⟩, fun i b hlive hnone => ?_⟩
  exact Machine.step_emptied h.resting (hsited.running control state rfl) hsited.memory hlive hnone

/-- Over any text, the slots of a session keep their names and anchors or become empty, and what is
empty stays so. What becomes empty, at any step of the text and over all of it, is what a `rem`
names that is executed then, in a body inside of the anchor. Where none is executed, there are no
more new slots than names and places in the tree. -/
theorem slots_persist (h : s.Reachable) (hr : (s.runSource fuel source).state? = some t) :
    s.state.memory.Persists t.state.memory ∧
    (∀ i b, s.state.memory.get? i = some b → t.state.memory.get? i = none →
      ∃ first loaded n, s.load source = .done first loaded ∧ loaded.Executes first n ∧
        loaded.tree.Removes n b) ∧
    (∀ first loaded control state next, s.load source = .done first loaded →
      loaded.Comes first control state →
      Machine.step loaded.program (counters loaded.state) control state = next →
        state.memory.Persists next.memory ∧
        ∀ i b, state.memory.get? i = some b → next.memory.get? i = none →
          ∃ n, control.Executes n ∧ loaded.tree.Removes n b) ∧
    ((∀ first loaded n, s.load source = .done first loaded → loaded.Executes first n →
        loaded.tree.tag n ≠ .remove) →
      t.state.memory.size ≤ s.state.memory.size + t.tree.places.card) := by
  refine ⟨?_, ?_, ?_, ?_⟩
  · rcases h.ran hr with hsame | ⟨first, loaded, c, -, hreach, hstate, -, hreaches, hmemory⟩
    · rw [hsame]
      exact .refl _
    · rw [← hstate, ← hmemory]
      exact hreaches.persists hreach.resting (hreach.sited first)
  · intro i b hlive hnone
    rcases h.ran hr with hsame | ⟨first, loaded, c, hl, hreach, hstate, -, hreaches, hmemory⟩
    · rw [hsame, hlive] at hnone
      cases hnone
    · rw [← hstate] at hlive
      rw [← hmemory] at hnone
      obtain ⟨n, hn, hremoves⟩ :=
        hreaches.emptied hreach.resting (hreach.sited first) hlive hnone
      exact ⟨first, loaded, n, hl, hn, hremoves⟩
  · intro first loaded control state next hl hcomes hnext
    exact (h.load_done hl).1.step_slots hcomes hnext
  · intro hremove
    rcases h.ran hr with hsame | ⟨first, loaded, c, hl, hreach, hstate, htree, hreaches, hmemory⟩
    · rw [hsame]
      exact Nat.le_add_right _ _
    · have hlayers : t.state.memory.Layered t.tree :=
        (Reachable.run fuel source h hr).layered.layers
      rw [htree] at hlayers ⊢
      rw [← hmemory] at hlayers ⊢
      rw [← hstate]
      exact hreaches.size_le hreach.resting (hreach.sited first) hlayers
        fun n hn => hremove first loaded n hl hn

/-- Two calls of one function make one slot for its parameter and one for the name that it stores. A
`rem` of a later text empties the slot of the function itself. -/
theorem called_then_removed_slots : ∃ (s t : Session) (b : Binding), s.Reachable ∧
    s.state.memory.size = 6 ∧ s.tree.places.card = 3 ∧
    s.state.memory.size ≤ (Session.start ⟨"", 0⟩ {} []).state.memory.size + s.tree.places.card ∧
    s.runSource 9 "rem f" = .done () t ∧ s.state.memory.get? 3 = some b ∧
    t.state.memory.get? 3 = none ∧ s.state.memory.Persists t.state.memory ∧
    ∃ first loaded n, s.load "rem f" = .done first loaded ∧ loaded.Executes first n ∧
      loaded.tree.Removes n b := by
  have hfirst : ∃ loaded s t b, (Session.start ⟨"", 0⟩ {} []).load
      "fn f(a) \x7bb: a\x7d f('u') f('v')" = .done 0 loaded ∧
      ((List.range loaded.tree.size).all fun n => loaded.tree.tag n != .remove) = true ∧
      (Session.start ⟨"", 0⟩ {} []).runSource 11 "fn f(a) \x7bb: a\x7d f('u') f('v')" =
        .done () s ∧
      s.state.memory.size = 6 ∧ s.tree.places.card = 3 ∧ s.runSource 9 "rem f" = .done () t ∧
      s.state.memory.get? 3 = some b ∧ t.state.memory.get? 3 = none :=
    ⟨_, _, _, _, by cbv, by cbv, by cbv, by cbv, by cbv, by cbv, by cbv, by cbv⟩
  obtain ⟨loaded, s, t, b, hl, hall, hs, hsize, hcard, ht, hlive, hnone⟩ := hfirst
  have hreach : s.Reachable := .run 11 _ (.start ..) (congrArg Outcome.state? hs)
  have hnoremove : ∀ first loaded' n, (Session.start ⟨"", 0⟩ {} []).load
      "fn f(a) \x7bb: a\x7d f('u') f('v')" = .done first loaded' → loaded'.Executes first n →
      loaded'.tree.tag n ≠ .remove := by
    intro first loaded' n hl' _ htag
    rw [hl] at hl'
    cases hl'
    have hlt : n < loaded.tree.size := Tree.lt_of_tag (by rw [htag]; decide)
    have hn := List.all_eq_true.mp hall n (List.mem_range.mpr hlt)
    rw [htag] at hn
    cases hn
  obtain ⟨-, -, -, hbound⟩ := slots_persist (.start ..) (congrArg Outcome.state? hs)
  obtain ⟨hpersists, hremoved, -, -⟩ := slots_persist hreach (congrArg Outcome.state? ht)
  exact ⟨s, t, b, hreach, hsize, hcard, hbound hnoremove, ht, hlive, hnone, hpersists,
    hremoved 3 b hlive hnone⟩

end Arbor.Session
