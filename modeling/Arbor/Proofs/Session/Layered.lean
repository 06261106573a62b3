import Arbor.Proofs.Memory.Layered
import Arbor.Proofs.Run.Confined
import Arbor.Proofs.Session.Reachable
import Mathlib

/-!
# Layers of a session

A memory that a session reaches is layered, whatever was loaded and run before.
-/
namespace Arbor

variable {t : Tree} {m : Memory} {loose : List NodeId}

theorem Tree.Grove.closed (h : t.Grove loose) : t.Closed fun n : Nat => n < t.size where
  child _ _ _ hc := h.child_lt hc
  parent _ _ _ hp := h.parent_lt hp

theorem Memory.Within.seed {R : NodeId → Prop} (h : m.Within R) (name : String) {value : Value}
    (hv : value.Within R) : (m.seed name value).Within R := by
  constructor
  · intro i b hb
    rw [Memory.seed, get?_push] at hb
    split at hb
    · cases hb
      exact hv
    · exact h.value i b hb
  · intro i b hb n hn
    rw [Memory.seed, get?_push] at hb
    split at hb
    · cases hb
      cases hn
    · exact h.anchor i b hb n hn

theorem Effects.layered {R : NodeId → Prop} {s s' : State} (h : Effects t R s s')
    (hs : s.memory.Layered t) : s'.memory.Layered t := by
  refine h.preserves (P := fun s => s.memory.Layered t) ?_ hs
  intro s s' he hs
  cases he with
  | store name value params scope => exact hs.store value params
  | remove name scope => exact hs.remove name scope
  | emit => exact hs
  | readLine => exact hs

namespace Session

variable {s s' : Session} {source : String}

structure Layered (s : Session) : Prop where
  layers : s.state.memory.Layered s.tree
  within : s.state.memory.Within fun n : Nat => n < s.tree.size

theorem start_layered (clock : Clock) (settings : Settings) (input : List String) :
    (start clock settings input).Layered := by
  have hempty : ∀ i b, Memory.empty.get? i ≠ some b := by
    intro i b hb
    exact absurd (Memory.lt_of_get? hb) (Nat.not_lt_zero i)
  constructor
  · refine .seed (.seed (.seed ?_ _ ?_) _ ?_) _ ?_
    · intro i _ b _ _ hb
      exact absurd hb (hempty i b)
    · intro i b hb
      exact absurd hb (hempty i b)
    · intro i b hb
      rcases Memory.get?_seed hb with hname | hb
      · rw [hname]
        decide
      · exact absurd hb (hempty i b)
    · intro i b hb
      rcases Memory.get?_seed hb with hname | hb
      · rw [hname]
        decide
      · rcases Memory.get?_seed hb with hname | hb
        · rw [hname]
          decide
        · exact absurd hb (hempty i b)
  · refine .seed (.seed (.seed ⟨?_, ?_⟩ _ ?_) _ ?_) _ ?_
    · intro i b hb
      exact absurd hb (hempty i b)
    · intro i b hb
      exact absurd hb (hempty i b)
    all_goals
      intro id hid
      cases hid

theorem load_layered {loose : List NodeId} (hg : s.tree.Grove loose) (h : s.Layered)
    (hl : (s.load source).state? = some s') : s'.Layered := by
  obtain ⟨tree, rfl, hgrows, loose', hg'⟩ := load_grows hg hl
  refine ⟨h.layers.growsTo hgrows hg hg' h.within.anchor, ?_⟩
  exact h.within.mono fun n hn => Nat.lt_of_lt_of_le hn hgrows.size_le

theorem Reachable.layered (h : s.Reachable) : s.Layered := by
  induction h with
  | start clock settings input => exact start_layered clock settings input
  | load source hs hl ih =>
    obtain ⟨loose, hg⟩ := hs.grove
    exact load_layered hg ih hl
  | run fuel source hs hr ih =>
    obtain ⟨loose, hg⟩ := hs.grove
    rcases runSource_cases hr with ⟨fault, hl, _⟩ | ⟨first, loaded, hl, state, rfl, hrun⟩
    · exact load_layered hg ih (congrArg Outcome.state? hl)
    · have hloaded := load_layered hg ih (congrArg Outcome.state? hl)
      obtain ⟨_, hg'⟩ := (Reachable.load source hs (congrArg Outcome.state? hl)).grove
      have hconfined := (@confinement loaded.program _ hg'.closed fuel).execute Tree.root first
        hg'.size_pos
      have heffects := hconfined.effects hloaded.within hrun
      exact ⟨heffects.layered hloaded.layers, heffects.within hloaded.within⟩

/-- In a session's memory no older binding covers a newer one of its name. So a name has one slot
at an anchor, a lookup resolves to the visible binding with the outermost anchor, and a store is
what every lookup below its anchor resolves to, and no other. -/
theorem memory_layered (h : s.Reachable) :
    s.state.memory.Layered s.tree ∧
    (∀ i j b c, s.state.memory.get? i = some b → s.state.memory.get? j = some c →
      b.name = c.name → b.anchor = c.anchor → i = j) ∧
    (∀ name access b, s.state.memory.resolve s.tree name access = some b ↔
      s.state.memory.Visible s.tree name access b ∧
        ∀ c, s.state.memory.Visible s.tree name access c →
          s.tree.covers b.anchor c.anchor = true) ∧
    (∀ name access c, s.state.memory.Visible s.tree name access c →
      ∃ b, s.state.memory.resolve s.tree name access = some b) ∧
    ∀ name value params access, ∃ anchor,
      (s.state.memory.store s.tree name value params access).get?
          (s.state.memory.target s.tree name access) = some ⟨name, value, params, anchor⟩ ∧
      (∀ q, s.tree.encloses (some access) q = true → s.tree.encloses anchor q = true) ∧
      ∀ n q, (s.state.memory.store s.tree name value params access).resolve s.tree n q =
        if n = name ∧ s.tree.encloses anchor q = true then some ⟨name, value, params, anchor⟩
        else s.state.memory.resolve s.tree n q := by
  obtain ⟨loose, hgrove⟩ := h.grove
  have hg := hgrove.nests
  have hlayers := h.layered.layers
  refine ⟨hlayers, ?_, ?_, ?_, ?_⟩
  · intro i j b c hi hj
    exact hlayers.unique hg hi hj
  · intro name access b
    exact hlayers.resolve_iff hg
  · intro name access c
    exact Memory.exists_resolve
  · intro name value params access
    refine ⟨s.state.memory.anchorOf s.tree name access, ?_, ?_, ?_⟩
    · rw [Memory.get?_store, if_pos rfl]
    · intro q hq
      have hcovers : s.tree.covers (s.state.memory.anchorOf s.tree name access) (some access) = true :=
        Memory.anchorOf_encloses (hg.encloses_self _)
      exact hg.encloses_of_covers hcovers hq
    · exact hlayers.resolve_store hg value params

/-- The inner binding is the older one here, and it does not cover the outer one. -/
theorem inner_then_outer_layered : ∃ s : Session, s.Reachable ∧
    s.state.memory.get? 3 = some ⟨"a", .text "1", none, some 3⟩ ∧
    s.state.memory.get? 4 = some ⟨"a", .text "2", none, some 0⟩ ∧
    s.tree.covers (some 3) (some 0) = false := by
  have hrun : ∃ s, (Session.start ⟨"", 0⟩ {} ["1", "2"]).runSource 9
      "if \"x\" \x7bask a\x7dask a" = .done () s ∧
      s.state.memory.get? 3 = some ⟨"a", .text "1", none, some 3⟩ ∧
      s.state.memory.get? 4 = some ⟨"a", .text "2", none, some 0⟩ :=
    ⟨_, by cbv, by cbv, by cbv⟩
  obtain ⟨s, hs, hinner, houter⟩ := hrun
  have hreach : s.Reachable := .run 9 _ (.start ..) (congrArg Outcome.state? hs)
  have hcovers := (memory_layered hreach).1 3 4 _ _ (by decide) hinner houter rfl
  exact ⟨s, hreach, hinner, houter, hcovers⟩

end Session

end Arbor
