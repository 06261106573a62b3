import Arbor.Proofs.Tree.Subtree

/-!
# Forests

In a forest every node but the root hangs on one other node, in one place. A climb along parent links
ends at the root before it can have met every node, and so do the loops that have no bound of their
own: the climb of `encloses`, which never meets its bound, and the walk down the children.
-/
namespace Arbor.Tree

def ancestor (t : Tree) : Nat → NodeId → Option NodeId
  | 0, n => some n
  | k + 1, n => (t.parent n).bind (t.ancestor k)

variable {t : Tree} {a b n p c k : Nat} {loose : List NodeId}

theorem climbs_iff_ancestor : t.climbs a k n = true ↔ ∃ j < k, t.ancestor j n = some a := by
  induction k generalizing n with
  | zero => simp [climbs]
  | succ k ih =>
    rw [climbs]
    constructor
    · intro h
      by_cases hn : n = a
      · exact ⟨0, Nat.zero_lt_succ k, congrArg some hn⟩
      · rw [if_neg hn] at h
        cases hp : t.parent n with
        | none =>
          rw [hp] at h
          cases h
        | some p =>
          rw [hp] at h
          obtain ⟨j, hj, hja⟩ := ih.mp h
          exact ⟨j + 1, Nat.succ_lt_succ hj, by rw [ancestor, hp, Option.bind_some, hja]⟩
    · rintro ⟨j, hj, hja⟩
      by_cases hn : n = a
      · rw [if_pos hn]
      · rw [if_neg hn]
        cases j with
        | zero => exact absurd (Option.some.inj hja) hn
        | succ j =>
          obtain ⟨p, hp, hja⟩ := Option.bind_eq_some_iff.mp hja
          rw [hp]
          exact ih.mpr ⟨j, Nat.lt_of_succ_lt_succ hj, hja⟩

theorem under_of_ancestor (h : t.ancestor k n = some a) : t.Under a n := by
  induction k generalizing n with
  | zero =>
    cases h
    exact .refl
  | succ k ih =>
    obtain ⟨p, hp, h⟩ := Option.bind_eq_some_iff.mp h
    exact .step hp (ih h)

theorem under_iff_ancestor : t.Under a n ↔ ∃ k, t.ancestor k n = some a := by
  constructor
  · intro h
    induction h with
    | refl => exact ⟨0, rfl⟩
    | step hp _ ih =>
      obtain ⟨k, hk⟩ := ih
      exact ⟨k + 1, by rw [ancestor, hp, Option.bind_some, hk]⟩
  · rintro ⟨k, hk⟩
    exact under_of_ancestor hk

theorem ancestor_past (h : t.ancestor k n = some a) (ha : t.parent a = none) :
    t.ancestor (k + 1) n = none := by
  induction k generalizing n with
  | zero =>
    cases h
    rw [ancestor, ha]
    rfl
  | succ k ih =>
    obtain ⟨p, hp, h⟩ := Option.bind_eq_some_iff.mp h
    rw [ancestor, hp, Option.bind_some]
    exact ih h

/-- The links of the two directions agree, and every climb ends at the root. -/
structure Forest (t : Tree) : Prop where
  root_lt : root < t.size
  root_free : t.parent root = none
  parent_iff : ∀ p c, t.parent c = some p ↔ c ∈ t.children p
  once : ∀ p, ∀ c ∈ t.children p, (t.children p).toList.count c = 1
  in_range : ∀ p c, t.parent c = some p → p < t.size ∧ c < t.size
  reaches_root : ∀ n < t.size, ∃ k < t.size, t.ancestor k n = some root

/-- The loops over a tree end, and enclosing is an order with the root on top in which the nodes
around a node form a chain. -/
structure Ordered (t : Tree) : Prop where
  climb_ends : ∀ n < t.size, ∃ k ≤ t.size, t.ancestor k n = none
  encloses_iff : ∀ a n, t.encloses (some a) n = true ↔ ∃ k, t.ancestor k n = some a
  refl : ∀ n, t.encloses (some n) n = true
  trans : ∀ a b n, t.encloses (some a) b = true → t.encloses (some b) n = true →
    t.encloses (some a) n = true
  antisymm : ∀ a b, t.encloses (some a) b = true → t.encloses (some b) a = true → a = b
  top : ∀ n < t.size, t.encloses (some root) n = true
  chain : ∀ a b n, t.encloses (some a) n = true → t.encloses (some b) n = true →
    t.encloses (some a) b = true ∨ t.encloses (some b) a = true
  descent_ends : WellFounded fun c p => c ∈ t.children p
  shape_eq : ∀ n, t.shape n = .node (t.tag n) (t.text n) ((t.children n).toList.map t.shape)

theorem Grove.forest (h : t.Grove []) : t.Forest where
  root_lt := h.size_pos
  root_free := h.root_free
  parent_iff := h.parent_iff
  once p c hc := List.count_eq_one_of_mem (h.children_nodup p) (Array.mem_toList_iff.mpr hc)
  in_range p c hp := ⟨h.parent_lt hp, lt_of_parent hp⟩
  reaches_root n hn := by
    obtain ⟨r, hr, hrn⟩ := h.covered n hn
    obtain rfl := List.mem_singleton.mp hr
    exact climbs_iff_ancestor.mp (h.climbs_iff.mpr hrn)

theorem Grove.ordered (h : t.Grove []) : t.Ordered where
  climb_ends n hn := by
    obtain ⟨k, hk, hroot⟩ := h.forest.reaches_root n hn
    exact ⟨k + 1, hk, ancestor_past hroot h.root_free⟩
  encloses_iff a n := h.encloses_iff.trans under_iff_ancestor
  refl n := h.encloses_iff.mpr .refl
  trans a b n hab hbn :=
    h.encloses_iff.mpr ((h.encloses_iff.mp hab).trans (h.encloses_iff.mp hbn))
  antisymm a b hab hba := h.antisymm (h.encloses_iff.mp hab) (h.encloses_iff.mp hba)
  top n hn := by
    obtain ⟨r, hr, hrn⟩ := h.covered n hn
    obtain rfl := List.mem_singleton.mp hr
    exact h.encloses_iff.mpr hrn
  chain a b n ha hb := by
    rw [h.encloses_iff, h.encloses_iff]
    exact (h.encloses_iff.mp ha).comparable (h.encloses_iff.mp hb)
  descent_ends := h.acyclic
  shape_eq := h.shape_eq

end Arbor.Tree
