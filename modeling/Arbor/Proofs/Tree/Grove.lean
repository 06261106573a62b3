import Arbor.Proofs.Tree.Beside

/-!
# Groves

The parent links of an arena make a grove: the program below the root, and the parts that hang on
nothing yet. In a grove no climb meets a node twice, so that the bounded climb of `encloses` is the
relation `Under`. Adding a node adds a loose top; attaching a loose top takes it away again.
-/
namespace Arbor.Tree

open Arbor.Expr (Frame Stuck)

/-- The climb from `n` along parent links meets `a`. -/
inductive Under (t : Tree) (a : NodeId) : NodeId → Prop where
  | refl : Under t a a
  | step {n p} : t.parent n = some p → Under t a p → Under t a n

variable {t u : Tree} {a b n p c r : Nat} {loose : List NodeId}

theorem Under.trans (h : t.Under a b) (k : t.Under b c) : t.Under a c := by
  induction k with
  | refl => exact h
  | step hp _ ih => exact .step hp ih

theorem Under.of_parent (h : t.parent n = some p) : t.Under p n := .step h .refl

theorem Under.eq_of_free (h : t.Under a n) (hn : t.parent n = none) : a = n := by
  cases h with
  | refl => rfl
  | step hp _ => rw [hn] at hp; cases hp

theorem Under.lt (h : t.Under a n) (ha : a < t.size) : n < t.size := by
  cases h with
  | refl => exact ha
  | step hp _ => exact lt_of_parent hp

theorem Under.parent (h : t.Under r n) (hr : t.parent r = none) (hp : t.parent n = some p) :
    t.Under r p := by
  cases h with
  | refl => rw [hr] at hp; cases hp
  | step hq h => exact Option.some.inj (hq.symm.trans hp) ▸ h

theorem Under.comparable (h : t.Under a n) (k : t.Under b n) : t.Under a b ∨ t.Under b a := by
  induction h with
  | refl => exact Or.inr k
  | step hp h ih =>
    cases k with
    | refl => exact Or.inl (.step hp h)
    | step hq k =>
      have := Option.some.inj (hp.symm.trans hq)
      subst this
      exact ih k

theorem Under.mono (hu : ∀ n p, t.parent n = some p → u.parent n = some p)
    (h : t.Under a n) : u.Under a n := by
  induction h with
  | refl => exact .refl
  | step hp _ ih => exact .step (hu _ _ hp) ih

theorem Under.no_return (h : t.Under r n) (hr : t.parent r = none) (hp : t.parent n = some p) :
    ¬t.Under n p := by
  -- by induction on the climb to the free node, along which `n` is met only once
  induction h generalizing p with
  | refl => rw [hr] at hp; cases hp
  | step hq _ ih =>
    have := Option.some.inj (hq.symm.trans hp)
    subst this
    intro hback
    cases hback with
    | refl => exact ih hq .refl
    | step hn hback => exact ih hn ((Under.of_parent hq).trans hback)

theorem Under.antisymm (hr : t.Under r b) (hfree : t.parent r = none) (h : t.Under a b)
    (k : t.Under b a) : a = b := by
  cases h with
  | refl => rfl
  | step hp h => exact absurd (k.trans h) (hr.no_return hfree hp)

theorem under_of_climbs {k : Nat} (h : t.climbs a k n = true) : t.Under a n := by
  induction k generalizing n with
  | zero => cases h
  | succ k ih =>
    rw [climbs] at h
    split at h
    · next hn => rw [hn]; exact .refl
    · split at h
      · next hp => exact .step hp (ih h)
      · cases h

theorem climbs_mono {k l : Nat} (h : t.climbs a k n = true) (hkl : k ≤ l) :
    t.climbs a l n = true := by
  induction k generalizing n l with
  | zero => cases h
  | succ k ih =>
    cases l with
    | zero => omega
    | succ l =>
      rw [climbs] at h ⊢
      by_cases hn : n = a
      · rw [if_pos hn]
      · rw [if_neg hn] at h ⊢
        cases hp : t.parent n with
        | none => rw [hp] at h; cases h
        | some p =>
          rw [hp] at h
          exact ih h (by omega)

/-- The nodes met on the way to a free node, each once; climbing them all meets every node that
the climb can meet. -/
theorem Under.exists_path (h : t.Under r n) (hr : t.parent r = none) :
    ∃ path : List Nat, path.Nodup ∧ (∀ x ∈ path, t.Under x n) ∧
      ∀ a, t.Under a n → t.climbs a path.length n = true := by
  induction h with
  | refl =>
    refine ⟨[r], by simp, ?_, ?_⟩
    · intro x hx
      rw [List.mem_singleton.mp hx]
      exact .refl
    · intro a ha
      simp [climbs, ha.eq_of_free hr]
  | step hp h ih =>
    rename_i n p
    obtain ⟨path, hnodup, hmem, hclimbs⟩ := ih
    refine ⟨n :: path, ?_, ?_, ?_⟩
    · refine List.nodup_cons.mpr ⟨?_, hnodup⟩
      intro hn
      exact (Under.step hp h).no_return hr hp (hmem n hn)
    · intro x hx
      rcases List.mem_cons.mp hx with rfl | hx
      · exact .refl
      · exact .step hp (hmem x hx)
    · intro a ha
      rw [List.length_cons, climbs]
      by_cases hn : n = a
      · rw [if_pos hn]
      · rw [if_neg hn, hp]
        cases ha with
        | refl => exact absurd rfl hn
        | step hq ha =>
          have := Option.some.inj (hp.symm.trans hq)
          subst this
          exact hclimbs a ha

/-- Every climb along parent links stays in the tree and ends. -/
structure Ends (t : Tree) : Prop where
  parent_lt : ∀ n p : Nat, t.parent n = some p → p < t.size
  top : ∀ n < t.size, ∃ r, t.parent r = none ∧ t.Under r n

theorem Ends.under_lt (h : t.Ends) (hn : n < t.size) (ha : t.Under a n) : a < t.size := by
  induction ha with
  | refl => exact hn
  | step hp _ ih => exact ih (h.parent_lt _ _ hp)

theorem Ends.antisymm (h : t.Ends) (hab : t.Under a b) (hba : t.Under b a) : a = b := by
  by_cases hb : b < t.size
  · obtain ⟨r, hr, hrb⟩ := h.top b hb
    exact Under.antisymm hrb hr hab hba
  · exact hab.eq_of_free (parent_of_le (Nat.le_of_not_lt hb))

/-- In a tree with a node the bounded climb misses nothing, also from where there is no node. -/
theorem Ends.climbs_iff (h : t.Ends) (hpos : 0 < t.size) :
    t.climbs a t.size n = true ↔ t.Under a n := by
  refine ⟨under_of_climbs, ?_⟩
  intro ha
  by_cases hn : n < t.size
  · obtain ⟨r, hr, hrn⟩ := h.top n hn
    obtain ⟨path, hnodup, hmem, hclimbs⟩ := hrn.exists_path hr
    have hrange : path ⊆ List.range t.size := fun x hx =>
      List.mem_range.mpr (h.under_lt hn (hmem x hx))
    have hlength := (hnodup.subperm hrange).length_le
    rw [List.length_range] at hlength
    exact climbs_mono (hclimbs a ha) hlength
  · have heq := ha.eq_of_free (parent_of_le (Nat.le_of_not_lt hn))
    have hone : t.climbs a 1 n = true := by simp [climbs, heq]
    exact climbs_mono hone hpos

/-- The root and the `loose` nodes are the tops of a grove. -/
structure Grove (t : Tree) (loose : List NodeId) : Prop where
  parent_iff : ∀ p c, t.parent c = some p ↔ c ∈ t.children p
  children_nodup : ∀ p, (t.children p).toList.Nodup
  tops_nodup : (root :: loose).Nodup
  top_lt : ∀ r : Nat, r ∈ root :: loose → r < t.size
  top_free : ∀ r ∈ root :: loose, t.parent r = none
  covered : ∀ n < t.size, ∃ r ∈ root :: loose, t.Under r n

theorem Grove.parent_lt (h : t.Grove loose) (hp : t.parent c = some p) : p < t.size :=
  lt_of_mem_children ((h.parent_iff p c).mp hp)

theorem Grove.child_lt (h : t.Grove loose) (hc : c ∈ t.children p) : c < t.size :=
  lt_of_parent ((h.parent_iff p c).mpr hc)

theorem Grove.size_pos (h : t.Grove loose) : 0 < t.size :=
  h.top_lt root List.mem_cons_self

theorem Grove.root_free (h : t.Grove loose) : t.parent root = none :=
  h.top_free root List.mem_cons_self

theorem Grove.ends (h : t.Grove loose) : t.Ends where
  parent_lt _ _ hp := h.parent_lt hp
  top n hn := by
    obtain ⟨r, hr, hrn⟩ := h.covered n hn
    exact ⟨r, h.top_free r hr, hrn⟩

theorem Grove.antisymm (h : t.Grove loose) (hab : t.Under a b) (hba : t.Under b a) : a = b :=
  h.ends.antisymm hab hba

theorem Grove.climbs_iff (h : t.Grove loose) : t.climbs a t.size n = true ↔ t.Under a n :=
  h.ends.climbs_iff h.size_pos

theorem Grove.encloses_iff (h : t.Grove loose) : t.encloses (some a) n = true ↔ t.Under a n :=
  h.climbs_iff

theorem planted_grove : planted.Grove [] where
  parent_iff p c := by
    simp [planted, parent_of_le, children_of_le, Tree.size, empty]
  children_nodup p := by
    simp [planted, children_of_le, Tree.size, empty]
  tops_nodup := by simp
  top_lt r hr := by
    rw [List.mem_singleton.mp hr]
    exact Nat.one_pos
  top_free r hr := by
    simp [planted, parent_of_le, Tree.size, empty]
  covered n hn := by
    have : n = root := Nat.lt_one_iff.mp hn
    exact ⟨root, List.mem_cons_self, this ▸ .refl⟩

end Arbor.Tree
