import Arbor.Proofs.Tree.Links

/-!
# Trees that others grow out of

Reading adds nodes and hangs new nodes on old ones, and does nothing else to an old node. Dropping
the new nodes therefore gives the old tree back.
-/
namespace Arbor.Tree

/-- All nodes of `t` stand unchanged in `u`. -/
structure PrefixOf (t u : Tree) : Prop where
  size_le : t.size ≤ u.size
  node : ∀ n < t.size, u.node n = t.node n

/-- All nodes of `t` stand in `u`, where some of them have new nodes as further children. -/
structure GrowsTo (t u : Tree) : Prop where
  size_le : t.size ≤ u.size
  tag : ∀ n < t.size, u.tag n = t.tag n
  text : ∀ n < t.size, u.text n = t.text n
  position : ∀ n < t.size, u.position n = t.position n
  parent : ∀ n < t.size, u.parent n = t.parent n
  children : ∀ n < t.size, ∃ new : List NodeId,
    (u.children n).toList = (t.children n).toList ++ new ∧ ∀ c ∈ new, t.size ≤ c

/-- `u` has new nodes, and of the old ones only `p` has new children. -/
structure GrowsAt (p : Nat) (t u : Tree) : Prop where
  size_le : t.size ≤ u.size
  tag : ∀ n < t.size, u.tag n = t.tag n
  parent : ∀ n < t.size, u.parent n = t.parent n
  children : ∀ n < t.size, n ≠ p → u.children n = t.children n

variable {t u v : Tree}

theorem PrefixOf.refl (t : Tree) : t.PrefixOf t := ⟨Nat.le_refl _, fun _ _ => rfl⟩

theorem PrefixOf.trans (h : t.PrefixOf u) (k : u.PrefixOf v) : t.PrefixOf v where
  size_le := h.size_le.trans k.size_le
  node n hn := (k.node n (hn.trans_le h.size_le)).trans (h.node n hn)

theorem PrefixOf.add (h : t.PrefixOf u) (tag : Tag) (text : String) (position : Nat) :
    t.PrefixOf (u.add tag text position) := by
  refine ⟨?_, ?_⟩
  · have := h.size_le
    rw [size_add]
    omega
  · intro n hn
    have hne : n ≠ u.size := Nat.ne_of_lt (hn.trans_le h.size_le)
    rw [node_add, if_neg hne, h.node n hn]

theorem PrefixOf.attach (h : t.PrefixOf u) {p c : Nat} (hp : t.size ≤ p) (hc : t.size ≤ c) :
    t.PrefixOf (u.attach p c) := by
  refine ⟨by rw [size_attach]; exact h.size_le, ?_⟩
  intro n hn
  have hnc : ¬(n = c ∧ c < u.size) := fun k => absurd k.1 (Nat.ne_of_lt (hn.trans_le hc))
  have hnp : ¬(n = p ∧ p < u.size) := fun k => absurd k.1 (Nat.ne_of_lt (hn.trans_le hp))
  rw [node_attach, if_neg hnc, if_neg hnp]
  exact h.node n hn

theorem PrefixOf.tag_new {tag : Tag} {text : String} {position : Nat}
    (h : (t.add tag text position).PrefixOf u) : u.tag t.size = tag := by
  have hnode : u.tag t.size = (t.add tag text position).tag t.size :=
    congrArg Node.tag (h.node _ lt_size_add)
  rw [hnode, Tree.tag_new]

theorem PrefixOf.children_new {tag : Tag} {text : String} {position : Nat}
    (h : (t.add tag text position).PrefixOf u) : u.children t.size = #[] := by
  have hnode : u.children t.size = (t.add tag text position).children t.size :=
    congrArg Node.children (h.node _ lt_size_add)
  rw [hnode, Tree.children_new]

theorem GrowsTo.refl (t : Tree) : t.GrowsTo t where
  size_le := Nat.le_refl _
  tag _ _ := rfl
  text _ _ := rfl
  position _ _ := rfl
  parent _ _ := rfl
  children _ _ := ⟨[], by simp, by simp⟩

theorem GrowsTo.children_size_le (h : t.GrowsTo u) (n : Nat) :
    (t.children n).size ≤ (u.children n).size := by
  by_cases hn : n < t.size
  · obtain ⟨new, hnew, _⟩ := h.children n hn
    have hlength := congrArg List.length hnew
    rw [List.length_append, Array.length_toList, Array.length_toList] at hlength
    omega
  · rw [children_of_le (Nat.le_of_not_lt hn)]
    exact Nat.zero_le _

theorem GrowsTo.prefix_right (h : t.GrowsTo u) (k : u.PrefixOf v) : t.GrowsTo v := by
  have node : ∀ n < t.size, v.node n = u.node n := fun n hn => k.node n (hn.trans_le h.size_le)
  refine ⟨h.size_le.trans k.size_le, ?_, ?_, ?_, ?_, ?_⟩
  · intro n hn; rw [Tree.tag, node n hn]; exact h.tag n hn
  · intro n hn; rw [Tree.text, node n hn]; exact h.text n hn
  · intro n hn; rw [Tree.position, node n hn]; exact h.position n hn
  · intro n hn; rw [Tree.parent, node n hn]; exact h.parent n hn
  · intro n hn; rw [Tree.children, node n hn]; exact h.children n hn

theorem GrowsTo.add (h : t.GrowsTo u) (tag : Tag) (text : String) (position : Nat) :
    t.GrowsTo (u.add tag text position) :=
  h.prefix_right ((PrefixOf.refl u).add tag text position)

theorem GrowsTo.attach (h : t.GrowsTo u) {c : Nat} (hc : t.size ≤ c) (p : NodeId) :
    t.GrowsTo (u.attach p c) := by
  refine ⟨by rw [size_attach]; exact h.size_le, ?_, ?_, ?_, ?_, ?_⟩
  · intro n hn; rw [tag_attach]; exact h.tag n hn
  · intro n hn; rw [text_attach]; exact h.text n hn
  · intro n hn; rw [position_attach]; exact h.position n hn
  · intro n hn
    rw [parent_attach, if_neg fun k => absurd k.1 (Nat.ne_of_lt (hn.trans_le hc))]
    exact h.parent n hn
  · intro n hn
    obtain ⟨new, hnew, hle⟩ := h.children n hn
    rw [children_attach]
    by_cases hp : n = p ∧ p < u.size
    · refine ⟨new ++ [c], by rw [if_pos hp]; simp [hnew], ?_⟩
      intro x hx
      rcases List.mem_append.mp hx with hx | hx
      · exact hle x hx
      · rw [List.mem_singleton.mp hx]; exact hc
    · exact ⟨new, by rw [if_neg hp]; exact hnew, hle⟩

theorem GrowsTo.addUnder (h : t.GrowsTo u) (p : NodeId) (tag : Tag) (text : String)
    (position : Nat) : t.GrowsTo (u.addUnder p tag text position) :=
  (h.add tag text position).attach h.size_le p

theorem GrowsAt.of_stands (h : t.PrefixOf u) (p : Nat) : GrowsAt p t u where
  size_le := h.size_le
  tag n hn := by rw [Tree.tag, h.node n hn]; rfl
  parent n hn := by rw [Tree.parent, h.node n hn]; rfl
  children n hn _ := by rw [Tree.children, h.node n hn]; rfl

theorem GrowsAt.attach {p c : Nat} (h : GrowsAt p t u) (hc : t.size ≤ c) :
    GrowsAt p t (u.attach p c) where
  size_le := by rw [size_attach]; exact h.size_le
  tag n hn := by rw [tag_attach]; exact h.tag n hn
  parent n hn := by
    rw [parent_attach, if_neg fun k => absurd k.1 (Nat.ne_of_lt (Nat.lt_of_lt_of_le hn hc))]
    exact h.parent n hn
  children n hn hne := by
    rw [children_attach, if_neg fun k => hne k.1]
    exact h.children n hn hne

theorem GrowsAt.node {p n : Nat} (h : GrowsAt p t u) (hu : t.GrowsTo u) (hn : n < t.size)
    (hne : n ≠ p) : u.node n = t.node n := by
  calc u.node n = ⟨u.tag n, u.text n, u.position n, u.parent n, u.children n⟩ := rfl
    _ = ⟨t.tag n, t.text n, t.position n, t.parent n, t.children n⟩ := by
      rw [h.tag n hn, hu.text n hn, hu.position n hn, h.parent n hn, h.children n hn hne]
    _ = t.node n := rfl

/-- A tree whose children all stand in it comes back when what grew out of it is dropped. -/
theorem GrowsTo.truncate (h : t.GrowsTo u) (hc : ∀ n, ∀ c ∈ t.children n, c < t.size) :
    u.truncate t.size = t := by
  have node_eq : ∀ {w : Tree} {i : Nat} (hi : i < w.nodes.size), w.node i = w.nodes[i] := by
    intro w i hi
    simp [node, hi]
  have hsize : (u.truncate t.size).nodes.size = t.nodes.size := by
    have := Nat.min_eq_left h.size_le
    simpa [Tree.truncate, size] using this
  have hnodes : (u.truncate t.size).nodes = t.nodes := by
    apply Array.ext hsize
    intro i hi hit
    have hiu : i < u.nodes.size := hit.trans_le h.size_le
    obtain ⟨new, hnew, hle⟩ := h.children i hit
    have hold : (t.children i).toList.filter (· < t.size) = (t.children i).toList :=
      List.filter_eq_self.mpr fun c hm => decide_eq_true (hc i c (Array.mem_toList_iff.mp hm))
    have hdrop : new.filter (· < t.size) = [] :=
      List.filter_eq_nil_iff.mpr fun c hm => by simpa using hle c hm
    have hchildren : (u.children i).filter (· < t.size) = t.children i := by
      apply Array.toList_inj.mp
      rw [Array.toList_filter, hnew, List.filter_append, hold, hdrop, List.append_nil]
    calc (u.truncate t.size).nodes[i]
        = { u.node i with children := (u.children i).filter (· < t.size) } := by
          simp [Tree.truncate, node_eq hiu, Tree.children]
      _ = ⟨u.tag i, u.text i, u.position i, u.parent i, t.children i⟩ := by rw [hchildren]; rfl
      _ = t.node i := by
          rw [h.tag i hit, h.text i hit, h.position i hit, h.parent i hit]; rfl
      _ = t.nodes[i] := node_eq hit
  cases t
  exact congrArg Tree.mk hnodes

end Arbor.Tree
