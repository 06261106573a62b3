import Arbor.Tree
import Mathlib.Data.Fintype.Card

/-!
# What a change does to the nodes

One lemma for each change of a tree and each field of a node. Later modules open no change.
-/
namespace Arbor.Tree

variable {t : Tree} {tag : Tag} {text : String} {position : Nat} {p c n : Nat}

theorem node_of_le (h : t.size ≤ n) : t.node n = default := by
  unfold node size at *
  simp [Array.getD_eq_getD_getElem?, h]

theorem parent_of_le (h : t.size ≤ n) : t.parent n = none := by
  rw [parent, node_of_le h]
  rfl

theorem children_of_le (h : t.size ≤ n) : t.children n = #[] := by
  rw [children, node_of_le h]
  rfl

theorem lt_of_parent (h : t.parent n = some p) : n < t.size := by
  by_contra hn
  rw [parent_of_le (Nat.le_of_not_lt hn)] at h
  cases h

theorem lt_of_mem_children (h : c ∈ t.children n) : n < t.size := by
  by_contra hn
  rw [children_of_le (Nat.le_of_not_lt hn)] at h
  simp at h

theorem eq_of_node {u : Tree} (hsize : u.size = t.size) (h : ∀ n < t.size, u.node n = t.node n) :
    u = t := by
  have hnodes : u.nodes = t.nodes := by
    apply Array.ext hsize
    intro n hn hn'
    have hnode := h n hn'
    simpa [node, hn, hn'] using hnode
  cases t
  exact congrArg Tree.mk hnodes

@[simp] theorem size_add : (t.add tag text position).size = t.size + 1 := by
  simp [add, size]

theorem node_add : (t.add tag text position).node n =
    if n = t.size then ⟨tag, text, position, none, #[]⟩ else t.node n := by
  simp only [node, add, size, Array.getD_eq_getD_getElem?, Array.getElem?_push]
  split <;> simp

theorem tag_add : (t.add tag text position).tag n = if n = t.size then tag else t.tag n := by
  unfold Tree.tag
  rw [node_add]
  split <;> rfl

@[simp] theorem parent_add : (t.add tag text position).parent n = t.parent n := by
  unfold parent
  rw [node_add]
  split
  · next h => rw [node_of_le (Nat.le_of_eq h.symm)]; rfl
  · rfl

@[simp] theorem children_add : (t.add tag text position).children n = t.children n := by
  unfold children
  rw [node_add]
  split
  · next h => rw [node_of_le (Nat.le_of_eq h.symm)]; rfl
  · rfl

theorem lt_size_add : t.size < (t.add tag text position).size := by
  rw [size_add]
  exact Nat.lt_succ_self _

theorem tag_new : (t.add tag text position).tag t.size = tag := by
  rw [tag_add, if_pos rfl]

theorem parent_new : (t.add tag text position).parent t.size = none := by
  rw [parent_add, parent_of_le (Nat.le_refl _)]

theorem children_new : (t.add tag text position).children t.size = #[] := by
  rw [children_add, children_of_le (Nat.le_refl _)]

theorem node_modify {f : Node → Node} : (⟨t.nodes.modify c f⟩ : Tree).node n =
    if n = c ∧ c < t.size then f (t.node n) else t.node n := by
  simp only [node, size, Array.getD_eq_getD_getElem?, Array.getElem?_modify]
  by_cases hn : n = c
  · subst hn
    by_cases hs : n < t.nodes.size <;> simp [hs]
  · simp [hn, Ne.symm hn]

theorem size_modify {f : Node → Node} : (⟨t.nodes.modify c f⟩ : Tree).size = t.size := by
  simp [size]

@[simp] theorem size_retag : (t.retag n tag).size = t.size := size_modify

theorem retag_add {tag' : Tag} :
    (t.add tag text position).retag t.size tag' = t.add tag' text position := by
  apply eq_of_node
  · rw [size_retag, size_add, size_add]
  · intro n _
    rw [retag, node_modify, node_add, node_add, size_add]
    by_cases hn : n = t.size
    · rw [if_pos hn, if_pos hn, if_pos ⟨hn, Nat.lt_succ_self _⟩]
    · rw [if_neg hn, if_neg hn, if_neg fun k => hn k.1]

@[simp] theorem size_attach : (t.attach p c).size = t.size := by
  unfold attach
  rw [size_modify, size_modify]

theorem node_attach : (t.attach p c).node n =
    { t.node n with
      parent := if n = c ∧ c < t.size then some p else t.parent n
      children := if n = p ∧ p < t.size then (t.children n).push c else t.children n } := by
  unfold attach
  rw [node_modify, node_modify, size_modify]
  split_ifs <;> rfl

@[simp] theorem tag_attach : (t.attach p c).tag n = t.tag n := by
  unfold Tree.tag
  rw [node_attach]

@[simp] theorem text_attach : (t.attach p c).text n = t.text n := by
  unfold Tree.text
  rw [node_attach]

@[simp] theorem position_attach : (t.attach p c).position n = t.position n := by
  unfold Tree.position
  rw [node_attach]

theorem parent_attach : (t.attach p c).parent n =
    if n = c ∧ c < t.size then some p else t.parent n := by
  rw [parent, node_attach]

theorem children_attach : (t.attach p c).children n =
    if n = p ∧ p < t.size then (t.children n).push c else t.children n := by
  rw [children, node_attach]

end Arbor.Tree
