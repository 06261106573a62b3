import Arbor.Proofs.Tree.Subtree
import Mathlib

/-!
# Heights and levels

How high a subtree is, and what stands on each of its levels from left to right. A level is empty
exactly from the height on, and its first node is the first one at its depth in the order in which a
node comes before its children.
-/
namespace Arbor

mutual

def Shape.height : Shape → Nat
  | .node _ _ children => 1 + Shape.heights children

def Shape.heights : List Shape → Nat
  | [] => 0
  | s :: rest => max s.height (Shape.heights rest)

end

theorem Shape.lt_heights {k : Nat} {l : List Shape} :
    k < Shape.heights l ↔ ∃ s ∈ l, k < s.height := by
  induction l with
  | nil => simp [Shape.heights]
  | cons s rest ih => simp [Shape.heights, ih]

namespace Tree

def height (t : Tree) (n : NodeId) : Nat := (t.shape n).height

/-- The nodes `depth` levels below `n`, from left to right. -/
def level (t : Tree) : Nat → NodeId → List NodeId
  | 0, n => [n]
  | depth + 1, n => (t.children n).toList.flatMap (t.level depth)

/-- The nodes that are at most `bound` levels below `n`, each with its depth, a node before its
children. -/
def preorder (t : Tree) : Nat → NodeId → List (Nat × NodeId)
  | 0, n => [(0, n)]
  | bound + 1, n => (0, n) :: (t.children n).toList.flatMap fun c =>
      (t.preorder bound c).map fun entry => (entry.1 + 1, entry.2)

/-- The first node `depth` levels below `n` that comes when a node comes before its children. No node
is further below than the tree is large. -/
def firstBelow (t : Tree) (depth : Nat) (n : NodeId) : Option NodeId :=
  ((t.preorder t.size n).find? (·.1 = depth)).map Prod.snd

variable {t : Tree} {loose : List NodeId} {n l r c : NodeId} {depth bound : Nat}

theorem filter_preorder (h : depth ≤ bound) : (t.preorder bound n).filter (·.1 = depth) =
    (t.level depth n).map fun m => (depth, m) := by
  induction bound generalizing depth n with
  | zero =>
    obtain rfl := Nat.le_zero.mp h
    simp [preorder, level]
  | succ bound ih =>
    rw [preorder, List.filter_cons, List.filter_flatMap]
    cases depth with
    | zero => simp [level, Function.comp_def, List.filter_map]
    | succ depth =>
      have hbelow : ∀ c, ((t.preorder bound c).map fun entry => (entry.1 + 1, entry.2)).filter
          (·.1 = depth + 1) = (t.level depth c).map fun m => (depth + 1, m) := by
        intro c
        have hfilter := ih (n := c) (Nat.le_of_succ_le_succ h)
        simp only [List.filter_map, Function.comp_def, Nat.add_right_cancel_iff, hfilter,
          List.map_map]
      simp only [hbelow, level, List.map_flatMap]
      simp

theorem find?_preorder (h : depth ≤ bound) : (t.preorder bound n).find? (·.1 = depth) =
    (t.level depth n).head?.map fun m => (depth, m) := by
  rw [← List.head?_filter, filter_preorder h, List.head?_map]

theorem Grove.height_eq (h : t.Grove loose) (n : NodeId) :
    t.height n = 1 + Shape.heights (t.parts n) := by
  rw [height, h.shape_eq, Shape.height]

theorem Grove.height_pos (h : t.Grove loose) (n : NodeId) : 0 < t.height n := by
  rw [h.height_eq]
  omega

theorem Grove.height_child_lt (h : t.Grove loose) (hc : c ∈ t.children n) :
    t.height c < t.height n := by
  have hlt : t.height c - 1 < Shape.heights (t.parts n) := by
    refine Shape.lt_heights.mpr ⟨t.shape c, List.mem_map_of_mem (Array.mem_toList_iff.mpr hc), ?_⟩
    have := h.height_pos c
    exact Nat.sub_lt this Nat.one_pos
  rw [h.height_eq n]
  omega

theorem Grove.height_leaf (h : t.Grove loose) (hn : t.children n = #[]) : t.height n = 1 := by
  rw [h.height_eq, parts, hn]
  rfl

theorem Grove.height_pair (h : t.Grove loose) (hn : t.children n = #[l, r]) :
    t.height n = 1 + max (t.height l) (t.height r) := by
  rw [h.height_eq, parts, hn]
  simp [Shape.heights, height]

theorem level_pair (hn : t.children n = #[l, r]) (depth : Nat) :
    t.level (depth + 1) n = t.level depth l ++ t.level depth r := by
  simp [level, hn]

theorem Grove.level_ne_nil (h : t.Grove loose) : t.level depth n ≠ [] ↔ depth < t.height n := by
  -- by induction on the depth: both sides ask for a child that reaches as far
  induction depth generalizing n with
  | zero => simp [level, h.height_pos n]
  | succ depth ih =>
    have hstep : t.level (depth + 1) n ≠ [] ↔ ∃ c ∈ t.children n, t.level depth c ≠ [] := by
      simp only [level, ne_eq, List.flatMap_eq_nil_iff, not_forall, Array.mem_toList_iff, exists_prop]
    have hheight : depth + 1 < t.height n ↔ ∃ c ∈ t.children n, depth < t.height c := by
      rw [h.height_eq, Nat.add_comm depth, Nat.add_lt_add_iff_left, Shape.lt_heights]
      simp only [parts, List.mem_map, Array.mem_toList_iff, exists_exists_and_eq_and, height]
    rw [hstep, hheight]
    simp only [ih]

theorem height_shapeWithin_le (t : Tree) (k : Nat) (n : NodeId) :
    (t.shapeWithin k n).height ≤ k + 1 := by
  induction k generalizing n with
  | zero => simp [shapeWithin, Shape.height, Shape.heights]
  | succ k ih =>
    have hchildren : ¬k + 1 < Shape.heights ((t.children n).toList.map (t.shapeWithin k)) := by
      rw [Shape.lt_heights]
      rintro ⟨s, hs, hlt⟩
      obtain ⟨c, -, rfl⟩ := List.mem_map.mp hs
      exact absurd (ih c) (Nat.not_le.mpr hlt)
    rw [shapeWithin, Shape.height]
    omega

/-- What comes first at a depth is the first node of the level. -/
theorem firstBelow_eq (h : depth < t.height n) :
    t.firstBelow depth n = (t.level depth n).head? := by
  have hle : t.height n ≤ t.size + 1 := t.height_shapeWithin_le t.size n
  rw [firstBelow, find?_preorder (by omega), Option.map_map]
  simp

end Tree

end Arbor
