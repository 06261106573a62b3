import Arbor.Proofs.Expr.Later
import Arbor.Proofs.Tree.Beside

/-!
# Trees of a later text

Where a text stands shows in the positions of its nodes and nowhere else.
-/
namespace Arbor.Tree

open Arbor.Expr (Frame Stuck)

def later (t : Tree) (base d : Nat) : Tree :=
  ⟨t.nodes.mapIdx fun n node =>
    if n < base then node else { node with position := node.position + d }⟩

variable {t : Tree} {base d n p c position : Nat} {tag : Tag} {text : String} {e : Expr}

@[simp] theorem size_later : (t.later base d).size = t.size := by
  simp [later, size]

theorem node_later (hn : n < t.size) : (t.later base d).node n =
    if n < base then t.node n else { t.node n with position := t.position n + d } := by
  have hn' : n < t.nodes.size := hn
  simp [later, node, Tree.position, Array.getD_eq_getD_getElem?, hn']

theorem node_later_cases (t : Tree) (base d n : Nat) :
    ∃ position, (t.later base d).node n = { t.node n with position := position } := by
  by_cases hn : n < t.size
  · rw [node_later hn]
    split
    · exact ⟨t.position n, rfl⟩
    · exact ⟨t.position n + d, rfl⟩
  · have hsize : (t.later base d).size ≤ n := by
      rw [size_later]
      exact Nat.le_of_not_lt hn
    rw [node_of_le hsize, node_of_le (Nat.le_of_not_lt hn)]
    exact ⟨0, rfl⟩

@[simp] theorem tag_later : (t.later base d).tag n = t.tag n := by
  obtain ⟨position, hnode⟩ := node_later_cases t base d n
  rw [Tree.tag, hnode]
  rfl

@[simp] theorem text_later : (t.later base d).text n = t.text n := by
  obtain ⟨position, hnode⟩ := node_later_cases t base d n
  rw [Tree.text, hnode]
  rfl

@[simp] theorem parent_later : (t.later base d).parent n = t.parent n := by
  obtain ⟨position, hnode⟩ := node_later_cases t base d n
  rw [parent, hnode]
  rfl

@[simp] theorem children_later : (t.later base d).children n = t.children n := by
  obtain ⟨position, hnode⟩ := node_later_cases t base d n
  rw [children, hnode]
  rfl

theorem later_of_size_le (h : t.size ≤ base) : t.later base d = t := by
  apply eq_of_node size_later
  intro n hn
  rw [node_later hn, if_pos (hn.trans_le h)]

theorem GrowsTo.later {u : Tree} (h : t.GrowsTo u) (d : Nat) : t.GrowsTo (u.later t.size d) where
  size_le := by
    rw [size_later]
    exact h.size_le
  tag n hn := tag_later.trans (h.tag n hn)
  text n hn := text_later.trans (h.text n hn)
  position n hn := by
    rw [Tree.position, node_later (hn.trans_le h.size_le), if_pos hn]
    exact h.position n hn
  parent n hn := parent_later.trans (h.parent n hn)
  children n hn := by
    rw [children_later]
    exact h.children n hn

theorem later_add (h : base ≤ t.size) :
    (t.later base d).add tag text (position + d) = (t.add tag text position).later base d := by
  apply eq_of_node
  · rw [size_add, size_later, size_later, size_add]
  · intro n hn
    rw [size_later] at hn
    rw [node_later hn, Tree.position, node_add, node_add, size_later]
    rw [size_add] at hn
    by_cases hnew : n = t.size
    · rw [if_pos hnew, if_pos hnew, if_neg (by omega)]
    · rw [if_neg hnew, if_neg hnew, node_later (by omega)]
      rfl

theorem later_attach : (t.later base d).attach p c = (t.attach p c).later base d := by
  apply eq_of_node
  · rw [size_attach, size_later, size_later, size_attach]
  · intro n hn
    rw [size_later, size_attach] at hn
    rw [node_later (by rw [size_attach]; exact hn), node_attach, node_attach, node_later hn,
      position_attach, size_later, parent_later, children_later]
    by_cases hb : n < base
    · rw [if_pos hb, if_pos hb]
    · rw [if_neg hb, if_neg hb]

theorem later_retag : (t.later base d).retag c tag = (t.retag c tag).later base d := by
  apply eq_of_node
  · rw [size_retag, size_later, size_later, size_retag]
  · intro n hn
    rw [size_later] at hn
    rw [node_later hn, Tree.position, retag, retag, node_modify, node_modify, size_later]
    rw [size_retag] at hn
    rw [node_later hn]
    by_cases hc : n = c ∧ c < t.size
    · rw [if_pos hc, if_pos hc]
      by_cases hb : n < base
      · rw [if_pos hb, if_pos hb]
      · rw [if_neg hb, if_neg hb]
        rfl
    · rw [if_neg hc, if_neg hc]
      rfl

theorem later_addUnder (h : base ≤ t.size) :
    (t.later base d).addUnder p tag text (position + d) =
      (t.addUnder p tag text position).later base d := by
  rw [addUnder, addUnder, later_add h, later_attach, size_later]

theorem later_addListed (h : base ≤ t.size) (tag : Tag) (name bracket : Token) :
    base ≤ ((t.add tag name.text name.position).add .arguments "arg" bracket.position).size ∧
      ((t.later base d).add tag (name.later d).text (name.later d).position).add .arguments "arg"
          (bracket.later d).position =
        ((t.add tag name.text name.position).add .arguments "arg" bracket.position).later base d := by
  have hsize : base ≤ (t.add tag name.text name.position).size := by
    rw [size_add]
    exact h.trans (Nat.le_succ _)
  constructor
  · rw [size_add]
    exact hsize.trans (Nat.le_succ _)
  · rw [← later_add hsize, ← later_add h]
    rfl

mutual

theorem later_graft (t : Tree) (h : base ≤ t.size) (e : Expr) :
    (t.later base d).graft (e.later d) = ((t.graft e).1.later base d, (t.graft e).2) := by
  match e with
  | .literal token =>
    rw [Expr.later, graft, graft, size_later]
    have htag : literalTag (token.later d) = literalTag token := rfl
    have hadd := @later_add t base d token.position (literalTag token) token.text h
    rw [htag]
    exact congrArg (·, t.size) hadd
  | .get name =>
    rw [Expr.later, graft, graft, size_later]
    have hadd := @later_add t base d name.position .get name.text h
    exact congrArg (·, t.size) hadd
  | .call name bracket arguments =>
    rw [Expr.later, graft, graft, size_later]
    obtain ⟨hsize, hlisted⟩ := @later_addListed t base d h .call name bracket
    rw [hlisted, later_graftAll _ hsize, later_attach]
  | .operator symbol left right =>
    have hl := h.trans (graft_grafted t left).stands.size_le
    have hr := hl.trans (graft_grafted (t.graft left).1 right).stands.size_le
    have hadd := @later_add _ base d symbol.position .operator symbol.text hr
    rw [Expr.later, graft, graft, later_graft t h left]
    dsimp only
    rw [later_graft (t.graft left).1 hl right]
    dsimp only
    rw [size_later, ← later_attach, ← later_attach, ← hadd]
    rfl

theorem later_graftAll (t : Tree) (h : base ≤ t.size) (list : NodeId) (es : List Expr) :
    (t.later base d).graftAll list (Expr.allLater d es) = (t.graftAll list es).later base d := by
  match es with
  | [] => rw [Expr.allLater, graftAll, graftAll]
  | e :: rest =>
    rw [Expr.allLater, graftAll, graftAll, later_graft t h e]
    have he := graft_grafted t e
    dsimp only
    rw [later_attach]
    exact later_graftAll _ (by rw [size_attach]; exact h.trans he.stands.size_le) list rest

end

theorem later_strew (h : base ≤ t.size) (frames : List Frame) :
    (t.later base d).strew (frames.map (Frame.later d)) =
      ((t.strew frames).1.later base d, (t.strew frames).2) := by
  induction frames with
  | nil => rfl
  | cons frame below ih =>
    have hbelow := h.trans (strew_stands t below).size_le
    cases frame with
    | operand left symbol =>
      rw [List.map_cons, Frame.later, strew, strew, ih, later_graft _ hbelow]
    | argument name bracket before =>
      obtain ⟨hsize, hlisted⟩ := @later_addListed (t.strew below).1 base d hbelow .call name bracket
      have hreverse : (Expr.allLater d before).reverse = Expr.allLater d before.reverse := by
        rw [Expr.allLater_eq_map, Expr.allLater_eq_map, List.map_reverse]
      rw [List.map_cons, Frame.later, strew, strew, ih]
      dsimp only
      rw [hlisted, hreverse, size_later, later_graftAll _ hsize]

theorem later_litter (h : base ≤ t.size) (stuck : Stuck) (more : List Token) :
    (t.later base d).litter (stuck.later d more) = (t.litter stuck).later base d := by
  unfold litter Stuck.later
  cases stuck.operand with
  | none =>
    dsimp only [Option.map_none]
    rw [later_strew h]
  | some operand =>
    dsimp only [Option.map_some]
    rw [Expr.fold_later, later_strew h,
      later_graft _ (h.trans (strew_stands t _).size_le)]
    dsimp only
    cases (t.strew (Expr.fold Operator.loosest stuck.frames operand).1).2 with
    | none => rfl
    | some list => exact later_attach

end Arbor.Tree
