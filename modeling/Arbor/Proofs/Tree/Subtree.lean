import Arbor.Proofs.Tree.Planting
import Arbor.Tree.Outline

/-!
# Subtrees

In a grove the shape of a subtree is its node over the shapes of its children: the bound on its
height is never met. It depends on nothing but the nodes of the subtree, so a change elsewhere
leaves it as it is. An expression is grafted with its own shape.
-/
namespace Arbor

namespace Expr

mutual

def shape : Expr → Shape
  | .literal token => .node (Tree.literalTag token) token.text []
  | .get name => .node .get name.text []
  | .call name _ arguments => .node .call name.text [.node .arguments "arg" (shapes arguments)]
  | .operator symbol left right => .node .operator symbol.text [left.shape, right.shape]

def shapes : List Expr → List Shape
  | [] => []
  | e :: rest => e.shape :: shapes rest

end

end Expr

namespace Tree

/-- The node at `n` is the same in both trees but for its place and its parent. -/
structure SameAt (t u : Tree) (n : NodeId) : Prop where
  tag : u.tag n = t.tag n
  text : u.text n = t.text n
  children : u.children n = t.children n

def parts (t : Tree) (n : NodeId) : List Shape := (t.children n).toList.map t.shape

variable {t u w : Tree} {a b c n m p r : Nat} {loose loose' : List NodeId}

theorem PrefixOf.sameAt (h : t.PrefixOf u) (hn : n < t.size) : t.SameAt u n := by
  have hnode := h.node n hn
  exact ⟨congrArg Node.tag hnode, congrArg Node.text hnode, congrArg Node.children hnode⟩

theorem GrowsAt.sameAt (h : t.GrowsAt p u) (hu : t.GrowsTo u) (hn : n < t.size) (hne : n ≠ p) :
    t.SameAt u n :=
  ⟨h.tag n hn, hu.text n hn, h.children n hn hne⟩

theorem sameAt_attach (hne : n ≠ p) : t.SameAt (t.attach p c) n :=
  ⟨tag_attach, text_attach, by rw [children_attach, if_neg fun k => hne k.1]⟩

def below (t : Tree) (n : NodeId) : Finset NodeId :=
  (Finset.range t.size).filter (t.climbs n t.size · = true)

theorem Ends.mem_below (h : t.Ends) : m ∈ t.below n ↔ m < t.size ∧ t.Under n m := by
  rw [below, Finset.mem_filter, Finset.mem_range]
  exact and_congr_right fun hm => h.climbs_iff (Nat.zero_lt_of_lt hm)

theorem Ends.not_under_parent (h : t.Ends) (hp : t.parent c = some p) : ¬t.Under c p := by
  obtain ⟨r, hr, hrc⟩ := h.top c (lt_of_parent hp)
  exact hrc.no_return hr hp

theorem Grove.not_under_parent (h : t.Grove loose) (hc : c ∈ t.children p) : ¬t.Under c p :=
  h.ends.not_under_parent ((h.parent_iff p c).mpr hc)

theorem Ends.card_below_lt (h : t.Ends) (hp : t.parent c = some n) :
    (t.below c).card < (t.below n).card := by
  apply Finset.card_lt_card
  refine Finset.ssubset_iff_of_subset ?_ |>.mpr ⟨n, ?_, ?_⟩
  · intro m hm
    obtain ⟨hlt, hunder⟩ := h.mem_below.mp hm
    exact h.mem_below.mpr ⟨hlt, (Under.of_parent hp).trans hunder⟩
  · exact h.mem_below.mpr ⟨h.parent_lt c n hp, .refl⟩
  · exact fun hn => h.not_under_parent hp (h.mem_below.mp hn).2

def Acyclic (t : Tree) : Prop := WellFounded fun c p => c ∈ t.children p

/-- Where every child knows its parent and every climb ends, every walk down ends too. -/
theorem Ends.acyclic (h : t.Ends) (hlinks : ∀ p, ∀ c ∈ t.children p, t.parent c = some p) :
    t.Acyclic :=
  Subrelation.wf (fun hc => h.card_below_lt (hlinks _ _ hc))
    (measure fun n => (t.below n).card).wf

theorem Grove.acyclic (h : t.Grove loose) : t.Acyclic :=
  h.ends.acyclic fun p c => (h.parent_iff p c).mpr

def Over (t : Tree) (n m : NodeId) : Prop :=
  Relation.ReflTransGen (fun p c => c ∈ t.children p) n m

theorem Acyclic.not_over_parent (h : t.Acyclic) (hc : c ∈ t.children p) : ¬t.Over c p := by
  intro hback
  have hloop : Relation.TransGen (fun p c => c ∈ t.children p) p p := .head' hc hback
  exact h.transGen.asymmetric p p (Relation.transGen_swap.mpr hloop)
    (Relation.transGen_swap.mpr hloop)

theorem shapeWithin_of_childless (h : t.children n = #[]) (k : Nat) :
    t.shapeWithin k n = .node (t.tag n) (t.text n) [] := by
  cases k with
  | zero => rfl
  | succ k => simp [shapeWithin, h]

def Covers (t : Tree) (nodes : Finset NodeId) (n : NodeId) : Prop :=
  ∀ m < t.size, t.Over n m → m ∈ nodes

theorem Covers.child {nodes : Finset NodeId} (hall : t.Covers nodes n) (h : t.Acyclic)
    (hc : c ∈ t.children n) :
    t.Covers (nodes.erase n) c ∧ (nodes.erase n).card + 1 = nodes.card := by
  refine ⟨fun m hm hover => ?_, Finset.card_erase_add_one (hall n (lt_of_mem_children hc) .refl)⟩
  refine Finset.mem_erase.mpr ⟨?_, hall m hm (.head hc hover)⟩
  rintro rfl
  exact h.not_over_parent hc hover

theorem Covers.childless {nodes : Finset NodeId} (hall : t.Covers nodes n) (hcard : nodes.card = 0) :
    t.children n = #[] := by
  apply children_of_le
  by_contra hlt
  have hmem := hall n (Nat.lt_of_not_le hlt) .refl
  rw [Finset.card_eq_zero.mp hcard] at hmem
  exact absurd hmem (Finset.notMem_empty n)

theorem Acyclic.shapeWithin_eq (h : t.Acyclic) {nodes : Finset NodeId} {k l : Nat}
    (hall : t.Covers nodes n) (hk : nodes.card ≤ k) (hl : nodes.card ≤ l) :
    t.shapeWithin k n = t.shapeWithin l n := by
  -- by induction on the bounds: a child has a node less below it than its parent
  induction k generalizing n nodes l with
  | zero =>
    have hempty := hall.childless (Nat.le_zero.mp hk)
    rw [shapeWithin_of_childless hempty, shapeWithin_of_childless hempty]
  | succ k ih =>
    cases l with
    | zero =>
      have hempty := hall.childless (Nat.le_zero.mp hl)
      rw [shapeWithin_of_childless hempty, shapeWithin_of_childless hempty]
    | succ l =>
      rw [shapeWithin, shapeWithin]
      congr 1
      apply List.map_congr_left
      intro c hc
      obtain ⟨hchild, hcard⟩ := hall.child h (Array.mem_toList_iff.mp hc)
      exact ih hchild (by omega) (by omega)

theorem Acyclic.shape_eq (h : t.Acyclic) (n : NodeId) :
    t.shape n = .node (t.tag n) (t.text n) (t.parts n) := by
  unfold parts shape
  cases hsize : t.size with
  | zero => rw [children_of_le (by omega)]; rfl
  | succ k =>
    rw [shapeWithin]
    congr 1
    apply List.map_congr_left
    intro c hc
    have hall : t.Covers (Finset.range (k + 1)) n := fun m hm _ =>
      Finset.mem_range.mpr (hsize ▸ hm)
    obtain ⟨hchild, hcard⟩ := hall.child h (Array.mem_toList_iff.mp hc)
    rw [Finset.card_range] at hcard
    exact h.shapeWithin_eq hchild (by omega) (by omega)

theorem Grove.shape_eq (h : t.Grove loose) (n : NodeId) :
    t.shape n = .node (t.tag n) (t.text n) (t.parts n) :=
  h.acyclic.shape_eq n

/-- A shape depends on the nodes below only. -/
theorem Grove.shape_congr (h : t.Grove loose) (hu : u.Grove loose')
    (hsame : ∀ m, t.Under n m → t.SameAt u m) : u.shape n = t.shape n := by
  induction n using h.acyclic.induction with
  | h n ih =>
    have hn := hsame n .refl
    rw [hu.shape_eq, h.shape_eq, parts, parts, hn.tag, hn.text, hn.children]
    congr 1
    apply List.map_congr_left
    intro c hc
    have hc := Array.mem_toList_iff.mp hc
    have hchild := Under.of_parent ((h.parent_iff n c).mpr hc)
    exact ih c hc fun m hm => hsame m (hchild.trans hm)

theorem Grove.shape_of_stands (h : t.Grove loose) (hu : u.Grove loose') (hstands : t.PrefixOf u)
    (hn : n < t.size) : u.shape n = t.shape n :=
  h.shape_congr hu fun _ hm => hstands.sameAt (hm.lt hn)

theorem Grove.parts_of_stands (h : t.Grove loose) (hu : u.Grove loose') (hstands : t.PrefixOf u)
    (hn : n < t.size) : u.parts n = t.parts n := by
  unfold parts
  rw [(hstands.sameAt hn).children]
  apply List.map_congr_left
  intro c hc
  exact h.shape_of_stands hu hstands (h.child_lt (Array.mem_toList_iff.mp hc))

theorem Grove.shape_of_growsAt (h : t.Grove loose) (hu : u.Grove loose') (hat : t.GrowsAt p u)
    (hto : t.GrowsTo u) (hn : n < t.size) (hp : ¬t.Under n p) : u.shape n = t.shape n := by
  refine h.shape_congr hu fun m hm => hat.sameAt hto (hm.lt hn) ?_
  rintro rfl
  exact hp hm

theorem Grove.siblings_apart (h : t.Grove loose) (ha : a ∈ t.children p) (hb : b ∈ t.children p)
    (hne : a ≠ b) (hm : t.Under a m) : ¬t.Under b m := by
  have hparent : ∀ {x y : Nat}, x ∈ t.children p → y ∈ t.children p → t.Under x y → x = y := by
    intro x y hx hy hxy
    cases hxy with
    | refl => rfl
    | step hq hxq =>
      rw [(h.parent_iff p y).mpr hy] at hq
      cases hq
      exact absurd hxq (h.not_under_parent hx)
  intro hbm
  rcases hm.comparable hbm with hab | hba
  · exact hne (hparent ha hb hab)
  · exact hne (hparent hb ha hba).symm

theorem Grove.not_under_top (h : t.Grove (c :: loose)) (hr : r ∈ root :: loose)
    (hp : t.Under r p) : ¬t.Under c p := by
  have hswap : (root :: c :: loose).Perm (c :: root :: loose) := List.Perm.swap c root loose
  have htops := List.nodup_cons.mp (hswap.nodup_iff.mp h.tops_nodup)
  have hfree := h.top_free c (hswap.mem_iff.mpr List.mem_cons_self)
  have hrfree := h.top_free r (hswap.mem_iff.mpr (List.mem_cons_of_mem _ hr))
  intro hcp
  rcases hp.comparable hcp with hrc | hcr
  · exact htops.1 (hrc.eq_of_free hfree ▸ hr)
  · exact htops.1 (hcr.eq_of_free hrfree ▸ hr)

theorem Grove.shape_attach (h : t.Grove (c :: loose)) (hr : r ∈ root :: loose)
    (hp : t.Under r p) (hn : ¬t.Under n p) : (t.attach p c).shape n = t.shape n := by
  refine h.shape_congr (h.attach hr hp) fun m hm => sameAt_attach ?_
  rintro rfl
  exact hn hm

theorem Grove.parts_attach (h : t.Grove (c :: loose)) (hr : r ∈ root :: loose)
    (hp : t.Under r p) : (t.attach p c).parts p = t.parts p ++ [t.shape c] := by
  have hplt := hp.lt (h.top_lt r (by
    rcases List.mem_cons.mp hr with rfl | hr
    · exact List.mem_cons_self
    · exact List.mem_cons_of_mem _ (List.mem_cons_of_mem _ hr)))
  rw [parts, children_attach_of_lt hplt, if_pos rfl, Array.toList_push, List.map_append]
  congr 1
  · apply List.map_congr_left
    intro k hk
    exact h.shape_attach hr hp (h.not_under_parent (Array.mem_toList_iff.mp hk))
  · rw [List.map_singleton, h.shape_attach hr hp (h.not_under_top hr hp)]

theorem Grove.shape_hung {tag : Tag} {text : String} {children : List Shape}
    (h : t.Grove (c :: loose)) (hr : r ∈ root :: loose) (hp : t.Under r p)
    (hshape : t.shape p = .node tag text children) :
    (t.attach p c).shape p = .node tag text (children ++ [t.shape c]) := by
  rw [h.shape_eq] at hshape
  obtain ⟨rfl, rfl, rfl⟩ := Shape.node.inj hshape
  rw [(h.attach hr hp).shape_eq, h.parts_attach hr hp, tag_attach, text_attach]

theorem Grove.shape_new {tag : Tag} {text : String} {position : Nat}
    (h : (t.add tag text position).Grove loose) :
    (t.add tag text position).shape t.size = .node tag text [] := by
  have htext : (t.add tag text position).text t.size = text := by
    rw [Tree.text, node_add, if_pos rfl]
  rw [h.shape_eq, parts, tag_new, htext, children_new]
  rfl

mutual

theorem Grove.graft_shape {t : Tree} {loose : List NodeId} (h : t.Grove loose) (e : Expr) :
    (t.graft e).1.shape (t.graft e).2 = e.shape := by
  match e with
  | .literal token =>
    rw [Tree.graft, Expr.shape]
    exact (h.add ..).shape_new
  | .get name =>
    rw [Tree.graft, Expr.shape]
    exact (h.add ..).shape_new
  | .call name bracket arguments =>
    rw [Tree.graft, Expr.shape]
    dsimp only
    have hcall := h.add .call name.text name.position
    have hlist := hcall.add .arguments "arg" bracket.position
    have hbare := hlist.shape_new
    rw [size_add] at hlist hbare
    have hnew : t.size + 1 ∈ root :: (t.size + 1) :: t.size :: loose :=
      List.mem_cons_of_mem _ List.mem_cons_self
    have hall := hlist.graftAll hnew .refl arguments
    have harguments := hlist.graftAll_shape hnew .refl arguments hbare
    have hstands := graftAll_stands (t.size + 1) arguments
      ((PrefixOf.refl (t.add .call name.text name.position)).add .arguments "arg" bracket.position)
      (Nat.le_of_eq size_add)
    have hlt : t.size < (t.add .call name.text name.position).size := lt_size_add
    have hname := hcall.shape_of_stands hall hstands hlt
    rw [hcall.shape_new] at hname
    rw [hall.shape_hung (List.mem_cons_of_mem _ List.mem_cons_self) .refl hname, harguments]
    rfl
  | .operator symbol left right =>
    rw [Tree.graft, Expr.shape]
    dsimp only
    have hl := h.graft left
    have hr := hl.graft right
    have hop := hr.add .operator symbol.text symbol.position
    have hright := (graft_grafted (t.graft left).1 right).stands
    have hsymbol := (PrefixOf.refl ((t.graft left).1.graft right).1).add .operator symbol.text
      symbol.position
    have hlshape := hl.shape_of_stands hop (hright.trans hsymbol)
      (hl.top_lt _ (List.mem_cons_of_mem _ List.mem_cons_self))
    have hrshape := hr.shape_of_stands hop hsymbol
      (hr.top_lt _ (List.mem_cons_of_mem _ List.mem_cons_self))
    rw [h.graft_shape left] at hlshape
    rw [hl.graft_shape right] at hrshape
    have hfirst := hop.perm (@List.perm_middle _ (t.graft left).2
      [((t.graft left).1.graft right).1.size, ((t.graft left).1.graft right).2] loose)
    have hsecond := (hfirst.attach (List.mem_cons_of_mem _ List.mem_cons_self) .refl).perm
      (.swap ..)
    -- the right operand is no part of the operator when the left one is hung on it
    have hapart := (hop.perm (.swap ..)).not_under_top (List.mem_cons_of_mem _ List.mem_cons_self)
      .refl
    rw [hsecond.shape_hung (List.mem_cons_of_mem _ List.mem_cons_self) .refl
        (hfirst.shape_hung (List.mem_cons_of_mem _ List.mem_cons_self) .refl hop.shape_new),
      hfirst.shape_attach (List.mem_cons_of_mem _ List.mem_cons_self) .refl hapart, hlshape,
      hrshape]
    rfl

theorem Grove.graftAll_shape {t : Tree} {loose : List NodeId} (h : t.Grove loose) {r list : Nat}
    (hr : r ∈ root :: loose) (hlist : t.Under r list) (es : List Expr) {tag : Tag} {text : String}
    {children : List Shape} (hshape : t.shape list = .node tag text children) :
    (t.graftAll list es).shape list = .node tag text (children ++ Expr.shapes es) := by
  match es with
  | [] =>
    rw [Tree.graftAll, Expr.shapes, List.append_nil]
    exact hshape
  | e :: rest =>
    rw [Tree.graftAll, Expr.shapes]
    have he := h.graft e
    have hstands := (graft_grafted t e).stands
    have hunder := hstands.under hlist
    have hfree := he.top_free _ (List.mem_cons_of_mem _ List.mem_cons_self)
    have hold := h.shape_of_stands he hstands (hlist.lt (h.top_lt r hr))
    have hhung := he.shape_hung hr hunder (hold.trans hshape)
    rw [(he.attach hr hunder).graftAll_shape hr (hunder.attach hfree) rest hhung,
      h.graft_shape e, List.append_assoc, List.singleton_append]

end

end Tree

end Arbor
