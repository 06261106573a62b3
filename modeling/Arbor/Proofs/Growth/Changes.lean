import Arbor.Proofs.Growth.Rooted

/-!
# The changes that growth makes

Growth adds nodes, attaches them and turns a name into the target of a store. However a tree has come
out of another one by such changes, and it is a grove in the end, none of them attached a node that
hung on another one: the node would still be a child of both, or twice a child of one.
-/
namespace Arbor.Tree

inductive Change where
  | add (tag : Tag) (text : String) (position : Nat)
  | attach (parent child : NodeId)
  | retag (id : NodeId) (tag : Tag)
  deriving DecidableEq, Repr

namespace Change

def apply (t : Tree) : Change → Tree
  | .add tag text position => t.add tag text position
  | .attach parent child => t.attach parent child
  | .retag id tag => t.retag id tag

def Fits (t : Tree) : Change → Prop
  | .add .. => True
  | .attach parent child => parent < t.size ∧ child < t.size
  | .retag id _ => id < t.size

end Change

/-- The changes, one after the other and each on nodes that stand, make a tree of `t`. -/
inductive Changes (t : Tree) : List Change → Tree → Prop where
  | nil : Changes t [] t
  | snoc {u : Tree} {cs : List Change} {c : Change} : Changes t cs u → c.Fits u →
      Changes t (cs ++ [c]) (c.apply u)

/-- `u` comes out of `t` by changes, and whatever changes these are, none of them attaches a node
that has a parent. -/
def AttachesFree (t u : Tree) : Prop :=
  (∃ cs, Changes t cs u) ∧ ∀ before v p c after, Changes t before v →
    (Change.attach p c).Fits v → Changes (v.attach p c) after u → v.parent c = none

variable {T : Tag → Prop} {t u v w : Tree} {n p q c r : Nat} {cs ds : List Change}
  {loose tops : List NodeId}

theorem Changes.trans (h : Changes t cs u) (k : Changes u ds w) : Changes t (cs ++ ds) w := by
  induction k with
  | nil => rwa [List.append_nil]
  | snoc _ hfits ih =>
    rw [← List.append_assoc]
    exact ih.snoc hfits

theorem retag_parent (t : Tree) (id : NodeId) (tag : Tag) (n : NodeId) :
    (t.retag id tag).parent n = t.parent n := by
  rw [parent, retag, node_modify]
  split <;> rfl

theorem retag_children (t : Tree) (id : NodeId) (tag : Tag) (n : NodeId) :
    (t.retag id tag).children n = t.children n := by
  rw [children, retag, node_modify]
  split <;> rfl

theorem Changes.children_isPrefix (h : Changes t cs u) (n : NodeId) :
    (t.children n).toList <+: (u.children n).toList := by
  induction h with
  | nil => exact List.prefix_refl _
  | @snoc u cs c _ _ ih =>
    refine ih.trans ?_
    cases c with
    | add => exact children_add ▸ List.prefix_refl _
    | retag => exact (retag_children ..).symm ▸ List.prefix_refl _
    | attach p c =>
      rw [Change.apply, children_attach]
      split
      · rw [Array.toList_push]
        exact List.prefix_append _ _
      · exact List.prefix_refl _

def Linked (t : Tree) : Prop := ∀ p c, t.parent c = some p → c ∈ t.children p

theorem Changes.linked (h : Changes t cs u) (ht : t.Linked) : u.Linked := by
  induction h with
  | nil => exact ht
  | @snoc u cs c _ hfits ih =>
    intro p n hp
    cases c with
    | add =>
      rw [Change.apply, parent_add] at hp
      rw [Change.apply, children_add]
      exact ih p n hp
    | retag =>
      rw [Change.apply, retag_parent] at hp
      rw [Change.apply, retag_children]
      exact ih p n hp
    | attach q c =>
      rw [Change.apply, parent_attach_of_lt hfits.2] at hp
      rw [Change.apply, children_attach_of_lt hfits.1]
      split at hp
      · next hn =>
        cases hp
        rw [if_pos rfl, hn]
        exact Array.mem_push_self
      · split
        · exact Array.mem_push_of_mem _ (ih p n hp)
        · exact ih p n hp

theorem Changes.attaches_free (h : Changes t cs v) (k : Changes (v.attach p c) ds u)
    (ht : t.Linked) (hu : u.Grove loose) (hp : p < v.size) : v.parent c = none := by
  by_contra hne
  obtain ⟨q, hq⟩ := Option.ne_none_iff_exists'.mp hne
  have hold : c ∈ v.children q := h.linked ht q c hq
  have hchildren : ∀ {n}, c ∈ (v.attach p c).children n → u.parent c = some n := by
    intro n hc
    apply (hu.parent_iff n c).mpr
    exact Array.mem_toList_iff.mp ((k.children_isPrefix n).subset (Array.mem_toList_iff.mpr hc))
  by_cases hqp : q = p
  · -- then it is twice a child of `p`
    have hprefix := k.children_isPrefix p
    rw [children_attach_of_lt hp, if_pos rfl, Array.toList_push] at hprefix
    have hnodup := (hu.children_nodup p).sublist hprefix.sublist
    exact (List.nodup_append.mp hnodup).2.2 c (Array.mem_toList_iff.mpr (hqp ▸ hold)) c
      (List.mem_singleton_self c) rfl
  · have hfirst : u.parent c = some q := by
      apply hchildren
      rw [children_attach_of_lt hp, if_neg hqp]
      exact hold
    have hsecond : u.parent c = some p := by
      apply hchildren
      rw [children_attach_of_lt hp, if_pos rfl]
      exact Array.mem_push_self
    exact hqp (Option.some.inj (hfirst.symm.trans hsecond))

theorem Beside.changes (h : Beside T t u tops) : ∃ cs, Changes t cs u := by
  induction h with
  | refl => exact ⟨[], .nil⟩
  | add _ tag text position _ ih =>
    obtain ⟨cs, hcs⟩ := ih
    exact ⟨_, hcs.snoc (c := .add tag text position) trivial⟩
  | @attach u tops p c h hp ih =>
    obtain ⟨cs, hcs⟩ := ih
    exact ⟨_, hcs.snoc (c := .attach p c)
      ⟨(h.top (List.mem_cons_of_mem _ hp)).2, (h.top List.mem_cons_self).2⟩⟩
  | perm _ _ ih => exact ih

namespace Growth

variable {g g' : Growth} {eof token : Token} {tokens : List Token}

theorem Placed.changes {litter : List NodeId} (h : g.Placed token litter g')
    (hscope : g.scope < g.tree.size) (hparent : ∀ n p, g.tree.parent n = some p → p < g.tree.size)
    (hchild : ∀ n, ∀ c ∈ g.tree.children n, c < g.tree.size) : ∃ cs, Changes g.tree cs g'.tree := by
  cases h with
  | @hang u c _ hu _ =>
    obtain ⟨cs, hcs⟩ := hu.changes
    exact ⟨_, hcs.snoc (c := .attach g.scope c)
      ⟨hscope.trans_le hu.size_le, (hu.top List.mem_cons_self).2⟩⟩
  | @enter owner position _ _ _ hlast _ =>
    have hadd := Changes.nil.snoc (t := g.tree) (c := .add .body "body" position) trivial
    exact ⟨_, hadd.snoc (c := .attach owner g.tree.size)
      ⟨(hchild _ _ (Array.mem_of_back? hlast)).trans lt_size_add, lt_size_add⟩⟩
  | @further u branch c _ _ _ hbranch _ hu _ _ =>
    obtain ⟨cs, hcs⟩ := hu.changes
    have hlt := (hparent _ _ hbranch).trans_le hu.size_le
    have hfirst := hcs.snoc (c := .attach branch c) ⟨hlt, (hu.top List.mem_cons_self).2⟩
    refine ⟨_, hfirst.snoc (c := .attach branch g.tree.size) ?_⟩
    rw [Change.apply, Change.Fits, size_attach]
    exact ⟨hlt, (hu.top (List.mem_cons_of_mem _ List.mem_cons_self)).2⟩
  | leave => exact ⟨[], .nil⟩

def Grown (t u : Tree) : Prop := (∃ cs, Changes t cs u) ∧ ∃ loose, u.Grove loose

/-- Growth makes changes only, and it leaves a grove, also where it ends early. -/
theorem grow_changes (hg : g.Rooted) (tokens : List Token) :
    Leaves (Grown g.tree) id (grow eof g tokens) := by
  fun_induction grow eof g tokens with
  | case1 g => exact ⟨⟨[], .nil⟩, hg.grove⟩
  | case2 g token rest g' rest' hs ih =>
    obtain ⟨loose, hgrove⟩ := hg.grove
    obtain ⟨litter, hplaced, -⟩ := statement_places hs
    obtain ⟨cs, hcs⟩ := hplaced.changes (hg.scope_under.lt hgrove.size_pos)
      (fun _ _ => hgrove.parent_lt) (fun _ _ => hgrove.child_lt)
    apply (ih (statement_rooted hg hs)).imp
    rintro u ⟨⟨ds, hds⟩, hu⟩
    exact ⟨⟨_, hcs.trans hds⟩, hu⟩
  | case3 g token rest stunted hs =>
    obtain ⟨loose, hgrove⟩ := hg.grove
    obtain ⟨litter, hbeside⟩ := statement_refuses hs
    exact ⟨hbeside.changes, _, hbeside.grove hgrove⟩

end Growth

theorem Grove.grow_attachesFree (h : t.Grove loose) (tokens : List Token) :
    Growth.Leaves t.AttachesFree id (t.grow tokens) := by
  have hg : Growth.Rooted ⟨t, root⟩ := ⟨⟨loose, h⟩, .refl⟩
  apply (Growth.grow_changes hg _).imp
  rintro u ⟨hcs, loose', hu⟩
  refine ⟨hcs, fun before v p c after hbefore hfits hafter => ?_⟩
  exact hbefore.attaches_free hafter (fun p c => (h.parent_iff p c).mp) hu hfits.1

end Arbor.Tree
