import Arbor.Proofs.Tree.Extension
import Arbor.Tree.Graft

/-!
# What is made beside a tree

Before a statement is hung it is made beside the tree: nodes are added, and of the new nodes those
that hang on nothing are attached to one another. The nodes from before stand unchanged. So are
operands, lists of parameters, and the litter of an expression that breaks off.
-/
namespace Arbor

def Tag.inExpression : Tag → Bool
  | .textLiteral | .numberLiteral | .get | .call | .arguments | .operator => true
  | _ => false

namespace Tree

open Arbor.Expr (Frame Stuck)

/-- `u` is `t` and new nodes, with tags as `T` says. Of the new ones `tops` hang on nothing. -/
inductive Beside (T : Tag → Prop) (t : Tree) : Tree → List NodeId → Prop where
  | refl : Beside T t t []
  | add {u : Tree} {tops : List NodeId} : Beside T t u tops → (tag : Tag) → (text : String) →
      (position : Nat) → T tag → Beside T t (u.add tag text position) (u.size :: tops)
  | attach {u : Tree} {tops : List NodeId} {p c : NodeId} : Beside T t u (c :: tops) → p ∈ tops →
      Beside T t (u.attach p c) tops
  | perm {u : Tree} {tops tops' : List NodeId} : Beside T t u tops → tops.Perm tops' →
      Beside T t u tops'

variable {T T' : Tag → Prop} {t u v : Tree} {n r list : Nat} {tops tops' : List NodeId}

theorem Beside.mono (hT : ∀ tag, T tag → T' tag) (h : Beside T t u tops) : Beside T' t u tops := by
  induction h with
  | refl => exact .refl
  | add _ tag text position htag ih => exact ih.add tag text position (hT tag htag)
  | attach _ hp ih => exact ih.attach hp
  | perm _ hperm ih => exact ih.perm hperm

theorem Beside.trans (h : Beside T t u tops) (k : Beside T u v tops') :
    Beside T t v (tops' ++ tops) := by
  induction k with
  | refl => exact h
  | add _ tag text position htag ih => exact ih.add tag text position htag
  | attach _ hp ih => exact ih.attach (List.mem_append_left _ hp)
  | perm _ hperm ih => exact ih.perm (hperm.append_right tops)

theorem Beside.size_le (h : Beside T t u tops) : t.size ≤ u.size := by
  induction h with
  | refl => exact Nat.le_refl _
  | add _ _ _ _ _ ih => exact ih.trans (Nat.le_of_lt lt_size_add)
  | attach _ _ ih => rw [size_attach]; exact ih
  | perm _ _ ih => exact ih

theorem Beside.top (h : Beside T t u tops) (hr : r ∈ tops) : t.size ≤ r ∧ r < u.size := by
  induction h with
  | refl => cases hr
  | add h _ _ _ _ ih =>
    rcases List.mem_cons.mp hr with rfl | hr
    · exact ⟨h.size_le, lt_size_add⟩
    · exact ⟨(ih hr).1, (ih hr).2.trans lt_size_add⟩
  | attach _ _ ih =>
    rw [size_attach]
    exact ih (List.mem_cons_of_mem _ hr)
  | perm _ hperm ih => exact ih (hperm.mem_iff.mpr hr)

theorem Beside.stands (h : Beside T t u tops) : t.PrefixOf u := by
  induction h with
  | refl => exact .refl t
  | add _ tag text position _ ih => exact ih.add tag text position
  | attach h hp ih =>
    exact ih.attach (h.top (List.mem_cons_of_mem _ hp)).1 (h.top List.mem_cons_self).1
  | perm _ _ ih => exact ih

theorem Beside.tag (h : Beside T t u tops) (hn : t.size ≤ n) (hlt : n < u.size) : T (u.tag n) := by
  induction h with
  | refl => exact absurd hlt (Nat.not_lt.mpr hn)
  | add _ _ _ _ htag ih =>
    rw [tag_add]
    split
    · exact htag
    · next hne =>
      rw [size_add] at hlt
      exact ih (by omega)
  | attach _ _ ih =>
    rw [size_attach] at hlt
    rw [tag_attach]
    exact ih hlt
  | perm _ _ ih => exact ih hlt

theorem literalTag_inExpression (token : Token) : (literalTag token).inExpression = true := by
  unfold literalTag
  split <;> rfl

abbrev Pieces : Tree → Tree → List NodeId → Prop := Beside (·.inExpression = true)

mutual

theorem graft_beside (t : Tree) (e : Expr) : Pieces t (t.graft e).1 [(t.graft e).2] := by
  match e with
  | .literal token =>
    rw [graft]
    exact Beside.refl.add _ _ _ (literalTag_inExpression token)
  | .get name =>
    rw [graft]
    exact Beside.refl.add _ _ _ rfl
  | .call name bracket arguments =>
    rw [graft]
    have hcall : Pieces t _ _ := Beside.refl.add .call name.text name.position rfl
    have hlist := hcall.add .arguments "arg" bracket.position rfl
    rw [size_add] at hlist
    exact (graftAll_beside hlist List.mem_cons_self arguments).attach List.mem_cons_self
  | .operator symbol left right =>
    rw [graft]
    have hoperands := (graft_beside t left).trans (graft_beside (t.graft left).1 right)
    have hop := hoperands.add .operator symbol.text symbol.position rfl
    -- the left operand is attached first
    have hleft := (hop.perm (List.perm_append_singleton _ [_, _])).attach List.mem_cons_self
    exact (hleft.perm (.swap ..)).attach List.mem_cons_self

theorem graftAll_beside {t u : Tree} {tops : List NodeId} {list : NodeId} (h : Pieces t u tops)
    (hlist : list ∈ tops) (es : List Expr) : Pieces t (u.graftAll list es) tops := by
  match es with
  | [] =>
    rw [graftAll]
    exact h
  | e :: rest =>
    rw [graftAll]
    exact graftAll_beside ((h.trans (graft_beside u e)).attach hlist) hlist rest

end

theorem strew_beside (t : Tree) (frames : List Frame) : ∃ tops, Pieces t (t.strew frames).1 tops ∧
    ∀ list, (t.strew frames).2 = some list → list ∈ tops := by
  induction frames with
  | nil => exact ⟨[], .refl, fun _ hl => by cases hl⟩
  | cons frame below ih =>
    obtain ⟨tops, h, _⟩ := ih
    cases frame with
    | operand left symbol => exact ⟨_, h.trans (graft_beside _ left), fun _ hl => by cases hl⟩
    | argument name bracket before =>
      have hcall := h.add .call name.text name.position rfl
      have hlist := hcall.add .arguments "arg" bracket.position rfl
      rw [size_add] at hlist
      refine ⟨_, graftAll_beside hlist List.mem_cons_self before.reverse, ?_⟩
      intro list hl
      cases hl
      exact List.mem_cons_self

theorem litter_beside (t : Tree) (stuck : Stuck) : ∃ tops, Pieces t (t.litter stuck) tops := by
  rw [litter]
  split
  · obtain ⟨tops, h, _⟩ := strew_beside t stuck.frames
    exact ⟨tops, h⟩
  · next operand _ =>
    obtain ⟨tops, h, hlist⟩ := strew_beside t (Expr.fold Operator.loosest stuck.frames operand).1
    have he := h.trans (graft_beside _ (Expr.fold Operator.loosest stuck.frames operand).2)
    dsimp only
    split
    · next list hl => exact ⟨tops, he.attach (hlist list hl)⟩
    · exact ⟨_, he⟩

structure Grafted (t : Tree) (r : Tree × Nat) : Prop where
  stands : t.PrefixOf r.1
  new : t.size ≤ r.2
  lt : r.2 < r.1.size

theorem graft_grafted (t : Tree) (e : Expr) : t.Grafted (t.graft e) :=
  have h := graft_beside t e
  ⟨h.stands, (h.top List.mem_cons_self).1, (h.top List.mem_cons_self).2⟩

theorem graftAll_stands {t u : Tree} (list : Nat) (es : List Expr) (h : t.PrefixOf u)
    (hlist : t.size ≤ list) : t.PrefixOf (u.graftAll list es) := by
  induction es generalizing u with
  | nil =>
    rw [graftAll]
    exact h
  | cons e rest ih =>
    rw [graftAll]
    have he := graft_grafted u e
    exact ih ((h.trans he.stands).attach hlist (h.size_le.trans he.new))

theorem graft_get_size (t : Tree) (name : Token) : (t.graft (.get name)).2 = t.size := by
  rw [graft]

theorem graft_get_retag (t : Tree) (name : Token) (tag : Tag) :
    (t.graft (.get name)).1.retag t.size tag = t.add tag name.text name.position := by
  rw [graft]
  exact retag_add

theorem graft_call_tag (t : Tree) (name bracket : Token) (arguments : List Expr) :
    (t.graft (.call name bracket arguments)).1.tag
      (t.graft (.call name bracket arguments)).2 = .call := by
  rw [graft, tag_attach]
  have hadd := (PrefixOf.refl (t.add .call name.text name.position)).add .arguments "arg"
    bracket.position
  exact (graftAll_stands (t.size + 1) arguments hadd (by rw [size_add])).tag_new

theorem strew_stands (t : Tree) (frames : List Frame) : t.PrefixOf (t.strew frames).1 := by
  obtain ⟨_, h, _⟩ := strew_beside t frames
  exact h.stands

theorem litter_stands (t : Tree) (stuck : Stuck) : t.PrefixOf (t.litter stuck) := by
  obtain ⟨_, h⟩ := litter_beside t stuck
  exact h.stands

theorem GrowsTo.graft (h : t.GrowsTo u) (e : Expr) : t.GrowsTo (u.graft e).1 :=
  h.prefix_right (graft_grafted u e).stands

theorem GrowsTo.litter (h : t.GrowsTo u) (stuck : Stuck) : t.GrowsTo (u.litter stuck) :=
  h.prefix_right (litter_stands u stuck)

end Tree

end Arbor
