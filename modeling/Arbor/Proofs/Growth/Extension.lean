import Arbor.Proofs.Growth.Placed

/-!
# Growth changes no old node

Every tree that a growth leaves, also one that ends early, has grown out of the tree that it
started from.
-/
namespace Arbor.Tree

namespace Growth

variable {t : Tree} {g g' : Growth} {eof token : Token} {rest rest' : List Token}

theorem grow_ok (h : g.statement eof token rest = .ok (g', rest')) :
    grow eof g (token :: rest) = grow eof g' rest' := by
  rw [Growth.grow]
  split
  · next hs =>
    rw [h] at hs
    cases hs
    rfl
  · next hs =>
    rw [h] at hs
    cases hs

theorem grow_error {stunted : Stunted} (h : g.statement eof token rest = .error stunted) :
    grow eof g (token :: rest) = .error stunted := by
  rw [Growth.grow]
  split
  · next hs =>
    rw [h] at hs
    cases hs
  · next hs =>
    rw [h] at hs
    cases hs
    rfl

abbrev StepGrows (t : Tree) : Step → Prop := Leaves t.GrowsTo (Growth.tree ·.1)

theorem Placed.growsTo {litter : List NodeId} (h : g.Placed token litter g')
    (ht : t.GrowsTo g.tree) : t.GrowsTo g'.tree := by
  cases h with
  | hang _ hu _ =>
    have hc := (hu.top List.mem_cons_self).1
    exact (ht.prefix_right hu.stands).attach (ht.size_le.trans hc) _
  | enter => exact (ht.add ..).attach ht.size_le _
  | further _ _ _ _ _ hu _ _ =>
    have hc := (hu.top List.mem_cons_self).1
    exact ((ht.prefix_right hu.stands).attach (ht.size_le.trans hc) _).attach ht.size_le _
  | leave => exact ht

theorem statement_growsTo (h : t.GrowsTo g.tree) (token : Token) (rest : List Token) :
    StepGrows t (g.statement eof token rest) := by
  cases hs : g.statement eof token rest with
  | ok r =>
    obtain ⟨litter, hplaced, -⟩ := statement_places hs
    exact hplaced.growsTo h
  | error stunted =>
    obtain ⟨litter, hbeside⟩ := statement_refuses hs
    exact h.prefix_right hbeside.stands

theorem grow_growsTo (h : t.GrowsTo g.tree) (tokens : List Token) :
    Leaves t.GrowsTo id (grow eof g tokens) := by
  fun_induction grow eof g tokens with
  | case1 => exact h
  | case2 g token rest g' rest' hs ih =>
    have hstep : StepGrows t (g.statement eof token rest) := statement_growsTo h token rest
    rw [hs] at hstep
    exact ih hstep
  | case3 g token rest stunted hs =>
    have hstep : StepGrows t (g.statement eof token rest) := statement_growsTo h token rest
    rw [hs] at hstep
    exact hstep

end Growth

theorem grow_leaves (t : Tree) (tokens : List Token) :
    Growth.Leaves t.GrowsTo id (t.grow tokens) :=
  Growth.grow_growsTo (.refl t) _

end Arbor.Tree
