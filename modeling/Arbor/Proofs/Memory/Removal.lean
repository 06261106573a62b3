import Arbor.Proofs.Memory.Layered
import Arbor.Proofs.Tree.Shape

/-!
# What a removal uncovers

A removal empties the one slot that is found. What stands further in under the same name was hidden
by it and comes to light. Where nothing comes to light, nothing does until the name is stored.
-/
namespace Arbor

/-- Of the nodes around `n` that hold bindings, `q` is the innermost. -/
structure Tree.Holds (t : Tree) (q n : NodeId) : Prop where
  under : t.Under q n
  innermost : ∀ a, (t.tag a).isScope = true → t.Under a n → t.Under a q

theorem Tree.holds_parent {t : Tree} {q n : NodeId} (hq : t.parent n = some q)
    (htag : (t.tag n).isScope = false) : t.Holds q n := by
  refine ⟨.of_parent hq, fun a hscope hunder => ?_⟩
  cases hunder with
  | refl =>
    rw [htag] at hscope
    cases hscope
  | step hp hunder => exact Option.some.inj (hp.symm.trans hq) ▸ hunder

namespace Memory

variable {m : Memory} {t u : Tree} {loose loose' : List NodeId} {name n : String}
  {access q : NodeId} {i j : Nat} {b r : Binding} {w : Write}

theorem sees_remove : (m.remove t name access).sees t n q i =
    if m.lookup t name access = some i then false else m.sees t n q i := by
  rw [sees, get?_remove_eq]
  by_cases hi : m.lookup t name access = some i
  · rw [if_pos hi, if_pos hi]
  · rw [if_neg hi, if_neg hi, sees]

theorem Visible.of_remove (h : (m.remove t name access).Visible t n q b) : m.Visible t n q b := by
  obtain ⟨i, hi, hb⟩ := h
  exact ⟨i, get?_remove hi, hb⟩

theorem lookup_eq_none_of_resolve (h : m.resolve t name access = none) :
    m.lookup t name access = none := by
  by_contra hsome
  obtain ⟨i, hi⟩ := Option.ne_none_iff_exists'.mp hsome
  -- a slot that is found is live
  obtain ⟨b, hb, -⟩ := sees_iff.mp (lookup_eq_some.mp hi).1
  rw [resolve_eq_some hi, hb] at h
  cases h

theorem resolve_remove_eq_none : (m.remove t name access).resolve t name access = none ↔
    ∀ i, m.sees t name access i = true → m.lookup t name access = some i := by
  have hlookup : (m.remove t name access).resolve t name access = none ↔
      (m.remove t name access).lookup t name access = none :=
    ⟨lookup_eq_none_of_resolve, resolve_eq_none⟩
  rw [hlookup, lookup_eq_none]
  constructor
  · intro h i hi
    by_contra hne
    have hstill := h i
    rw [sees_remove, if_neg hne, hi] at hstill
    cases hstill
  · intro h i
    rw [sees_remove]
    split
    · rfl
    · next hne =>
      by_contra hsees
      exact hne (h i (Bool.not_eq_false _ ▸ hsees))

/-- What comes to light stands inside of what was removed, and is the outermost that is left. -/
theorem Layered.resolve_remove (h : m.Layered t) (hg : t.Nests)
    (hb : (m.remove t name access).resolve t name access = some b) :
    ∃ r, m.resolve t name access = some r ∧ t.covers r.anchor b.anchor = true ∧
      b.anchor ≠ r.anchor ∧ ∀ c, (m.remove t name access).Visible t name access c →
        t.covers b.anchor c.anchor = true := by
  have hvisible := (visible_of_resolve hb).of_remove
  obtain ⟨r, hr⟩ := exists_resolve hvisible
  refine ⟨r, hr, h.resolve_covers hg hr hvisible, ?_,
    fun c hc => (h.remove name access).resolve_covers hg hb hc⟩
  intro hanchor
  obtain ⟨i, hi, hri, hrname, -⟩ := of_resolve hr
  obtain ⟨j, -, hbj, hbname, -⟩ := of_resolve hb
  -- both would be the slot that is empty now
  obtain rfl : j = i := h.unique hg (get?_remove hbj) hri (hbname.trans hrname.symm) hanchor
  rw [get?_remove_eq, if_pos hi] at hbj
  cases hbj

theorem lookup_write_none (h : m.lookup t name q = none)
    (hw : ∀ value params access, w ≠ .store name value params access) :
    (m.write t w).lookup t name q = none := by
  cases w with
  | store stored value params access =>
    have hne : ¬(name = stored ∧ t.encloses (m.anchorOf t stored access) q = true) := by
      rintro ⟨rfl, -⟩
      exact hw value params access rfl
    rw [write, lookup_congr (sees_store_elsewhere value params hne), h]
  | remove removed access =>
    refine lookup_eq_none.mpr fun j => ?_
    rw [write, sees_remove, lookup_eq_none.mp h j]
    split <;> rfl

theorem lookup_growsTo (hu : t.GrowsTo u) (ht : t.Grove loose) (hgu : u.Grove loose')
    (hq : q < t.size) : m.lookup u name q = m.lookup t name q := by
  refine lookup_congr fun j => ?_
  unfold sees
  cases m.get? j with
  | none => rfl
  | some b =>
    have hcovers : u.covers b.anchor (some q) = t.covers b.anchor (some q) :=
      hu.covers_eq ht hgu fun n hn => Option.some.inj hn ▸ hq
    have hencloses : u.encloses b.anchor q = t.encloses b.anchor q := hcovers
    dsimp only
    rw [hencloses]

theorem lookup_held (hn : t.Nests) (h : t.Holds q access)
    (hanchor : ∀ i b, m.get? i = some b → ∀ a, b.anchor = some a → (t.tag a).isScope = true) :
    m.lookup t name access = m.lookup t name q := by
  refine lookup_congr fun j => ?_
  unfold sees
  cases hb : m.get? j with
  | none => rfl
  | some b =>
    have hencloses : t.encloses b.anchor access = t.encloses b.anchor q := by
      cases ha : b.anchor with
      | none => rfl
      | some a =>
        apply Bool.eq_iff_iff.mpr
        rw [hn.encloses_iff, hn.encloses_iff]
        exact ⟨h.innermost a (hanchor j b hb a ha), fun hq => hq.trans h.under⟩
    dsimp only
    rw [hencloses]

end Memory

end Arbor
