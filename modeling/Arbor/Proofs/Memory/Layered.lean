import Arbor.Proofs.Memory.Lookup
import Arbor.Proofs.Tree.Planting

/-!
# Layers of bindings

Of two bindings of a name the newer one never stands inside the older one. So the newest visible
binding is the outermost visible one, and what is stored is what is found wherever its anchor
encloses the place of the lookup.
-/
namespace Arbor

/-- Whether what `inner` encloses is enclosed by `outer` as well. -/
def Tree.covers (t : Tree) (outer : Option NodeId) : Option NodeId → Bool
  | none => outer.isNone
  | some anchor => t.encloses outer anchor

namespace Tree

variable {t u : Tree} {loose : List NodeId} {a b c : Option NodeId} {n : Nat}

theorem encloses_self (hpos : 0 < t.size) (n : NodeId) : t.encloses (some n) n = true := by
  obtain ⟨k, hk⟩ := Nat.exists_eq_add_of_lt hpos
  rw [Nat.zero_add] at hk
  rw [encloses, hk, climbs, if_pos rfl]

structure Nests (t : Tree) : Prop where
  encloses_iff : ∀ {a n : Nat}, t.encloses (some a) n = true ↔ t.Under a n
  antisymm : ∀ {a b : Nat}, t.Under a b → t.Under b a → a = b

theorem Ends.nests (h : t.Ends) (hpos : 0 < t.size) : t.Nests :=
  ⟨h.climbs_iff hpos, h.antisymm⟩

theorem Grove.nests (h : t.Grove loose) : t.Nests :=
  h.ends.nests h.size_pos

theorem Nests.encloses_self (h : t.Nests) (n : NodeId) : t.encloses (some n) n = true :=
  h.encloses_iff.mpr .refl

theorem Nests.covers_self (h : t.Nests) (a : Option NodeId) : t.covers a a = true := by
  cases a with
  | none => rfl
  | some a => exact h.encloses_self a

theorem Nests.encloses_of_covers (h : t.Nests) (hab : t.covers a b = true)
    (hb : t.encloses b n = true) : t.encloses a n = true := by
  cases a with
  | none => rfl
  | some a =>
    cases b with
    | none => cases hab
    | some b => exact h.encloses_iff.mpr ((h.encloses_iff.mp hab).trans (h.encloses_iff.mp hb))

theorem Nests.covers_total (h : t.Nests) (ha : t.encloses a n = true)
    (hb : t.encloses b n = true) : t.covers a b = true ∨ t.covers b a = true := by
  cases a with
  | none => cases b <;> exact Or.inl rfl
  | some a =>
    cases b with
    | none => exact Or.inr rfl
    | some b =>
      rcases (h.encloses_iff.mp ha).comparable (h.encloses_iff.mp hb) with k | k
      · exact Or.inl (h.encloses_iff.mpr k)
      · exact Or.inr (h.encloses_iff.mpr k)

theorem Nests.covers_antisymm (h : t.Nests) (hab : t.covers a b = true)
    (hba : t.covers b a = true) : a = b := by
  cases a with
  | none =>
    cases b with
    | none => rfl
    | some b => cases hba
  | some a =>
    cases b with
    | none => cases hab
    | some b => exact congrArg some (h.antisymm (h.encloses_iff.mp hab) (h.encloses_iff.mp hba))

theorem GrowsTo.covers_eq {loose' : List NodeId} (h : t.GrowsTo u) (ht : t.Grove loose)
    (hu : u.Grove loose') (hb : ∀ n : Nat, b = some n → n < t.size) :
    u.covers a b = t.covers a b := by
  cases b with
  | none => rfl
  | some b =>
    cases a with
    | none => rfl
    | some a =>
      apply Bool.eq_iff_iff.mpr
      exact hu.encloses_iff.trans ((h.under_iff ht (hb b rfl)).trans ht.encloses_iff.symm)

end Tree

namespace Memory

/-- No older binding covers a newer one of the same name. -/
def Layered (t : Tree) (m : Memory) : Prop :=
  ∀ i j older newer, i < j → m.get? i = some older → m.get? j = some newer →
    older.name = newer.name → t.covers older.anchor newer.anchor = false

variable {m : Memory} {t u : Tree} {loose : List NodeId} {name : String} {access i j : Nat}
  {b c : Binding}

theorem Layered.sub {m' : Memory} (h : m.Layered t)
    (hsub : ∀ i b, m'.get? i = some b → m.get? i = some b) : m'.Layered t :=
  fun i j older newer hij hi hj => h i j older newer hij (hsub i older hi) (hsub j newer hj)

theorem Layered.remove (h : m.Layered t) (name : String) (access : NodeId) :
    (m.remove t name access).Layered t :=
  h.sub fun _ _ hi => get?_remove hi

theorem Layered.seed (h : m.Layered t) (value : Value)
    (hfree : ∀ i b, m.get? i = some b → b.name ≠ name) : (m.seed name value).Layered t := by
  intro i j older newer hij hi hj hname
  rw [Memory.seed, get?_push] at hi hj
  by_cases hjm : j = m.size
  · rw [if_pos hjm] at hj
    rw [if_neg (by omega)] at hi
    cases hj
    exact absurd hname (hfree i older hi)
  · rw [if_neg hjm] at hj
    by_cases him : i = m.size
    · have := lt_of_get? hj
      omega
    · rw [if_neg him] at hi
      exact h i j older newer hij hi hj hname

theorem anchorOf_encloses (hself : t.encloses (some access) access = true) :
    t.encloses (m.anchorOf t name access) access = true := by
  rcases m.target_cases t name access with ⟨_, _, hanchor⟩ | ⟨b, _, _, _, hanchor, hsees⟩
  · rw [hanchor]
    exact hself
  · rw [← hanchor]
    exact hsees

/-- A slot that is made by a store is newer than all others, and none of the name is visible
there. -/
theorem Layered.store (h : m.Layered t) (value : Value) (params : Option NodeId) :
    (m.store t name value params access).Layered t := by
  intro i j older newer hij hi hj hname
  rw [get?_store] at hi hj
  by_cases hit : i = m.target t name access
  · rw [if_pos hit] at hi
    rw [if_neg (by omega)] at hj
    cases hi
    rcases m.target_cases t name access with ⟨_, htarget, _⟩ | ⟨b, _, hb, hbname, hanchor, _⟩
    · have := lt_of_get? hj
      omega
    · rw [← hanchor]
      exact h i j b newer hij (hit ▸ hb) hj (hbname.trans hname)
  · rw [if_neg hit] at hi
    by_cases hjt : j = m.target t name access
    · rw [if_pos hjt] at hj
      cases hj
      rcases m.target_cases t name access with ⟨hl, _, hanchor⟩ | ⟨b, _, hb, hbname, hanchor, _⟩
      · rw [hanchor]
        by_contra hcovers
        have hsees : m.sees t name access i = true :=
          sees_iff.mpr ⟨older, hi, hname, Bool.not_eq_false _ ▸ hcovers⟩
        rw [lookup_eq_none.mp hl i] at hsees
        cases hsees
      · rw [← hanchor]
        exact h i j older b hij hi (hjt ▸ hb) (hname.trans hbname.symm)
    · rw [if_neg hjt] at hj
      exact h i j older newer hij hi hj hname

theorem Layered.unique (h : m.Layered t) (hg : t.Nests) (hi : m.get? i = some b)
    (hj : m.get? j = some c) (hname : b.name = c.name) (hanchor : b.anchor = c.anchor) : i = j := by
  rcases Nat.lt_trichotomy i j with hlt | heq | hlt
  · have hcovers := h i j b c hlt hi hj hname
    rw [hanchor, hg.covers_self] at hcovers
    cases hcovers
  · exact heq
  · have hcovers := h j i c b hlt hj hi hname.symm
    rw [hanchor, hg.covers_self] at hcovers
    cases hcovers

def Visible (m : Memory) (t : Tree) (name : String) (access : NodeId) (b : Binding) : Prop :=
  ∃ i, m.get? i = some b ∧ b.name = name ∧ t.encloses b.anchor access = true

theorem visible_of_resolve (h : m.resolve t name access = some b) :
    m.Visible t name access b := by
  obtain ⟨i, _, hi, hname, hsees⟩ := of_resolve h
  exact ⟨i, hi, hname, hsees⟩

theorem exists_resolve (h : m.Visible t name access c) :
    ∃ b, m.resolve t name access = some b := by
  obtain ⟨i, hi, hname, hc⟩ := h
  cases hl : m.lookup t name access with
  | none =>
    have hsees := lookup_eq_none.mp hl i
    rw [sees_iff.mpr ⟨c, hi, hname, hc⟩] at hsees
    cases hsees
  | some k =>
    obtain ⟨b, hb, _⟩ := sees_iff.mp (lookup_eq_some.mp hl).1
    exact ⟨b, (resolve_eq_some hl).trans hb⟩

theorem Layered.resolve_covers (h : m.Layered t) (hg : t.Nests)
    (hr : m.resolve t name access = some b) (hc : m.Visible t name access c) :
    t.covers b.anchor c.anchor = true := by
  obtain ⟨k, hl, hb, hname, hsees⟩ := of_resolve hr
  obtain ⟨i, hi, hcname, hcsees⟩ := hc
  rcases Nat.lt_trichotomy i k with hlt | heq | hlt
  · have hnot := h i k c b hlt hi hb (hcname.trans hname.symm)
    rcases hg.covers_total hsees hcsees with hcovers | hcovers
    · exact hcovers
    · rw [hnot] at hcovers
      cases hcovers
  · rw [heq, hb] at hi
    cases hi
    exact hg.covers_self _
  · have hnewer := (lookup_eq_some.mp hl).2 i hlt
    rw [sees_iff.mpr ⟨c, hi, hcname, hcsees⟩] at hnewer
    cases hnewer

/-- A lookup resolves to the visible binding with the outermost anchor. -/
theorem Layered.resolve_iff (h : m.Layered t) (hg : t.Nests) :
    m.resolve t name access = some b ↔ m.Visible t name access b ∧
      ∀ c, m.Visible t name access c → t.covers b.anchor c.anchor = true := by
  constructor
  · intro hr
    exact ⟨visible_of_resolve hr, fun c hc => h.resolve_covers hg hr hc⟩
  · rintro ⟨hb, houter⟩
    obtain ⟨r, hr⟩ := exists_resolve hb
    have hrb := h.resolve_covers hg hr hb
    have hbr := houter r (visible_of_resolve hr)
    obtain ⟨i, hi, hname, _⟩ := hb
    obtain ⟨k, _, hk, hrname, _⟩ := of_resolve hr
    have hik := h.unique hg hi hk (hname.trans hrname.symm) (hg.covers_antisymm hbr hrb)
    rw [hr, ← hk, ← hik, hi]

theorem sees_store {n : String} {q : NodeId} (value : Value) (params : Option NodeId) :
    (m.store t name value params access).sees t n q i =
      if i = m.target t name access then
        name == n && t.encloses (m.anchorOf t name access) q
      else m.sees t n q i := by
  rw [sees, get?_store]
  by_cases hi : i = m.target t name access
  · rw [if_pos hi, if_pos hi]
  · rw [if_neg hi, if_neg hi, sees]

theorem Layered.sees_newer (h : m.Layered t) (hg : t.Nests) {q : NodeId}
    (hq : t.encloses (m.anchorOf t name access) q = true) (hj : m.target t name access < j) :
    m.sees t name q j = false := by
  by_contra hsees
  obtain ⟨c, hc, hname, hcq⟩ := sees_iff.mp (Bool.not_eq_false _ ▸ hsees)
  -- a newer slot of the name would stand further out, so that the store had seen it
  rcases m.target_cases t name access with ⟨_, htarget, _⟩ | ⟨b, hl, hb, hbname, hanchor, hbsees⟩
  · have := lt_of_get? hc
    omega
  · rw [← hanchor] at hq
    have hnot := h _ j b c hj hb hc (hbname.trans hname.symm)
    rcases hg.covers_total hq hcq with hcovers | hcovers
    · rw [hnot] at hcovers
      cases hcovers
    · have hseen : m.sees t name access j = true :=
        sees_iff.mpr ⟨c, hc, hname, hg.encloses_of_covers hcovers hbsees⟩
      rw [(lookup_eq_some.mp hl).2 j hj] at hseen
      cases hseen

theorem sees_target {n : String} {q : NodeId}
    (hq : ¬(n = name ∧ t.encloses (m.anchorOf t name access) q = true)) :
    m.sees t n q (m.target t name access) = false := by
  by_contra hsees
  obtain ⟨b, hb, hname, hbq⟩ := sees_iff.mp (Bool.not_eq_false _ ▸ hsees)
  rcases m.target_cases t name access with ⟨_, htarget, _⟩ | ⟨c, _, hc, hcname, hanchor, _⟩
  · have := lt_of_get? hb
    omega
  · have hbc : b = c := Option.some.inj (hb.symm.trans hc)
    subst hbc
    exact hq ⟨hname.symm.trans hcname, hanchor ▸ hbq⟩

theorem lookup_store {q : NodeId} (value : Value) (params : Option NodeId)
    (hq : t.encloses (m.anchorOf t name access) q = true)
    (hnewer : ∀ j, m.target t name access < j → m.sees t name q j = false) :
    (m.store t name value params access).lookup t name q = some (m.target t name access) := by
  refine lookup_eq_some.mpr ⟨?_, ?_⟩
  · rw [sees_store, if_pos rfl]
    simp [hq]
  · intro j hj
    rw [sees_store, if_neg (by omega)]
    exact hnewer j hj

/-- At the place of a store the name is what was stored, whatever else is bound. -/
theorem resolve_store_self (hself : t.encloses (some access) access = true) (value : Value)
    (params : Option NodeId) : (m.store t name value params access).resolve t name access =
      some ⟨name, value, params, m.anchorOf t name access⟩ := by
  -- what is newer than the written slot was not seen by the store
  have hnewer : ∀ j, m.target t name access < j → m.sees t name access j = false := by
    intro j hj
    rcases m.target_cases t name access with ⟨hl, _, _⟩ | ⟨_, hl, _⟩
    · exact lookup_eq_none.mp hl j
    · exact (lookup_eq_some.mp hl).2 j hj
  rw [resolve_eq_some (lookup_store value params (anchorOf_encloses hself) hnewer), get?_store,
    if_pos rfl]

theorem sees_store_elsewhere {n : String} {q : NodeId} (value : Value) (params : Option NodeId)
    (hq : ¬(n = name ∧ t.encloses (m.anchorOf t name access) q = true)) (j : Nat) :
    (m.store t name value params access).sees t n q j = m.sees t n q j := by
  rw [sees_store]
  by_cases hj : j = m.target t name access
  · rw [if_pos hj, hj, sees_target hq]
    by_contra hseen
    obtain ⟨hname, hsees⟩ := Bool.and_eq_true_iff.mp (Bool.not_eq_false _ ▸ hseen)
    exact hq ⟨(beq_iff_eq.mp hname).symm, hsees⟩
  · rw [if_neg hj]

theorem resolve_store_elsewhere {n : String} {q : NodeId} (value : Value) (params : Option NodeId)
    (hq : ¬(n = name ∧ t.encloses (m.anchorOf t name access) q = true)) :
    (m.store t name value params access).resolve t n q = m.resolve t n q := by
  have hlookup := lookup_congr (sees_store_elsewhere value params hq)
  cases hl : m.lookup t n q with
  | none => rw [resolve_eq_none hl, resolve_eq_none (hlookup.trans hl)]
  | some k =>
    have hne : k ≠ m.target t name access := by
      intro heq
      have hsees := (lookup_eq_some.mp hl).1
      rw [heq, sees_target hq] at hsees
      cases hsees
    rw [resolve_eq_some hl, resolve_eq_some (hlookup.trans hl), get?_store, if_neg hne]

/-- A store is seen wherever the anchor of what it wrote encloses the lookup, and nowhere else. -/
theorem Layered.resolve_store (h : m.Layered t) (hg : t.Nests) (value : Value)
    (params : Option NodeId) (n : String) (q : NodeId) :
    (m.store t name value params access).resolve t n q =
      if n = name ∧ t.encloses (m.anchorOf t name access) q = true then
        some ⟨name, value, params, m.anchorOf t name access⟩
      else m.resolve t n q := by
  by_cases hq : n = name ∧ t.encloses (m.anchorOf t name access) q = true
  · rw [if_pos hq]
    obtain ⟨rfl, hq⟩ := hq
    have hnewer := fun j => h.sees_newer (j := j) hg hq
    rw [resolve_eq_some (lookup_store value params hq hnewer), get?_store, if_pos rfl]
  · rw [if_neg hq]
    exact resolve_store_elsewhere value params hq

theorem Layered.growsTo {loose' : List NodeId} (h : m.Layered t) (hgrows : t.GrowsTo u)
    (ht : t.Grove loose) (hu : u.Grove loose')
    (hanchor : ∀ i b, m.get? i = some b → ∀ n : Nat, b.anchor = some n → n < t.size) :
    m.Layered u := by
  intro i j older newer hij hi hj hname
  rw [hgrows.covers_eq ht hu (hanchor j newer hj)]
  exact h i j older newer hij hi hj hname

end Memory

end Arbor
