import Arbor.Memory
import Mathlib.Tactic.ByContra

/-!
# Looking names up

What a lookup finds, and what storing and removing do to the slots, slot by slot.
-/
namespace Arbor.Memory

variable {m m' : Memory} {t u : Tree} {name : String} {access : NodeId} {i j k : Nat} {b : Binding}

theorem get?_of_size_le (h : m.size ≤ i) : m.get? i = none := by
  simp [get?, Array.getElem?_eq_none (show m.slots.size ≤ i from h)]

theorem lt_of_get? (h : m.get? i = some b) : i < m.size := by
  by_contra hle
  rw [get?_of_size_le (Nat.le_of_not_lt hle)] at h
  cases h

theorem sees_iff : m.sees t name access i = true ↔
    ∃ b, m.get? i = some b ∧ b.name = name ∧ t.encloses b.anchor access = true := by
  simp only [sees]
  cases m.get? i with
  | none => simp
  | some b => simp

theorem sees_of_size_le (h : m.size ≤ i) : m.sees t name access i = false := by
  rw [sees, get?_of_size_le h]

theorem lookupBelow_eq_some : m.lookupBelow t name access k = some i ↔
    i < k ∧ m.sees t name access i = true ∧ ∀ j, i < j → j < k → m.sees t name access j = false := by
  induction k with
  | zero => simp [lookupBelow]
  | succ k ih =>
    rw [lookupBelow]
    by_cases hk : m.sees t name access k = true
    · rw [if_pos hk, Option.some.injEq]
      constructor
      · rintro rfl
        exact ⟨Nat.lt_succ_self _, hk, fun j hj hjk => by omega⟩
      · rintro ⟨hik, _, hnewest⟩
        by_contra hne
        have hki := hnewest k (by omega) (Nat.lt_succ_self k)
        rw [hk] at hki
        cases hki
    · rw [if_neg hk, ih]
      constructor
      · rintro ⟨hik, hi, hnewest⟩
        refine ⟨by omega, hi, fun j hij hjk => ?_⟩
        by_cases hj : j = k
        · rw [hj]
          exact Bool.eq_false_iff.mpr hk
        · exact hnewest j hij (by omega)
      · rintro ⟨hik, hi, hnewest⟩
        have hne : i ≠ k := fun heq => hk (heq ▸ hi)
        exact ⟨by omega, hi, fun j hij hjk => hnewest j hij (by omega)⟩

theorem lookup_eq_some : m.lookup t name access = some i ↔
    m.sees t name access i = true ∧ ∀ j, i < j → m.sees t name access j = false := by
  rw [lookup, lookupBelow_eq_some]
  constructor
  · rintro ⟨_, hi, hnewest⟩
    refine ⟨hi, fun j hij => ?_⟩
    by_cases hj : j < m.size
    · exact hnewest j hij hj
    · exact sees_of_size_le (Nat.le_of_not_lt hj)
  · rintro ⟨hi, hnewest⟩
    obtain ⟨b, hb, _⟩ := sees_iff.mp hi
    exact ⟨lt_of_get? hb, hi, fun j hij _ => hnewest j hij⟩

theorem lookupBelow_eq_none : m.lookupBelow t name access k = none ↔
    ∀ j, j < k → m.sees t name access j = false := by
  induction k with
  | zero => simp [lookupBelow]
  | succ k ih =>
    rw [lookupBelow]
    by_cases hk : m.sees t name access k = true
    · rw [if_pos hk]
      constructor
      · intro h
        cases h
      · intro h
        rw [h k (Nat.lt_succ_self k)] at hk
        cases hk
    · rw [if_neg hk, ih]
      constructor
      · intro h j hj
        by_cases hjk : j = k
        · rw [hjk]
          exact Bool.eq_false_iff.mpr hk
        · exact h j (by omega)
      · intro h j hj
        exact h j (by omega)

theorem lookup_eq_none : m.lookup t name access = none ↔
    ∀ j, m.sees t name access j = false := by
  rw [lookup, lookupBelow_eq_none]
  constructor
  · intro h j
    by_cases hj : j < m.size
    · exact h j hj
    · exact sees_of_size_le (Nat.le_of_not_lt hj)
  · intro h j _
    exact h j

theorem lookup_congr {access' : NodeId}
    (h : ∀ j, m'.sees u name access' j = m.sees t name access j) :
    m'.lookup u name access' = m.lookup t name access := by
  cases hl : m.lookup t name access with
  | none =>
    refine lookup_eq_none.mpr fun j => ?_
    rw [h j]
    exact lookup_eq_none.mp hl j
  | some i =>
    obtain ⟨hi, hnewest⟩ := lookup_eq_some.mp hl
    refine lookup_eq_some.mpr ⟨by rw [h i]; exact hi, fun j hij => ?_⟩
    rw [h j]
    exact hnewest j hij

theorem resolve_eq_some (h : m.lookup t name access = some i) :
    m.resolve t name access = m.get? i := by
  rw [resolve, h, Option.bind_some]

theorem resolve_eq_none (h : m.lookup t name access = none) : m.resolve t name access = none := by
  rw [resolve, h, Option.bind_none]

theorem of_resolve (h : m.resolve t name access = some b) :
    ∃ i, m.lookup t name access = some i ∧ m.get? i = some b ∧ b.name = name ∧
      t.encloses b.anchor access = true := by
  obtain ⟨i, hi, hb⟩ := Option.bind_eq_some_iff.mp h
  obtain ⟨c, hc, hname, hsees⟩ := sees_iff.mp (lookup_eq_some.mp hi).1
  have : c = b := Option.some.inj (hc.symm.trans hb)
  exact ⟨i, hi, hb, this ▸ hname, this ▸ hsees⟩

theorem get?_push (o : Option Binding) :
    (⟨m.slots.push o⟩ : Memory).get? i = if i = m.size then o else m.get? i := by
  by_cases hi : i = m.size
  · simp [get?, hi, size]
  · have hne : ¬i = m.slots.size := hi
    simp only [get?, Array.getD_eq_getD_getElem?, Array.getElem?_push]
    rw [if_neg hne, if_neg hi]

theorem get?_modify (f : Option Binding → Option Binding) (hj : j < m.size) :
    (⟨m.slots.modify j f⟩ : Memory).get? i = if i = j then f (m.get? j) else m.get? i := by
  have hj' : j < m.slots.size := hj
  simp only [get?, Array.getD_eq_getD_getElem?, Array.getElem?_modify]
  by_cases hi : i = j
  · subst hi
    simp [hj']
  · have hne : ¬j = i := fun h => hi h.symm
    rw [if_neg hne, if_neg hi]

theorem get?_seed {value : Value} (hb : (m.seed name value).get? i = some b) :
    b.name = name ∨ m.get? i = some b := by
  rw [seed, get?_push] at hb
  split at hb
  · cases hb
    exact Or.inl rfl
  · exact Or.inr hb

/-- The anchor of the binding that a store at `access` writes. -/
def anchorOf (m : Memory) (t : Tree) (name : String) (access : NodeId) : Option NodeId :=
  match m.resolve t name access with
  | some b => b.anchor
  | none => some access

/-- A store writes a new slot, anchored where it stands, or the slot that is visible there. -/
theorem target_cases (m : Memory) (t : Tree) (name : String) (access : NodeId) :
    (m.lookup t name access = none ∧ m.target t name access = m.size ∧
      m.anchorOf t name access = some access) ∨
    ∃ b, m.lookup t name access = some (m.target t name access) ∧
      m.get? (m.target t name access) = some b ∧ b.name = name ∧
      b.anchor = m.anchorOf t name access ∧ t.encloses b.anchor access = true := by
  cases hl : m.lookup t name access with
  | none =>
    refine Or.inl ⟨rfl, by rw [target, hl, Option.getD_none], ?_⟩
    rw [anchorOf, resolve_eq_none hl]
  | some k =>
    obtain ⟨b, hb, hname, hsees⟩ := sees_iff.mp (lookup_eq_some.mp hl).1
    have htarget : m.target t name access = k := by rw [target, hl, Option.getD_some]
    refine Or.inr ⟨b, by rw [htarget], by rw [htarget]; exact hb, hname, ?_, hsees⟩
    rw [anchorOf, resolve_eq_some hl, hb]

theorem get?_store (value : Value) (params : Option NodeId) :
    (m.store t name value params access).get? i =
      if i = m.target t name access then
        some ⟨name, value, params, m.anchorOf t name access⟩
      else m.get? i := by
  rcases m.target_cases t name access with ⟨hl, htarget, hanchor⟩ | ⟨b, hl, hb, hname, hanchor, _⟩
  · simp only [store, hl, htarget, hanchor]
    exact get?_push _
  · simp only [store, hl]
    rw [get?_modify _ (lt_of_get? hb), hb, ← hanchor, ← hname]
    rfl

theorem get?_remove_eq : (m.remove t name access).get? i =
    if m.lookup t name access = some i then none else m.get? i := by
  unfold remove
  cases hl : m.lookup t name access with
  | none => simp
  | some k =>
    obtain ⟨c, hc, -⟩ := sees_iff.mp (lookup_eq_some.mp hl).1
    dsimp only
    rw [get?_modify _ (lt_of_get? hc)]
    by_cases hik : i = k
    · simp [hik]
    · have hki : ¬k = i := fun h => hik h.symm
      simp [hik, hki]

theorem get?_remove (h : (m.remove t name access).get? i = some b) : m.get? i = some b := by
  rw [get?_remove_eq] at h
  by_cases hi : m.lookup t name access = some i
  · rw [if_pos hi] at h
    cases h
  · rwa [if_neg hi] at h

theorem size_store {value : Value} {params : Option NodeId} :
    (m.store t name value params access).size =
      if m.lookup t name access = none then m.size + 1 else m.size := by
  unfold store
  cases m.lookup t name access <;> simp [size]

theorem size_remove : (m.remove t name access).size = m.size := by
  unfold remove
  cases m.lookup t name access <;> simp [size]

inductive Write where
  | store (name : String) (value : Value) (params : Option NodeId) (access : NodeId)
  | remove (name : String) (access : NodeId)
  deriving DecidableEq, Repr

def write (t : Tree) (m : Memory) : Write → Memory
  | .store name value params access => m.store t name value params access
  | .remove name access => m.remove t name access

def writes (t : Tree) (m : Memory) (ws : List Write) : Memory := ws.foldl (write t) m

end Arbor.Memory
