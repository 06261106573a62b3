import Arbor.Proofs.Memory.Lookup

/-!
# Memories that differ in some names

Two memories may differ in what the names in `Z` are bound to, slot by slot. A lookup depends on names
and anchors only, so it finds the same slot in both; and what is stored or removed under another name
is stored or removed alike and leaves the slots of `Z` as they are.
-/
namespace Arbor.Memory

variable {Z : String → Prop} {m m' : Memory} {t : Tree} {name : String} {access : NodeId}
  {value value' : Value} {params : Option NodeId} {i : Nat} {b : Binding}

/-- The same slots, up to what the names in `Z` are bound to. -/
structure AgreesBut (Z : String → Prop) (m m' : Memory) : Prop where
  size : m'.size = m.size
  slot : ∀ i, m'.get? i = m.get? i ∨ ∃ b value params, m.get? i = some b ∧ Z b.name ∧
    m'.get? i = some { b with value, params }

def Untouched (Z : String → Prop) (m m' : Memory) : Prop :=
  ∀ i b, Z b.name → (m'.get? i = some b ↔ m.get? i = some b)

theorem AgreesBut.refl (m : Memory) : m.AgreesBut Z m :=
  ⟨rfl, fun _ => Or.inl rfl⟩

theorem Untouched.refl (m : Memory) : m.Untouched Z m :=
  fun _ _ _ => Iff.rfl

namespace AgreesBut

theorem sees (h : m.AgreesBut Z m') : m'.sees t name access i = m.sees t name access i := by
  unfold Memory.sees
  rcases h.slot i with hsame | ⟨b, value, params, hb, -, hb'⟩
  · rw [hsame]
  · rw [hb, hb']

theorem lookup (h : m.AgreesBut Z m') : m'.lookup t name access = m.lookup t name access :=
  lookup_congr fun _ => h.sees

theorem resolve (h : m.AgreesBut Z m') (hname : ¬Z name) :
    m'.resolve t name access = m.resolve t name access := by
  cases hl : m.lookup t name access with
  | none => rw [resolve_eq_none hl, resolve_eq_none (h.lookup.trans hl)]
  | some k =>
    rw [resolve_eq_some hl, resolve_eq_some (h.lookup.trans hl)]
    rcases h.slot k with hsame | ⟨b, _, _, hb, hZ, -⟩
    · exact hsame
    · obtain ⟨c, hc, rfl, -⟩ := sees_iff.mp (lookup_eq_some.mp hl).1
      cases hb.symm.trans hc
      exact absurd hZ hname

theorem target (h : m.AgreesBut Z m') : m'.target t name access = m.target t name access := by
  unfold Memory.target
  rw [h.lookup, h.size]

theorem store (h : m.AgreesBut Z m') (hname : ¬Z name) :
    (m.store t name value params access).AgreesBut Z (m'.store t name value params access) := by
  refine ⟨?_, fun i => ?_⟩
  · rw [size_store, size_store, h.lookup, h.size]
  · have hanchor : m'.anchorOf t name access = m.anchorOf t name access := by
      unfold anchorOf
      rw [h.resolve hname]
    rw [get?_store, get?_store, h.target, hanchor]
    by_cases hi : i = m.target t name access
    · simp [hi]
    · simpa [hi] using h.slot i

theorem remove (h : m.AgreesBut Z m') :
    (m.remove t name access).AgreesBut Z (m'.remove t name access) := by
  refine ⟨?_, fun i => ?_⟩
  · rw [size_remove, size_remove, h.size]
  · rw [get?_remove_eq, get?_remove_eq, h.lookup]
    by_cases hi : m.lookup t name access = some i
    · simp [hi]
    · simpa [hi] using h.slot i

theorem seed (h : m.AgreesBut Z m') (hvalue : value' = value ∨ Z name) :
    (m.seed name value).AgreesBut Z (m'.seed name value') := by
  refine ⟨?_, fun i => ?_⟩
  · have hsize := h.size
    simp only [Memory.size] at hsize
    simp [Memory.seed, Memory.size, hsize]
  · rw [Memory.seed, Memory.seed, get?_push, get?_push, h.size]
    by_cases hi : i = m.size
    · rcases hvalue with rfl | hZ
      · simp [hi]
      · right
        exact ⟨⟨name, value, none, none⟩, value', none, by simp [hi], hZ, by simp [hi]⟩
    · simpa [hi] using h.slot i

end AgreesBut

namespace Untouched

variable {m₀ : Memory}

theorem store (h : m₀.Untouched Z m) (hname : ¬Z name) :
    m₀.Untouched Z (m.store t name value params access) := by
  intro i b hZ
  rw [get?_store, ← h i b hZ]
  by_cases hi : i = m.target t name access
  · have hne : ∀ c : Binding, c.name = name → c ≠ b := by
      rintro c hc rfl
      exact hname (hc ▸ hZ)
    rw [if_pos hi, hi]
    constructor
    · intro hb
      exact absurd (Option.some.inj hb) (hne _ rfl)
    · intro hb
      rcases m.target_cases t name access with ⟨-, htarget, -⟩ | ⟨c, -, hc, hcname, -, -⟩
      · rw [htarget, get?_of_size_le (Nat.le_refl _)] at hb
        cases hb
      · exact absurd (Option.some.inj (hc.symm.trans hb)) (hne c hcname)
  · rw [if_neg hi]

theorem remove (h : m₀.Untouched Z m) (hname : ¬Z name) :
    m₀.Untouched Z (m.remove t name access) := by
  intro i b hZ
  rw [get?_remove_eq, ← h i b hZ]
  by_cases hi : m.lookup t name access = some i
  · obtain ⟨c, hc, rfl, -⟩ := sees_iff.mp (lookup_eq_some.mp hi).1
    rw [if_pos hi]
    constructor
    · intro hb
      cases hb
    · intro hb
      cases hc.symm.trans hb
      exact absurd hZ hname
  · rw [if_neg hi]

end Untouched

end Arbor.Memory
