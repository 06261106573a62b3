import Arbor.Proofs.Memory.Layered
import Mathlib

/-!
# What becomes of a slot

A slot keeps its name and its anchor until a removal of that name inside of the anchor empties it,
and an empty slot stays empty. A store makes a new slot only for a name and a place that have none,
so without removals there are no more new slots than names and places.
-/
namespace Arbor.Memory

/-- The slots of `m` are still there, each empty or with the name and the anchor that it had. -/
structure Persists (m m' : Memory) : Prop where
  size_le : m.size ≤ m'.size
  same : ∀ i < m.size, ∀ b', m'.get? i = some b' →
    ∃ b, m.get? i = some b ∧ b'.name = b.name ∧ b'.anchor = b.anchor

variable {m m' m'' : Memory} {t : Tree} {name : String} {access : NodeId} {value : Value}
  {params : Option NodeId} {b : Binding} {i : Nat} {w : Write} {ws : List Write}

namespace Persists

theorem refl (m : Memory) : m.Persists m :=
  ⟨Nat.le_refl _, fun _ _ b hb => ⟨b, hb, rfl, rfl⟩⟩

theorem trans (h : m.Persists m') (h' : m'.Persists m'') : m.Persists m'' := by
  refine ⟨Nat.le_trans h.size_le h'.size_le, ?_⟩
  intro i hi b'' hb''
  obtain ⟨b', hb', hname', hanchor'⟩ := h'.same i (Nat.lt_of_lt_of_le hi h.size_le) b'' hb''
  obtain ⟨b, hb, hname, hanchor⟩ := h.same i hi b' hb'
  exact ⟨b, hb, hname'.trans hname, hanchor'.trans hanchor⟩

end Persists

theorem persists_store : m.Persists (m.store t name value params access) := by
  constructor
  · rw [size_store]
    split <;> omega
  · intro i hi b' hb'
    rw [get?_store] at hb'
    split at hb'
    · next htarget =>
      cases hb'
      rcases m.target_cases t name access with ⟨-, hnew, -⟩ | ⟨b, -, hb, hname, hanchor, -⟩
      · omega
      · exact ⟨b, htarget ▸ hb, hname.symm, hanchor.symm⟩
    · exact ⟨b', hb', rfl, rfl⟩

theorem persists_remove : m.Persists (m.remove t name access) :=
  ⟨Nat.le_of_eq size_remove.symm, fun _ _ b' hb' => ⟨b', get?_remove hb', rfl, rfl⟩⟩

theorem persists_write (t : Tree) (m : Memory) (w : Write) : m.Persists (m.write t w) := by
  cases w with
  | store => exact persists_store
  | remove => exact persists_remove

theorem write_none (hb : m.get? i = some b) (hnone : (m.write t w).get? i = none) :
    ∃ access, w = .remove b.name access ∧ t.encloses b.anchor access = true := by
  cases w with
  | store name value params access =>
    rw [write, get?_store] at hnone
    split at hnone
    · cases hnone
    · rw [hb] at hnone
      cases hnone
  | remove name access =>
    rw [write, get?_remove_eq] at hnone
    split at hnone
    · next hlookup =>
      obtain ⟨c, hc, hname, hencloses⟩ := sees_iff.mp (lookup_eq_some.mp hlookup).1
      obtain rfl : c = b := Option.some.inj (hc.symm.trans hb)
      exact ⟨access, by rw [hname], hencloses⟩
    · rw [hb] at hnone
      cases hnone

theorem write_new (hi : m.size ≤ i) (hlt : i < (m.write t w).size) :
    ∃ name value params access, w = .store name value params access ∧
      (m.write t w).get? i = some ⟨name, value, params, some access⟩ := by
  cases w with
  | store name value params access =>
    rw [write, size_store] at hlt
    split at hlt
    · next hlookup =>
      rcases m.target_cases t name access with ⟨-, htarget, hanchor⟩ | ⟨b, hsome, -⟩
      · refine ⟨name, value, params, access, rfl, ?_⟩
        rw [write, get?_store, if_pos (by omega), hanchor]
      · rw [hlookup] at hsome
        cases hsome
    · omega
  | remove name access =>
    rw [write, size_remove] at hlt
    omega

theorem persists_writes (t : Tree) (m : Memory) (ws : List Write) :
    m.Persists (m.writes t ws) := by
  induction ws generalizing m with
  | nil => exact .refl m
  | cons w ws ih => exact (persists_write t m w).trans (ih _)

theorem writes_none (hb : m.get? i = some b) (hnone : (m.writes t ws).get? i = none) :
    ∃ access, .remove b.name access ∈ ws ∧ t.encloses b.anchor access = true := by
  induction ws generalizing m b with
  | nil =>
    rw [writes, List.foldl_nil, hb] at hnone
    cases hnone
  | cons w ws ih =>
    cases hb' : (m.write t w).get? i with
    | none =>
      obtain ⟨access, rfl, hencloses⟩ := write_none hb hb'
      exact ⟨access, List.mem_cons_self, hencloses⟩
    | some b' =>
      -- the slot is live behind the first write, and then it is the same one
      obtain ⟨c, hc, hname, hanchor⟩ := (persists_write t m w).same i (lt_of_get? hb) b' hb'
      obtain rfl : c = b := Option.some.inj (hc.symm.trans hb)
      obtain ⟨access, hmem, hencloses⟩ := ih hb' hnone
      exact ⟨access, List.mem_cons_of_mem _ (hname ▸ hmem), hanchor ▸ hencloses⟩

theorem writes_new (hi : m.size ≤ i) (hlt : i < (m.writes t ws).size) :
    ∃ name value params access, .store name value params access ∈ ws ∧
      ∀ b, (m.writes t ws).get? i = some b → b.name = name ∧ b.anchor = some access := by
  induction ws generalizing m with
  | nil =>
    have hlt : i < m.size := hlt
    omega
  | cons w ws ih =>
    by_cases hnew : i < (m.write t w).size
    · obtain ⟨name, value, params, access, rfl, hget⟩ := write_new hi hnew
      refine ⟨name, value, params, access, List.mem_cons_self, ?_⟩
      intro b hb
      obtain ⟨c, hc, hname, hanchor⟩ := (persists_writes t _ ws).same i hnew b hb
      rw [hget] at hc
      cases hc
      exact ⟨hname, hanchor⟩
    · obtain ⟨name, value, params, access, hmem, hget⟩ := ih (Nat.le_of_not_lt hnew) hlt
      exact ⟨name, value, params, access, List.mem_cons_of_mem _ hmem, hget⟩

theorem writes_live (hstores : ∀ name access, Write.remove name access ∉ ws) (hi : m.size ≤ i)
    (hlt : i < (m.writes t ws).size) : ∃ b, (m.writes t ws).get? i = some b := by
  induction ws generalizing m with
  | nil =>
    have hlt : i < m.size := hlt
    omega
  | cons w ws ih =>
    have hrest : ∀ name access, Write.remove name access ∉ ws :=
      fun name access hmem => hstores name access (List.mem_cons_of_mem _ hmem)
    by_cases hnew : i < (m.write t w).size
    · obtain ⟨name, value, params, access, -, hget⟩ := write_new hi hnew
      by_contra hlost
      have hnone : ((m.write t w).writes t ws).get? i = none :=
        Option.eq_none_iff_forall_ne_some.mpr fun b hb => hlost ⟨b, hb⟩
      obtain ⟨access, hmem, -⟩ := writes_none hget hnone
      exact hrest _ _ hmem
    · exact ih hrest (Nat.le_of_not_lt hnew) hlt

/-- Where no two slots bind one name at one anchor, stores make no more slots than there are names
and places for them. -/
theorem writes_size_le {places : Finset (String × NodeId)} (hn : t.Nests)
    (hlayers : (m.writes t ws).Layered t)
    (hstores : ∀ name access, Write.remove name access ∉ ws)
    (hplaces : ∀ name value params access, .store name value params access ∈ ws →
      (name, access) ∈ places) :
    (m.writes t ws).size ≤ m.size + places.card := by
  have hslot : ∀ i ∈ Finset.Ico m.size (m.writes t ws).size, ∃ place ∈ places, ∃ b,
      (m.writes t ws).get? i = some b ∧ b.name = place.1 ∧ b.anchor = some place.2 := by
    intro i hi
    obtain ⟨hi, hlt⟩ := Finset.mem_Ico.mp hi
    obtain ⟨b, hb⟩ := writes_live hstores hi hlt
    obtain ⟨name, value, params, access, hmem, hget⟩ := writes_new hi hlt
    obtain ⟨hname, hanchor⟩ := hget b hb
    exact ⟨(name, access), hplaces name value params access hmem, b, hb, hname, hanchor⟩
  choose! place hmem b hb hname hanchor using hslot
  -- two new slots of one name and place would be the same
  have hinj : Set.InjOn place (Finset.Ico m.size (m.writes t ws).size) := by
    intro i hi j hj heq
    refine hlayers.unique hn (hb i hi) (hb j hj) ?_ ?_
    · rw [hname i hi, hname j hj, heq]
    · rw [hanchor i hi, hanchor j hj, heq]
  have hcard := Finset.card_le_card_of_injOn place hmem hinj
  rw [Nat.card_Ico] at hcard
  omega

end Arbor.Memory
