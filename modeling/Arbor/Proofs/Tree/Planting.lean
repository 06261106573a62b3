import Arbor.Proofs.Tree.Grove

/-!
# Groves grow

What adding, attaching and grafting do to a grove. Litter stays loose.
-/
namespace Arbor.Tree

open Arbor.Expr (Stuck)

variable {t u : Tree} {a b n p c r : Nat} {loose : List NodeId}

theorem PrefixOf.parent (h : t.PrefixOf u) {n p : NodeId} (hp : t.parent n = some p) :
    u.parent n = some p := by
  rw [Tree.parent, h.node n (lt_of_parent hp)]
  exact hp

theorem PrefixOf.under (h : t.PrefixOf u) (ha : t.Under a n) : u.Under a n :=
  ha.mono fun _ _ => h.parent

theorem GrowsTo.parent_some (h : t.GrowsTo u) {n p : NodeId} (hp : t.parent n = some p) :
    u.parent n = some p := by
  rw [h.parent n (lt_of_parent hp)]
  exact hp

theorem GrowsTo.under (h : t.GrowsTo u) (ha : t.Under a n) : u.Under a n :=
  ha.mono fun _ _ => h.parent_some

theorem GrowsTo.under_iff (h : t.GrowsTo u) (ht : t.Grove loose) (hn : n < t.size) :
    u.Under a n ↔ t.Under a n := by
  refine ⟨?_, h.under⟩
  intro ha
  induction ha with
  | refl => exact .refl
  | step hp _ ih =>
    rw [h.parent _ hn] at hp
    exact .step hp (ih (ht.parent_lt hp))

theorem Grove.perm {loose' : List NodeId} (h : t.Grove loose) (hl : loose.Perm loose') :
    t.Grove loose' where
  parent_iff := h.parent_iff
  children_nodup := h.children_nodup
  tops_nodup := (hl.cons root).nodup_iff.mp h.tops_nodup
  top_lt r hr := h.top_lt r ((hl.cons root).mem_iff.mpr hr)
  top_free r hr := h.top_free r ((hl.cons root).mem_iff.mpr hr)
  covered n hn := by
    obtain ⟨r, hr, hrn⟩ := h.covered n hn
    exact ⟨r, (hl.cons root).mem_iff.mp hr, hrn⟩

theorem Grove.add (h : t.Grove loose) (tag : Tag) (text : String) (position : Nat) :
    (t.add tag text position).Grove (t.size :: loose) where
  parent_iff p c := by
    rw [parent_add, children_add]
    exact h.parent_iff p c
  children_nodup p := by
    rw [children_add]
    exact h.children_nodup p
  tops_nodup := by
    have hne : root ≠ t.size := Nat.ne_of_lt h.size_pos
    have hnew : t.size ∉ loose := fun hm => absurd (h.top_lt _ (List.mem_cons_of_mem _ hm)) (by simp)
    have htops := List.nodup_cons.mp h.tops_nodup
    refine List.nodup_cons.mpr ⟨?_, List.nodup_cons.mpr ⟨hnew, htops.2⟩⟩
    intro hm
    rcases List.mem_cons.mp hm with heq | hm
    · exact hne heq
    · exact htops.1 hm
  top_lt r hr := by
    rw [size_add]
    by_cases hnew : r = t.size
    · omega
    · have := h.top_lt r (by simpa [hnew] using hr)
      omega
  top_free r hr := by
    rw [parent_add]
    by_cases hnew : r = t.size
    · exact parent_of_le (Nat.le_of_eq hnew.symm)
    · exact h.top_free r (by simpa [hnew] using hr)
  covered n hn := by
    have hold := (PrefixOf.refl t).add tag text position
    rw [size_add] at hn
    by_cases hnew : n = t.size
    · exact ⟨n, by simp [hnew], .refl⟩
    · obtain ⟨r, hr, hrn⟩ := h.covered n (by omega)
      refine ⟨r, ?_, hold.under hrn⟩
      rcases List.mem_cons.mp hr with rfl | hr
      · exact List.mem_cons_self
      · exact List.mem_cons_of_mem _ (List.mem_cons_of_mem _ hr)

theorem Under.attach (h : t.Under a n) (hc : t.parent c = none) : (t.attach p c).Under a n := by
  refine h.mono fun n q hq => ?_
  have hne : n ≠ c := fun heq => by rw [heq, hc] at hq; cases hq
  rw [parent_attach, if_neg fun k => hne k.1, hq]

theorem under_attached (hc : c < t.size) : (t.attach p c).Under p c :=
  .of_parent (by rw [parent_attach, if_pos ⟨rfl, hc⟩])

theorem Grove.top_not_child (h : t.Grove loose) (hc : c ∈ root :: loose) (n : Nat) :
    c ∉ t.children n := by
  intro hm
  have hparent := (h.parent_iff n c).mpr hm
  rw [h.top_free c hc] at hparent
  cases hparent

theorem parent_attach_of_lt (hc : c < t.size) (n : Nat) :
    (t.attach p c).parent n = if n = c then some p else t.parent n := by
  rw [parent_attach]
  by_cases hn : n = c <;> simp [hn, hc]

theorem children_attach_of_lt (hp : p < t.size) (n : Nat) :
    (t.attach p c).children n = if n = p then (t.children n).push c else t.children n := by
  rw [children_attach]
  by_cases hn : n = p <;> simp [hn, hp]

theorem Grove.parent_iff_attach (h : t.Grove loose) (hc : c ∈ root :: loose) (hp : p < t.size)
    (q n : Nat) : (t.attach p c).parent n = some q ↔ n ∈ (t.attach p c).children q := by
  rw [parent_attach_of_lt (h.top_lt c hc), children_attach_of_lt hp]
  by_cases hn : n = c
  · subst hn
    by_cases hq : q = p
    · simp [hq]
    · simp [hq, Ne.symm hq, h.top_not_child hc]
  · rw [if_neg hn, h.parent_iff]
    by_cases hq : q = p <;> simp [hq, hn]

theorem Grove.children_nodup_attach (h : t.Grove loose) (hc : c ∈ root :: loose) (hp : p < t.size)
    (q : Nat) : ((t.attach p c).children q).toList.Nodup := by
  rw [children_attach_of_lt hp]
  split
  · rw [Array.toList_push]
    refine List.Nodup.append (h.children_nodup q) (List.nodup_singleton c) ?_
    intro x hx hxc
    rw [List.mem_singleton.mp hxc] at hx
    exact h.top_not_child hc q (Array.mem_toList_iff.mp hx)
  · exact h.children_nodup q

theorem Grove.attach (h : t.Grove (c :: loose)) (hr : r ∈ root :: loose) (hp : t.Under r p) :
    (t.attach p c).Grove loose := by
  have hswap : (root :: c :: loose).Perm (c :: root :: loose) := List.Perm.swap c root loose
  have htops := List.nodup_cons.mp (hswap.nodup_iff.mp h.tops_nodup)
  have hsub : ∀ {s}, s ∈ root :: loose → s ∈ root :: c :: loose :=
    fun hs => hswap.mem_iff.mpr (List.mem_cons_of_mem _ hs)
  have hc : c ∈ root :: c :: loose := hswap.mem_iff.mpr List.mem_cons_self
  have hclt := h.top_lt c hc
  have hplt := hp.lt (h.top_lt r (hsub hr))
  refine ⟨h.parent_iff_attach hc hplt, h.children_nodup_attach hc hplt, htops.2, ?_, ?_, ?_⟩
  · intro s hs
    rw [size_attach]
    exact h.top_lt s (hsub hs)
  · intro s hs
    have hne : s ≠ c := fun heq => htops.1 (heq ▸ hs)
    rw [parent_attach_of_lt hclt, if_neg hne]
    exact h.top_free s (hsub hs)
  · intro n hn
    rw [size_attach] at hn
    have hfree := h.top_free c hc
    obtain ⟨s, hs, hsn⟩ := h.covered n hn
    by_cases hsc : s = c
    · -- what stood under the attached top stands under `r` now
      subst hsc
      have hunder := (hp.attach hfree).trans (under_attached hclt)
      exact ⟨r, hr, hunder.trans (hsn.attach hfree)⟩
    · exact ⟨s, (List.mem_cons.mp (hswap.mem_iff.mp hs)).resolve_left hsc, hsn.attach hfree⟩

theorem Grove.addUnder (h : t.Grove loose) (hr : r ∈ root :: loose) (hp : t.Under r p) (tag : Tag)
    (text : String) (position : Nat) : (t.addUnder p tag text position).Grove loose :=
  (h.add tag text position).attach hr (((PrefixOf.refl t).add ..).under hp)

/-- What is made beside a grove makes a grove with it, and is loose. -/
theorem Beside.grove {T : Tag → Prop} {tops : List NodeId} (h : Beside T t u tops)
    (ht : t.Grove loose) : u.Grove (tops ++ loose) := by
  induction h with
  | refl => exact ht
  | add _ tag text position _ ih => exact ih.add tag text position
  | attach _ hp ih => exact ih.attach (List.mem_cons_of_mem _ (List.mem_append_left _ hp)) .refl
  | perm _ hperm ih => exact ih.perm (hperm.append_right loose)

theorem Grove.graft (h : t.Grove loose) (e : Expr) : (t.graft e).1.Grove ((t.graft e).2 :: loose) :=
  (graft_beside t e).grove h

theorem Grove.graftAll (h : t.Grove loose) {list : Nat} (hr : r ∈ root :: loose)
    (hlist : t.Under r list) (es : List Expr) : (t.graftAll list es).Grove loose := by
  induction es generalizing t with
  | nil =>
    rw [Tree.graftAll]
    exact h
  | cons e rest ih =>
    rw [Tree.graftAll]
    have he := h.graft e
    have hunder := (graft_grafted t e).stands.under hlist
    have hfree := he.top_free _ (List.mem_cons_of_mem _ List.mem_cons_self)
    exact ih (he.attach hr hunder) (hunder.attach hfree)

theorem Grove.litter (h : t.Grove loose) (stuck : Stuck) :
    ∃ extra : List NodeId, (t.litter stuck).Grove (extra ++ loose) := by
  obtain ⟨extra, hlitter⟩ := litter_beside t stuck
  exact ⟨extra, hlitter.grove h⟩

end Arbor.Tree
