import Arbor.Proofs.Growth.Operands
import Arbor.Proofs.Return.Slots
import Arbor.Proofs.Tree.Levels
import Mathlib

/-!
# Expressions without calls

Such an expression reads memory and changes nothing. It takes as many levels as it is high. Where
fewer are free, it stops at the first node that stands one level too deep.
-/
namespace Arbor

open Run

namespace Tree

/-- An expression in which nothing is called. -/
structure Flat (t : Tree) (n : NodeId) : Prop where
  tag : (t.tag n).isExpression = true
  calls : ∀ m, t.Under n m → t.tag m ≠ .call

def ReadsAlike (t : Tree) (n : NodeId) (m m' : Memory) : Prop :=
  ∀ g, t.Under n g → t.tag g = .get → m'.resolve t (t.text g) g = m.resolve t (t.text g) g

variable {t : Tree} {n l r c g : NodeId} {m m' : Memory} {depth : Nat}

theorem ReadsAlike.refl (t : Tree) (n : NodeId) (m : Memory) : t.ReadsAlike n m m :=
  fun _ _ _ => rfl

theorem ReadsAlike.below (h : t.ReadsAlike n m m') (hc : t.Under n c) : t.ReadsAlike c m m' :=
  fun g hg htag => h g (hc.trans hg) htag

theorem Flat.cases (h : t.Flat n) (ht : t.Resting) (hp : t.Paired) :
    (t.tag n = .textLiteral ∨ t.tag n = .numberLiteral ∨ t.tag n = .get) ∧ t.children n = #[] ∨
    ∃ l r, t.tag n = .operator ∧ t.children n = #[l, r] ∧ t.Flat l ∧ t.Flat r := by
  have hnone : (∀ i l, ¬Label.Fits (fun _ _ => True) (t.tag n) i l) → t.children n = #[] := by
    intro hfits
    apply Array.eq_empty_iff_forall_not_mem.mpr
    intro c hc
    obtain ⟨i, hi⟩ := child?_of_mem hc
    exact hfits i _ (ht.formed.hangs n i c hi).fits
  have htag := h.tag
  cases hn : t.tag n
  case textLiteral => exact Or.inl ⟨Or.inl rfl, hnone fun i l hl => by rw [hn] at hl; exact hl⟩
  case numberLiteral =>
    exact Or.inl ⟨Or.inr (Or.inl rfl), hnone fun i l hl => by rw [hn] at hl; exact hl⟩
  case get => exact Or.inl ⟨Or.inr (Or.inr rfl), hnone fun i l hl => by rw [hn] at hl; exact hl⟩
  case call => exact absurd hn (h.calls n .refl)
  case operator =>
    obtain ⟨l, r, hpair⟩ := List.length_eq_two.mp
      (Array.length_toList.trans (hp.size n hn))
    have hchildren : t.children n = #[l, r] := Array.toList_inj.mp hpair
    have hoperand : ∀ i c, t.child? n i = some c → t.Flat c := by
      intro i c hc
      have hfits := (ht.formed.hangs n i c hc).fits
      rw [hn] at hfits
      have hbelow := Under.of_parent ((ht.grove.parent_iff n c).mpr (mem_of_child? hc))
      exact ⟨hfits.tag, fun m hm => h.calls m (hbelow.trans hm)⟩
    refine Or.inr ⟨l, r, rfl, hchildren, hoperand 0 l ?_, hoperand 1 r ?_⟩
    · simp [child?, hchildren]
    · simp [child?, hchildren]
  all_goals
    rw [hn] at htag
    cases htag

theorem Flat.of_level (h : t.Flat n) (ht : t.Resting) (hp : t.Paired) (hm : c ∈ t.level depth n) :
    t.Flat c := by
  induction depth generalizing n with
  | zero =>
    obtain rfl := List.mem_singleton.mp hm
    exact h
  | succ depth ih =>
    rcases h.cases ht hp with ⟨-, hnone⟩ | ⟨l, r, -, hchildren, hl, hr⟩
    · simp [level, hnone] at hm
    · rw [level_pair hchildren] at hm
      rcases List.mem_append.mp hm with hm | hm
      · exact ih hl hm
      · exact ih hr hm

end Tree

variable {p : Program} {n l r : NodeId} {s : State} {fuel : Nat}

theorem evaluate_of_done {e : Evaluation} (hlt : s.nesting < p.settings.maxNesting)
    (h : evaluateNode p fuel n { s with nesting := s.nesting + 1 } =
      .done e { s with nesting := s.nesting + 1 }) :
    evaluate p (fuel + 1) (some n) s = .done e s := by
  rw [evaluate, nested_of_lt n _ hlt, h]
  simp [Outcome.update]

theorem evaluate_of_failed {f : Fault} (hlt : s.nesting < p.settings.maxNesting)
    (h : evaluateNode p fuel n { s with nesting := s.nesting + 1 } =
      .failed f { s with nesting := s.nesting + 1 }) :
    evaluate p (fuel + 1) (some n) s = .failed f s := by
  rw [evaluate, nested_of_lt n _ hlt, h]
  simp [Outcome.update]

theorem evaluateNode_operator (htag : p.tree.tag n = .operator)
    (hchildren : p.tree.children n = #[l, r]) (fuel : Nat) :
    evaluateNode p (fuel + 1) n = do
      let left ← evaluate p fuel (some l)
      let right ← evaluate p fuel (some r)
      return ⟨Operator.apply (p.tree.text n) left.value right.value, none⟩ := by
  simp [evaluateNode, htag, Tree.child?, hchildren]

theorem evaluate_get (htag : p.tree.tag n = .get) (hlt : s.nesting < p.settings.maxNesting)
    (fuel : Nat) : evaluate p (fuel + 2) (some n) s = .done
      ((s.memory.resolve p.tree (p.tree.text n) n).elim ⟨.undefined, none⟩
        fun b => ⟨b.value, b.params⟩) s := by
  refine evaluate_of_done hlt ?_
  simp only [evaluateNode, htag, bind, memory]
  cases s.memory.resolve p.tree (p.tree.text n) n <;> rfl

theorem evaluate_leaf (htag : p.tree.tag n = .textLiteral ∨ p.tree.tag n = .numberLiteral ∨
    p.tree.tag n = .get) (m : Memory) : ∃ e, ∀ s fuel, p.tree.ReadsAlike n m s.memory →
      s.nesting < p.settings.maxNesting → evaluate p (fuel + 2) (some n) s = .done e s := by
  rcases htag with htag | htag | htag
  · refine ⟨⟨.text (p.tree.text n), none⟩, fun s fuel _ hlt => evaluate_of_done hlt ?_⟩
    simp only [evaluateNode, htag]
    rfl
  · refine ⟨⟨.number (literalNumber (p.tree.text n)), none⟩,
      fun s fuel _ hlt => evaluate_of_done hlt ?_⟩
    simp only [evaluateNode, htag]
    rfl
  · refine ⟨(m.resolve p.tree (p.tree.text n) n).elim ⟨.undefined, none⟩
      fun b => ⟨b.value, b.params⟩, fun s fuel hreads hlt => ?_⟩
    rw [evaluate_get htag hlt, hreads n .refl htag]

namespace Tree.Flat

/-- Where there are as many levels as the expression is high, it gives a value that depends on what its
names resolve to, and changes nothing. -/
theorem evaluate_done (ht : p.tree.Resting) (hp : p.tree.Paired) (hn : p.tree.Flat n) (m : Memory) :
    ∃ e, ∀ s fuel, p.tree.ReadsAlike n m s.memory →
      s.nesting + p.tree.height n ≤ p.settings.maxNesting → 2 * p.tree.height n ≤ fuel →
      evaluate p fuel (some n) s = .done e s := by
  induction hk : p.tree.height n using Nat.strongRecOn generalizing n with
  | ind k ih =>
    subst hk
    rcases hn.cases ht hp with ⟨htag, hnone⟩ | ⟨l, r, htag, hchildren, hl, hr⟩
    · obtain ⟨e, he⟩ := evaluate_leaf htag m
      refine ⟨e, fun s fuel hreads hroom hfuel => ?_⟩
      rw [ht.grove.height_leaf hnone] at hroom hfuel
      obtain ⟨fuel, rfl⟩ := Nat.exists_eq_add_of_le' hfuel
      exact he s fuel hreads hroom
    · have hleft : l ∈ p.tree.children n := by simp [hchildren]
      have hright : r ∈ p.tree.children n := by simp [hchildren]
      obtain ⟨e₁, he₁⟩ := ih _ (ht.grove.height_child_lt hleft) hl rfl
      obtain ⟨e₂, he₂⟩ := ih _ (ht.grove.height_child_lt hright) hr rfl
      refine ⟨⟨Operator.apply (p.tree.text n) e₁.value e₂.value, none⟩,
        fun s fuel hreads hroom hfuel => ?_⟩
      rw [ht.grove.height_pair hchildren] at hroom hfuel
      obtain ⟨fuel, rfl⟩ := Nat.exists_eq_add_of_le' (show 2 ≤ fuel by omega)
      refine evaluate_of_done (by omega) ?_
      have hunder : ∀ {c}, c ∈ p.tree.children n → p.tree.Under n c :=
        fun hc => .of_parent ((ht.grove.parent_iff n _).mpr hc)
      have hdone₁ := he₁ { s with nesting := s.nesting + 1 } fuel (hreads.below (hunder hleft))
        (by dsimp only; omega) (by omega)
      have hdone₂ := he₂ { s with nesting := s.nesting + 1 } fuel (hreads.below (hunder hright))
        (by dsimp only; omega) (by omega)
      rw [evaluateNode_operator htag hchildren, bind_of_done _ hdone₁, bind_of_done _ hdone₂]
      rfl

theorem evaluate_failed (ht : p.tree.Resting) (hp : p.tree.Paired) (hn : p.tree.Flat n)
    (hroom : p.settings.maxNesting < s.nesting + p.tree.height n) :
    ∃ m, (p.tree.level (p.settings.maxNesting - s.nesting) n).head? = some m ∧
      ∀ fuel, 2 * p.tree.height n ≤ fuel →
        evaluate p fuel (some n) s = .failed (nestingFault p m) s := by
  induction hk : p.tree.height n using Nat.strongRecOn generalizing n s with
  | ind k ih =>
    subst hk
    -- where a level is free, one of the two sides stops; else the expression itself does
    by_cases hlt : s.nesting < p.settings.maxNesting
    · rcases hn.cases ht hp with ⟨-, hnone⟩ | ⟨l, r, htag, hchildren, hl, hr⟩
      · rw [ht.grove.height_leaf hnone] at hroom
        omega
      · have hleft := ht.grove.height_child_lt (c := l) (n := n) (by simp [hchildren])
        have hright := ht.grove.height_child_lt (c := r) (n := n) (by simp [hchildren])
        have hheight := ht.grove.height_pair hchildren
        have hlevel : p.tree.level (p.settings.maxNesting - s.nesting) n =
            p.tree.level (p.settings.maxNesting - (s.nesting + 1)) l ++
              p.tree.level (p.settings.maxNesting - (s.nesting + 1)) r := by
          rw [← Tree.level_pair hchildren]
          congr 1
          omega
        by_cases hfits : s.nesting + 1 + p.tree.height l ≤ p.settings.maxNesting
        · -- the left side has no node that deep, so it is the right side that stops
          have hempty : p.tree.level (p.settings.maxNesting - (s.nesting + 1)) l = [] := by
            by_contra hne
            have := ht.grove.level_ne_nil.mp hne
            omega
          obtain ⟨e₁, he₁⟩ := hl.evaluate_done ht hp s.memory
          obtain ⟨m, hm, hfails⟩ := ih _ hright hr (s := { s with nesting := s.nesting + 1 })
            (by dsimp only; omega) rfl
          refine ⟨m, by rw [hlevel, hempty]; exact hm, fun fuel hfuel => ?_⟩
          obtain ⟨fuel, rfl⟩ := Nat.exists_eq_add_of_le' (show 2 ≤ fuel by omega)
          refine evaluate_of_failed hlt ?_
          have hdone := he₁ { s with nesting := s.nesting + 1 } fuel (.refl _ _ _) hfits (by omega)
          rw [evaluateNode_operator htag hchildren, bind_of_done _ hdone,
            bind_of_failed _ (hfails fuel (by omega))]
        · obtain ⟨m, hm, hfails⟩ := ih _ hleft hl (s := { s with nesting := s.nesting + 1 })
            (by dsimp only; omega) rfl
          refine ⟨m, by rw [hlevel, List.head?_append, hm]; rfl, fun fuel hfuel => ?_⟩
          obtain ⟨fuel, rfl⟩ := Nat.exists_eq_add_of_le' (show 2 ≤ fuel by omega)
          refine evaluate_of_failed hlt ?_
          rw [evaluateNode_operator htag hchildren, bind_of_failed _ (hfails fuel (by omega))]
    · refine ⟨n, ?_, fun fuel hfuel => ?_⟩
      · rw [Nat.sub_eq_zero_of_le (Nat.le_of_not_lt hlt)]
        rfl
      · have := ht.grove.height_pos n
        obtain ⟨fuel, rfl⟩ := Nat.exists_eq_add_of_le' (show 1 ≤ fuel by omega)
        rw [evaluate, nested_of_not_lt n _ hlt]

/-- In the order in which a node comes before its children, that node is the first at its depth. -/
theorem evaluate_stops (ht : p.tree.Resting) (hp : p.tree.Paired) (hn : p.tree.Flat n)
    (hroom : p.settings.maxNesting < s.nesting + p.tree.height n) :
    ∃ m, p.tree.firstBelow (p.settings.maxNesting - s.nesting) n = some m ∧ p.tree.Flat m ∧
      ∀ fuel, 2 * p.tree.height n ≤ fuel →
        evaluate p fuel (some n) s = .failed (nestingFault p m) s := by
  obtain ⟨m, hm, hfails⟩ := hn.evaluate_failed ht hp hroom
  have hpos := ht.grove.height_pos n
  refine ⟨m, ?_, hn.of_level ht hp (List.mem_of_head? hm), hfails⟩
  rw [firstBelow_eq (by omega), hm]

end Tree.Flat

end Arbor
