import Arbor.Proofs.Return.Sequence
import Arbor.Proofs.Run.Lockstep
import Arbor.Proofs.Tree.Later

/-!
# Programs with more behind them

Statements that hang on the root behind a program play no part while the program itself is run, and
neither do the places where its nodes stand, except in the offsets of faults.
-/
namespace Arbor

def Fault.Alike (f g : Fault) : Prop :=
  g.kind = f.kind ∧ g.text = f.text ∧ g.message = f.message

theorem Fault.Alike.symm {f g : Fault} (h : f.Alike g) : g.Alike f :=
  ⟨h.1.symm, h.2.1.symm, h.2.2.symm⟩

theorem Fault.Alike.trans {f g k : Fault} (h : f.Alike g) (h' : g.Alike k) : f.Alike k :=
  ⟨h'.1.trans h.1, h'.2.1.trans h.2.1, h'.2.2.trans h.2.2⟩

variable {P : String → Nat → Prop} {p : Program} {u : Tree} {loose loose' : List NodeId}

theorem Mirrors.of_growsTo (hu : p.tree.GrowsTo u) (hg : p.tree.Grove loose) (hgu : u.Grove loose')
    (hnode : ∀ n < p.tree.size, n ≠ Tree.root → u.node n = p.tree.node n) :
    Mirrors P Eq p ⟨u, p.settings⟩ := by
  have hlt : ∀ {n}, p.tree.Under Tree.root n → n < p.tree.size := fun hn => hn.lt hg.size_pos
  apply Mirrors.of_inner
  · intro n hn
    exact hnode n (hlt hn.under) hn.ne_root
  · intro a n hn
    cases a with
    | none => rfl
    | some a =>
      apply Bool.eq_iff_iff.mpr
      rw [hgu.encloses_iff, hg.encloses_iff]
      exact hu.under_iff hg (hlt hn)

theorem Tree.climbs_later (t : Tree) (base d a k n : Nat) :
    (t.later base d).climbs a k n = t.climbs a k n := by
  induction k generalizing n with
  | zero => rfl
  | succ k ih =>
    rw [climbs, climbs, parent_later]
    cases t.parent n with
    | none => rfl
    | some q =>
      dsimp only
      rw [ih q]

theorem nestingFault_later (p : Program) (base d n : Nat) :
    (Run.nestingFault p n).Alike (Run.nestingFault ⟨p.tree.later base d, p.settings⟩ n) := by
  unfold Run.nestingFault
  rw [Tree.tag_later, Tree.text_later]
  exact ⟨rfl, rfl, rfl⟩

theorem Mirrors.later (p : Program) (base d : Nat) :
    Mirrors P Fault.Alike p ⟨p.tree.later base d, p.settings⟩ where
  settings := rfl
  tag _ _ := Tree.tag_later
  text _ _ := Tree.text_later
  parent _ _ := Tree.parent_later
  children _ _ := Tree.children_later
  encloses a n _ := by
    cases a with
    | none => rfl
    | some a =>
      change (p.tree.later base d).climbs a (p.tree.later base d).size n =
        p.tree.climbs a p.tree.size n
      rw [Tree.climbs_later, Tree.size_later]
  nesting n _ _ := nestingFault_later p base d n
  calls _ _ _ := ⟨rfl, rfl, rfl⟩

variable {s s' : State} {fuel start : Nat}

theorem execute_eq_done {body : NodeId} {r : Option Value}
    (h : execute p fuel body start s = .done r s') : s.nesting < p.settings.maxNesting ∧
      ∃ k t, runStatements p k ((p.tree.children body).toList.drop start)
        { s with nesting := s.nesting + 1 } = .done r t ∧ s' = { t with nesting := t.nesting - 1 } := by
  cases fuel with
  | zero =>
    rw [execute] at h
    cases h
  | succ fuel =>
    rw [execute] at h
    unfold Run.nested at h
    by_cases hlt : s.nesting < p.settings.maxNesting
    · rw [if_pos hlt] at h
      refine ⟨hlt, fuel, ?_⟩
      cases hrun : runStatements p fuel ((p.tree.children body).toList.drop start)
          { s with nesting := s.nesting + 1 } with
      | done r' t =>
        rw [hrun] at h
        cases h
        exact ⟨t, rfl, rfl⟩
      | failed f t =>
        rw [hrun] at h
        cases h
      | outOfFuel =>
        rw [hrun] at h
        cases h
    · rw [if_neg hlt] at h
      cases h

/-- With more behind it, a program whose statements run to their end goes on with what is behind. -/
theorem execute_behind (ht : p.tree.Formed P) (hg : p.tree.Grove loose) (hgu : u.Grove loose')
    (hroot : (p.tree.tag Tree.root).isScope = true) (hu : p.tree.GrowsTo u)
    (hnode : ∀ n < p.tree.size, n ≠ Tree.root → u.node n = p.tree.node n)
    (hm : s.memory.Sound p.tree) (hstart : start ≤ (p.tree.children Tree.root).size)
    (he : execute p fuel Tree.root start s = .done none s') :
    (∀ r t, (∃ fuel, execute ⟨u, p.settings⟩ fuel Tree.root start s = .done r t) ↔
      ∃ fuel, execute ⟨u, p.settings⟩ fuel Tree.root (p.tree.children Tree.root).size s' =
        .done r t) ∧
    ∀ f t, (∃ fuel, execute ⟨u, p.settings⟩ fuel Tree.root start s = .failed f t) ↔
      ∃ fuel, execute ⟨u, p.settings⟩ fuel Tree.root (p.tree.children Tree.root).size s' =
        .failed f t := by
  have hcounters := Machine.execute_counters (congrArg Outcome.state? he)
  obtain ⟨hlt, k, t, hrun, rfl⟩ := execute_eq_done he
  have hlt' : s.nesting < (Program.mk u p.settings).settings.maxNesting := hlt
  have hstatements : ∀ c ∈ (p.tree.children Tree.root).toList.drop start,
      p.tree.Executable c := by
    intro c hc
    have hmem := Array.mem_toList_iff.mp (List.mem_of_mem_drop hc)
    exact ⟨hg.inner_of_mem .refl hmem,
      Or.inl ⟨Tree.root, (hg.parent_iff _ c).mpr hmem, hroot⟩⟩
  have hagree := (lockstep (Mirrors.of_growsTo hu hg hgu hnode) ht hg k).runStatements
    (s.nesting + 1) _ hstatements { s with nesting := s.nesting + 1 } hm rfl
  rw [hrun] at hagree
  generalize hfirst : runStatements ⟨u, p.settings⟩ k
    ((p.tree.children Tree.root).toList.drop start) { s with nesting := s.nesting + 1 } = y
    at hagree
  cases hagree with
  | done _ _ hnesting =>
    obtain ⟨new, hnew, _⟩ := hu.children Tree.root hg.size_pos
    have hlength : (p.tree.children Tree.root).size =
        (p.tree.children Tree.root).toList.length := Array.length_toList.symm
    have hsplit : (u.children Tree.root).toList.drop start =
        (p.tree.children Tree.root).toList.drop start ++
          (u.children Tree.root).toList.drop (p.tree.children Tree.root).size := by
      rw [hlength] at hstart
      rw [hnew, List.drop_append_of_le_length hstart, hlength, List.drop_left]
    apply Machine.execute_sequence hlt' hcounters hsplit
    have hback : t.nesting - 1 + 1 = t.nesting := by omega
    dsimp only
    rw [hback]
    exact hfirst

/-- A run does the same where some of the nodes stand further on. -/
theorem execute_later (ht : p.tree.Formed P) (hg : p.tree.Grove loose)
    (hroot : (p.tree.tag Tree.root).isScope = true) (hm : s.memory.Sound p.tree)
    (base d fuel start : Nat) : Agree p.tree Fault.Alike (fun _ => True) s.nesting
      (execute p fuel Tree.root start s)
      (execute ⟨p.tree.later base d, p.settings⟩ fuel Tree.root start s) :=
  execute_root_inStep (.later p base d) ht hg hroot Tree.children_later s.nesting
    (fun _ => nestingFault_later p base d Tree.root) fuel start s hm rfl

namespace Agree

variable {α : Type} {t : Tree} {E : Fault → Fault → Prop} {good : α → Prop} {n : Nat}
  {x y : Outcome State α} {a : α} {f : Fault}

theorem done_iff (h : Agree t E good n x y) : x = .done a s ↔ y = .done a s := by
  cases h with
  | done => exact Iff.rfl
  | failed => exact ⟨fun h => (by cases h), fun h => (by cases h)⟩
  | outOfFuel => exact Iff.rfl

theorem failed_iff (h : Agree t Fault.Alike good n x y) :
    (∃ g, f.Alike g ∧ x = .failed g s) ↔ ∃ g, f.Alike g ∧ y = .failed g s := by
  cases h with
  | done =>
    constructor <;>
    · rintro ⟨_, _, h⟩
      cases h
  | outOfFuel => exact Iff.rfl
  | failed hlike _ =>
    constructor
    · rintro ⟨g, hg, h⟩
      cases h
      exact ⟨_, hg.trans hlike, rfl⟩
    · rintro ⟨g, hg, h⟩
      cases h
      exact ⟨_, hg.trans hlike.symm, rfl⟩

end Agree

end Arbor
