import Arbor.Proofs.Memory.Lookup
import Arbor.Proofs.Tree.Shape

/-!
# What memory refers to

A body in memory is the body of a function under the root, and a parameter list is the list of one,
of the same function where there are both. Every anchor is the root or a body under it. Storing,
removing and growing keep this so.
-/
namespace Arbor

namespace Tree

structure Declares (t : Tree) (f : NodeId) : Prop where
  tag : t.tag f = .function
  under : t.Under root f

/-- What a value and a parameter list in memory stand for. -/
structure Callable (t : Tree) (value : Value) (params : Option NodeId) : Prop where
  body : ∀ n, value = .body n → ∃ f, t.Declares f ∧ t.child? f 1 = some n ∧
    ∀ l, params = some l → t.child? f 0 = some l
  params : ∀ l, params = some l → ((∃ n, value = .body n) ∨ value = .null) ∧
    ∃ f, t.Declares f ∧ t.child? f 0 = some l

structure Anchors (t : Tree) (a : NodeId) : Prop where
  under : t.Under root a
  scope : (t.tag a).isScope = true

variable {t u : Tree} {loose : List NodeId} {value : Value} {params : Option NodeId} {n c : NodeId}

theorem callable_plain (h : ∀ n, value ≠ .body n) : t.Callable value none where
  body n hn := absurd hn (h n)
  params l hl := by cases hl

theorem Callable.bare (h : t.Callable value params) : t.Callable value none where
  body n hn := by
    obtain ⟨f, hf, hbody, _⟩ := h.body n hn
    exact ⟨f, hf, hbody, fun l hl => by cases hl⟩
  params l hl := by cases hl

theorem GrowsTo.child? (h : t.GrowsTo u) {i : Nat} (hc : t.child? n i = some c) :
    u.child? n i = some c := by
  have hn := lt_of_mem_children (mem_of_child? hc)
  obtain ⟨new, hnew, _⟩ := h.children n hn
  rw [child?_eq_some] at hc ⊢
  rw [hnew, List.getElem?_append_left (List.getElem?_eq_some_iff.mp hc).1, hc]

theorem Declares.lt (h : t.Declares c) : c < t.size := by
  apply lt_of_tag
  rw [h.tag]
  exact Tag.noConfusion

theorem Declares.growsTo (h : t.Declares c) (hu : t.GrowsTo u) : u.Declares c := by
  refine ⟨?_, hu.under h.under⟩
  rw [hu.tag c h.lt]
  exact h.tag

theorem Callable.growsTo (h : t.Callable value params) (hu : t.GrowsTo u) :
    u.Callable value params where
  body n hn := by
    obtain ⟨f, hf, hbody, hlist⟩ := h.body n hn
    exact ⟨f, hf.growsTo hu, hu.child? hbody, fun l hl => hu.child? (hlist l hl)⟩
  params l hl := by
    obtain ⟨hvalue, f, hf, hlist⟩ := h.params l hl
    exact ⟨hvalue, f, hf.growsTo hu, hu.child? hlist⟩

theorem Anchors.growsTo (h : t.Anchors n) (hg : t.Grove loose) (hu : t.GrowsTo u) :
    u.Anchors n := by
  refine ⟨hu.under h.under, ?_⟩
  rw [hu.tag n (h.under.lt hg.size_pos)]
  exact h.scope

end Tree

namespace Memory

structure Sound (t : Tree) (m : Memory) : Prop where
  callable : ∀ i b, m.get? i = some b → t.Callable b.value b.params
  anchor : ∀ i b, m.get? i = some b → ∀ a, b.anchor = some a → t.Anchors a

variable {m : Memory} {t u : Tree} {loose : List NodeId} {name : String} {value : Value}
  {params : Option NodeId} {access : NodeId}

theorem Sound.store (h : m.Sound t) (hv : t.Callable value params) (ha : t.Anchors access) :
    (m.store t name value params access).Sound t := by
  constructor
  · intro i b hb
    rw [get?_store] at hb
    split at hb
    · cases hb
      exact hv
    · exact h.callable i b hb
  · intro i b hb a hanchor
    rw [get?_store] at hb
    split at hb
    · cases hb
      have hanchor : m.anchorOf t name access = some a := hanchor
      rcases m.target_cases t name access with ⟨_, _, heq⟩ | ⟨c, _, hc, _, heq, _⟩
      · rw [heq] at hanchor
        cases hanchor
        exact ha
      · exact h.anchor _ c hc a (heq.trans hanchor)
    · exact h.anchor i b hb a hanchor

theorem Sound.remove (h : m.Sound t) : (m.remove t name access).Sound t where
  callable i b hb := h.callable i b (get?_remove hb)
  anchor i b hb := h.anchor i b (get?_remove hb)

theorem sound_empty (t : Tree) : empty.Sound t where
  callable i b hb := by simp [get?, empty] at hb
  anchor i b hb := by simp [get?, empty] at hb

theorem Sound.seed (h : m.Sound t) (name : String) (hv : ∀ n, value ≠ .body n) :
    (m.seed name value).Sound t := by
  constructor
  · intro i b hb
    rw [Memory.seed, get?_push] at hb
    split at hb
    · cases hb
      exact Tree.callable_plain hv
    · exact h.callable i b hb
  · intro i b hb a ha
    rw [Memory.seed, get?_push] at hb
    split at hb
    · cases hb
      cases ha
    · exact h.anchor i b hb a ha

theorem Sound.growsTo (h : m.Sound t) (hg : t.Grove loose) (hu : t.GrowsTo u) : m.Sound u where
  callable i b hb := (h.callable i b hb).growsTo hu
  anchor i b hb a ha := (h.anchor i b hb a ha).growsTo hg hu

end Memory

end Arbor
