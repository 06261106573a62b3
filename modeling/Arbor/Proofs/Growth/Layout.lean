import Arbor.Proofs.Growth.Clean
import Arbor.Proofs.Growth.Refusal

/-!
# The layout of branches

The children of an `if` should alternate: a condition, its body, a further condition, its body. The
operand of the `if` comes first and everything behind it is a body, but for the conditions that `else`
brings. So the places are right as long as each `else` finds as many conditions as bodies.
-/
namespace Arbor.Tree

variable {t u : Tree} {hook : NodeId} {new : List NodeId}

/-- In every `if` bodies stand in all the odd places. -/
def LaidOut (t : Tree) : Prop :=
  ∀ n, t.tag n = .branch → ∀ i c, t.child? n (2 * i + 1) = some c → t.tag c = .body

/-- `u` is `t` with new nodes, of which `new` hang on `hook` and no other one on an old node. No `if`
among the new nodes has more than one child. -/
structure Sprouts (t u : Tree) (hook : NodeId) (new : List NodeId) : Prop where
  tag : ∀ n < t.size, u.tag n = t.tag n
  children : ∀ n < t.size, (u.children n).toList =
    if n = hook then (t.children n).toList ++ new else (t.children n).toList
  budding : t.Budding u

theorem Sprouts.laidOut_iff (h : t.Sprouts u hook new)
    (ht : ∀ n, ∀ c ∈ t.children n, c < t.size) :
    u.LaidOut ↔ t.LaidOut ∧ (t.tag hook = .branch → ∀ j c, new[j]? = some c →
      ((t.children hook).size + j) % 2 = 1 → u.tag c = .body) := by
  have hlt : ∀ {n}, t.tag n = .branch → n < t.size := fun hn => lt_of_tag (by rw [hn]; decide)
  have hold : ∀ {n i c}, t.child? n i = some c → u.child? n i = some c := by
    intro n i c hc
    have hn := lt_of_mem_children (mem_of_child? hc)
    rw [child?_eq_some] at hc ⊢
    rw [h.children n hn]
    split
    · rw [List.getElem?_append_left (List.getElem?_eq_some_iff.mp hc).1, hc]
    · exact hc
  constructor
  · intro hu
    constructor
    · intro n hn i c hc
      rw [← h.tag c (ht n c (mem_of_child? hc))]
      exact hu n ((h.tag n (hlt hn)).trans hn) i c (hold hc)
    · intro hhook j c hc hodd
      have hplace : u.child? hook ((t.children hook).size + j) = some c := by
        rw [child?_eq_some, h.children hook (hlt hhook), if_pos rfl, ← Array.length_toList,
          List.getElem?_append_right (Nat.le_add_right _ _), Nat.add_sub_cancel_left, hc]
      have hindex : (t.children hook).size + j = 2 * (((t.children hook).size + j) / 2) + 1 := by
        omega
      rw [hindex] at hplace
      exact hu hook ((h.tag hook (hlt hhook)).trans hhook) _ c hplace
  · rintro ⟨hlaid, hnew⟩ n hn i c hc
    by_cases hnlt : n < t.size
    · have htag := (h.tag n hnlt).symm.trans hn
      rw [child?_eq_some, h.children n hnlt] at hc
      by_cases hi : 2 * i + 1 < (t.children n).toList.length
      · have hc' : t.child? n (2 * i + 1) = some c := by
          rw [child?_eq_some]
          split at hc
          · rwa [List.getElem?_append_left hi] at hc
          · exact hc
        rw [h.tag c (ht n c (mem_of_child? hc'))]
        exact hlaid n htag i c hc'
      · by_cases hhook : n = hook
        · rw [if_pos hhook, List.getElem?_append_right (Nat.le_of_not_lt hi)] at hc
          apply hnew (hhook ▸ htag) _ c hc
          rw [Array.length_toList] at hi ⊢
          rw [← hhook]
          omega
        · rw [if_neg hhook] at hc
          exact absurd (List.getElem?_eq_some_iff.mp hc).1 hi
    · -- a new `if` has no odd place yet
      have hsize := h.budding n (Nat.le_of_not_lt hnlt) hn
      rw [child?_eq_some] at hc
      have hi := (List.getElem?_eq_some_iff.mp hc).1
      rw [Array.length_toList] at hi
      omega

theorem sprouts_attach {c : NodeId} (hu : t.PrefixOf u) (hbudding : t.Budding u)
    (hook_lt : hook < t.size) : t.Sprouts (u.attach hook c) hook [c] where
  tag n hn := by rw [tag_attach, Tree.tag, hu.node n hn, Tree.tag]
  children n hn := by
    rw [children_attach_of_lt (hook_lt.trans_le hu.size_le), children, hu.node n hn, ← children]
    split
    · rw [Array.toList_push]
    · rfl
  budding n hn hbranch := by
    have hne : n ≠ hook := (Nat.ne_of_lt (hook_lt.trans_le hn)).symm
    rw [children_attach_of_lt (hook_lt.trans_le hu.size_le), if_neg hne]
    exact hbudding n hn (tag_attach ▸ hbranch)

theorem Sprouts.attach {c : NodeId} (h : t.Sprouts u hook new) (hook_lt : hook < t.size)
    (hle : t.size ≤ u.size) : t.Sprouts (u.attach hook c) hook (new ++ [c]) where
  tag n hn := by rw [tag_attach, h.tag n hn]
  children n hn := by
    rw [children_attach_of_lt (hook_lt.trans_le hle)]
    split
    · next hn' => rw [Array.toList_push, h.children n hn, if_pos hn', List.append_assoc]
    · next hn' => rw [h.children n hn, if_neg hn']
  budding n hn hbranch := by
    have hne : n ≠ hook := (Nat.ne_of_lt (hook_lt.trans_le hn)).symm
    rw [children_attach_of_lt (hook_lt.trans_le hle), if_neg hne]
    exact h.budding n hn (tag_attach ▸ hbranch)

namespace Growth

variable {P : String → Nat → Prop} {g g' : Growth} {eof token : Token} {rest rest' tokens : List Token}
  {litter loose : List NodeId} {branch : NodeId}

/-- What `else` hangs on the `if` at `branch`: its condition and a body, which is open then. -/
structure Furthered (g g' : Growth) (branch condition : NodeId) : Prop where
  parent : g.tree.parent g.scope = some branch
  tag_branch : g.tree.tag branch = .branch
  condition_new : g.tree.size ≤ condition
  condition_tag : (g'.tree.tag condition).inExpression = true
  scope_new : g.tree.size ≤ g'.scope
  scope_tag : g'.tree.tag g'.scope = .body
  sprouts : g.tree.Sprouts g'.tree branch [condition, g'.scope]

theorem Placed.furthered (h : g.Placed token litter g') (hg : g.tree.Grove loose)
    (hfurthers : token.furthers = true) : ∃ branch condition, Furthered g g' branch condition := by
  cases h with
  | hang hstays =>
    rw [hstays.furthers] at hfurthers
    cases hfurthers
  | enter _ _ _ hnot =>
    rw [hnot] at hfurthers
    cases hfurthers
  | @further u branch c _ _ _ hparent hbranch hu hbody hc =>
    have hlt := hg.parent_lt hparent
    have hsprouts := sprouts_attach (c := c) hu.stands (hu.budding fun hk => hk rfl) hlt
    refine ⟨branch, c, hparent, hbranch, (hu.top List.mem_cons_self).1, ?_, Nat.le_refl _, ?_, ?_⟩
    · rw [tag_attach, tag_attach]
      exact hc
    · rw [tag_attach, tag_attach]
      exact hbody
    · exact hsprouts.attach hlt (by rw [size_attach]; exact hu.size_le)
  | leave _ _ hnot =>
    rw [hnot] at hfurthers
    cases hfurthers

theorem Placed.sprouts (h : g.Placed token litter g') (hg : g.tree.Grove loose)
    (hscope : g.scope < g.tree.size) (hfurthers : token.furthers = false) :
    ∃ hook new, g.tree.Sprouts g'.tree hook new ∧
      (hook = g.scope ∨ ∀ c ∈ new, g'.tree.tag c = .body) := by
  cases h with
  | @hang u c _ hu hbudding =>
    exact ⟨g.scope, [c], sprouts_attach hu.stands hbudding hscope, Or.inl rfl⟩
  | @enter owner position _ _ _ hlast _ =>
    have hadd : Beside (· ≠ .branch) g.tree _ _ :=
      Beside.refl.add .body "body" position Tag.noConfusion
    have howner : owner < g.tree.size := hg.child_lt (Array.mem_of_back? hlast)
    refine ⟨owner, [g.tree.size], sprouts_attach hadd.stands (hadd.budding fun hk => hk rfl) howner,
      Or.inr ?_⟩
    intro c hc
    rw [List.mem_singleton.mp hc, tag_attach, tag_new]
  | further _ _ hfurthers' =>
    rw [hfurthers] at hfurthers'
    cases hfurthers'
  | leave =>
    refine ⟨g.scope, [], ⟨fun _ _ => rfl, fun n _ => ?_, fun n hn hbranch => ?_⟩, Or.inl rfl⟩
    · simp
    · rw [children_of_le hn]
      exact Nat.zero_le _

/-- Only `else` can put something in a wrong place, and it does so exactly where it finds an odd
number of children. -/
theorem Placed.laidOut_iff (h : g.Placed token litter g') (hg : g.Shaped P) :
    g'.tree.LaidOut ↔ g.tree.LaidOut ∧ (token.furthers = true →
      ∀ branch, g.tree.parent g.scope = some branch → (g.tree.children branch).size % 2 = 0) := by
  obtain ⟨loose, hgrove⟩ := hg.rooted.grove
  have hchild : ∀ n, ∀ c ∈ g.tree.children n, c < g.tree.size := fun _ _ => hgrove.child_lt
  -- only `else` puts a second child on an `if`
  cases hfurthers : token.furthers with
  | false =>
    obtain ⟨hook, new, hsprouts, hnew⟩ := h.sprouts hgrove hg.scope_lt hfurthers
    rw [hsprouts.laidOut_iff hchild]
    apply and_congr_right
    intro _
    refine iff_of_true (fun hhook j c hc _ => ?_) (fun hk => absurd hk Bool.false_ne_true)
    rcases hnew with rfl | hnew
    · have hscope := hg.scope
      rw [hhook] at hscope
      cases hscope
    · exact hnew c (List.mem_of_getElem? hc)
  | true =>
    obtain ⟨branch, condition, hf⟩ := h.furthered hgrove hfurthers
    rw [hf.sprouts.laidOut_iff hchild]
    apply and_congr_right
    intro _
    constructor
    · intro hnew _ branch' hparent
      obtain rfl : branch' = branch := Option.some.inj (hparent.symm.trans hf.parent)
      by_contra heven
      have htag := hnew hf.tag_branch 0 condition rfl (by omega)
      have hexpression := hf.condition_tag
      rw [htag] at hexpression
      cases hexpression
    · intro heven _ j c hc hodd
      have hsize := heven rfl branch hf.parent
      match j with
      | 0 => omega
      | 1 =>
        cases hc
        exact hf.scope_tag
      | j + 2 => cases hc

/-- A growth that succeeds lays its branches out right exactly if each `else` on its way finds an even
number of children on its `if`. -/
theorem grow_laidOut_iff (hg : g.Shaped fun _ _ => True) (h : grow eof g tokens = .ok t) :
    t.LaidOut ↔ g.tree.LaidOut ∧ ∀ g' token rest, Passes eof g tokens g' (token :: rest) →
      token.furthers = true → ∀ branch, g'.tree.parent g'.scope = some branch →
        (g'.tree.children branch).size % 2 = 0 := by
  fun_induction grow eof g tokens with
  | case1 g =>
    cases h
    refine ⟨fun hlaid => ⟨hlaid, fun g' token rest hpasses => ?_⟩, fun hlaid => hlaid.1⟩
    cases hpasses
  | case2 g token rest g' rest' hs ih =>
    obtain ⟨litter, hplaced, -⟩ := statement_places hs
    have hshaped := statement_shaped hg trivial (fun _ _ => trivial) hs
    rw [ih hshaped h, hplaced.laidOut_iff hg, and_assoc]
    apply and_congr_right
    intro _
    constructor
    · rintro ⟨hfirst, hrest⟩ g'' token' rest'' hpasses
      cases hpasses with
      | refl => exact hfirst
      | step hs' hpasses =>
        rw [hs] at hs'
        cases hs'
        exact hrest g'' token' rest'' hpasses
    · intro hall
      exact ⟨hall g token rest .refl, fun g'' token' rest'' hpasses =>
        hall g'' token' rest'' (.step hs hpasses)⟩
  | case3 => cases h

theorem Furthered.child? {condition : NodeId} (h : Furthered g g' branch condition)
    (ht : g'.tree.GrowsTo t) :
    t.child? branch (g.tree.children branch).size = some condition ∧
      t.child? branch ((g.tree.children branch).size + 1) = some g'.scope := by
  have hbranch : branch < g.tree.size := lt_of_tag (by rw [h.tag_branch]; decide)
  have hscope : g'.scope < g'.tree.size := lt_of_tag (by rw [h.scope_tag]; decide)
  obtain ⟨new, hnew, -⟩ := ht.children branch (hbranch.trans (h.scope_new.trans_lt hscope))
  have hchildren := h.sprouts.children branch hbranch
  rw [if_pos rfl] at hchildren
  rw [child?_eq_some, child?_eq_some, hnew, hchildren, List.append_assoc, ← Array.length_toList,
    List.getElem?_append_right (Nat.le_refl _), List.getElem?_append_right (Nat.le_add_right _ 1),
    Nat.sub_self, Nat.add_sub_cancel_left]
  exact ⟨rfl, rfl⟩

end Growth

theorem planted_laidOut : planted.LaidOut := by
  intro n hn
  have hlt : n < planted.size := lt_of_tag (by rw [hn]; decide)
  have hroot : n = 0 := Nat.lt_one_iff.mp hlt
  rw [hroot] at hn
  cases hn

theorem planted_shaped (P : String → Nat → Prop) : Growth.Shaped P ⟨planted, root⟩ :=
  ⟨⟨⟨[], planted_grove⟩, .refl⟩, planted_formed P, rfl⟩

end Arbor.Tree
