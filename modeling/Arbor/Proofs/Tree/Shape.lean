import Arbor.Proofs.Expr.Made
import Arbor.Proofs.Tree.Planting

/-!
# The shape of a tree

What can hang on a node, and in which place. A predicate on texts and offsets says which texts are
shown where they stand in a source. Of the nodes that are evaluated or executed only the body and
the condition of an `else` may show another text; they hang on an `if`, behind conditions that take
as many levels.
-/
namespace Arbor

open Arbor.Expr (Frame Stuck)

def Tag.isExpression : Tag → Bool
  | .textLiteral | .numberLiteral | .get | .call | .operator => true
  | _ => false

def Tag.isStatement : Tag → Bool
  | .call | .branch | .loop | .store | .giveBack | .output | .input | .remove | .function
  | .pass => true
  | _ => false

def Tag.isScope : Tag → Bool
  | .root | .body => true
  | _ => false

def Tag.isNaming : Tag → Bool
  | .get | .call | .store | .function | .input | .remove => true
  | _ => false

structure Label where
  tag : Tag
  text : String
  position : Nat
  deriving DecidableEq, Repr

namespace Label

def shown (l : Label) : String := if l.tag = .body then "\x7b" else l.text

/-- The number of levels that evaluating a node takes by itself. -/
def levels (l : Label) : Nat := if l.tag = .body then 2 else 1

variable (P : String → Nat → Prop)

structure Expression (l : Label) : Prop where
  tag : l.tag.isExpression = true
  shown : P l.shown l.position

structure Block (l : Label) : Prop where
  tag : l.tag = .body
  shown : P l.shown l.position

/-- Whether `l` can stand at the place `index` below a node with the tag `parent`. -/
def Fits (parent : Tag) (index : Nat) (l : Label) : Prop :=
  match parent with
  | .root | .body => l.tag.isStatement = true
  | .branch => l.tag.isExpression = true ∨ l.tag = .body
  | .function | .call => if index = 0 then l.tag = .arguments else l.Block P
  | .arguments => l.tag = .store ∨ l.Expression P
  | .operator => l.Expression P
  | .textLiteral | .numberLiteral | .get => False
  | _ => index = 0 ∧ l.Expression P ∨ l.Block P

/-- Every second label, from the first on, is shown, or `room` levels reach for it, or a label that
takes as many levels stands in such a place before it. -/
def Guarded (room : Nat) (ls : List Label) : Prop :=
  ∀ i l, ls[2 * i]? = some l →
    P l.shown l.position ∨ l.levels ≤ room ∨ ∃ j < i, ∃ k, ls[2 * j]? = some k ∧ l.levels ≤ k.levels

/-- The parts of an `if`. A body that comes last in the place of a condition is not the first body
in such a place, unless it is the only one. -/
structure Branching (ls : List Label) : Prop where
  guarded : Guarded P 0 ls
  odd : ls.length % 2 = 1 → (∃ l ∈ ls, l.tag = .body) → ∃ i l, ls[2 * i]? = some l ∧ l.tag = .body

variable {P} {Q : String → Nat → Prop} {l : Label} {ls : List Label} {parent : Tag}
  {index room : Nat}

theorem Expression.tag_ne_body (h : l.Expression P) : l.tag ≠ .body := by
  intro hbody
  have htag := h.tag
  rw [hbody] at htag
  cases htag

theorem Fits.tag_ne_root (h : Fits P parent index l) : l.tag ≠ .root := by
  intro hroot
  have hexpression : ¬l.Expression P := fun he => by
    have htag := he.tag
    rw [hroot] at htag
    cases htag
  have hblock : ¬l.Block P := fun hb => by
    have htag := hb.tag
    rw [hroot] at htag
    cases htag
  cases parent <;> simp only [Fits, hroot] at h <;> simp_all [Tag.isExpression, Tag.isStatement]

theorem Expression.imp (hPQ : ∀ text start, P text start → Q text start) (h : l.Expression P) :
    l.Expression Q :=
  ⟨h.tag, hPQ _ _ h.shown⟩

theorem Block.imp (hPQ : ∀ text start, P text start → Q text start) (h : l.Block P) : l.Block Q :=
  ⟨h.tag, hPQ _ _ h.shown⟩

theorem Fits.imp (hPQ : ∀ text start, P text start → Q text start) (h : Fits P parent index l) :
    Fits Q parent index l := by
  have hplace : index = 0 ∧ l.Expression P ∨ l.Block P → index = 0 ∧ l.Expression Q ∨ l.Block Q := by
    intro hl
    rcases hl with ⟨hindex, he⟩ | hb
    · exact Or.inl ⟨hindex, he.imp hPQ⟩
    · exact Or.inr (hb.imp hPQ)
  have hlist : (if index = 0 then l.tag = .arguments else l.Block P) →
      if index = 0 then l.tag = .arguments else l.Block Q := by
    intro hl
    split at hl
    · next hindex => rw [if_pos hindex]; exact hl
    · next hindex => rw [if_neg hindex]; exact hl.imp hPQ
  cases parent <;> first
    | exact h
    | exact Expression.imp hPQ h
    | exact hplace h
    | exact hlist h
    | exact h.imp id (Expression.imp hPQ)

theorem Branching.imp (hPQ : ∀ text start, P text start → Q text start) (h : Branching P ls) :
    Branching Q ls where
  guarded i k hk := (h.guarded i k hk).imp (hPQ _ _) id
  odd := h.odd

theorem branching_nil : Branching P [] where
  guarded i l h := by cases h
  odd h := by cases h

theorem branching_condition (h : l.Expression P) : Branching P [l] where
  guarded i k hk := by
    have hi : i = 0 := by
      have := (List.getElem?_eq_some_iff.mp hk).1
      simp only [List.length_singleton] at this
      omega
    subst hi
    cases hk
    exact Or.inl h.shown
  odd _ hbody := by
    obtain ⟨k, hk, htag⟩ := hbody
    rw [List.mem_singleton.mp hk] at htag
    exact absurd htag h.tag_ne_body

theorem Branching.block (h : Branching P ls) (hl : l.Block P) : Branching P (ls ++ [l]) where
  guarded i k hk := by
    by_cases hi : 2 * i < ls.length
    · rw [List.getElem?_append_left hi] at hk
      rcases h.guarded i k hk with hs | hr | ⟨j, hj, d, hd, hle⟩
      · exact Or.inl hs
      · exact Or.inr (Or.inl hr)
      · refine Or.inr (Or.inr ⟨j, hj, d, ?_, hle⟩)
        rw [List.getElem?_append_left (by omega), hd]
    · rw [List.getElem?_append_right (by omega)] at hk
      have hk' : k = l := List.mem_singleton.mp (List.mem_of_getElem? hk)
      exact Or.inl (hk' ▸ hl.shown)
  odd hodd _ := by
    rw [List.length_append, List.length_singleton] at hodd
    refine ⟨ls.length / 2, l, ?_, hl.tag⟩
    have hlength : 2 * (ls.length / 2) = ls.length := by omega
    rw [hlength]
    simp

theorem Branching.pair {c b : Label} (h : Branching P ls) (hbody : ∃ l ∈ ls, l.tag = .body)
    (hc : c.tag ≠ .body) : Branching P (ls ++ [c, b]) where
  guarded i k hk := by
    by_cases hi : 2 * i < ls.length
    · rw [List.getElem?_append_left hi] at hk
      rcases h.guarded i k hk with hs | hr | ⟨j, hj, d, hd, hle⟩
      · exact Or.inl hs
      · exact Or.inr (Or.inl hr)
      · refine Or.inr (Or.inr ⟨j, hj, d, ?_, hle⟩)
        rw [List.getElem?_append_left (by omega), hd]
    · have hlt : 2 * i < (ls ++ [c, b]).length := (List.getElem?_eq_some_iff.mp hk).1
      rw [List.length_append, List.length_cons, List.length_singleton] at hlt
      have hpos : 0 < ls.length := by
        obtain ⟨d, hd, _⟩ := hbody
        exact List.length_pos_of_mem hd
      by_cases heven : ls.length % 2 = 0
      · -- the condition is in the place of a condition, and the first one takes as many levels
        have hk' : 2 * i - ls.length = 0 := by omega
        rw [List.getElem?_append_right (by omega), hk'] at hk
        cases hk
        refine Or.inr (Or.inr ⟨0, by omega, ls[0], ?_, ?_⟩)
        · rw [Nat.mul_zero, List.getElem?_append_left hpos, List.getElem?_eq_getElem hpos]
        · simp only [levels, if_neg hc]
          split <;> omega
      · -- the body is, and so is an earlier body
        obtain ⟨j, d, hd, htag⟩ := h.odd (by omega) hbody
        have hj := (List.getElem?_eq_some_iff.mp hd).1
        refine Or.inr (Or.inr ⟨j, by omega, d, ?_, ?_⟩)
        · rw [List.getElem?_append_left hj, hd]
        · simp only [levels, if_pos htag]
          split <;> omega
  odd hodd _ := by
    rw [List.length_append, List.length_cons, List.length_singleton] at hodd
    obtain ⟨j, d, hd, htag⟩ := h.odd (by omega) hbody
    have hj := (List.getElem?_eq_some_iff.mp hd).1
    exact ⟨j, d, by rw [List.getElem?_append_left hj, hd], htag⟩

theorem Guarded.head (h : Guarded P room (l :: ls)) :
    P l.shown l.position ∨ l.levels ≤ room := by
  rcases h 0 l rfl with hs | hr | ⟨j, hj, _⟩
  · exact Or.inl hs
  · exact Or.inr hr
  · omega

theorem Guarded.tail {b : Label} (h : Guarded P room (l :: b :: ls)) :
    Guarded P (max room l.levels) ls := by
  intro i k hk
  have hplace : ∀ j, (l :: b :: ls)[2 * (j + 1)]? = ls[2 * j]? := by
    intro j
    rw [Nat.mul_succ, List.getElem?_cons_succ, List.getElem?_cons_succ]
  rcases h (i + 1) k (by rw [hplace, hk]) with hs | hr | ⟨j, hj, d, hd, hle⟩
  · exact Or.inl hs
  · exact Or.inr (Or.inl (by omega))
  · cases j with
    | zero =>
      cases hd
      exact Or.inr (Or.inl (by omega))
    | succ j =>
      rw [hplace] at hd
      exact Or.inr (Or.inr ⟨j, by omega, d, hd, hle⟩)

end Label

namespace Tree

def label (t : Tree) (n : NodeId) : Label := ⟨t.tag n, t.text n, t.position n⟩

variable (P : String → Nat → Prop)

structure Hangs (t : Tree) (n : NodeId) (index : Nat) (c : NodeId) : Prop where
  fits : Label.Fits P (t.tag n) index (t.label c)
  listed : t.tag c = .function ∨ t.tag c = .call → ∃ l, t.child? c 0 = some l
  listing : t.tag c = .arguments → ∀ d ∈ t.children c,
    if t.tag n = .function then t.tag d = .store else (t.label d).Expression P
  bodies : t.tag c = .body → ∃ q, t.parent n = some q ∧ (t.tag q).isScope = true

structure Formed (t : Tree) : Prop where
  hangs : ∀ n i c, t.child? n i = some c → t.Hangs P n i c
  branches : ∀ n, t.tag n = .branch → Label.Branching P ((t.children n).toList.map t.label)
  calls : ∀ n, t.tag n = .call → P (t.text n) (t.position n)

variable {P} {Q : String → Nat → Prop} {t u : Tree} {n p c d : NodeId} {i : Nat} {new : List NodeId} {loose : List NodeId}

@[simp] theorem label_attach (p c n : NodeId) : (t.attach p c).label n = t.label n := by
  simp only [label, tag_attach, text_attach, position_attach]

theorem label_add {tag : Tag} {text : String} {position : Nat} :
    (t.add tag text position).label n =
      if n = t.size then ⟨tag, text, position⟩ else t.label n := by
  simp only [label, Tree.tag, Tree.text, Tree.position, node_add]
  split <;> rfl

theorem label_add_of_lt {tag : Tag} {text : String} {position : Nat} (h : n < t.size) :
    (t.add tag text position).label n = t.label n := by
  rw [label_add, if_neg (Nat.ne_of_lt h)]

theorem tag_of_le (h : t.size ≤ n) : t.tag n = .root := by
  rw [Tree.tag, node_of_le h]
  rfl

theorem lt_of_tag (h : t.tag n ≠ .root) : n < t.size := by
  by_contra hn
  exact h (tag_of_le (Nat.le_of_not_lt hn))

theorem tag_of_label (h : u.label n = t.label n) : u.tag n = t.tag n := congrArg Label.tag h

theorem PrefixOf.label (h : t.PrefixOf u) (hn : n < t.size) : u.label n = t.label n := by
  simp only [Tree.label, Tree.tag, Tree.text, Tree.position, h.node n hn]

theorem child?_eq_some : t.child? n i = some c ↔ (t.children n).toList[i]? = some c := by
  rw [child?, Array.getElem?_toList]

theorem mem_of_child? (h : t.child? n i = some c) : c ∈ t.children n := Array.mem_of_getElem? h

theorem child?_of_mem (h : c ∈ t.children n) : ∃ i, t.child? n i = some c :=
  Array.mem_iff_getElem?.mp h

theorem Hangs.lt (h : t.Hangs P n i c) : c < t.size := lt_of_tag h.fits.tag_ne_root

theorem Formed.child_lt (h : t.Formed P) (hc : t.child? n i = some c) : c < t.size :=
  (h.hangs n i c hc).lt

theorem Formed.mem_lt (h : t.Formed P) (hc : c ∈ t.children n) : c < t.size := by
  obtain ⟨i, hi⟩ := child?_of_mem hc
  exact h.child_lt hi

theorem Formed.imp (hPQ : ∀ text start, P text start → Q text start) (h : t.Formed P) :
    t.Formed Q := by
  constructor
  · intro n i c hc
    have hhangs := h.hangs n i c hc
    constructor
    · exact hhangs.fits.imp hPQ
    · exact hhangs.listed
    · intro hk d hd
      have hlisting := hhangs.listing hk d hd
      split at hlisting
      · next hn => rw [if_pos hn]; exact hlisting
      · next hn => rw [if_neg hn]; exact hlisting.imp hPQ
    · exact hhangs.bodies
  · intro n hn
    exact (h.branches n hn).imp hPQ
  · intro n hn
    exact hPQ _ _ (h.calls n hn)

theorem Formed.argument {l : NodeId} (h : t.Formed P) (hn : t.tag n = .call)
    (hl : t.child? n 0 = some l) (hd : d ∈ t.children l) : (t.label d).Expression P := by
  have hhangs := h.hangs n 0 l hl
  have hlist : t.tag l = .arguments := by
    have hfits := hhangs.fits
    rw [hn] at hfits
    exact hfits
  have hlisting := hhangs.listing hlist d hd
  rw [hn] at hlisting
  exact hlisting

theorem Hangs.mono (h : t.Hangs P n i c) (hn : u.tag n = t.tag n) (hc : u.label c = t.label c)
    (hfirst : ∀ l, t.child? c 0 = some l → u.child? c 0 = some l)
    (hlist : t.tag c = .arguments → u.children c = t.children c ∧
      ∀ d ∈ t.children c, u.label d = t.label d)
    (hparent : ∀ q, t.parent n = some q → u.parent n = some q ∧ u.tag q = t.tag q) :
    u.Hangs P n i c := by
  have htag := tag_of_label hc
  constructor
  · rw [hn, hc]
    exact h.fits
  · intro hk
    obtain ⟨l, hl⟩ := h.listed (htag ▸ hk)
    exact ⟨l, hfirst l hl⟩
  · intro hk d hd
    obtain ⟨hchildren, hlabels⟩ := hlist (htag ▸ hk)
    rw [hchildren] at hd
    have hlisting := h.listing (htag ▸ hk) d hd
    rw [hn, tag_of_label (hlabels d hd), hlabels d hd]
    exact hlisting
  · intro hk
    obtain ⟨q, hq, hscope⟩ := h.bodies (htag ▸ hk)
    obtain ⟨hq', htag'⟩ := hparent q hq
    exact ⟨q, hq', htag' ▸ hscope⟩

theorem Formed.add (h : t.Formed P) (hg : t.Grove loose) (tag : Tag) (text : String)
    (position : Nat) (hcall : tag = .call → P text position) :
    (t.add tag text position).Formed P := by
  have hlabel : ∀ m < t.size, (t.add tag text position).label m = t.label m :=
    fun m hm => label_add_of_lt hm
  constructor
  · intro n i c hc
    have hc' : t.child? n i = some c := by rw [child?, ← hc, child?, children_add]
    have hn := lt_of_mem_children (mem_of_child? hc')
    refine (h.hangs n i c hc').mono (tag_of_label (hlabel n hn))
      (hlabel c (h.child_lt hc')) ?_ ?_ ?_
    · intro l hl
      rw [child?, children_add]
      exact hl
    · intro _
      exact ⟨children_add, fun d hd => hlabel d (h.mem_lt hd)⟩
    · intro q hq
      exact ⟨by rw [parent_add, hq], tag_of_label (hlabel q (hg.parent_lt hq))⟩
  · intro n hn
    rw [children_add]
    by_cases hnew : n < t.size
    · have hmap : (t.children n).toList.map (t.add tag text position).label =
          (t.children n).toList.map t.label := by
        apply List.map_congr_left
        intro c hc
        exact hlabel c (h.mem_lt (Array.mem_toList_iff.mp hc))
      rw [hmap]
      exact h.branches n (tag_of_label (hlabel n hnew) ▸ hn)
    · rw [children_of_le (Nat.le_of_not_lt hnew)]
      exact Label.branching_nil
  · intro n hn
    have hl := @label_add t n tag text position
    have htext := congrArg Label.text hl
    have hposition := congrArg Label.position hl
    have htag := congrArg Label.tag hl
    simp only [label] at htext hposition htag
    rw [htext, hposition]
    by_cases hnew : n = t.size
    · rw [if_pos hnew] at htag ⊢
      exact hcall (htag.symm.trans hn)
    · rw [if_neg hnew] at htag ⊢
      exact h.calls n (htag.symm.trans hn)

theorem Formed.add_plain (h : t.Formed P) (hg : t.Grove loose) (tag : Tag) (text : String)
    (position : Nat) (htag : tag ≠ .call) : (t.add tag text position).Formed P :=
  h.add hg tag text position fun hk => absurd hk htag

structure Hung (t u : Tree) (p : NodeId) (new : List NodeId) : Prop where
  label : ∀ n, u.label n = t.label n
  parent : ∀ n, u.parent n = if n ∈ new then some p else t.parent n
  children : ∀ n, (u.children n).toList =
    if n = p then (t.children n).toList ++ new else (t.children n).toList
  free : ∀ c ∈ new, t.parent c = none

theorem Hung.attach (hc : c < t.size) (hp : p < t.size) (hfree : t.parent c = none) :
    Hung t (t.attach p c) p [c] where
  label := label_attach p c
  parent n := by
    rw [parent_attach_of_lt hc]
    simp only [List.mem_singleton]
  children n := by
    rw [children_attach_of_lt hp]
    split
    · rw [Array.toList_push]
    · rfl
  free d hd := by
    rw [List.mem_singleton.mp hd]
    exact hfree

theorem Hung.attach_attach (hc : c < t.size) (hd : d < t.size) (hp : p < t.size) (hcd : c ≠ d)
    (hcfree : t.parent c = none) (hdfree : t.parent d = none) :
    Hung t ((t.attach p c).attach p d) p [c, d] := by
  have hfirst := Hung.attach hc hp hcfree
  have hfree : (t.attach p c).parent d = none := by
    rw [parent_attach_of_lt hc, if_neg hcd.symm, hdfree]
  have hsecond := @Hung.attach (t.attach p c) p d (by rw [size_attach]; exact hd)
    (by rw [size_attach]; exact hp) hfree
  constructor
  · intro n
    rw [hsecond.label, hfirst.label]
  · intro n
    rw [hsecond.parent, hfirst.parent]
    by_cases hnc : n = c
    · by_cases hnd : n = d <;> simp [hnc]
    · by_cases hnd : n = d <;> simp [hnc, hnd]
  · intro n
    rw [hsecond.children, hfirst.children]
    split <;> simp
  · intro m hm
    rcases List.mem_cons.mp hm with rfl | hm
    · exact hcfree
    · rw [List.mem_singleton.mp hm]
      exact hdfree

theorem Hung.tag (h : Hung t u p new) (n : NodeId) : u.tag n = t.tag n := tag_of_label (h.label n)

theorem Hung.child? (h : Hung t u p new) (hc : t.child? n i = some c) : u.child? n i = some c := by
  rw [child?_eq_some] at hc ⊢
  rw [h.children]
  split
  · rw [List.getElem?_append_left (List.getElem?_eq_some_iff.mp hc).1, hc]
  · exact hc

theorem Hangs.hung (hc : t.Hangs P n i c) (h : Hung t u p new)
    (hlist : t.tag c = .arguments → c ≠ p) : u.Hangs P n i c := by
  refine hc.mono (h.tag n) (h.label c) (fun l => h.child?) ?_ ?_
  · intro hk
    refine ⟨Array.toList_inj.mp ?_, fun d _ => h.label d⟩
    rw [h.children, if_neg (hlist hk)]
  · intro q hq
    refine ⟨?_, h.tag q⟩
    rw [h.parent, if_neg, hq]
    intro hm
    rw [h.free n hm] at hq
    cases hq

/-- Hanging nodes that fit. A list that hangs on a node itself gets no further children. -/
theorem Formed.hang (ht : t.Formed P) (h : Hung t u p new)
    (hnew : ∀ j c, new[j]? = some c → t.Hangs P p ((t.children p).size + j) c)
    (hlist : t.tag p = .arguments → ∀ n, p ∉ t.children n)
    (hbranch : t.tag p = .branch →
      Label.Branching P (((t.children p).toList ++ new).map t.label)) : u.Formed P := by
  constructor
  · intro n i c hc
    by_cases hold : t.child? n i = some c
    · refine (ht.hangs n i c hold).hung h ?_
      rintro hk rfl
      exact hlist hk n (mem_of_child? hold)
    · rw [child?_eq_some] at hold hc
      rw [h.children] at hc
      by_cases hn : n = p
      · subst hn
        rw [if_pos rfl] at hc
        have hi : (t.children n).toList.length ≤ i := by
          by_contra hi
          rw [List.getElem?_append_left (Nat.lt_of_not_le hi)] at hc
          exact hold hc
        rw [List.getElem?_append_right hi] at hc
        have hplace := hnew _ c hc
        rw [Array.length_toList] at hi hplace
        rw [Nat.add_sub_cancel' hi] at hplace
        refine hplace.hung h ?_
        rintro hk rfl
        -- no list fits below a list
        have hfits := hplace.fits
        rw [hk] at hfits
        rcases hfits with htag | he
        · exact Tag.noConfusion (hk.symm.trans htag)
        · have htag := he.tag
          rw [show (t.label c).tag = .arguments from hk] at htag
          cases htag
      · rw [if_neg hn] at hc
        exact absurd hc hold
  · intro n hn
    rw [h.tag] at hn
    have hlabels : u.label = t.label := funext h.label
    rw [h.children, hlabels]
    split
    · next hp => exact hp ▸ hbranch (hp ▸ hn)
    · exact ht.branches n hn
  · intro n hn
    have htext : u.text n = t.text n := congrArg Label.text (h.label n)
    have hposition : u.position n = t.position n := congrArg Label.position (h.label n)
    rw [htext, hposition]
    exact ht.calls n (h.tag n ▸ hn)

theorem Formed.attach (ht : t.Formed P) (hc : c < t.size) (hp : p < t.size)
    (hfree : t.parent c = none) (hhangs : t.Hangs P p (t.children p).size c)
    (hlist : t.tag p = .arguments → ∀ n, p ∉ t.children n)
    (hbranch : t.tag p = .branch →
      Label.Branching P (((t.children p).toList ++ [c]).map t.label)) :
    (t.attach p c).Formed P := by
  refine ht.hang (.attach hc hp hfree) ?_ hlist hbranch
  intro j d hd
  have hj : j = 0 := by
    have := (List.getElem?_eq_some_iff.mp hd).1
    simp only [List.length_singleton] at this
    omega
  subst hj
  cases hd
  exact hhangs

end Tree

end Arbor
