import Arbor.Proofs.Memory.Layered
import Mathlib

/-!
# Memory as a list of recent bindings

A plainer table keeps its bindings in a list. What is created or written over moves to the front,
what is removed is dropped, and the first visible binding of a name counts. The slots of a memory
keep their order instead. Both tables hold the same bindings, and in neither does one that covers
another of its name stand behind it, so that both resolve to the outermost visible one.
-/
namespace Arbor

def Memory.seedAll (m : Memory) (seeds : List (String × Value)) : Memory :=
  seeds.foldl (fun m s => m.seed s.1 s.2) m

/-- Bindings, the one that was created or written over last in front. -/
structure Recents where
  entries : List Binding
  deriving DecidableEq, Repr

namespace Recents

def empty : Recents := ⟨[]⟩

def seed (r : Recents) (name : String) (value : Value) : Recents :=
  ⟨⟨name, value, none, none⟩ :: r.entries⟩

def seedAll (r : Recents) (seeds : List (String × Value)) : Recents :=
  seeds.foldl (fun r s => r.seed s.1 s.2) r

def sees (t : Tree) (name : String) (access : NodeId) (b : Binding) : Bool :=
  b.name == name && t.encloses b.anchor access

def resolve (r : Recents) (t : Tree) (name : String) (access : NodeId) : Option Binding :=
  r.entries.find? (sees t name access)

def remove (r : Recents) (t : Tree) (name : String) (access : NodeId) : Recents :=
  ⟨r.entries.eraseP (sees t name access)⟩

/-- Writes over the first visible binding of `name` and moves it to the front, or creates one. -/
def store (r : Recents) (t : Tree) (name : String) (value : Value) (params : Option NodeId)
    (access : NodeId) : Recents :=
  match r.resolve t name access with
  | some b => ⟨{ b with value, params } :: (r.remove t name access).entries⟩
  | none => ⟨⟨name, value, params, some access⟩ :: r.entries⟩

def write (t : Tree) (r : Recents) : Memory.Write → Recents
  | .store name value params access => r.store t name value params access
  | .remove name access => r.remove t name access

def writes (t : Tree) (r : Recents) (ws : List Memory.Write) : Recents := ws.foldl (write t) r

variable {t : Tree} {m : Memory} {r : Recents} {name : String} {access : NodeId} {b c : Binding}

theorem sees_iff : sees t name access b = true ↔
    b.name = name ∧ t.encloses b.anchor access = true := by
  rw [sees, Bool.and_eq_true, beq_iff_eq]

def Ordered (t : Tree) (entries : List Binding) : Prop :=
  entries.Pairwise fun front behind =>
    front.name = behind.name → t.covers behind.anchor front.anchor = false

theorem Ordered.nodup {entries : List Binding} (h : Ordered t entries) (hn : t.Nests) :
    entries.Nodup := by
  refine List.Pairwise.imp ?_ h
  rintro front behind hcovers rfl
  have hnot := hcovers rfl
  rw [hn.covers_self] at hnot
  cases hnot

theorem resolve_cases (r : Recents) (t : Tree) (name : String) (access : NodeId) :
    (r.resolve t name access = none ∧ r.remove t name access = r ∧
      ∀ c ∈ r.entries, sees t name access c = false) ∨
    ∃ b before after, r.resolve t name access = some b ∧ sees t name access b = true ∧
      r.entries = before ++ b :: after ∧ (∀ c ∈ before, sees t name access c = false) ∧
      r.remove t name access = ⟨before ++ after⟩ := by
  by_cases hseen : ∃ c ∈ r.entries, sees t name access c = true
  · obtain ⟨c, hc, hsees⟩ := hseen
    obtain ⟨b, before, after, hbefore, hb, hentries, herase⟩ := List.exists_of_eraseP hc hsees
    have hbefore : ∀ c ∈ before, sees t name access c = false :=
      fun c hc => Bool.not_eq_true _ ▸ hbefore c hc
    refine Or.inr ⟨b, before, after, ?_, hb, hentries, hbefore, congrArg Recents.mk herase⟩
    rw [resolve, hentries, List.find?_append, List.find?_eq_none.mpr, Option.none_or,
      List.find?_cons_of_pos hb]
    intro d hd
    rw [hbefore d hd]
    exact Bool.false_ne_true
  · have hnone : ∀ c ∈ r.entries, sees t name access c = false :=
      fun c hc => Bool.not_eq_true _ ▸ fun hsees => hseen ⟨c, hc, hsees⟩
    refine Or.inl ⟨List.find?_eq_none.mpr fun c hc => ?_, ?_, hnone⟩
    · rw [hnone c hc]
      exact Bool.false_ne_true
    · rw [remove, List.eraseP_of_forall_not fun c hc => ?_]
      rw [hnone c hc]
      exact Bool.false_ne_true

/-- The list holds what the slots hold, and neither hides an outer binding behind an inner one. -/
structure Recalls (t : Tree) (m : Memory) (r : Recents) : Prop where
  layered : m.Layered t
  ordered : Ordered t r.entries
  mem_iff : ∀ b, b ∈ r.entries ↔ ∃ i, m.get? i = some b

theorem Recalls.visible_iff (h : Recalls t m r) :
    m.Visible t name access b ↔ b ∈ r.entries ∧ sees t name access b = true := by
  rw [h.mem_iff, sees_iff]
  constructor
  · rintro ⟨i, hi, hsees⟩
    exact ⟨⟨i, hi⟩, hsees⟩
  · rintro ⟨⟨i, hi⟩, hsees⟩
    exact ⟨i, hi, hsees⟩

/-- Of the visible bindings both tables find the outermost. -/
theorem Recalls.resolve_eq (h : Recalls t m r) (hn : t.Nests) (name : String) (access : NodeId) :
    m.resolve t name access = r.resolve t name access := by
  rcases r.resolve_cases t name access with
    ⟨hr, -, hnone⟩ | ⟨b, before, after, hr, hb, hentries, hbefore, -⟩
  · rw [hr]
    cases hm : m.resolve t name access with
    | none => rfl
    | some c =>
      obtain ⟨hc, hsees⟩ := h.visible_iff.mp (Memory.visible_of_resolve hm)
      rw [hnone c hc] at hsees
      cases hsees
  · rw [hr]
    have hmem : b ∈ r.entries := by simp [hentries]
    refine (h.layered.resolve_iff hn).mpr ⟨h.visible_iff.mpr ⟨hmem, hb⟩, fun c hc => ?_⟩
    obtain ⟨hc, hsees⟩ := h.visible_iff.mp hc
    rw [hentries, List.mem_append, List.mem_cons] at hc
    obtain ⟨hbname, hbaccess⟩ := sees_iff.mp hb
    obtain ⟨hcname, hcaccess⟩ := sees_iff.mp hsees
    rcases hc with hc | rfl | hc
    · rw [hbefore c hc] at hsees
      cases hsees
    · exact hn.covers_self _
    · have hordered := h.ordered
      rw [Ordered, hentries] at hordered
      have hpair := (List.pairwise_cons.mp (List.pairwise_append.mp hordered).2.1).1 c hc
      have hnot := hpair (hbname.trans hcname.symm)
      rcases hn.covers_total hbaccess hcaccess with hcovers | hcovers
      · exact hcovers
      · rw [hnot] at hcovers
        cases hcovers

theorem Recalls.mem_remove_iff (h : Recalls t m r) (hn : t.Nests) :
    c ∈ (r.remove t name access).entries ↔
      c ∈ r.entries ∧ r.resolve t name access ≠ some c := by
  rcases r.resolve_cases t name access with
    ⟨hr, hremove, -⟩ | ⟨b, before, after, hr, -, hentries, -, hremove⟩
  · simp [hr, hremove]
  · have hnodup := h.ordered.nodup hn
    rw [hentries, List.nodup_middle, List.nodup_cons, List.mem_append] at hnodup
    rw [hr, hremove, hentries, List.mem_append, List.mem_append, List.mem_cons, ne_eq,
      Option.some.injEq]
    constructor
    · intro hc
      exact ⟨hc.imp_right Or.inr, fun hbc => hnodup.1 (hbc ▸ hc)⟩
    · rintro ⟨hc | rfl | hc, hne⟩
      · exact Or.inl hc
      · exact absurd rfl hne
      · exact Or.inr hc

theorem Recalls.remove (h : Recalls t m r) (hn : t.Nests) (name : String) (access : NodeId) :
    Recalls t (m.remove t name access) (r.remove t name access) where
  layered := h.layered.remove name access
  ordered := List.Pairwise.sublist List.eraseP_sublist h.ordered
  mem_iff c := by
    rw [h.mem_remove_iff hn, h.mem_iff, ← h.resolve_eq hn]
    constructor
    · rintro ⟨⟨i, hi⟩, hne⟩
      refine ⟨i, ?_⟩
      rw [Memory.get?_remove_eq, if_neg, hi]
      intro hl
      rw [Memory.resolve_eq_some hl] at hne
      exact hne hi
    · rintro ⟨i, hi⟩
      have hold := Memory.get?_remove hi
      refine ⟨⟨i, hold⟩, fun hr => ?_⟩
      obtain ⟨k, hl, hk, -⟩ := Memory.of_resolve hr
      obtain rfl : i = k := h.layered.unique hn hold hk rfl rfl
      rw [Memory.get?_remove_eq, if_pos hl] at hi
      cases hi

theorem Recalls.not_covers (h : Recalls t m r) (hn : t.Nests)
    (hr : m.resolve t name access = some b) (hc : c ∈ r.entries) (hne : c ≠ b)
    (hname : c.name = name) : t.covers c.anchor b.anchor = false := by
  by_contra hcovers
  have hcovers : t.covers c.anchor b.anchor = true := Bool.not_eq_false _ ▸ hcovers
  obtain ⟨k, -, hk, hbname, hbaccess⟩ := Memory.of_resolve hr
  obtain ⟨i, hi⟩ := (h.mem_iff c).mp hc
  have hcaccess := hn.encloses_of_covers hcovers hbaccess
  -- the newest visible binding is the outermost one, so the two stand at one anchor
  have hback := h.layered.resolve_covers hn hr ⟨i, hi, hname, hcaccess⟩
  have hik := h.layered.unique hn hi hk (hname.trans hbname.symm)
    (hn.covers_antisymm hcovers hback)
  rw [hik, hk] at hi
  exact hne (Option.some.inj hi).symm

theorem Recalls.store_entries (h : Recalls t m r) (hn : t.Nests) (value : Value)
    (params : Option NodeId) : (r.store t name value params access).entries =
      ⟨name, value, params, m.anchorOf t name access⟩ :: (r.remove t name access).entries := by
  unfold Recents.store Memory.anchorOf
  rw [h.resolve_eq hn]
  rcases r.resolve_cases t name access with
    ⟨hr, hremove, -⟩ | ⟨b, before, after, hr, hb, -, -, -⟩
  · rw [hr, hremove]
  · rw [hr, ← (sees_iff.mp hb).1]

theorem Recalls.store (h : Recalls t m r) (hn : t.Nests) (name : String) (value : Value)
    (params : Option NodeId) (access : NodeId) :
    Recalls t (m.store t name value params access) (r.store t name value params access) where
  layered := h.layered.store value params
  ordered := by
    rw [h.store_entries hn, Ordered, List.pairwise_cons]
    refine ⟨fun c hc hname => ?_, (h.remove hn name access).ordered⟩
    have hname : name = c.name := hname
    obtain ⟨hc, hne⟩ := (h.mem_remove_iff hn).mp hc
    rw [← h.resolve_eq hn] at hne
    cases hr : m.resolve t name access with
    | none =>
      -- one that covered the place of the store would have been visible there
      have hanchor : m.anchorOf t name access = some access := by rw [Memory.anchorOf, hr]
      rw [hanchor]
      by_contra hcovers
      have hsees : t.encloses c.anchor access = true := Bool.not_eq_false _ ▸ hcovers
      obtain ⟨b, hb⟩ := Memory.exists_resolve
        (h.visible_iff.mpr ⟨hc, sees_iff.mpr ⟨hname.symm, hsees⟩⟩)
      rw [hr] at hb
      cases hb
    | some b =>
      have hanchor : m.anchorOf t name access = b.anchor := by rw [Memory.anchorOf, hr]
      rw [hanchor]
      have hne : c ≠ b := fun hcb => hne (hcb ▸ hr)
      have hnot := h.not_covers hn hr hc hne hname.symm
      exact hnot
  mem_iff c := by
    rw [h.store_entries hn, List.mem_cons, (h.remove hn name access).mem_iff]
    constructor
    · rintro (rfl | ⟨i, hi⟩)
      · exact ⟨m.target t name access, by rw [Memory.get?_store, if_pos rfl]⟩
      · refine ⟨i, ?_⟩
        rw [Memory.get?_store, if_neg, Memory.get?_remove hi]
        rintro rfl
        rcases m.target_cases t name access with ⟨-, htarget, -⟩ | ⟨b, hl, -⟩
        · have := Memory.lt_of_get? (Memory.get?_remove hi)
          omega
        · rw [Memory.get?_remove_eq, if_pos hl] at hi
          cases hi
    · rintro ⟨i, hi⟩
      rw [Memory.get?_store] at hi
      by_cases hit : i = m.target t name access
      · rw [if_pos hit] at hi
        exact Or.inl (Option.some.inj hi).symm
      · rw [if_neg hit] at hi
        refine Or.inr ⟨i, ?_⟩
        rw [Memory.get?_remove_eq, if_neg, hi]
        intro hl
        exact hit (by rw [Memory.target, hl, Option.getD_some])

theorem Recalls.write (h : Recalls t m r) (hn : t.Nests) (w : Memory.Write) :
    Recalls t (m.write t w) (r.write t w) := by
  cases w with
  | store name value params access => exact h.store hn name value params access
  | remove name access => exact h.remove hn name access

theorem Recalls.writes (h : Recalls t m r) (hn : t.Nests) (ws : List Memory.Write) :
    Recalls t (m.writes t ws) (r.writes t ws) := by
  induction ws generalizing m r with
  | nil => exact h
  | cons w ws ih => exact ih (h.write hn w)

theorem recalls_empty (t : Tree) : Recalls t Memory.empty empty where
  layered i _ b _ _ hb := absurd (Memory.lt_of_get? hb) (Nat.not_lt_zero i)
  ordered := .nil
  mem_iff b := by
    constructor
    · intro hb
      cases hb
    · rintro ⟨i, hi⟩
      exact absurd (Memory.lt_of_get? hi) (Nat.not_lt_zero i)

theorem Recalls.seed (h : Recalls t m r) (name : String) (value : Value)
    (hfree : ∀ b ∈ r.entries, b.name ≠ name) :
    Recalls t (m.seed name value) (r.seed name value) where
  layered := h.layered.seed value fun i b hb => hfree b ((h.mem_iff b).mpr ⟨i, hb⟩)
  ordered := List.pairwise_cons.mpr ⟨fun b hb hname => absurd hname.symm (hfree b hb), h.ordered⟩
  mem_iff b := by
    rw [Recents.seed, List.mem_cons, h.mem_iff]
    constructor
    · rintro (rfl | ⟨i, hi⟩)
      · exact ⟨m.size, by rw [Memory.seed, Memory.get?_push, if_pos rfl]⟩
      · exact ⟨i, by rw [Memory.seed, Memory.get?_push, if_neg (Memory.lt_of_get? hi).ne, hi]⟩
    · rintro ⟨i, hi⟩
      rw [Memory.seed, Memory.get?_push] at hi
      by_cases him : i = m.size
      · rw [if_pos him] at hi
        exact Or.inl (Option.some.inj hi).symm
      · rw [if_neg him] at hi
        exact Or.inr ⟨i, hi⟩

theorem Recalls.seedAll (h : Recalls t m r) (seeds : List (String × Value))
    (hnames : (seeds.map Prod.fst).Nodup)
    (hfree : ∀ b ∈ r.entries, b.name ∉ seeds.map Prod.fst) :
    Recalls t (m.seedAll seeds) (r.seedAll seeds) := by
  induction seeds generalizing m r with
  | nil => exact h
  | cons s seeds ih =>
    rw [List.map_cons, List.nodup_cons] at hnames
    rw [List.map_cons] at hfree
    have hseed := h.seed s.1 s.2 fun b hb hname => hfree b hb (hname ▸ List.mem_cons_self)
    refine ih hseed hnames.2 fun b hb => ?_
    rcases List.mem_cons.mp hb with rfl | hb
    · exact hnames.1
    · exact fun hmem => hfree b hb (List.mem_cons_of_mem _ hmem)

/-- Whatever is stored and removed, and wherever: a memory that starts with global bindings of
different names resolves every name at every node to the binding that the list of recent bindings
resolves it to. Of the tree no more is asked than that its climbs end. -/
theorem slots_resolve_as_recents (h : t.Ends) (seeds : List (String × Value))
    (hnames : (seeds.map Prod.fst).Nodup) (ws : List Memory.Write) (name : String)
    (access : NodeId) (haccess : access < t.size) :
    ((Memory.empty.seedAll seeds).writes t ws).resolve t name access =
      ((empty.seedAll seeds).writes t ws).resolve t name access := by
  have hn : t.Nests := h.nests (Nat.zero_lt_of_lt haccess)
  have hseeded := (recalls_empty t).seedAll seeds hnames fun b hb => by cases hb
  exact (hseeded.writes hn ws).resolve_eq hn name access

def bodyInBranch : Tree := (Tree.planted.addUnder 0 .branch "if" 0).addUnder 1 .body "body" 0

theorem bodyInBranch_grove : bodyInBranch.Grove [] :=
  (Tree.planted_grove.addUnder List.mem_cons_self .refl .branch "if" 0).addUnder
    List.mem_cons_self (.step rfl .refl) .body "body" 0

/-- An inner binding that was hidden, while the outer one was written over, is found again once the
outer one is removed. In the list the outer one had moved in front. -/
theorem hidden_inner_binding_resolves : bodyInBranch.Ends ∧ 2 < bodyInBranch.size ∧
    (∀ name, ((Memory.empty.seedAll [("g", .text "0")]).writes bodyInBranch
        [.store "x" (.text "1") none 2, .store "x" (.text "2") none 0,
          .store "x" (.text "3") none 2]).resolve bodyInBranch name 2 =
      ((empty.seedAll [("g", .text "0")]).writes bodyInBranch
        [.store "x" (.text "1") none 2, .store "x" (.text "2") none 0,
          .store "x" (.text "3") none 2]).resolve bodyInBranch name 2) ∧
    ((Memory.empty.seedAll [("g", .text "0")]).writes bodyInBranch
        [.store "x" (.text "1") none 2, .store "x" (.text "2") none 0,
          .store "x" (.text "3") none 2, .remove "x" 2]).resolve bodyInBranch "x" 2 =
      some ⟨"x", .text "1", none, some 2⟩ := by
  have hnames : ([("g", Value.text "0")].map Prod.fst).Nodup := by decide
  have hends := bodyInBranch_grove.ends
  refine ⟨hends, by decide, ?_, ?_⟩
  · exact fun name => slots_resolve_as_recents hends _ hnames _ name 2 (by decide)
  · rw [slots_resolve_as_recents hends _ hnames _ _ 2 (by decide)]
    decide

end Recents

end Arbor
