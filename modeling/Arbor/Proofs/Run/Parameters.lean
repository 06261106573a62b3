import Arbor.Proofs.Run.Flat
import Mathlib

/-!
# Parameters

A call stores what its arguments give, one after the other, in the body that it runs. Where the names
differ, each is found there afterwards with what it was given, and no other cell is written.
-/
namespace Arbor

open Run

def Memory.storeAll (m : Memory) (t : Tree) (names : List String) (given : List Evaluation)
    (access : NodeId) : Memory :=
  (names.zip given).foldl (fun m entry => m.store t entry.1 entry.2.value entry.2.params access) m

/-- What a store of `name` at `access` makes of the slot `j` of `m`: the binding that is found there
gets the value, or a new one is made. -/
inductive Memory.Cell (m : Memory) (t : Tree) (name : String) (access : NodeId) (e : Evaluation)
    (j : Nat) : Option Binding → Prop where
  | updated {b : Binding} : m.lookup t name access = some j → m.get? j = some b →
      Cell m t name access e j (some { b with value := e.value, params := e.params })
  | created : m.lookup t name access = none → m.size ≤ j →
      Cell m t name access e j (some ⟨name, e.value, e.params, some access⟩)

/-- What an argument gives in `s`, without a change. A missing one is undefined. -/
def Program.Gives (p : Program) (s : State) : Option NodeId → Evaluation → Prop
  | none, e => e = ⟨.undefined, none⟩
  | some a, e => ∀ fuel, 2 * p.tree.height a ≤ fuel → evaluate p fuel (some a) s = .done e s

/-- In `s` the call `access` finds `body`, which takes the parameters `names`. To these it passes the
arguments `passed`, and one more call is allowed. -/
structure Program.Calls (p : Program) (s : State) (access : NodeId) (names : List String)
    (passed : List NodeId) (body : NodeId) : Prop where
  tag : p.tree.tag access = .call
  found : ∃ b, s.memory.resolve p.tree (p.tree.text access) access = some b ∧
    b.value = .body body ∧ paramNames p b.params = names
  passed : (argumentNodes p (p.tree.child? access 0)).take names.length = passed
  depth : s.depth < p.settings.maxDepth

/-- In `next` the parameters `names` of `body` hold what was given for them in a call that found the
state `s`. -/
structure Program.Binds (p : Program) (s : State) (names : List String) (passed : List NodeId)
    (body : NodeId) (given : List Evaluation) (next : Memory) : Prop where
  length : given.length = names.length
  /-- An argument is evaluated in the memory that the parameters before it have left. -/
  gives : ∀ i e, given[i]? = some e → p.Gives
    { s with memory := s.memory.storeAll p.tree (names.take i) (given.take i) body } passed[i]? e
  /-- If it reads none of their names, it gives what it gave before the call. -/
  before : ∀ i e, given[i]? = some e → (∀ a, passed[i]? = some a → ∀ g, p.tree.Under a g →
    p.tree.tag g = .get → p.tree.text g ∉ names.take i) → p.Gives s passed[i]? e
  resolved : ∀ name e, (name, e) ∈ names.zip given →
    ∃ b, next.resolve p.tree name body = some b ∧ b.value = e.value ∧ b.params = e.params
  slots : ∀ j, next.get? j = s.memory.get? j ∨
    ∃ name e, (name, e) ∈ names.zip given ∧ s.memory.Cell p.tree name body e j (next.get? j)

def runBody (p : Program) (fuel : Nat) (body : NodeId) : Run Value := do
  return (← called (execute p fuel body 0)).getD .null

namespace Memory

variable {m : Memory} {t : Tree} {name : String} {names : List String} {given : List Evaluation}
  {body q : NodeId} {e : Evaluation} {i : Nat}

theorem anchorOf_store_elsewhere {stored : String} (hne : name ≠ stored) (value : Value)
    (params : Option NodeId) :
    (m.store t stored value params body).anchorOf t name q = m.anchorOf t name q := by
  unfold anchorOf
  rw [resolve_store_elsewhere value params fun h => hne h.1]

theorem resolve_storeAll_elsewhere (hname : name ∉ names) :
    (m.storeAll t names given body).resolve t name q = m.resolve t name q := by
  induction names generalizing m given with
  | nil => rfl
  | cons stored names ih =>
    cases given with
    | nil => rfl
    | cons e given =>
      obtain ⟨hne, hrest⟩ := not_or.mp (List.mem_cons.not.mp hname)
      exact (ih hrest).trans (resolve_store_elsewhere e.value e.params fun h => hne h.1)

theorem Layered.resolve_storeAll (h : m.Layered t) (hg : t.Nests) (hnames : names.Nodup)
    (he : (name, e) ∈ names.zip given) :
    (m.storeAll t names given body).resolve t name body =
      some ⟨name, e.value, e.params, m.anchorOf t name body⟩ := by
  induction names generalizing m given with
  | nil => cases he
  | cons stored names ih =>
    cases given with
    | nil => cases he
    | cons e' given =>
      obtain ⟨hfresh, hrest⟩ := List.nodup_cons.mp hnames
      rcases List.mem_cons.mp he with heq | he
      · cases heq
        -- no later store writes this name
        refine (resolve_storeAll_elsewhere hfresh).trans ?_
        rw [h.resolve_store hg, if_pos ⟨rfl, anchorOf_encloses (hg.encloses_self _)⟩]
      · have hne : name ≠ stored := fun heq => hfresh (heq ▸ (List.of_mem_zip he).1)
        rw [← anchorOf_store_elsewhere hne e'.value e'.params]
        exact ih (h.store e'.value e'.params) hrest he

theorem cell_store (m : Memory) (t : Tree) (name : String) (e : Evaluation) (access : NodeId)
    (j : Nat) : (m.store t name e.value e.params access).get? j = m.get? j ∨
      m.Cell t name access e j ((m.store t name e.value e.params access).get? j) := by
  rw [get?_store]
  by_cases hj : j = m.target t name access
  · rw [if_pos hj, hj]
    rcases m.target_cases t name access with
      ⟨hnone, htarget, hanchor⟩ | ⟨b, hsome, hb, hname, hanchor, -⟩
    · rw [hanchor]
      exact Or.inr (.created hnone (Nat.le_of_eq htarget.symm))
    · rw [← hanchor, ← hname]
      exact Or.inr (.updated (hname ▸ hsome) (hname ▸ hb))
  · exact Or.inl (if_neg hj)

theorem Cell.before {stored : String} {value : Value} {params : Option NodeId} {j : Nat}
    {o : Option Binding} (h : (m.store t stored value params body).Cell t name body e j o)
    (hne : name ≠ stored) : m.Cell t name body e j o := by
  have hlookup : (m.store t stored value params body).lookup t name body = m.lookup t name body :=
    lookup_congr (sees_store_elsewhere value params fun h => hne h.1)
  cases h with
  | @updated b hsome hb =>
    have hname : b.name = name := by
      obtain ⟨c, hc, hname, -⟩ := sees_iff.mp (lookup_eq_some.mp hsome).1
      rw [hb] at hc
      cases hc
      exact hname
    rw [get?_store] at hb
    split at hb
    · cases hb
      exact absurd hname.symm hne
    · exact .updated (hlookup ▸ hsome) hb
  | created hnone hsize =>
    exact .created (hlookup ▸ hnone) (Nat.le_trans persists_store.size_le hsize)

theorem get?_storeAll (hnames : names.Nodup) (j : Nat) :
    (m.storeAll t names given body).get? j = m.get? j ∨ ∃ name e, (name, e) ∈ names.zip given ∧
      m.Cell t name body e j ((m.storeAll t names given body).get? j) := by
  induction names generalizing m given with
  | nil => exact Or.inl rfl
  | cons stored names ih =>
    cases given with
    | nil => exact Or.inl rfl
    | cons e given =>
      obtain ⟨hfresh, hrest⟩ := List.nodup_cons.mp hnames
      have hall : m.storeAll t (stored :: names) (e :: given) body =
        (m.store t stored e.value e.params body).storeAll t names given body := rfl
      rw [hall]
      rcases @ih (m.store t stored e.value e.params body) given hrest with
        hsame | ⟨name, e', hmem, hcell⟩
      · rw [hsame]
        exact (m.cell_store t stored e body j).imp_right fun hcell =>
          ⟨stored, e, List.mem_cons_self, hcell⟩
      · have hne : name ≠ stored := fun heq => hfresh (heq ▸ (List.of_mem_zip hmem).1)
        exact Or.inr ⟨name, e', List.mem_cons_of_mem _ hmem, hcell.before hne⟩

end Memory

variable {p : Program} {s : State} {names : List String} {arguments passed : List NodeId}
  {name : String} {body access : NodeId} {e : Evaluation}

/-- What is beyond the names is not looked at. -/
theorem bindParams_take (fuel : Nat) (names : List String) (arguments : List NodeId) (body : NodeId) :
    bindParams p fuel names (arguments.take names.length) body =
      bindParams p fuel names arguments body := by
  induction names generalizing fuel arguments with
  | nil => rw [bindParams, bindParams]
  | cons name names ih =>
    cases fuel with
    | zero => rw [bindParams, bindParams]
    | succ fuel =>
      cases arguments with
      | nil => rfl
      | cons a arguments => simp only [List.length_cons, List.take_succ_cons, bindParams, ih]

theorem Program.exists_gives {a : Option NodeId} (ht : p.tree.Resting) (hp : p.tree.Paired)
    (h : ∀ n, a = some n → p.tree.Flat n ∧ s.nesting + p.tree.height n ≤ p.settings.maxNesting) :
    ∃ e, p.Gives s a e := by
  cases a with
  | none => exact ⟨_, rfl⟩
  | some n =>
    obtain ⟨hn, hroom⟩ := h n rfl
    obtain ⟨e, he⟩ := hn.evaluate_done ht hp s.memory
    exact ⟨e, fun fuel hfuel => he s fuel (.refl _ _ _) hroom hfuel⟩

theorem Program.Gives.congr {a : Option NodeId} {m : Memory} (ht : p.tree.Resting)
    (hp : p.tree.Paired) (h : p.Gives s a e)
    (hflat : ∀ n, a = some n → p.tree.Flat n ∧
      s.nesting + p.tree.height n ≤ p.settings.maxNesting ∧ p.tree.ReadsAlike n s.memory m) :
    p.Gives { s with memory := m } a e := by
  cases a with
  | none => exact h
  | some n =>
    obtain ⟨hn, hroom, hreads⟩ := hflat n rfl
    obtain ⟨e', he'⟩ := hn.evaluate_done ht hp s.memory
    have hsame := he' s _ (.refl _ _ _) hroom (Nat.le_refl _)
    rw [h _ (Nat.le_refl _)] at hsame
    cases hsame
    exact fun fuel hfuel => he' { s with memory := m } fuel hreads hroom hfuel

theorem bindParams_cons (h : p.Gives s arguments.head? e) (name : String) (names : List String)
    (body : NodeId) : ∃ N, ∀ fuel, N ≤ fuel →
      bindParams p (fuel + 1) (name :: names) arguments body s =
        bindParams p fuel names arguments.tail body
          { s with memory := s.memory.store p.tree name e.value e.params body } := by
  cases arguments with
  | nil =>
    obtain rfl : e = ⟨.undefined, none⟩ := h
    refine ⟨0, fun fuel _ => ?_⟩
    rw [bindParams]
    rfl
  | cons a arguments =>
    refine ⟨2 * p.tree.height a, fun fuel hfuel => ?_⟩
    rw [bindParams, bind_of_done _ (h fuel hfuel)]
    rfl

theorem bindParams_done (ht : p.tree.Resting) (hp : p.tree.Paired)
    (hflat : ∀ a ∈ arguments, p.tree.Flat a)
    (hroom : ∀ a ∈ arguments, s.nesting + p.tree.height a ≤ p.settings.maxNesting)
    (names : List String) (body : NodeId) :
    ∃ given, given.length = names.length ∧
      (∀ i e, given[i]? = some e → p.Gives
        { s with memory := s.memory.storeAll p.tree (names.take i) (given.take i) body }
        arguments[i]? e) ∧
      ∃ N, ∀ fuel, N ≤ fuel → bindParams p fuel names arguments body s =
        .done () { s with memory := s.memory.storeAll p.tree names given body } := by
  induction names generalizing arguments s with
  | nil =>
    refine ⟨[], rfl, fun i e he => (by cases he), 0, fun fuel _ => ?_⟩
    rw [bindParams]
    rfl
  | cons name names ih =>
    have hfirst : ∀ a, arguments.head? = some a →
        p.tree.Flat a ∧ s.nesting + p.tree.height a ≤ p.settings.maxNesting :=
      fun a ha => ⟨hflat a (List.mem_of_head? ha), hroom a (List.mem_of_head? ha)⟩
    obtain ⟨e, he⟩ := Program.exists_gives ht hp hfirst
    obtain ⟨given, hlength, hgives, N, hdone⟩ := ih
      (s := { s with memory := s.memory.store p.tree name e.value e.params body })
      (fun a ha => hflat a (List.mem_of_mem_tail ha)) (fun a ha => hroom a (List.mem_of_mem_tail ha))
    obtain ⟨M, hstep⟩ := bindParams_cons he name names body
    refine ⟨e :: given, by simp [hlength], ?_, max M N + 1, fun fuel hfuel => ?_⟩
    · intro i e' he'
      cases i with
      | zero =>
        cases he'
        rw [← List.head?_eq_getElem?]
        exact he
      | succ i =>
        have hi := hgives i e' he'
        rw [List.getElem?_tail] at hi
        exact hi
    · obtain ⟨fuel, rfl⟩ := Nat.exists_eq_add_of_le' (show 1 ≤ fuel by omega)
      rw [hstep fuel (by omega), hdone fuel (by omega)]
      rfl

/-- Where there are enough levels for each argument, all parameters are bound. -/
theorem bindParams_binds (ht : p.tree.Resting) (hp : p.tree.Paired)
    (hs : s.memory.Layered p.tree) (hflat : ∀ a ∈ passed, p.tree.Flat a)
    (hroom : ∀ a ∈ passed, s.nesting + p.tree.height a ≤ p.settings.maxNesting)
    (hnames : names.Nodup) (body : NodeId) :
    ∃ given next, p.Binds s names passed body given next ∧ ∃ N, ∀ fuel, N ≤ fuel →
      bindParams p fuel names passed body s = .done () { s with memory := next } := by
  obtain ⟨given, hlength, hgives, hdone⟩ := bindParams_done ht hp hflat hroom names body
  refine ⟨given, _, ⟨hlength, hgives, ?_, ?_, Memory.get?_storeAll hnames⟩, hdone⟩
  · intro i e he hreads
    have hbefore := (hgives i e he).congr (m := s.memory) ht hp fun a ha => ?_
    · exact hbefore
    have hmem := List.mem_of_getElem? ha
    refine ⟨hflat a hmem, hroom a hmem, fun g hg htag => ?_⟩
    exact (Memory.resolve_storeAll_elsewhere (hreads a ha g hg htag)).symm
  · intro name e he
    exact ⟨_, hs.resolve_storeAll ht.grove.nests hnames he, rfl, rfl⟩

theorem bindParams_failed (ht : p.tree.Resting) (hp : p.tree.Paired)
    (hflat : ∀ a ∈ arguments, p.tree.Flat a) (hlength : arguments.length ≤ names.length)
    (body : NodeId) (hhigh : ∃ a ∈ arguments, p.settings.maxNesting < s.nesting + p.tree.height a) :
    ∃ a ∈ arguments, ∃ m, p.tree.firstBelow (p.settings.maxNesting - s.nesting) a = some m ∧
      ∃ s' N, ∀ fuel, N ≤ fuel →
        bindParams p fuel names arguments body s = .failed (nestingFault p m) s' := by
  induction names generalizing arguments s with
  | nil =>
    obtain ⟨a, ha, -⟩ := hhigh
    rw [List.length_eq_zero_iff.mp (Nat.le_zero.mp hlength)] at ha
    cases ha
  | cons name names ih =>
    cases arguments with
    | nil =>
      obtain ⟨a, ha, -⟩ := hhigh
      cases ha
    | cons a arguments =>
      have hfirst := hflat a List.mem_cons_self
      by_cases hroom : s.nesting + p.tree.height a ≤ p.settings.maxNesting
      · have hhead : ∀ n, (a :: arguments).head? = some n →
            p.tree.Flat n ∧ s.nesting + p.tree.height n ≤ p.settings.maxNesting :=
          fun n hn => Option.some.inj hn ▸ ⟨hfirst, hroom⟩
        obtain ⟨e, he⟩ := Program.exists_gives ht hp hhead
        obtain ⟨M, hstep⟩ := bindParams_cons he name names body
        obtain ⟨b, hb, hhigh⟩ := hhigh
        have hrest : b ∈ arguments := by
          rcases List.mem_cons.mp hb with rfl | hb
          · omega
          · exact hb
        obtain ⟨c, hc, m, hm, s', N, hfails⟩ := ih
          (s := { s with memory := s.memory.store p.tree name e.value e.params body })
          (fun a ha => hflat a (List.mem_cons_of_mem _ ha)) (Nat.le_of_succ_le_succ hlength)
          ⟨b, hrest, hhigh⟩
        refine ⟨c, List.mem_cons_of_mem _ hc, m, hm, s', max M N + 1, fun fuel hfuel => ?_⟩
        obtain ⟨fuel, rfl⟩ := Nat.exists_eq_add_of_le' (show 1 ≤ fuel by omega)
        rw [hstep fuel (by omega)]
        exact hfails fuel (by omega)
      · obtain ⟨m, hm, -, hfails⟩ := hfirst.evaluate_stops ht hp (Nat.lt_of_not_le hroom)
        refine ⟨a, List.mem_cons_self, m, hm, s, 2 * p.tree.height a + 1, fun fuel hfuel => ?_⟩
        obtain ⟨fuel, rfl⟩ := Nat.exists_eq_add_of_le' (show 1 ≤ fuel by omega)
        rw [bindParams, bind_of_failed _ (hfails fuel (by omega))]

namespace Program.Calls

theorem flat (h : p.Calls s access names passed body) (ht : p.tree.Resting)
    (hcalls : ∀ a ∈ passed, ∀ m, p.tree.Under a m → p.tree.tag m ≠ .call) :
    ∀ a ∈ passed, p.tree.Flat a := by
  intro a ha
  refine ⟨?_, hcalls a ha⟩
  have hmem := List.mem_of_mem_take (h.passed ▸ ha)
  unfold argumentNodes at hmem
  cases hl : p.tree.child? access 0 with
  | none =>
    rw [hl] at hmem
    cases hmem
  | some l =>
    rw [hl] at hmem
    exact (ht.formed.argument h.tag hl (Array.mem_toList_iff.mp hmem)).tag

theorem length_le (h : p.Calls s access names passed body) : passed.length ≤ names.length := by
  rw [← h.passed]
  exact List.length_take_le _ _

theorem runCall_eq (h : p.Calls s access names passed body) {list : Option NodeId}
    (hlist : (argumentNodes p list).take names.length = passed) (fuel : Nat) :
    runCall p (fuel + 1) (p.tree.text access) list access s =
      (bindParams p fuel names passed body >>= fun _ => runBody p fuel body) s := by
  obtain ⟨b, hb, hvalue, hnames⟩ := h.found
  have hdepth : checkDepth p (p.tree.text access) access s = .done () s := if_pos h.depth
  rw [← hlist, bindParams_take, runCall]
  simp only [bind, memory, hb, hvalue, hdepth, hnames]
  rfl

end Program.Calls

end Arbor
