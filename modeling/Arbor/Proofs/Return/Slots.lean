import Arbor.Proofs.Memory.Slots
import Arbor.Proofs.Return.Simulation
import Arbor.Proofs.Run.Lockstep
import Mathlib

/-!
# What a run does to the slots

A machine under way stores a name only where the tree binds it: that of a statement where it stands,
and that of a parameter in the body of its function. It removes only what a `rem` names that it has
come to. What it does to memory is the list of these writes.
-/
namespace Arbor

def Tag.isBinding : Tag → Bool
  | .store | .function | .input => true
  | _ => false

namespace Tree

def bound (t : Tree) (n : NodeId) : List (String × NodeId) :=
  let own := if (t.tag n).isBinding then (t.parent n).toList.map (t.text n, ·) else []
  let parameters :=
    match t.tag n, t.child? n 0, t.child? n 1 with
    | .function, some list, some body => (t.children list).toList.map (t.text ·, body)
    | _, _, _ => []
  own ++ parameters

/-- The names that the tree binds, each with the root or the body that holds its binding. -/
def places (t : Tree) : Finset (String × NodeId) :=
  (((List.range t.size).flatMap t.bound).filter fun place => (t.tag place.2).isScope).toFinset

inductive Binds (t : Tree) : String → NodeId → Prop where
  | statement {n q : NodeId} : (t.tag n).isBinding = true → t.parent n = some q →
      (t.tag q).isScope = true → Binds t (t.text n) q
  | parameter {f list c q : NodeId} : t.tag f = .function → t.child? f 0 = some list →
      c ∈ t.children list → t.child? f 1 = some q → (t.tag q).isScope = true → Binds t (t.text c) q

structure Hosts (t : Tree) (name : String) (q : NodeId) : Prop where
  binds : t.Binds name q
  anchors : t.Anchors q

/-- The statement `n` removes what is bound as `b`, and stands in the root or in a body inside of its
anchor. -/
structure Removes (t : Tree) (n : NodeId) (b : Binding) : Prop where
  tag : t.tag n = .remove
  name : t.text n = b.name
  inside : ∃ q, t.parent n = some q ∧ (t.tag q).isScope = true ∧
    ∀ a : NodeId, b.anchor = some a → t.Under a q

/-- What is asked of memory where the statements that are executed are in `K`. -/
inductive Asks (t : Tree) (K : NodeId → Prop) : Memory.Write → Prop where
  | store {name : String} {value : Value} {params : Option NodeId} {q : NodeId} :
      t.Binds name q → Asks t K (.store name value params q)
  | remove {n q : NodeId} : K n → t.tag n = .remove → t.parent n = some q →
      (t.tag q).isScope = true → Asks t K (.remove (t.text n) q)

/-- Between two texts, all nodes stand under the root, as they have to. -/
structure Resting (t : Tree) : Prop where
  grove : t.Grove []
  formed : t.Formed fun _ _ => True
  root : t.tag root = .root

/-- The statements in `n` may be executed: it is the root, or a body, or an expression in the place
of one. -/
def Enterable (t : Tree) (n : NodeId) : Prop := n = root ∨ t.Runs n

variable {t : Tree} {n c q body : NodeId} {name : String} {params : Option NodeId}

theorem mem_places : (name, q) ∈ t.places ↔ t.Binds name q := by
  have hbinding : ∀ {m}, (t.tag m).isBinding = true → m < t.size := by
    intro m hm
    refine lt_of_tag fun hroot => ?_
    rw [hroot] at hm
    cases hm
  simp only [places, List.mem_toFinset, List.mem_filter, List.mem_flatMap, List.mem_range, bound,
    List.mem_append]
  constructor
  · rintro ⟨⟨n, -, hown | hparameter⟩, hscope⟩
    · split at hown
      · next htag =>
        obtain ⟨p, hp, heq⟩ := List.mem_map.mp hown
        cases heq
        exact .statement htag (Option.mem_toList.mp hp) hscope
      · cases hown
    · split at hparameter
      · next htag hlist hbody =>
        obtain ⟨c, hc, heq⟩ := List.mem_map.mp hparameter
        cases heq
        exact .parameter htag hlist (Array.mem_toList_iff.mp hc) hbody hscope
      · cases hparameter
  · rintro (⟨htag, hparent, hscope⟩ | ⟨htag, hlist, hc, hbody, hscope⟩)
    · refine ⟨⟨_, hbinding htag, Or.inl ?_⟩, hscope⟩
      rw [if_pos htag, hparent]
      exact List.mem_singleton.mpr rfl
    · refine ⟨⟨_, hbinding (by rw [htag]; rfl), Or.inr ?_⟩, hscope⟩
      rw [htag, hlist, hbody]
      exact List.mem_map.mpr ⟨_, Array.mem_toList_iff.mpr hc, rfl⟩

theorem Resting.inner (h : t.Resting) (htag : t.tag n ≠ .root) : t.Inner n := by
  refine ⟨fun hroot => htag (hroot ▸ h.root), ?_⟩
  obtain ⟨r, hr, hunder⟩ := h.grove.covered n (lt_of_tag htag)
  obtain rfl := List.mem_singleton.mp hr
  exact hunder

theorem Resting.executable (h : t.Resting) (hn : t.Enterable n) (hc : c ∈ t.children n) :
    t.Executable c := by
  rcases hn with rfl | hn
  · refine ⟨h.grove.inner_of_mem .refl hc, Or.inl ⟨Tree.root, (h.grove.parent_iff _ _).mpr hc, ?_⟩⟩
    rw [h.root]
    rfl
  · exact hn.executable h.formed h.grove hc

theorem Executable.scope (hc : t.Executable c) (htag : (t.tag c).isExpression = false)
    (hbody : t.tag c ≠ .body) (hlist : t.tag c ≠ .arguments) :
    ∃ q, t.parent c = some q ∧ t.Anchors q := by
  obtain ⟨q, hq, -⟩ := hc.inner.exists_parent
  have hanchors := hc.anchors htag hbody hlist
  rw [hq] at hanchors
  exact ⟨q, hq, hanchors⟩

theorem Executable.hosts (hc : t.Executable c) (htag : (t.tag c).isBinding = true) :
    t.Hosts (t.text c) ((t.parent c).getD c) := by
  have hapart : (t.tag c).isExpression = false ∧ t.tag c ≠ .body ∧ t.tag c ≠ .arguments := by
    revert htag
    cases t.tag c <;> decide
  obtain ⟨q, hq, hanchors⟩ := hc.scope hapart.1 hapart.2.1 hapart.2.2
  rw [hq]
  exact ⟨.statement htag hq hanchors.scope, hanchors⟩

theorem Resting.called (h : t.Resting) (hbody : t.Callable (.body body) params) :
    t.Runs body ∧ ∀ list, params = some list → ∀ c ∈ t.children list, t.Hosts (t.text c) body := by
  obtain ⟨f, hf, hchild, hlist⟩ := hbody.body body rfl
  have hinner := h.grove.inner_of_child? hf.under hchild
  have htag : t.tag body = .body := (h.formed.block_of_declares hf hchild).tag
  have hscope : (t.tag body).isScope = true := by
    rw [htag]
    rfl
  refine ⟨⟨hinner, Or.inr htag⟩, fun list hl c hc => ?_⟩
  exact ⟨.parameter hf.tag (hlist list hl) hc hchild hscope, hinner.under, hscope⟩

theorem Asks.imp {K K' : NodeId → Prop} {w : Memory.Write} (h : t.Asks K w)
    (hK : ∀ n, K n → K' n) : t.Asks K' w := by
  cases h with
  | store hbinds => exact .store hbinds
  | remove hn htag hq hscope => exact .remove (hK _ hn) htag hq hscope

theorem Resting.emptied {K : NodeId → Prop} {ws : List Memory.Write} {m : Memory} {i : Nat}
    {b : Binding} (h : t.Resting) (hasks : ∀ w ∈ ws, t.Asks K w) (hlive : m.get? i = some b)
    (hnone : (m.writes t ws).get? i = none) : ∃ n, K n ∧ t.Removes n b := by
  obtain ⟨q, hmem, hencloses⟩ := Memory.writes_none hlive hnone
  generalize hw : Memory.Write.remove b.name q = w at hmem
  cases hasks w hmem with
  | store => cases hw
  | @remove n q' hn htag hq hscope =>
    obtain ⟨hname, rfl⟩ := Memory.Write.remove.inj hw
    refine ⟨n, hn, htag, hname.symm, q, hq, hscope, ?_⟩
    intro a ha
    rw [ha] at hencloses
    exact h.grove.encloses_iff.mp hencloses

end Tree

namespace Machine

section
variable (t : Tree)

def Pending.Sited : Pending → Prop
  | .leave => True
  | .statements rest => ∀ n ∈ rest, t.Executable n
  | .loop _ body => ∀ n, body = some n → t.Runs n

mutual

def Await.Sited : Await → Prop
  | .leave k | .left _ _ k | .right _ _ k => k.Sited
  | .argument name names _ body k =>
    (∀ n ∈ name :: names, t.Hosts n body) ∧ t.Runs body ∧ k.Sited
  | .store name scope inside b => t.Hosts name scope ∧ (∀ x ∈ inside, x.Sited t) ∧ b.Sited
  | .print inside b | .giveBack inside b | .discard inside b =>
    (∀ x ∈ inside, x.Sited t) ∧ b.Sited
  | .branches rest inside b =>
    (∀ n ∈ rest, t.Runs n) ∧ (∀ x ∈ inside, x.Sited t) ∧ b.Sited
  | .loop _ body inside b =>
    (∀ n, body = some n → t.Runs n) ∧ (∀ x ∈ inside, x.Sited t) ∧ b.Sited

def Boundary.Sited : Boundary → Prop
  | .run => True
  | .call _ k | .operand _ k => k.Sited

end

def Control.Sited : Control → Prop
  | .evaluate _ k | .node _ k | .call _ _ _ k => k.Sited t
  | .bind names _ body k => (∀ n ∈ names, t.Hosts n body) ∧ t.Runs body ∧ k.Sited t
  | .enter body k => t.Runs body ∧ k.Sited t
  | .value e k => t.Callable e.value e.params ∧ k.Sited t
  | .execute body _ inside b => t.Enterable body ∧ (∀ x ∈ inside, x.Sited t) ∧ b.Sited t
  | .statements list inside b =>
    (∀ n ∈ list, t.Executable n) ∧ (∀ x ∈ inside, x.Sited t) ∧ b.Sited t
  | .statement n inside b => t.Executable n ∧ (∀ x ∈ inside, x.Sited t) ∧ b.Sited t
  | .branches nodes inside b => (∀ n ∈ nodes, t.Runs n) ∧ (∀ x ∈ inside, x.Sited t) ∧ b.Sited t
  | .loop _ body inside b =>
    (∀ n, body = some n → t.Runs n) ∧ (∀ x ∈ inside, x.Sited t) ∧ b.Sited t
  | .ended inside b => (∀ x ∈ inside, x.Sited t) ∧ b.Sited t
  | .exit v _ b => t.Callable v none ∧ b.Sited t

def Config.memory : Config → Memory
  | .running _ s | .returned _ s | .faulted _ s => s.memory

structure Config.Sited (c : Config) : Prop where
  running : ∀ control s, c = .running control s → Control.Sited t control
  memory : c.memory.Sound t

def Control.Executes (control : Control) (n : NodeId) : Prop :=
  ∃ inside b, control = .statement n inside b

structure Config.Written (control : Control) (m : Memory) (c : Config) : Prop where
  sited : c.Sited t
  asked : ∃ ws, (∀ w ∈ ws, t.Asks control.Executes w) ∧ c.memory = m.writes t ws

end

variable {p : Program} {ground : Counters} {control control' : Control} {s s' : State}
  {c c' : Config} {k : Await} {b : Boundary} {inside : List Pending} {e : Evaluation}
  {name : String} {value : Value} {params : Option NodeId} {q : NodeId}

theorem written_same (h : control'.Sited p.tree) (hm : s.memory.Sound p.tree)
    (hs : s'.memory = s.memory) :
    (Config.running control' s').Written p.tree control s.memory := by
  refine ⟨⟨?_, ?_⟩, [], List.forall_mem_nil _, hs⟩
  · intro control s heq
    cases heq
    exact h
  · rw [Config.memory, hs]
    exact hm

theorem written_stored (h : control'.Sited p.tree) (hm : s.memory.Sound p.tree)
    (hv : p.tree.Callable value params) (hq : p.tree.Hosts name q)
    (hs : s'.memory = s.memory.store p.tree name value params q) :
    (Config.running control' s').Written p.tree control s.memory := by
  refine ⟨⟨?_, ?_⟩, [.store name value params q],
    List.forall_mem_singleton.mpr (.store hq.binds), hs⟩
  · intro control s heq
    cases heq
    exact h
  · rw [Config.memory, hs]
    exact hm.store hv hq.anchors

theorem memory_asked (p : Program) (name : String) (q : NodeId) (s : State) :
    (asked p name q s).memory = s.memory.store p.tree name (.text (s.input.headD "")) none q := by
  unfold asked
  split <;> next hinput => rw [hinput]; rfl

theorem written_fault (hm : s.memory.Sound p.tree) (f : Fault) :
    (fault ground f s).Written p.tree control s.memory := by
  refine ⟨⟨?_, hm⟩, [], List.forall_mem_nil _, rfl⟩
  intro control s heq
  cases heq

theorem nested_written {n : NodeId} (h : control'.Sited p.tree) (hm : s.memory.Sound p.tree) :
    (nested p ground n control' s).Written p.tree control s.memory := by
  unfold nested
  split
  · exact written_same h hm rfl
  · exact written_fault hm _

theorem close_written {r : Option Value} (hb : b.Sited p.tree)
    (hr : ∀ v, r = some v → p.tree.Callable v none) (hm : s.memory.Sound p.tree) :
    (b.close ground r s).Written p.tree control s.memory := by
  have hvalue := Tree.callable_getD hr
  cases b with
  | run =>
    refine ⟨⟨?_, hm⟩, [], List.forall_mem_nil _, rfl⟩
    intro control s heq
    cases heq
  | call before k => exact written_same ⟨hvalue, hb⟩ hm rfl
  | operand before k => exact written_same ⟨hvalue, hb⟩ hm rfl

theorem receive_written (he : p.tree.Callable e.value e.params) (hk : k.Sited p.tree)
    (hm : s.memory.Sound p.tree) : (receive p e s k).Written p.tree control s.memory := by
  cases k with
  | leave k => exact written_same ⟨he, hk⟩ hm rfl
  | left => exact written_same hk hm rfl
  | right symbol left k =>
    -- an operator never gives a body
    exact written_same ⟨Tree.callable_plain (Operator.apply_ne_body _ _ _), hk⟩ hm rfl
  | argument name names arguments body k =>
    obtain ⟨hnames, hbody, hk⟩ := hk
    obtain ⟨hname, hnames⟩ := List.forall_mem_cons.mp hnames
    exact written_stored ⟨hnames, hbody, hk⟩ hm he hname rfl
  | store name scope inside b => exact written_stored hk.2 hm he hk.1 rfl
  | print => exact written_same hk hm rfl
  | giveBack inside b => exact written_same ⟨he.bare, hk.2⟩ hm rfl
  | discard => exact written_same hk hm rfl
  | branches rest inside b =>
    obtain ⟨hrest, hinside⟩ := hk
    simp only [receive]
    split
    · exact written_same ⟨Or.inr (hrest _ List.mem_cons_self), hinside⟩ hm rfl
    · exact written_same ⟨fun n hn => hrest n (List.mem_cons_of_mem _ hn), hinside⟩ hm rfl
    · exact written_same hinside hm rfl
  | loop condition body inside b =>
    obtain ⟨hbody, hinside⟩ := hk
    simp only [receive]
    split
    · exact written_same hinside hm rfl
    · exact written_same ⟨hbody, hinside⟩ hm rfl
    · refine written_same ⟨Or.inr (hbody _ rfl), ?_, hinside.2⟩ hm rfl
      exact List.forall_mem_cons.mpr ⟨hbody, hinside.1⟩

theorem startNode_written {n : NodeId} (ht : p.tree.Resting) (hk : k.Sited p.tree)
    (hm : s.memory.Sound p.tree) : (startNode p n k s).Written p.tree control s.memory := by
  unfold startNode
  split
  · exact written_same ⟨p.tree.callable_text _, hk⟩ hm rfl
  · exact written_same ⟨p.tree.callable_number _, hk⟩ hm rfl
  · split
    · next b hb =>
      obtain ⟨i, -, hi, -⟩ := Memory.of_resolve hb
      exact written_same ⟨hm.callable i b hi, hk⟩ hm rfl
    · exact written_same ⟨p.tree.callable_undefined, hk⟩ hm rfl
  · exact written_same hk hm rfl
  · next htag =>
    -- a body in the place of an operand
    have hinner : p.tree.Inner n := ht.inner (by rw [htag]; decide)
    exact written_same ⟨Or.inr ⟨hinner, Or.inr htag⟩, fun x hx => (List.not_mem_nil hx).elim, hk⟩
      hm rfl
  · exact written_same hk hm rfl
  · exact written_same ⟨p.tree.callable_number _, hk⟩ hm rfl

theorem startCall_written {arguments : Option NodeId} {access : NodeId} (ht : p.tree.Resting)
    (hk : k.Sited p.tree) (hm : s.memory.Sound p.tree) :
    (startCall p ground name arguments access k s).Written p.tree control s.memory := by
  unfold startCall
  split
  · exact written_same ⟨p.tree.callable_undefined, hk⟩ hm rfl
  · next b hb =>
    obtain ⟨i, -, hi, -⟩ := Memory.of_resolve hb
    have hcallable := hm.callable i b hi
    split
    · next body hbody =>
      rw [hbody] at hcallable
      obtain ⟨hruns, hhosts⟩ := ht.called hcallable
      split
      · refine written_same ⟨?_, hruns, hk⟩ hm rfl
        intro name hname
        unfold paramNames at hname
        split at hname
        · next list hlist =>
          obtain ⟨c, hc, rfl⟩ := List.mem_map.mp hname
          exact hhosts list hlist c (Array.mem_toList_iff.mp hc)
        · cases hname
      · exact written_fault hm _
    · exact written_same ⟨p.tree.callable_null, hk⟩ hm rfl

theorem startStatement_written {n : NodeId} (ht : p.tree.Resting) (hn : p.tree.Executable n)
    (hinside : ∀ x ∈ inside, x.Sited p.tree) (hb : b.Sited p.tree) (hm : s.memory.Sound p.tree) :
    (startStatement p n inside b s).Written p.tree (.statement n inside b) s.memory := by
  unfold startStatement
  dsimp only
  split
  · next htag => exact written_same ⟨hn.hosts (by rw [htag]; rfl), hinside, hb⟩ hm rfl
  · next htag =>
    exact written_stored ⟨hinside, hb⟩ hm (Tree.Formed.callable_function hn.inner htag)
      (hn.hosts (by rw [htag]; rfl)) rfl
  · next htag =>
    obtain ⟨q, hq, hanchors⟩ := hn.scope (by rw [htag]; rfl) (by rw [htag]; decide)
      (by rw [htag]; decide)
    rw [hq]
    refine ⟨⟨?_, hm.remove⟩, [.remove (p.tree.text n) q],
      List.forall_mem_singleton.mpr (.remove ⟨inside, b, rfl⟩ htag hq hanchors.scope), rfl⟩
    intro control s heq
    cases heq
    exact ⟨hinside, hb⟩
  · next htag =>
    exact written_stored ⟨hinside, hb⟩ hm (p.tree.callable_text _) (hn.hosts (by rw [htag]; rfl))
      (memory_asked ..)
  · exact written_same ⟨hinside, hb⟩ hm rfl
  · next htag =>
    refine written_same ⟨?_, hinside, hb⟩ hm rfl
    intro c hc
    exact ht.formed.runs_branch ht.grove hn.inner htag (Array.mem_toList_iff.mp hc)
  · next htag =>
    refine written_same ⟨?_, hinside, hb⟩ hm rfl
    intro c hc
    have hready : p.tree.Ready (fun _ _ => True) 0 c :=
      ht.formed.ready_operand ht.grove hn.inner (Or.inr (Or.inl htag)) hc
    exact hready.toRuns
  · exact written_same ⟨hinside, hb⟩ hm rfl
  · exact written_same ⟨hinside, hb⟩ hm rfl
  · exact written_same ⟨hinside, hb⟩ hm rfl

theorem resume_written (hinside : ∀ x ∈ inside, x.Sited p.tree) (hb : b.Sited p.tree)
    (hm : s.memory.Sound p.tree) :
    (resume ground b s inside).Written p.tree control s.memory := by
  cases inside with
  | nil => exact close_written hb (fun v hv => by cases hv) hm
  | cons pending inside =>
    obtain ⟨hpending, hrest⟩ := List.forall_mem_cons.mp hinside
    cases pending with
    | leave => exact written_same ⟨hrest, hb⟩ hm rfl
    | statements rest => exact written_same ⟨hpending, hrest, hb⟩ hm rfl
    | loop condition body => exact written_same ⟨hpending, hrest, hb⟩ hm rfl

/-- A step writes only what it may ask for, and leaves what is still to be done as it has to be. -/
theorem step_written (ht : p.tree.Resting) (h : control.Sited p.tree)
    (hm : s.memory.Sound p.tree) :
    (step p ground control s).Written p.tree control s.memory := by
  cases control with
  | evaluate node k =>
    cases node with
    | none => exact written_same ⟨p.tree.callable_null, h⟩ hm rfl
    | some node => exact nested_written h hm
  | node node k => exact startNode_written ht h hm
  | call name arguments access k => exact startCall_written ht h hm
  | bind names arguments body k =>
    obtain ⟨hnames, hbody, hk⟩ := h
    cases names with
    | nil => exact written_same ⟨hbody, hk⟩ hm rfl
    | cons name names =>
      obtain ⟨hname, hrest⟩ := List.forall_mem_cons.mp hnames
      cases arguments with
      | nil => exact written_stored ⟨hrest, hbody, hk⟩ hm p.tree.callable_undefined hname rfl
      | cons argument arguments => exact written_same ⟨hnames, hbody, hk⟩ hm rfl
  | enter body k =>
    exact written_same ⟨Or.inr h.1, fun x hx => (List.not_mem_nil hx).elim, h.2⟩ hm rfl
  | value e k => exact receive_written h.1 h.2 hm
  | execute body start inside b =>
    obtain ⟨hbody, hinside, hb⟩ := h
    refine nested_written ⟨?_, ?_, hb⟩ hm
    · intro n hn
      exact ht.executable hbody (Array.mem_toList_iff.mp (List.mem_of_mem_drop hn))
    · exact List.forall_mem_cons.mpr ⟨trivial, hinside⟩
  | statements list inside b =>
    obtain ⟨hlist, hinside, hb⟩ := h
    cases list with
    | nil => exact written_same ⟨hinside, hb⟩ hm rfl
    | cons n rest =>
      obtain ⟨hn, hrest⟩ := List.forall_mem_cons.mp hlist
      exact written_same ⟨hn, List.forall_mem_cons.mpr ⟨hrest, hinside⟩, hb⟩ hm rfl
  | statement n inside b => exact startStatement_written ht h.1 h.2.1 h.2.2 hm
  | branches nodes inside b =>
    obtain ⟨hnodes, hinside, hb⟩ := h
    cases nodes with
    | nil => exact written_same ⟨hinside, hb⟩ hm rfl
    | cons condition rest =>
      exact written_same ⟨(List.forall_mem_cons.mp hnodes).2, hinside, hb⟩ hm rfl
  | loop condition body inside b => exact written_same h hm rfl
  | ended inside b => exact resume_written h.1 h.2 hm
  | exit v inside b =>
    refine close_written h.2 ?_ hm
    intro u hu
    cases hu
    exact h.1

def Executes (p : Program) (ground : Counters) (c : Config) (n : NodeId) : Prop :=
  ∃ control s, Reaches p ground c (.running control s) ∧ control.Executes n

theorem advance_written (ground : Counters) (ht : p.tree.Resting) (hc : c.Sited p.tree) :
    (advance p ground c).Sited p.tree ∧ ∃ ws, (∀ w ∈ ws, p.tree.Asks (Executes p ground c) w) ∧
      (advance p ground c).memory = c.memory.writes p.tree ws := by
  cases c with
  | running control s =>
    have hstep : (step p ground control s).Written p.tree control s.memory :=
      step_written ht (hc.running control s rfl) hc.memory
    obtain ⟨hsited, ws, hasks, hws⟩ := hstep
    exact ⟨hsited, ws, fun w hw => (hasks w hw).imp fun n hn => ⟨control, s, .refl _, hn⟩, hws⟩
  | returned r s => exact ⟨hc, [], List.forall_mem_nil _, rfl⟩
  | faulted f s => exact ⟨hc, [], List.forall_mem_nil _, rfl⟩

theorem Reaches.written (ht : p.tree.Resting) (hc : c.Sited p.tree) (h : Reaches p ground c c') :
    c'.Sited p.tree ∧ ∃ ws, (∀ w ∈ ws, p.tree.Asks (Executes p ground c) w) ∧
      c'.memory = c.memory.writes p.tree ws := by
  obtain ⟨k, rfl⟩ := h
  induction k with
  | zero => exact ⟨hc, [], List.forall_mem_nil _, rfl⟩
  | succ k ih =>
    obtain ⟨hsited, ws, hasks, hws⟩ := ih
    rw [Function.iterate_succ_apply']
    obtain ⟨hnext, ws', hasks', hws'⟩ := advance_written ground ht hsited
    refine ⟨hnext, ws ++ ws', ?_, ?_⟩
    · intro w hw
      rcases List.mem_append.mp hw with hw | hw
      · exact hasks w hw
      · refine (hasks' w hw).imp fun n hn => ?_
        obtain ⟨control, s, hreaches, hcontrol⟩ := hn
        exact ⟨control, s, .trans ⟨k, rfl⟩ hreaches, hcontrol⟩
    · rw [hws', hws, Memory.writes, Memory.writes, Memory.writes, List.foldl_append]

theorem Reaches.persists (ht : p.tree.Resting) (hc : c.Sited p.tree) (h : Reaches p ground c c') :
    c.memory.Persists c'.memory := by
  obtain ⟨-, ws, -, hws⟩ := h.written ht hc
  rw [hws]
  exact Memory.persists_writes ..

/-- A slot that a run has emptied was emptied by a `rem` of its name inside of its anchor. -/
theorem Reaches.emptied {i : Nat} {bound : Binding} (ht : p.tree.Resting) (hc : c.Sited p.tree)
    (h : Reaches p ground c c') (hlive : c.memory.get? i = some bound)
    (hnone : c'.memory.get? i = none) :
    ∃ n, Executes p ground c n ∧ p.tree.Removes n bound := by
  obtain ⟨-, ws, hasks, hws⟩ := h.written ht hc
  exact ht.emptied hasks hlive (hws ▸ hnone)

theorem step_emptied {i : Nat} {bound : Binding} (ht : p.tree.Resting) (h : control.Sited p.tree)
    (hm : s.memory.Sound p.tree) (hlive : s.memory.get? i = some bound)
    (hnone : (step p ground control s).memory.get? i = none) :
    ∃ n, control.Executes n ∧ p.tree.Removes n bound := by
  have hstep : (step p ground control s).Written p.tree control s.memory := step_written ht h hm
  obtain ⟨ws, hasks, hws⟩ := hstep.asked
  exact ht.emptied hasks hlive (hws ▸ hnone)

/-- A run without removals makes no more slots than the tree has places, however long it is. -/
theorem Reaches.size_le (ht : p.tree.Resting) (hc : c.Sited p.tree) (h : Reaches p ground c c')
    (hlayers : c'.memory.Layered p.tree)
    (hremove : ∀ n, Executes p ground c n → p.tree.tag n ≠ .remove) :
    c'.memory.size ≤ c.memory.size + p.tree.places.card := by
  obtain ⟨-, ws, hasks, hws⟩ := h.written ht hc
  rw [hws] at hlayers ⊢
  refine Memory.writes_size_le ht.grove.nests hlayers ?_ ?_
  · intro name access hmem
    generalize hw : Memory.Write.remove name access = w at hmem
    cases hasks w hmem with
    | store => cases hw
    | remove hexecutes htag => exact hremove _ hexecutes htag
  · intro name value params access hmem
    cases hasks _ hmem with
    | store hbinds => exact Tree.mem_places.mpr hbinds

end Machine

end Arbor
