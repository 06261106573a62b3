import Arbor.Evaluate
import Arbor.Proofs.Run.Confined
import Arbor.Proofs.Run.Sound

/-!
# Runs in lockstep

Two programs that agree on the nodes below the root, as far as these can be reached, run alike: they
end with the same value in the same state, or both fail there, or the fuel reaches in neither. Which
of the faults correspond is a parameter. A step that fails shows what stands in the source: a node
that shows something else is entered only after one that takes as many levels.

With one program on both sides this says what its runs keep.
-/
namespace Arbor

open Run

namespace Tree

structure Inner (t : Tree) (n : NodeId) : Prop where
  ne_root : n ≠ root
  under : t.Under root n

variable {t : Tree} {loose : List NodeId} {n c : NodeId} {i : Nat}

theorem Grove.inner_of_mem (hg : t.Grove loose) (hn : t.Under root n) (hc : c ∈ t.children n) :
    t.Inner c := by
  have hparent := (hg.parent_iff n c).mpr hc
  refine ⟨?_, .step hparent hn⟩
  intro hroot
  rw [hroot, hg.root_free] at hparent
  cases hparent

theorem Grove.inner_of_child? (hg : t.Grove loose) (hn : t.Under root n)
    (hc : t.child? n i = some c) : t.Inner c :=
  hg.inner_of_mem hn (mem_of_child? hc)

theorem Inner.exists_parent (hn : t.Inner n) : ∃ q, t.parent n = some q ∧ t.Under root q := by
  cases hn.under with
  | refl => exact absurd rfl hn.ne_root
  | step hp hq => exact ⟨_, hp, hq⟩

end Tree

theorem nestingFault_label (p : Program) (n : NodeId) : nestingFault p n =
    .nestsTooDeep (p.tree.label n).shown (p.tree.label n).position p.settings.maxNesting := rfl

/-- `q` is like `p` below the root, and so are its faults. -/
structure Mirrors (P : String → Nat → Prop) (E : Fault → Fault → Prop) (p q : Program) :
    Prop where
  settings : q.settings = p.settings
  tag : ∀ n, p.tree.Inner n → q.tree.tag n = p.tree.tag n
  text : ∀ n, p.tree.Inner n → q.tree.text n = p.tree.text n
  parent : ∀ n, p.tree.Inner n → q.tree.parent n = p.tree.parent n
  children : ∀ n, p.tree.Inner n → q.tree.children n = p.tree.children n
  encloses : ∀ a n, p.tree.Under Tree.root n → q.tree.encloses a n = p.tree.encloses a n
  nesting : ∀ n, p.tree.Inner n → P (p.tree.label n).shown (p.tree.position n) →
    E (nestingFault p n) (nestingFault q n)
  calls : ∀ n, p.tree.Inner n → p.tree.tag n = .call →
    E (.callsTooDeep (p.tree.text n) (p.tree.position n) p.settings.maxDepth)
      (.callsTooDeep (p.tree.text n) (q.tree.position n) p.settings.maxDepth)

inductive Agree (t : Tree) (E : Fault → Fault → Prop) (good : α → Prop) (nesting : Nat) :
    Outcome State α → Outcome State α → Prop where
  | done {a : α} {s : State} : good a → s.memory.Sound t → s.nesting = nesting →
      Agree t E good nesting (.done a s) (.done a s)
  | failed {f g : Fault} {s : State} : E f g → s.memory.Sound t →
      Agree t E good nesting (.failed f s) (.failed g s)
  | outOfFuel : Agree t E good nesting .outOfFuel .outOfFuel

/-- From a sound memory at the nesting `n`, both runs end alike. -/
def InStep (t : Tree) (E : Fault → Fault → Prop) (n : Nat) (x y : Run α) (good : α → Prop) :
    Prop :=
  ∀ s, s.memory.Sound t → s.nesting = n → Agree t E good n (x s) (y s)

namespace InStep

variable {P : String → Nat → Prop} {E : Fault → Fault → Prop} {p q : Program} {n : Nat}
  {x y : Run α} {good : α → Prop}

theorem pure {a : α} (h : good a) : InStep p.tree E n (Pure.pure a) (Pure.pure a) good :=
  fun _ hs hn => .done h hs hn

theorem outOfFuel : InStep p.tree E n Run.outOfFuel Run.outOfFuel good :=
  fun _ _ _ => .outOfFuel

theorem bind {mid : α → Prop} {f g : α → Run β} {good : β → Prop}
    (hx : InStep p.tree E n x y mid) (hf : ∀ a, mid a → InStep p.tree E n (f a) (g a) good) :
    InStep p.tree E n (x >>= f) (y >>= g) good := by
  intro s hs hn
  have hxy := hx s hs hn
  generalize hox : x s = ox, hoy : y s = oy at hxy
  cases hxy with
  | done ha hs' hn' =>
    rw [Run.bind_of_done f hox, Run.bind_of_done g hoy]
    exact hf _ ha _ hs' hn'
  | failed he hs' =>
    rw [Run.bind_of_failed f hox, Run.bind_of_failed g hoy]
    exact .failed he hs'
  | outOfFuel =>
    rw [Run.bind_of_outOfFuel f hox, Run.bind_of_outOfFuel g hoy]
    exact .outOfFuel

theorem mono {good' : α → Prop} (h : InStep p.tree E n x y good) (hgood : ∀ a, good a → good' a) :
    InStep p.tree E n x y good' := by
  intro s hs hn
  have hxy := h s hs hn
  generalize x s = ox, y s = oy at hxy
  cases hxy with
  | done ha hs' hn' => exact .done (hgood _ ha) hs' hn'
  | failed he hs' => exact .failed he hs'
  | outOfFuel => exact .outOfFuel

theorem memory : InStep p.tree E n Run.memory Run.memory (·.Sound p.tree) :=
  fun _ hs hn => .done hs hs hn

theorem emit (e : Emission) : InStep p.tree E n (Run.emit e) (Run.emit e) fun _ => True :=
  fun _ hs hn => .done trivial hs hn

theorem print (h : Mirrors P E p q) (text : String) :
    InStep p.tree E n (Run.print p text) (Run.print q text) fun _ => True := by
  unfold Run.print
  rw [h.settings]
  apply (emit _).bind
  intro _ _
  split
  · exact emit _
  · exact pure trivial

theorem readLine : InStep p.tree E n Run.readLine Run.readLine fun _ => True := by
  intro s hs hn
  unfold Run.readLine
  split
  · exact .done trivial hs hn
  · exact .done trivial hs hn

theorem lookup_eq (h : Mirrors P E p q) {access : NodeId} (ha : p.tree.Under Tree.root access)
    (m : Memory) (name : String) : m.lookup q.tree name access = m.lookup p.tree name access := by
  apply Memory.lookup_congr
  intro j
  unfold Memory.sees
  cases m.get? j with
  | none => rfl
  | some b =>
    dsimp only
    rw [h.encloses b.anchor access ha]

theorem resolve_eq (h : Mirrors P E p q) {access : NodeId} (ha : p.tree.Under Tree.root access)
    (m : Memory) (name : String) : m.resolve q.tree name access = m.resolve p.tree name access := by
  rw [Memory.resolve, lookup_eq h ha, Memory.resolve]

theorem store (h : Mirrors P E p q) {scope : NodeId} (ha : p.tree.Anchors scope) {value : Value}
    {params : Option NodeId} (hv : p.tree.Callable value params) (name : String) :
    InStep p.tree E n (Run.store p name value params scope) (Run.store q name value params scope)
      fun _ => True := by
  intro s hs hn
  have heq : s.memory.store q.tree name value params scope =
      s.memory.store p.tree name value params scope := by
    unfold Memory.store
    rw [lookup_eq h ha.under]
  unfold Run.store
  rw [heq]
  exact .done trivial (hs.store hv ha) hn

theorem remove (h : Mirrors P E p q) {scope : NodeId} (ha : p.tree.Under Tree.root scope)
    (name : String) : InStep p.tree E n (Run.remove p name scope) (Run.remove q name scope)
      fun _ => True := by
  intro s hs hn
  have heq : s.memory.remove q.tree name scope = s.memory.remove p.tree name scope := by
    unfold Memory.remove
    rw [lookup_eq h ha]
  unfold Run.remove
  rw [heq]
  exact .done trivial hs.remove hn

theorem checkDepth (h : Mirrors P E p q) {c : NodeId} (hc : p.tree.Inner c)
    (htag : p.tree.tag c = .call) :
    InStep p.tree E n (Run.checkDepth p (p.tree.text c) c) (Run.checkDepth q (p.tree.text c) c)
      fun _ => True := by
  intro s hs hn
  unfold Run.checkDepth
  rw [h.settings]
  split
  · exact .done trivial hs hn
  · exact .failed (h.calls c hc htag) hs

theorem nested (h : Mirrors P E p q) {node : NodeId}
    (hx : n < p.settings.maxNesting → InStep p.tree E (n + 1) x y good)
    (hfault : ¬n < p.settings.maxNesting → E (nestingFault p node) (nestingFault q node)) :
    InStep p.tree E n (Run.nested p node x) (Run.nested q node y)
      fun a => n < p.settings.maxNesting ∧ good a := by
  intro s hs hn
  unfold Run.nested
  rw [h.settings, hn]
  by_cases hlt : n < p.settings.maxNesting
  · rw [if_pos hlt, if_pos hlt]
    have hxy := hx hlt { s with nesting := n + 1 } hs rfl
    generalize x { s with nesting := n + 1 } = ox, y { s with nesting := n + 1 } = oy at hxy
    cases hxy with
    | done ha hs' hn' =>
      refine .done ⟨hlt, ha⟩ hs' ?_
      rw [hn', Nat.add_sub_cancel]
    | failed he hs' => exact .failed he hs'
    | outOfFuel => exact .outOfFuel
  · rw [if_neg hlt, if_neg hlt]
    exact .failed (hfault hlt) hs

theorem called (hx : InStep p.tree E n x y good) :
    InStep p.tree E n (Run.called x) (Run.called y) good := by
  intro s hs hn
  unfold Run.called
  have hxy := hx { s with depth := s.depth + 1 } hs hn
  generalize x { s with depth := s.depth + 1 } = ox, y { s with depth := s.depth + 1 } = oy at hxy
  cases hxy with
  | done ha hs' hn' => exact .done ha hs' hn'
  | failed he hs' => exact .failed he hs'
  | outOfFuel => exact .outOfFuel

end InStep

theorem Label.Fits.part {P : String → Nat → Prop} {parent : Tag} {index : Nat} {l : Label}
    (h : Label.Fits P parent index l) (hp : parent.isExpression = true) :
    l.tag.isExpression = true ∨ l.tag = .body ∨ l.tag = .arguments := by
  cases parent
  case call =>
    simp only [Label.Fits] at h
    split at h
    · exact Or.inr (Or.inr h)
    · exact Or.inr (Or.inl h.tag)
  all_goals first
    | exact h.elim
    | exact Or.inl h.tag
    | cases hp

namespace Tree

variable (P : String → Nat → Prop) (t : Tree)

structure Runs (c : NodeId) : Prop where
  inner : t.Inner c
  tag : (t.tag c).isExpression = true ∨ t.tag c = .body

/-- A node that can be evaluated where `room` levels are free: it shows what stands in the source, or
there is room for it. -/
structure Ready (room : Nat) (c : NodeId) : Prop extends Runs t c where
  shown : P (t.label c).shown (t.position c) ∨ (t.label c).levels ≤ room

/-- A statement, or a part of an expression, which does not store. -/
structure Executable (c : NodeId) : Prop where
  inner : t.Inner c
  tag : (∃ q, t.parent c = some q ∧ (t.tag q).isScope = true) ∨ (t.tag c).isExpression = true ∨
    t.tag c = .body ∨ t.tag c = .arguments

variable {P t} {loose : List NodeId} {n c d : NodeId} {i room : Nat}

theorem Runs.of_expression (hc : t.Inner c) (h : (t.label c).Expression P) : t.Runs c :=
  ⟨hc, Or.inl h.tag⟩

theorem ready_of_expression (hc : t.Inner c) (h : (t.label c).Expression P) :
    t.Ready P room c :=
  ⟨.of_expression hc h, Or.inl h.shown⟩

theorem ready_of_block (hc : t.Inner c) (h : (t.label c).Block P) : t.Ready P room c :=
  ⟨⟨hc, Or.inr h.tag⟩, Or.inl h.shown⟩

theorem Runs.executable (hn : t.Runs n) (ht : t.Formed P) (hg : t.Grove loose)
    (hc : c ∈ t.children n) : t.Executable c := by
  have hinner := hg.inner_of_mem hn.inner.under hc
  obtain ⟨i, hi⟩ := child?_of_mem hc
  have hfits := (ht.hangs n i c hi).fits
  refine ⟨hinner, ?_⟩
  rcases hn.tag with hexpression | hbody
  · exact Or.inr (hfits.part hexpression)
  · exact Or.inl ⟨n, (hg.parent_iff n c).mpr hc, by rw [hbody]; rfl⟩

theorem Formed.ready_operand (ht : t.Formed P) (hg : t.Grove loose) (hn : t.Inner n)
    (htag : t.tag n = .store ∨ t.tag n = .loop ∨ t.tag n = .output ∨ t.tag n = .giveBack)
    (hc : t.child? n i = some c) : t.Ready P room c := by
  have hinner := hg.inner_of_child? hn.under hc
  have hfits := (ht.hangs n i c hc).fits
  have hplace : i = 0 ∧ (t.label c).Expression P ∨ (t.label c).Block P := by
    rcases htag with htag | htag | htag | htag <;>
      · rw [htag] at hfits
        exact hfits
  rcases hplace with ⟨_, he⟩ | hb
  · exact ready_of_expression hinner he
  · exact ready_of_block hinner hb

theorem Formed.ready_side (ht : t.Formed P) (hg : t.Grove loose) (hn : t.Inner n)
    (htag : t.tag n = .operator) (hc : t.child? n i = some c) : t.Ready P room c := by
  have hfits := (ht.hangs n i c hc).fits
  rw [htag] at hfits
  exact ready_of_expression (hg.inner_of_child? hn.under hc) hfits

theorem Formed.ready_arguments (ht : t.Formed P) (hg : t.Grove loose) (hn : t.Inner n)
    (htag : t.tag n = .call) {l : NodeId} (hl : t.child? n 0 = some l) (hd : d ∈ t.children l) :
    t.Ready P room d :=
  ready_of_expression (hg.inner_of_mem (hg.inner_of_child? hn.under hl).under hd)
    (ht.argument htag hl hd)

theorem Formed.block_of_declares (ht : t.Formed P) {f : NodeId} (hf : t.Declares f)
    (hc : t.child? f 1 = some c) : (t.label c).Block P := by
  have hfits := (ht.hangs f 1 c hc).fits
  rw [hf.tag] at hfits
  exact hfits

theorem Formed.runs_branch (ht : t.Formed P) (hg : t.Grove loose) (hn : t.Inner n)
    (htag : t.tag n = .branch) (hc : c ∈ t.children n) : t.Runs c := by
  obtain ⟨i, hi⟩ := child?_of_mem hc
  have hfits := (ht.hangs n i c hi).fits
  rw [htag] at hfits
  exact ⟨hg.inner_of_mem hn.under hc, hfits⟩

end Tree

structure Lockstep (P : String → Nat → Prop) (E : Fault → Fault → Prop) (p q : Program)
    (fuel : Nat) : Prop where
  evaluate : ∀ n node, (∀ c, node = some c → p.tree.Ready P (p.settings.maxNesting - n) c) →
    InStep p.tree E n (evaluate p fuel node) (evaluate q fuel node) fun e =>
      p.tree.Callable e.value e.params ∧
        ∀ c, node = some c → n + (p.tree.label c).levels ≤ p.settings.maxNesting
  evaluateNode : ∀ n c, p.tree.Runs c → (p.tree.tag c = .body →
      P (p.tree.label c).shown (p.tree.position c) ∨ n < p.settings.maxNesting) →
    InStep p.tree E n (evaluateNode p fuel c) (evaluateNode q fuel c) fun e =>
      p.tree.Callable e.value e.params ∧ (p.tree.tag c = .body → n < p.settings.maxNesting)
  runCall : ∀ n c, p.tree.Inner c → p.tree.tag c = .call →
    InStep p.tree E n (runCall p fuel (p.tree.text c) (p.tree.child? c 0) c)
      (runCall q fuel (p.tree.text c) (p.tree.child? c 0) c) fun v => p.tree.Callable v none
  bindParams : ∀ n names arguments body, (∀ a ∈ arguments, ∀ room, p.tree.Ready P room a) →
    p.tree.Anchors body →
    InStep p.tree E n (bindParams p fuel names arguments body)
      (bindParams q fuel names arguments body) fun _ => True
  execute : ∀ n c start, p.tree.Runs c →
    P (p.tree.label c).shown (p.tree.position c) ∨ n < p.settings.maxNesting →
    InStep p.tree E n (execute p fuel c start) (execute q fuel c start) fun r =>
      n < p.settings.maxNesting ∧ ∀ v, r = some v → p.tree.Callable v none
  runStatements : ∀ n l, (∀ c ∈ l, p.tree.Executable c) →
    InStep p.tree E n (runStatements p fuel l) (runStatements q fuel l) fun r =>
      ∀ v, r = some v → p.tree.Callable v none
  executeStatement : ∀ n c, p.tree.Executable c →
    InStep p.tree E n (executeStatement p fuel c) (executeStatement q fuel c) fun r =>
      ∀ v, r = some v → p.tree.Callable v none
  runBranches : ∀ n room l, (∀ c ∈ l, p.tree.Runs c) →
    Label.Guarded P room (l.map p.tree.label) → room ≤ p.settings.maxNesting - n →
    InStep p.tree E n (runBranches p fuel l) (runBranches q fuel l) fun r =>
      ∀ v, r = some v → p.tree.Callable v none
  runLoop : ∀ n condition body, (∀ c, condition = some c → ∀ room, p.tree.Ready P room c) →
    (∀ c, body = some c → ∀ room, p.tree.Ready P room c) →
    InStep p.tree E n (runLoop p fuel condition body) (runLoop q fuel condition body) fun r =>
      ∀ v, r = some v → p.tree.Callable v none

section

variable {P : String → Nat → Prop} {E : Fault → Fault → Prop} {p q : Program}
  {loose : List NodeId} {fuel : Nat} {c : NodeId}

theorem Tree.callable_number (t : Tree) (x : Float) : t.Callable (.number x) none :=
  Tree.callable_plain fun _ => Value.noConfusion

theorem Tree.callable_text (t : Tree) (x : String) : t.Callable (.text x) none :=
  Tree.callable_plain fun _ => Value.noConfusion

theorem Tree.callable_undefined (t : Tree) : t.Callable .undefined none :=
  Tree.callable_plain fun _ => Value.noConfusion

theorem Tree.callable_null (t : Tree) : t.Callable .null none :=
  Tree.callable_plain fun _ => Value.noConfusion

theorem Tree.callable_getD {t : Tree} {r : Option Value}
    (h : ∀ v, r = some v → t.Callable v none) : t.Callable (r.getD .null) none := by
  cases r with
  | none => exact t.callable_null
  | some v => exact h v rfl

theorem Mirrors.child? (h : Mirrors P E p q) (hc : p.tree.Inner c) (i : Nat) :
    q.tree.child? c i = p.tree.child? c i := by
  rw [Tree.child?, h.children c hc, Tree.child?]

theorem Mirrors.argumentNodes (h : Mirrors P E p q) {arguments : Option NodeId}
    (ha : ∀ l, arguments = some l → p.tree.Inner l) :
    argumentNodes q arguments = argumentNodes p arguments := by
  cases arguments with
  | none => rfl
  | some l =>
    simp only [Arbor.argumentNodes]
    rw [h.children l (ha l rfl)]

theorem Mirrors.paramNames (h : Mirrors P E p q) (hg : p.tree.Grove loose)
    {params : Option NodeId} (ha : ∀ l, params = some l → p.tree.Inner l) :
    paramNames q params = paramNames p params := by
  cases params with
  | none => rfl
  | some l =>
    simp only [Arbor.paramNames]
    rw [h.children l (ha l rfl)]
    apply List.map_congr_left
    intro d hd
    exact h.text d (hg.inner_of_mem (ha l rfl).under (Array.mem_toList_iff.mp hd))

theorem evaluateNode_inStep (h : Mirrors P E p q) (ht : p.tree.Formed P) (hg : p.tree.Grove loose)
    (ih : Lockstep P E p q fuel) (n : Nat) (hc : p.tree.Runs c)
    (hbody : p.tree.tag c = .body →
      P (p.tree.label c).shown (p.tree.position c) ∨ n < p.settings.maxNesting) :
    InStep p.tree E n (evaluateNode p (fuel + 1) c) (evaluateNode q (fuel + 1) c) fun e =>
      p.tree.Callable e.value e.params ∧ (p.tree.tag c = .body → n < p.settings.maxNesting) := by
  simp only [evaluateNode, h.tag c hc.inner, h.text c hc.inner, h.child? hc.inner]
  cases htag : p.tree.tag c
  case textLiteral => exact .pure ⟨p.tree.callable_text _, fun hk => by cases hk⟩
  case numberLiteral => exact .pure ⟨p.tree.callable_number _, fun hk => by cases hk⟩
  case get =>
    apply InStep.memory.bind
    intro m hm
    rw [InStep.resolve_eq h hc.inner.under]
    split
    · next b hb =>
      obtain ⟨i, _, hi, _⟩ := Memory.of_resolve hb
      exact .pure ⟨hm.callable i b hi, fun hk => by cases hk⟩
    · exact .pure ⟨p.tree.callable_undefined, fun hk => by cases hk⟩
  case call =>
    apply (ih.runCall n c hc.inner htag).bind
    intro v hv
    exact .pure ⟨hv, fun hk => by cases hk⟩
  case body =>
    apply (ih.execute n c 0 hc (hbody htag)).bind
    intro r hr
    exact .pure ⟨Tree.callable_getD hr.2, fun _ => hr.1⟩
  case operator =>
    apply (ih.evaluate n _ fun d hd => ht.ready_side hg hc.inner htag hd).bind
    intro left _
    apply (ih.evaluate n _ fun d hd => ht.ready_side hg hc.inner htag hd).bind
    intro right _
    refine .pure ⟨?_, fun hk => by cases hk⟩
    exact Tree.callable_plain (Operator.apply_ne_body _ _ _)
  all_goals
    rcases hc.tag with hexpression | hbody
    · rw [htag] at hexpression
      cases hexpression
    · rw [htag] at hbody
      cases hbody

theorem runCall_inStep (h : Mirrors P E p q) (ht : p.tree.Formed P) (hg : p.tree.Grove loose)
    (ih : Lockstep P E p q fuel) (n : Nat) (hc : p.tree.Inner c) (htag : p.tree.tag c = .call) :
    InStep p.tree E n (runCall p (fuel + 1) (p.tree.text c) (p.tree.child? c 0) c)
      (runCall q (fuel + 1) (p.tree.text c) (p.tree.child? c 0) c)
      fun v => p.tree.Callable v none := by
  simp only [runCall]
  apply InStep.memory.bind
  intro m hm
  rw [InStep.resolve_eq h hc.under]
  split
  · exact .pure p.tree.callable_undefined
  · next b hb =>
    obtain ⟨i, _, hi, _⟩ := Memory.of_resolve hb
    have hcallable := hm.callable i b hi
    split
    · next body hbody =>
      obtain ⟨f, hf, hchild, hlist⟩ := hcallable.body body hbody
      have hinner := hg.inner_of_child? hf.under hchild
      have hblock := ht.block_of_declares hf hchild
      have hparams : ∀ l, b.params = some l → p.tree.Inner l :=
        fun l hl => hg.inner_of_child? hf.under (hlist l hl)
      have harguments : ∀ l, p.tree.child? c 0 = some l → p.tree.Inner l :=
        fun l hl => hg.inner_of_child? hc.under hl
      rw [h.paramNames hg hparams, h.argumentNodes harguments]
      apply (InStep.checkDepth h hc htag).bind
      intro _ _
      have hready : ∀ a ∈ argumentNodes p (p.tree.child? c 0), ∀ room, p.tree.Ready P room a := by
        intro a ha room
        cases hl : p.tree.child? c 0 with
        | none =>
          rw [hl] at ha
          cases ha
        | some l =>
          rw [hl] at ha
          exact ht.ready_arguments hg hc htag hl (Array.mem_toList_iff.mp ha)
      have hanchors : p.tree.Anchors body :=
        ⟨hinner.under, by rw [show p.tree.tag body = .body from hblock.tag]; rfl⟩
      apply (ih.bindParams n _ _ body hready hanchors).bind
      intro _ _
      have hexecute := ih.execute n body 0 ⟨hinner, Or.inr hblock.tag⟩ (Or.inl hblock.shown)
      apply (InStep.called hexecute).bind
      intro r hr
      exact .pure (Tree.callable_getD hr.2)
    · exact .pure p.tree.callable_null

theorem bindParams_inStep (h : Mirrors P E p q) (ih : Lockstep P E p q fuel) (n : Nat)
    (names : List String) (arguments : List NodeId) {body : NodeId}
    (ha : ∀ a ∈ arguments, ∀ room, p.tree.Ready P room a) (hb : p.tree.Anchors body) :
    InStep p.tree E n (bindParams p (fuel + 1) names arguments body)
      (bindParams q (fuel + 1) names arguments body) fun _ => True := by
  cases names with
  | nil =>
    rw [bindParams, bindParams]
    exact .pure trivial
  | cons name names =>
    cases arguments with
    | nil =>
      rw [bindParams, bindParams]
      apply (InStep.store h hb p.tree.callable_undefined name).bind
      intro _ _
      exact ih.bindParams n names [] body (fun a hm => by cases hm) hb
    | cons argument arguments =>
      rw [bindParams, bindParams]
      obtain ⟨hfirst, hrest⟩ := List.forall_mem_cons.mp ha
      apply (ih.evaluate n (some argument) fun d hd => Option.some.inj hd ▸ hfirst _).bind
      intro e he
      apply (InStep.store h hb he.1 name).bind
      intro _ _
      exact ih.bindParams n names arguments body hrest hb

theorem runStatements_inStep (ih : Lockstep P E p q fuel) (n : Nat) (l : List NodeId)
    (hl : ∀ d ∈ l, p.tree.Executable d) :
    InStep p.tree E n (runStatements p (fuel + 1) l) (runStatements q (fuel + 1) l) fun r =>
      ∀ v, r = some v → p.tree.Callable v none := by
  cases l with
  | nil =>
    rw [runStatements, runStatements]
    exact .pure fun v hv => by cases hv
  | cons statement rest =>
    rw [runStatements, runStatements]
    obtain ⟨hfirst, hrest⟩ := List.forall_mem_cons.mp hl
    apply (ih.executeStatement n statement hfirst).bind
    intro r hr
    cases r with
    | some returned => exact .pure hr
    | none => exact ih.runStatements n rest hrest

theorem Tree.Executable.anchors {t : Tree} (hc : t.Executable c)
    (htag : (t.tag c).isExpression = false) (hbody : t.tag c ≠ .body)
    (hlist : t.tag c ≠ .arguments) : t.Anchors ((t.parent c).getD c) := by
  rcases hc.tag with ⟨q, hq, hscope⟩ | he | hb | hl
  · obtain ⟨r, hr, hunder⟩ := hc.inner.exists_parent
    rw [hq] at hr ⊢
    cases hr
    exact ⟨hunder, hscope⟩
  · rw [htag] at he
    cases he
  · exact absurd hb hbody
  · exact absurd hl hlist

theorem Tree.Formed.callable_function {t : Tree} (hc : t.Inner c) (htag : t.tag c = .function) :
    t.Callable (match t.child? c 1 with
      | some body => .body body
      | none => .null) (t.child? c 0) := by
  have hf : t.Declares c := ⟨htag, hc.under⟩
  constructor
  · intro n hn
    cases hbody : t.child? c 1 with
    | none =>
      rw [hbody] at hn
      cases hn
    | some body =>
      rw [hbody] at hn
      cases hn
      exact ⟨c, hf, hbody, fun l hl => hl⟩
  · intro l hl
    refine ⟨?_, c, hf, hl⟩
    cases t.child? c 1 with
    | none => exact Or.inr rfl
    | some body => exact Or.inl ⟨body, rfl⟩

theorem executeStatement_inStep (h : Mirrors P E p q) (ht : p.tree.Formed P)
    (hg : p.tree.Grove loose) (ih : Lockstep P E p q fuel) (n : Nat) (hc : p.tree.Executable c) :
    InStep p.tree E n (executeStatement p (fuel + 1) c) (executeStatement q (fuel + 1) c) fun r =>
      ∀ v, r = some v → p.tree.Callable v none := by
  have hnone : ∀ v, (none : Option Value) = some v → p.tree.Callable v none :=
    fun v hv => by cases hv
  simp only [executeStatement, h.tag c hc.inner, h.text c hc.inner, h.parent c hc.inner,
    h.children c hc.inner, h.child? hc.inner]
  cases htag : p.tree.tag c
  case store =>
    have ha := hc.anchors (by rw [htag]; rfl) (by rw [htag]; decide) (by rw [htag]; decide)
    apply (ih.evaluate n _ fun d hd => ht.ready_operand hg hc.inner (Or.inl htag) hd).bind
    intro e he
    apply (InStep.store h ha he.1 _).bind
    intro _ _
    exact .pure hnone
  case function =>
    have ha := hc.anchors (by rw [htag]; rfl) (by rw [htag]; decide) (by rw [htag]; decide)
    apply (InStep.store h ha (Tree.Formed.callable_function hc.inner htag) _).bind
    intro _ _
    exact .pure hnone
  case remove =>
    have ha := hc.anchors (by rw [htag]; rfl) (by rw [htag]; decide) (by rw [htag]; decide)
    apply (InStep.remove h ha.under _).bind
    intro _ _
    exact .pure hnone
  case input =>
    have ha := hc.anchors (by rw [htag]; rfl) (by rw [htag]; decide) (by rw [htag]; decide)
    apply InStep.readLine.bind
    intro line _
    apply (InStep.store h ha (p.tree.callable_text line) _).bind
    intro _ _
    exact .pure hnone
  case call =>
    apply (ih.runCall n c hc.inner htag).bind
    intro _ _
    exact .pure hnone
  case branch =>
    apply ih.runBranches n 0
    · intro d hd
      exact ht.runs_branch hg hc.inner htag (Array.mem_toList_iff.mp hd)
    · exact (ht.branches c htag).guarded
    · exact Nat.zero_le _
  case loop =>
    apply ih.runLoop n
    · intro d hd room
      exact ht.ready_operand hg hc.inner (Or.inr (Or.inl htag)) hd
    · intro d hd room
      exact ht.ready_operand hg hc.inner (Or.inr (Or.inl htag)) hd
  case output =>
    apply (ih.evaluate n _ fun d hd =>
      ht.ready_operand hg hc.inner (Or.inr (Or.inr (Or.inl htag))) hd).bind
    intro e _
    apply (InStep.print h _).bind
    intro _ _
    exact .pure hnone
  case giveBack =>
    apply (ih.evaluate n _ fun d hd =>
      ht.ready_operand hg hc.inner (Or.inr (Or.inr (Or.inr htag))) hd).bind
    intro e he
    refine .pure fun v hv => ?_
    cases hv
    exact he.1.bare
  all_goals exact .pure hnone

theorem runBranches_inStep (ih : Lockstep P E p q fuel) (n room : Nat) (l : List NodeId)
    (hl : ∀ d ∈ l, p.tree.Runs d) (hguarded : Label.Guarded P room (l.map p.tree.label))
    (hroom : room ≤ p.settings.maxNesting - n) :
    InStep p.tree E n (runBranches p (fuel + 1) l) (runBranches q (fuel + 1) l) fun r =>
      ∀ v, r = some v → p.tree.Callable v none := by
  have hnone : ∀ v, (none : Option Value) = some v → p.tree.Callable v none :=
    fun v hv => by cases hv
  cases l with
  | nil =>
    rw [runBranches, runBranches]
    exact .pure hnone
  | cons condition rest =>
    rw [runBranches, runBranches]
    obtain ⟨hcondition, hrest⟩ := List.forall_mem_cons.mp hl
    have hready : p.tree.Ready P (p.settings.maxNesting - n) condition :=
      ⟨hcondition, hguarded.head.imp id fun hle => Nat.le_trans hle hroom⟩
    apply (ih.evaluate n (some condition) fun d hd => Option.some.inj hd ▸ hready).bind
    intro e he
    -- the condition has taken its levels, so they are known to be free
    have hlevels := he.2 condition rfl
    have hpos : 0 < (p.tree.label condition).levels := by
      unfold Label.levels
      split <;> decide
    split
    · next body _ _ =>
      have hlt : n < p.settings.maxNesting := by omega
      exact (ih.execute n body 0 (hrest body List.mem_cons_self) (Or.inr hlt)).mono
        fun r hr => hr.2
    · exact .pure hnone
    · apply ih.runBranches n (max room (p.tree.label condition).levels)
      · intro d hd
        exact hrest d (List.mem_cons_of_mem _ hd)
      · exact hguarded.tail
      · omega
    · exact .pure hnone

theorem runLoop_inStep (ih : Lockstep P E p q fuel) (n : Nat) {condition body : Option NodeId}
    (hcondition : ∀ d, condition = some d → ∀ room, p.tree.Ready P room d)
    (hbody : ∀ d, body = some d → ∀ room, p.tree.Ready P room d) :
    InStep p.tree E n (runLoop p (fuel + 1) condition body)
      (runLoop q (fuel + 1) condition body) fun r =>
      ∀ v, r = some v → p.tree.Callable v none := by
  rw [runLoop, runLoop]
  apply (ih.evaluate n condition fun d hd => hcondition d hd _).bind
  intro e _
  split
  · exact .pure fun v hv => by cases hv
  · exact ih.runLoop n condition none hcondition hbody
  · next id _ =>
    -- the body of a loop shows what stands in the source, whatever room there is
    have hready := hbody id rfl 0
    have hshown : P (p.tree.label id).shown (p.tree.position id) := by
      rcases hready.shown with hshown | hlevels
      · exact hshown
      · unfold Label.levels at hlevels
        split at hlevels <;> omega
    apply (ih.execute n id 0 hready.toRuns (Or.inl hshown)).bind
    intro r hr
    cases r with
    | some returned => exact .pure hr.2
    | none => exact ih.runLoop n condition (some id) hcondition hbody

theorem evaluate_inStep (h : Mirrors P E p q) (ih : Lockstep P E p q fuel) (n : Nat)
    {node : Option NodeId}
    (hnode : ∀ c, node = some c → p.tree.Ready P (p.settings.maxNesting - n) c) :
    InStep p.tree E n (evaluate p (fuel + 1) node) (evaluate q (fuel + 1) node) fun e =>
      p.tree.Callable e.value e.params ∧
        ∀ c, node = some c → n + (p.tree.label c).levels ≤ p.settings.maxNesting := by
  cases node with
  | none =>
    rw [Arbor.evaluate, Arbor.evaluate]
    exact .pure ⟨p.tree.callable_null, fun c hc => by cases hc⟩
  | some c =>
    rw [Arbor.evaluate, Arbor.evaluate]
    have hc := hnode c rfl
    have hpos : 0 < (p.tree.label c).levels := by
      unfold Label.levels
      split <;> decide
    have hinner : n < p.settings.maxNesting →
        InStep p.tree E (n + 1) (evaluateNode p fuel c) (evaluateNode q fuel c) fun e =>
          p.tree.Callable e.value e.params ∧
            (p.tree.tag c = .body → n + 1 < p.settings.maxNesting) := by
      intro _
      apply ih.evaluateNode (n + 1) c hc.toRuns
      intro hbody
      rcases hc.shown with hshown | hlevels
      · exact Or.inl hshown
      · rw [Label.levels, if_pos (show (p.tree.label c).tag = .body from hbody)] at hlevels
        exact Or.inr (by omega)
    have hfault : ¬n < p.settings.maxNesting → E (nestingFault p c) (nestingFault q c) := by
      intro hlimit
      apply h.nesting c hc.inner
      rcases hc.shown with hshown | hlevels
      · exact hshown
      · omega
    apply (InStep.nested h hinner hfault).mono
    intro e he
    refine ⟨he.2.1, fun d hd => ?_⟩
    cases hd
    unfold Label.levels
    split
    · next hbody => exact he.2.2 hbody
    · exact he.1

theorem execute_inStep (h : Mirrors P E p q) (ht : p.tree.Formed P) (hg : p.tree.Grove loose)
    (ih : Lockstep P E p q fuel) (n start : Nat) (hc : p.tree.Runs c)
    (hshown : P (p.tree.label c).shown (p.tree.position c) ∨ n < p.settings.maxNesting) :
    InStep p.tree E n (execute p (fuel + 1) c start) (execute q (fuel + 1) c start) fun r =>
      n < p.settings.maxNesting ∧ ∀ v, r = some v → p.tree.Callable v none := by
  rw [execute, execute, h.children c hc.inner]
  apply InStep.nested h
  · intro _
    apply ih.runStatements
    intro d hd
    exact hc.executable ht hg (Array.mem_toList_iff.mp (List.mem_of_mem_drop hd))
  · intro hlimit
    apply h.nesting c hc.inner
    rcases hshown with hshown | hlt
    · exact hshown
    · exact absurd hlt hlimit

theorem lockstep_zero : Lockstep P E p q 0 where
  evaluate n node _ := by
    cases node with
    | none =>
      rw [evaluate, evaluate]
      exact .pure ⟨p.tree.callable_null, fun c hc => by cases hc⟩
    | some node =>
      rw [evaluate, evaluate]
      exact .outOfFuel
  evaluateNode _ _ _ _ := by
    simp only [evaluateNode]
    exact .outOfFuel
  runCall _ _ _ _ := by
    simp only [runCall]
    exact .outOfFuel
  bindParams _ names _ _ _ _ := by
    cases names with
    | nil =>
      rw [bindParams, bindParams]
      exact .pure trivial
    | cons =>
      rw [bindParams, bindParams]
      exact .outOfFuel
  execute _ _ _ _ _ := by
    rw [execute, execute]
    exact .outOfFuel
  runStatements _ l _ := by
    cases l with
    | nil =>
      rw [runStatements, runStatements]
      exact .pure fun v hv => by cases hv
    | cons =>
      rw [runStatements, runStatements]
      exact .outOfFuel
  executeStatement _ _ _ := by
    simp only [executeStatement]
    exact .outOfFuel
  runBranches _ _ l _ _ _ := by
    cases l with
    | nil =>
      rw [runBranches, runBranches]
      exact .pure fun v hv => by cases hv
    | cons =>
      rw [runBranches, runBranches]
      exact .outOfFuel
  runLoop _ _ _ _ _ := by
    rw [runLoop, runLoop]
    exact .outOfFuel

/-- Programs that mirror each other below the root run in lockstep. -/
theorem lockstep (h : Mirrors P E p q) (ht : p.tree.Formed P) (hg : p.tree.Grove loose)
    (fuel : Nat) : Lockstep P E p q fuel := by
  induction fuel with
  | zero => exact lockstep_zero
  | succ fuel ih =>
    constructor
    · exact fun n _ => evaluate_inStep h ih n
    · exact fun n _ => evaluateNode_inStep h ht hg ih n
    · exact fun n _ => runCall_inStep h ht hg ih n
    · exact fun n names arguments _ => bindParams_inStep h ih n names arguments
    · exact fun n _ start => execute_inStep h ht hg ih n start
    · exact runStatements_inStep ih
    · exact fun n _ => executeStatement_inStep h ht hg ih n
    · exact runBranches_inStep ih
    · exact fun n _ _ => runLoop_inStep ih n

theorem execute_root_inStep (h : Mirrors P E p q) (ht : p.tree.Formed P)
    (hg : p.tree.Grove loose) (hroot : (p.tree.tag Tree.root).isScope = true)
    (hchildren : q.tree.children Tree.root = p.tree.children Tree.root) (n : Nat)
    (hfault : ¬n < p.settings.maxNesting →
      E (nestingFault p Tree.root) (nestingFault q Tree.root)) (fuel start : Nat) :
    InStep p.tree E n (execute p fuel Tree.root start) (execute q fuel Tree.root start)
      fun _ => True := by
  cases fuel with
  | zero =>
    rw [execute, execute]
    exact .outOfFuel
  | succ fuel =>
    rw [execute, execute, hchildren]
    have hstatements : ∀ c ∈ (p.tree.children Tree.root).toList.drop start,
        p.tree.Executable c := by
      intro c hc
      have hmem := Array.mem_toList_iff.mp (List.mem_of_mem_drop hc)
      exact ⟨hg.inner_of_mem .refl hmem,
        Or.inl ⟨Tree.root, (hg.parent_iff _ c).mpr hmem, hroot⟩⟩
    have hinner := (lockstep h ht hg fuel).runStatements (n + 1) _ hstatements
    exact (InStep.nested h (fun _ => hinner) hfault).mono fun _ _ => trivial

theorem Mirrors.self {G : Fault → Prop}
    (hnesting : ∀ n, p.tree.Inner n → P (p.tree.label n).shown (p.tree.position n) →
      G (nestingFault p n))
    (hcalls : ∀ n, p.tree.Inner n → p.tree.tag n = .call →
      G (.callsTooDeep (p.tree.text n) (p.tree.position n) p.settings.maxDepth)) :
    Mirrors P (fun f g => f = g ∧ G f) p p where
  settings := rfl
  tag _ _ := rfl
  text _ _ := rfl
  parent _ _ := rfl
  children _ _ := rfl
  encloses _ _ _ := rfl
  nesting n hn hshown := ⟨rfl, hnesting n hn hshown⟩
  calls n hn htag := ⟨rfl, hcalls n hn htag⟩

theorem Tree.PrefixOf.encloses {t u : Tree} {n : NodeId} (h : t.PrefixOf u) (hg : t.Grove loose)
    (hn : n < t.size) (a : Option NodeId) : u.encloses a n = t.encloses a n := by
  cases a with
  | none => rfl
  | some a =>
    have hclimbs : ∀ k n, n < t.size → u.climbs a k n = t.climbs a k n := by
      intro k
      induction k with
      | zero => intro _ _; rfl
      | succ k ih =>
        intro n hn
        have hparent : u.parent n = t.parent n := by
          rw [Tree.parent, h.node n hn, Tree.parent]
        rw [climbs, climbs, hparent]
        cases hp : t.parent n with
        | none => rfl
        | some q =>
          dsimp only
          rw [ih q (hg.parent_lt hp)]
    apply Bool.eq_iff_iff.mpr
    constructor
    · intro hu
      have hu : u.climbs a u.size n = true := hu
      rw [hclimbs _ n hn] at hu
      exact hg.encloses_iff.mpr (under_of_climbs hu)
    · intro ht
      have ht : t.climbs a t.size n = true := ht
      have hmore := climbs_mono ht h.size_le
      rw [← hclimbs _ n hn] at hmore
      exact hmore

/-- A program with the same nodes below the root, which are enclosed alike. -/
theorem Mirrors.of_inner {u : Tree} (hnode : ∀ n, p.tree.Inner n → u.node n = p.tree.node n)
    (hencloses : ∀ a n, p.tree.Under Tree.root n → u.encloses a n = p.tree.encloses a n) :
    Mirrors P Eq p ⟨u, p.settings⟩ where
  settings := rfl
  tag n hn := congrArg Node.tag (hnode n hn)
  text n hn := congrArg Node.text (hnode n hn)
  parent n hn := congrArg Node.parent (hnode n hn)
  children n hn := congrArg Node.children (hnode n hn)
  encloses := hencloses
  nesting n hn _ := by
    have hlabel : u.label n = p.tree.label n := by
      rw [Tree.label, Tree.tag, Tree.text, Tree.position, hnode n hn]
      rfl
    rw [nestingFault_label, nestingFault_label, hlabel]
  calls n hn _ := by
    have hposition : u.position n = p.tree.position n := congrArg Node.position (hnode n hn)
    dsimp only
    rw [hposition]

theorem Mirrors.of_stands {u : Tree} (hu : p.tree.PrefixOf u) (hg : p.tree.Grove loose) :
    Mirrors P Eq p ⟨u, p.settings⟩ := by
  have hlt : ∀ {n}, p.tree.Under Tree.root n → n < p.tree.size := fun hn => hn.lt hg.size_pos
  apply Mirrors.of_inner
  · intro n hn
    exact hu.node n (hlt hn.under)
  · intro a n hn
    exact hu.encloses hg (hlt hn) a

end

end Arbor
