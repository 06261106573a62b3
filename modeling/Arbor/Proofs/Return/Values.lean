import Arbor.Proofs.Return.Writes

/-!
# The values of a run

All values of a run are made by the program: they are read from literals, given by operators, made of
functions, or marks. What holds of every value that is made holds of every one that is handed on.
-/
namespace Arbor.Machine

mutual

def Await.values : Await → List Value
  | .leave k | .left _ _ k | .argument _ _ _ _ k => k.values
  | .right _ left k => left :: k.values
  | .store _ _ _ b | .print _ b | .giveBack _ b | .discard _ b | .branches _ _ b
  | .loop _ _ _ b => b.values

def Boundary.values : Boundary → List Value
  | .run => []
  | .call _ k | .operand _ k => k.values

end

/-- The values at hand: operands, arguments, what is stored, printed or returned next, and those that
wait. -/
def Control.values : Control → List Value
  | .evaluate _ k | .node _ k | .call _ _ _ k | .bind _ _ _ k | .enter _ k => k.values
  | .value e k => e.value :: k.values
  | .execute _ _ _ b | .statements _ _ b | .statement _ _ b | .branches _ _ b | .loop _ _ _ b
  | .ended _ b => b.values
  | .exit v _ b => v :: b.values

def Config.values : Config → List Value
  | .running control _ => control.values
  | .returned r _ => r.toList
  | .faulted .. => []

/-- What a program makes without help of another value, or with an operator, has the property `P`. -/
structure Makes (p : Program) (P : Value → Prop) : Prop where
  text : ∀ s, P (.text s)
  body : ∀ n, P (.body n)
  undefined : P .undefined
  null : P .null
  zero : P (.number 0)
  literal : ∀ n, p.tree.tag n = .numberLiteral → P (.number (literalNumber (p.tree.text n)))
  apply : ∀ symbol left right, P left → P right → P (Operator.apply symbol left right)

structure Config.Carries (P : Value → Prop) (c : Config) : Prop where
  values : ∀ v ∈ c.values, P v
  memory : ∀ i b, c.memory.get? i = some b → P b.value

variable {P : Value → Prop} {p : Program} {ground : Counters} {control : Control} {s : State}
  {k : Await} {b : Boundary} {inside : List Pending} {e : Evaluation} {r : Option Value}
  {name : String} {value : Value} {params arguments : Option NodeId} {access node : NodeId}
  {c c' : Config}

theorem statementWrite_value (hp : Makes p P)
    (hw : statementWrite p s node = some (.store name value params access)) : P value := by
  unfold statementWrite at hw
  dsimp only at hw
  split at hw
  · cases hw
    split
    · exact hp.body _
    · exact hp.null
  · cases hw
  · cases hw
    exact hp.text _
  · cases hw

theorem write?_value (hp : Makes p P) (hvalues : ∀ v ∈ control.values, P v)
    (hw : control.write? p s = some (.store name value params access)) : P value := by
  unfold Control.write? at hw
  split at hw
  · cases hw
    exact (List.forall_mem_cons.mp hvalues).1
  · cases hw
    exact (List.forall_mem_cons.mp hvalues).1
  · cases hw
    exact hp.undefined
  · exact statementWrite_value hp hw
  · cases hw

theorem step_memory (hp : Makes p P) (hvalues : ∀ v ∈ control.values, P v)
    (hmemory : ∀ i b, s.memory.get? i = some b → P b.value) (i : Nat) (bound : Binding)
    (hb : (step p ground control s).memory.get? i = some bound) : P bound.value := by
  rw [memory_step] at hb
  cases hw : control.write? p s with
  | none =>
    rw [hw] at hb
    exact hmemory i bound hb
  | some w =>
    rw [hw] at hb
    cases w with
    | store name value params access =>
      have hb : (s.memory.store p.tree name value params access).get? i = some bound := hb
      rw [Memory.get?_store] at hb
      split at hb
      · cases hb
        exact write?_value hp hvalues hw
      · exact hmemory i bound hb
    | remove name access => exact hmemory i bound (Memory.get?_remove hb)

theorem nested_values (hvalues : ∀ v ∈ control.values, P v) :
    ∀ v ∈ (nested p ground node control s).values, P v := by
  unfold nested
  split
  · exact hvalues
  · exact List.forall_mem_nil _

theorem close_values (hp : Makes p P) (hr : ∀ v ∈ r.toList, P v) (hb : ∀ v ∈ b.values, P v) :
    ∀ v ∈ (b.close ground r s).values, P v := by
  have hvalue : P (r.getD .null) := by
    cases r with
    | none => exact hp.null
    | some v => exact hr v List.mem_cons_self
  cases b with
  | run => exact hr
  | call before k => exact List.forall_mem_cons.mpr ⟨hvalue, hb⟩
  | operand before k => exact List.forall_mem_cons.mpr ⟨hvalue, hb⟩

theorem receive_values (hp : Makes p P) (he : P e.value) (hk : ∀ v ∈ k.values, P v) :
    ∀ v ∈ (receive p e s k).values, P v := by
  cases k with
  | leave k => exact List.forall_mem_cons.mpr ⟨he, hk⟩
  | left symbol right k => exact List.forall_mem_cons.mpr ⟨he, hk⟩
  | right symbol left k =>
    obtain ⟨hleft, hk⟩ := List.forall_mem_cons.mp hk
    exact List.forall_mem_cons.mpr ⟨hp.apply symbol left e.value hleft he, hk⟩
  | giveBack inside b => exact List.forall_mem_cons.mpr ⟨he, hk⟩
  | branches rest inside b =>
    simp only [receive]
    split <;> exact hk
  | loop condition body inside b =>
    simp only [receive]
    split <;> exact hk
  | argument | store | print | discard => exact hk

theorem startNode_values (hp : Makes p P)
    (hmemory : ∀ i b, s.memory.get? i = some b → P b.value) (hk : ∀ v ∈ k.values, P v) :
    ∀ v ∈ (startNode p node k s).values, P v := by
  unfold startNode
  split
  · exact List.forall_mem_cons.mpr ⟨hp.text _, hk⟩
  · next htag => exact List.forall_mem_cons.mpr ⟨hp.literal node htag, hk⟩
  · split
    · next bound hb =>
      obtain ⟨i, -, hi, -⟩ := Memory.of_resolve hb
      exact List.forall_mem_cons.mpr ⟨hmemory i bound hi, hk⟩
    · exact List.forall_mem_cons.mpr ⟨hp.undefined, hk⟩
  · exact hk
  · exact hk
  · exact hk
  · exact List.forall_mem_cons.mpr ⟨hp.zero, hk⟩

theorem startCall_values (hp : Makes p P) (hk : ∀ v ∈ k.values, P v) :
    ∀ v ∈ (startCall p ground name arguments access k s).values, P v := by
  unfold startCall
  split
  · exact List.forall_mem_cons.mpr ⟨hp.undefined, hk⟩
  · split
    · split
      · exact hk
      · exact List.forall_mem_nil _
    · exact List.forall_mem_cons.mpr ⟨hp.null, hk⟩

theorem startStatement_values (hb : ∀ v ∈ b.values, P v) :
    ∀ v ∈ (startStatement p node inside b s).values, P v := by
  unfold startStatement
  dsimp only
  split <;> exact hb

theorem resume_values (hp : Makes p P) (hb : ∀ v ∈ b.values, P v) :
    ∀ v ∈ (resume ground b s inside).values, P v := by
  cases inside with
  | nil => exact close_values hp (List.forall_mem_nil _) hb
  | cons pending inside => cases pending <;> exact hb

theorem step_values (hp : Makes p P) (hvalues : ∀ v ∈ control.values, P v)
    (hmemory : ∀ i b, s.memory.get? i = some b → P b.value) :
    ∀ v ∈ (step p ground control s).values, P v := by
  cases control with
  | evaluate node k =>
    cases node with
    | none => exact List.forall_mem_cons.mpr ⟨hp.null, hvalues⟩
    | some node => exact nested_values hvalues
  | node node k => exact startNode_values hp hmemory hvalues
  | call name arguments access k => exact startCall_values hp hvalues
  | bind names arguments body k => cases names <;> cases arguments <;> exact hvalues
  | enter body k => exact hvalues
  | value e k =>
    obtain ⟨he, hk⟩ := List.forall_mem_cons.mp hvalues
    exact receive_values hp he hk
  | execute body start inside b => exact nested_values hvalues
  | statements list inside b => cases list <;> exact hvalues
  | statement node inside b => exact startStatement_values hvalues
  | branches nodes inside b => cases nodes <;> exact hvalues
  | loop condition body inside b => exact hvalues
  | ended inside b => exact resume_values hp hvalues
  | exit v inside b =>
    obtain ⟨hv, hb⟩ := List.forall_mem_cons.mp hvalues
    exact close_values hp (List.forall_mem_singleton.mpr hv) hb

theorem Config.Carries.advance (hp : Makes p P) (h : c.Carries P) :
    (advance p ground c).Carries P := by
  cases c with
  | running control s =>
    exact ⟨step_values hp h.values h.memory, step_memory hp h.values h.memory⟩
  | returned | faulted => exact h

/-- What holds of all values that the program makes, and of those at the start of a run, holds of all
values at any step of the run. -/
theorem Reaches.carries (hp : Makes p P) (hc : c.Carries P) (h : Reaches p ground c c') :
    c'.Carries P := by
  obtain ⟨n, rfl⟩ := h
  induction n with
  | zero => exact hc
  | succ n ih =>
    rw [Function.iterate_succ_apply']
    exact ih.advance hp

theorem evaluate_carries {fuel : Nat} {expression : Option NodeId} {s' : State} (hp : Makes p P)
    (hmemory : ∀ i b, s.memory.get? i = some b → P b.value)
    (h : evaluate p fuel expression s = .done e s') :
    P e.value ∧ ∀ i b, s'.memory.get? i = some b → P b.value := by
  have hfollows := (simulation p (counters s) fuel).evaluate expression (.discard [] .run) s
  rw [h] at hfollows
  have hstart : Config.Carries P (.running (.evaluate expression (.discard [] .run)) s) :=
    ⟨List.forall_mem_nil _, hmemory⟩
  have hend := Reaches.carries hp hstart hfollows
  exact ⟨hend.values e.value List.mem_cons_self, hend.memory⟩

end Arbor.Machine
