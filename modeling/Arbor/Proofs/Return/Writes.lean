import Arbor.Proofs.Memory.Removal
import Arbor.Proofs.Return.Slots

/-!
# The write of a step

A step of the machine writes to memory once or not at all. What it writes stands in the control and
in the next line of the input.
-/
namespace Arbor.Machine

section
variable (p : Program) (s : State)

def statementWrite (n : NodeId) : Option Memory.Write :=
  let name := p.tree.text n
  let scope := (p.tree.parent n).getD n
  match p.tree.tag n with
  | .function =>
    let value := match p.tree.child? n 1 with
      | some body => .body body
      | none => .null
    some (.store name value (p.tree.child? n 0) scope)
  | .remove => some (.remove name scope)
  | .input => some (.store name (.text (s.input.headD "")) none scope)
  | _ => none

/-- What the next step writes. -/
def Control.write? : Control → Option Memory.Write
  | .value e (.argument name _ _ body _) => some (.store name e.value e.params body)
  | .value e (.store name scope _ _) => some (.store name e.value e.params scope)
  | .bind (name :: _) [] body _ => some (.store name .undefined none body)
  | .statement n _ _ => statementWrite p s n
  | _ => none

def Control.Stores (control : Control) (name : String) : Prop :=
  ∃ value params access, control.write? p s = some (.store name value params access)

end

variable {p : Program} {ground : Counters} {control : Control} {s : State} {name : String}
  {q node : NodeId}

theorem memory_nested (node : NodeId) (control : Control) (s : State) :
    (nested p ground node control s).memory = s.memory := by
  unfold nested
  split <;> rfl

theorem memory_close (b : Boundary) (r : Option Value) (s : State) :
    (b.close ground r s).memory = s.memory := by
  cases b <;> rfl

theorem memory_receive (e : Evaluation) (s : State) (k : Await) : (receive p e s k).memory =
    s.memory.writes p.tree ((Control.value e k).write? p s).toList := by
  cases k with
  | branches rest inside b =>
    simp only [receive]
    cases e.value.truthy <;> cases rest <;> rfl
  | loop condition body inside b =>
    simp only [receive]
    cases e.value.truthy <;> cases body <;> rfl
  | _ => rfl

theorem memory_startNode (node : NodeId) (k : Await) (s : State) :
    (startNode p node k s).memory = s.memory := by
  unfold startNode
  cases p.tree.tag node with
  | get => cases s.memory.resolve p.tree (p.tree.text node) node <;> rfl
  | _ => rfl

theorem memory_startCall (name : String) (arguments : Option NodeId) (access : NodeId) (k : Await)
    (s : State) : (startCall p ground name arguments access k s).memory = s.memory := by
  unfold startCall
  cases s.memory.resolve p.tree name access with
  | none => rfl
  | some bound =>
    dsimp only
    split
    · split <;> rfl
    · rfl

theorem memory_startStatement (node : NodeId) (inside : List Pending) (b : Boundary) (s : State) :
    (startStatement p node inside b s).memory =
      s.memory.writes p.tree (statementWrite p s node).toList := by
  unfold startStatement statementWrite
  cases p.tree.tag node with
  | input => exact memory_asked ..
  | _ => rfl

theorem memory_resume (b : Boundary) (s : State) (inside : List Pending) :
    (resume ground b s inside).memory = s.memory := by
  cases inside with
  | nil => exact memory_close b none s
  | cons pending inside => cases pending <;> rfl

/-- Behind a step, memory is as it was but for the write of the step. -/
theorem memory_step (control : Control) (s : State) : (step p ground control s).memory =
    s.memory.writes p.tree (control.write? p s).toList := by
  cases control with
  | evaluate node k =>
    cases node with
    | none => rfl
    | some node => exact memory_nested ..
  | node node k => exact memory_startNode ..
  | call name arguments access k => exact memory_startCall ..
  | bind names arguments body k => cases names <;> cases arguments <;> rfl
  | enter body k => rfl
  | value e k => exact memory_receive ..
  | execute body start inside b => exact memory_nested ..
  | statements list inside b => cases list <;> rfl
  | statement node inside b => exact memory_startStatement ..
  | branches nodes inside b => cases nodes <;> rfl
  | loop condition body inside b => rfl
  | ended inside b => exact memory_resume ..
  | exit v inside b => exact memory_close ..

theorem lookup_step_none (h : s.memory.lookup p.tree name q = none)
    (hstores : ¬control.Stores p s name) :
    (step p ground control s).memory.lookup p.tree name q = none := by
  rw [memory_step]
  cases hw : control.write? p s with
  | none => exact h
  | some w =>
    refine Memory.lookup_write_none h fun value params access heq => ?_
    exact hstores ⟨value, params, access, by rw [hw, heq]⟩

theorem step_remove (htag : p.tree.tag node = .remove) (hq : p.tree.parent node = some q)
    (inside : List Pending) (b : Boundary) (s : State) :
    step p ground (.statement node inside b) s = .running (.ended inside b)
      { s with memory := s.memory.remove p.tree (p.tree.text node) q } := by
  simp only [step, startStatement, htag, hq, removed, Option.getD_some]

theorem layered_step (h : s.memory.Layered p.tree) :
    (step p ground control s).memory.Layered p.tree := by
  rw [memory_step]
  cases control.write? p s with
  | none => exact h
  | some w =>
    cases w with
    | store name value params access => exact h.store value params
    | remove name access => exact h.remove name access

theorem Reaches.layered {c c' : Config} (h : c.memory.Layered p.tree) (hr : Reaches p ground c c') :
    c'.memory.Layered p.tree := by
  obtain ⟨n, rfl⟩ := hr
  induction n with
  | zero => exact h
  | succ n ih =>
    rw [Function.iterate_succ_apply']
    cases hc : (advance p ground)^[n] c with
    | running control s =>
      rw [hc] at ih
      exact layered_step ih
    | returned | faulted =>
      rw [hc] at ih
      exact ih

end Arbor.Machine
