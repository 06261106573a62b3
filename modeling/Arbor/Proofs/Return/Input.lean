import Arbor.Proofs.Return.Simulation
import Mathlib

/-!
# The lines that a run reads

An `ask` takes the next line, and nothing else looks at the input. So a machine reads from the front,
one line for each `ask` that it executes, and what it does not read makes no difference to it.
-/
namespace Arbor

def State.supplied (s : State) (lines : List String) : State := { s with input := lines }

@[simp] theorem State.supplied_memory (s : State) (lines : List String) :
    (s.supplied lines).memory = s.memory := rfl

@[simp] theorem State.supplied_nesting (s : State) (lines : List String) :
    (s.supplied lines).nesting = s.nesting := rfl

@[simp] theorem State.supplied_depth (s : State) (lines : List String) :
    (s.supplied lines).depth = s.depth := rfl

@[simp] theorem State.supplied_input (s : State) (lines : List String) :
    (s.supplied lines).input = lines := rfl

namespace Machine

def Config.state : Config → State
  | .running _ s | .returned _ s | .faulted _ s => s

def Config.supplied (lines : List String) : Config → Config
  | .running control s => .running control (s.supplied lines)
  | .returned r s => .returned r (s.supplied lines)
  | .faulted f s => .faulted f (s.supplied lines)

/-- The `ask` that is executed next, with the state that it is executed in. -/
def Config.ask? (t : Tree) : Config → Option (NodeId × State)
  | .running (.statement n _ _) s => if t.tag n = .input then some (n, s) else none
  | _ => none

/-- The `ask`s that the first steps from `c` execute, in order. -/
def asks (p : Program) (ground : Counters) : Nat → Config → List (NodeId × State)
  | 0, _ => []
  | n + 1, c => (c.ask? p.tree).toList ++ asks p ground n (advance p ground c)

variable {p : Program} {ground : Counters} {control : Control} {s state : State} {c : Config}
  {k : Await} {b : Boundary} {inside : List Pending} {lines : List String} {node : NodeId}
  {n m i : Nat} {ask : NodeId × State}

@[simp] theorem supplied_state (c : Config) (lines : List String) :
    (c.supplied lines).state = c.state.supplied lines := by
  cases c <;> rfl

theorem supplied_self (c : Config) : c.supplied c.state.input = c := by
  cases c <;> rfl

theorem nested_supplied (node : NodeId) (control : Control) (s : State) :
    nested p ground node control (s.supplied lines) =
      (nested p ground node control s).supplied lines := by
  unfold nested
  rw [State.supplied_nesting]
  split <;> rfl

theorem close_supplied (b : Boundary) (r : Option Value) (s : State) :
    b.close ground r (s.supplied lines) = (b.close ground r s).supplied lines := by
  cases b <;> rfl

theorem receive_supplied (e : Evaluation) (s : State) (k : Await) :
    receive p e (s.supplied lines) k = (receive p e s k).supplied lines := by
  cases k with
  | branches rest inside b =>
    simp only [receive]
    cases e.value.truthy <;> cases rest <;> rfl
  | loop condition body inside b =>
    simp only [receive]
    cases e.value.truthy <;> cases body <;> rfl
  | _ => rfl

theorem startNode_supplied (node : NodeId) (k : Await) (s : State) :
    startNode p node k (s.supplied lines) = (startNode p node k s).supplied lines := by
  unfold startNode
  rw [State.supplied_memory]
  cases p.tree.tag node with
  | get => cases s.memory.resolve p.tree (p.tree.text node) node <;> rfl
  | _ => rfl

theorem startCall_supplied (name : String) (arguments : Option NodeId) (access : NodeId) (k : Await)
    (s : State) : startCall p ground name arguments access k (s.supplied lines) =
      (startCall p ground name arguments access k s).supplied lines := by
  unfold startCall
  rw [State.supplied_memory, State.supplied_depth]
  cases s.memory.resolve p.tree name access with
  | none => rfl
  | some bound =>
    dsimp only
    split
    · split <;> rfl
    · rfl

theorem startStatement_supplied (h : p.tree.tag node ≠ .input) (inside : List Pending)
    (b : Boundary) (s : State) : startStatement p node inside b (s.supplied lines) =
      (startStatement p node inside b s).supplied lines := by
  unfold startStatement
  cases htag : p.tree.tag node with
  | input => exact absurd htag h
  | _ => rfl

theorem resume_supplied (b : Boundary) (s : State) (inside : List Pending) :
    resume ground b (s.supplied lines) inside = (resume ground b s inside).supplied lines := by
  cases inside with
  | nil => exact close_supplied b none s
  | cons pending inside => cases pending <;> rfl

theorem asked_eq (name : String) (scope : NodeId) (s : State) :
    asked p name scope s = { s with
      memory := s.memory.store p.tree name (.text (s.input.headD "")) none scope
      input := s.input.tail } := by
  obtain ⟨memory, output, input, depth, nesting⟩ := s
  cases input <;> rfl

theorem step_ask (htag : p.tree.tag node = .input) (inside : List Pending) (b : Boundary)
    (s : State) : step p ground (.statement node inside b) s = .running (.ended inside b) { s with
      memory := s.memory.store p.tree (p.tree.text node) (.text (s.input.headD "")) none
        ((p.tree.parent node).getD node)
      input := s.input.tail } := by
  simp only [step, startStatement, htag, asked_eq]

theorem step_supplied (h : Config.ask? p.tree (.running control s) = none) :
    step p ground control (s.supplied lines) = (step p ground control s).supplied lines := by
  cases control with
  | evaluate node k =>
    cases node with
    | none => rfl
    | some node => exact nested_supplied ..
  | node node k => exact startNode_supplied ..
  | call name arguments access k => exact startCall_supplied ..
  | bind names arguments body k => cases names <;> cases arguments <;> rfl
  | enter body k => rfl
  | value e k => exact receive_supplied ..
  | execute body start inside b => exact nested_supplied ..
  | statements list inside b => cases list <;> rfl
  | statement node inside b =>
    refine startStatement_supplied ?_ inside b s
    intro htag
    simp [Config.ask?, htag] at h
  | branches nodes inside b => cases nodes <;> rfl
  | loop condition body inside b => rfl
  | ended inside b => exact resume_supplied ..
  | exit v inside b => exact close_supplied ..

theorem of_ask? (h : c.ask? p.tree = some ask) : p.tree.tag ask.1 = .input ∧ ask.2 = c.state ∧
    ∃ inside b, c = .running (.statement ask.1 inside b) ask.2 := by
  unfold Config.ask? at h
  split at h
  · split at h
    · next htag =>
      cases h
      exact ⟨htag, rfl, _, _, rfl⟩
    · cases h
  · cases h

theorem ask?_supplied (c : Config) (lines : List String) : (c.supplied lines).ask? p.tree =
    (c.ask? p.tree).map fun ask => (ask.1, ask.2.supplied lines) := by
  cases c with
  | running control s =>
    cases control with
    | statement node inside b =>
      simp only [Config.supplied, Config.ask?]
      split <;> rfl
    | _ => rfl
  | _ => rfl

theorem advance_supplied (h : c.ask? p.tree = none) :
    advance p ground (c.supplied lines) = (advance p ground c).supplied lines := by
  cases c with
  | running control s => exact step_supplied h
  | _ => rfl

theorem advance_ask (h : c.ask? p.tree = some ask)
    (hlines : lines.headD "" = c.state.input.headD "") :
    advance p ground (c.supplied lines) = (advance p ground c).supplied lines.tail := by
  obtain ⟨htag, -, inside, b, rfl⟩ := of_ask? h
  have hlines : lines.headD "" = ask.2.input.headD "" := hlines
  simp only [Config.supplied, advance, step_ask htag, State.supplied_input, hlines]
  rfl

theorem input_of_not_ask (h : c.ask? p.tree = none) :
    (advance p ground c).state.input = c.state.input := by
  have hsame : advance p ground (c.supplied c.state.input) =
      (advance p ground c).supplied c.state.input := advance_supplied h
  rw [supplied_self] at hsame
  rw [hsame, supplied_state, State.supplied_input]

theorem input_of_ask (h : c.ask? p.tree = some ask) :
    (advance p ground c).state.input = c.state.input.tail := by
  have hsame : advance p ground (c.supplied c.state.input) =
      (advance p ground c).supplied c.state.input.tail := advance_ask h rfl
  rw [supplied_self] at hsame
  rw [hsame, supplied_state, State.supplied_input]

theorem asks_succ_none (h : c.ask? p.tree = none) :
    asks p ground (n + 1) c = asks p ground n (advance p ground c) := by
  rw [asks, h]
  rfl

theorem asks_succ_some (h : c.ask? p.tree = some ask) :
    asks p ground (n + 1) c = ask :: asks p ground n (advance p ground c) := by
  rw [asks, h]
  rfl

theorem asks_add (c : Config) (n m : Nat) : asks p ground (n + m) c =
    asks p ground n c ++ asks p ground m ((advance p ground)^[n] c) := by
  induction n generalizing c with
  | zero => simp [asks]
  | succ n ih => rw [Nat.succ_add, asks, ih, asks, List.append_assoc, Function.iterate_succ_apply]

theorem asks_halted (h : ∀ control s, c ≠ .running control s) (n : Nat) : asks p ground n c = [] := by
  induction n with
  | zero => rfl
  | succ n ih =>
    cases c with
    | running control s => exact absurd rfl (h control s)
    | returned | faulted => exact ih

/-- Lines that are read alike lead to the same, with the lines that are left. -/
theorem iterate_supplied
    (h : ∀ i < (asks p ground n c).length, lines.getD i "" = c.state.input.getD i "") :
    (advance p ground)^[n] (c.supplied lines) =
        ((advance p ground)^[n] c).supplied (lines.drop (asks p ground n c).length) ∧
      (asks p ground n (c.supplied lines)).map Prod.fst = (asks p ground n c).map Prod.fst := by
  induction n generalizing c lines with
  | zero => exact ⟨rfl, rfl⟩
  | succ n ih =>
    rw [Function.iterate_succ_apply, Function.iterate_succ_apply]
    cases hask : c.ask? p.tree with
    | none =>
      rw [asks_succ_none hask] at h ⊢
      rw [asks_succ_none (by rw [ask?_supplied, hask]; rfl), advance_supplied hask]
      refine ih fun i hi => ?_
      rw [h i hi, input_of_not_ask hask]
    | some ask =>
      rw [asks_succ_some hask] at h ⊢
      rw [asks_succ_some (by rw [ask?_supplied, hask]; rfl)]
      have hhead : lines.headD "" = c.state.input.headD "" := by
        simpa [List.headD_eq_head?_getD, List.head?_eq_getElem?] using h 0 (Nat.succ_pos _)
      have htail : ∀ i < (asks p ground n (advance p ground c)).length,
          lines.tail.getD i "" = (advance p ground c).state.input.getD i "" := by
        intro i hi
        rw [input_of_ask hask]
        simpa [List.getElem?_tail] using h (i + 1) (Nat.succ_lt_succ hi)
      obtain ⟨hends, hsame⟩ := ih htail
      rw [advance_ask hask hhead, hends, List.length_cons, List.map_cons, List.map_cons, hsame]
      exact ⟨by rw [← List.drop_one, List.drop_drop, Nat.add_comm], rfl⟩

theorem iterate_input (c : Config) (n : Nat) : ((advance p ground)^[n] c).state.input =
    c.state.input.drop (asks p ground n c).length := by
  have hsame : (advance p ground)^[n] (c.supplied c.state.input) = _ :=
    (iterate_supplied fun _ _ => rfl).1
  rw [supplied_self] at hsame
  rw [hsame, supplied_state, State.supplied_input]

theorem asks_getElem? (h : (asks p ground n c)[i]? = some (node, state)) :
    p.tree.tag node = .input ∧ state.input = c.state.input.drop i ∧
      ∃ inside b, Reaches p ground c (.running (.statement node inside b) state) := by
  induction n generalizing c i with
  | zero => cases h
  | succ n ih =>
    have hafter : ∀ {i}, (asks p ground n (advance p ground c))[i]? = some (node, state) →
        p.tree.tag node = .input ∧ state.input = (advance p ground c).state.input.drop i ∧
          ∃ inside b, Reaches p ground c (.running (.statement node inside b) state) := by
      intro i h
      obtain ⟨htag, hinput, inside, b, hreaches⟩ := ih h
      exact ⟨htag, hinput, inside, b, Reaches.trans ⟨1, rfl⟩ hreaches⟩
    cases hask : c.ask? p.tree with
    | none =>
      rw [asks_succ_none hask] at h
      have hinput : (advance p ground c).state.input = c.state.input := input_of_not_ask hask
      rw [← hinput]
      exact hafter h
    | some ask =>
      rw [asks_succ_some hask] at h
      cases i with
      | zero =>
        cases h
        obtain ⟨htag, hstate, inside, b, hc⟩ := of_ask? hask
        have hstate : state = c.state := hstate
        exact ⟨htag, by rw [hstate]; rfl, inside, b, 0, hc⟩
      | succ i =>
        obtain ⟨htag, hinput, hreaches⟩ := hafter h
        refine ⟨htag, ?_, hreaches⟩
        rw [hinput, input_of_ask hask, ← List.drop_one, List.drop_drop, Nat.add_comm]

end Machine

end Arbor
