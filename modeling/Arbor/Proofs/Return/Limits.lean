import Arbor.Proofs.Return.Simulation

/-!
# Limits

Both counters stay within their limits at every point of a run, and so do those that are kept to be
put back. A run therefore fails in one of two ways only: a body is called while the depth is at its
limit, or a step is entered while the nesting is at its limit.
-/
namespace Arbor.Machine

def Counters.Within (p : Program) (c : Counters) : Prop :=
  c.depth ≤ p.settings.maxDepth ∧ c.nesting ≤ p.settings.maxNesting

mutual

def Await.Within (p : Program) : Await → Nat → Prop
  | .leave k, depth | .left _ _ k, depth | .right _ _ k, depth => k.Within p depth
  | .argument _ _ _ _ k, depth => depth < p.settings.maxDepth ∧ k.Within p depth
  | .store _ _ _ b, _ | .print _ b, _ | .giveBack _ b, _ | .discard _ b, _ | .branches _ _ b, _
  | .loop _ _ _ b, _ => b.Within p

def Boundary.Within (p : Program) : Boundary → Prop
  | .run => True
  | .call before k | .operand before k => before.Within p ∧ k.Within p before.depth

end

def Control.Within (p : Program) (depth : Nat) : Control → Prop
  | .evaluate _ k | .node _ k | .call _ _ _ k | .value _ k => k.Within p depth
  | .bind _ _ _ k | .enter _ k => depth < p.settings.maxDepth ∧ k.Within p depth
  | .execute _ _ _ b | .statements _ _ b | .statement _ _ b | .branches _ _ b | .loop _ _ _ b
  | .ended _ b | .exit _ _ b => b.Within p

def Config.Within (p : Program) : Config → Prop
  | .running control s => (counters s).Within p ∧ control.Within p s.depth
  | .returned .. | .faulted .. => True

/-- A fault that is raised at a limit: by a call of a body, or on the way into a step. -/
inductive AtLimit (p : Program) : Control → State → Fault → Prop where
  | call {name : String} {arguments : Option NodeId} {access body : NodeId} {k : Await} {s : State}
      {b : Binding} : s.memory.resolve p.tree name access = some b → b.value = .body body →
      s.depth = p.settings.maxDepth →
      AtLimit p (.call name arguments access k) s
        (.callsTooDeep name (p.tree.position access) p.settings.maxDepth)
  | evaluate {node : NodeId} {k : Await} {s : State} : s.nesting = p.settings.maxNesting →
      AtLimit p (.evaluate (some node) k) s (Run.nestingFault p node)
  | execute {body : NodeId} {start : Nat} {inside : List Pending} {b : Boundary} {s : State} :
      s.nesting = p.settings.maxNesting →
      AtLimit p (.execute body start inside b) s (Run.nestingFault p body)

variable {p : Program} {ground : Counters} {control : Control} {s s' : State} {f : Fault}
  {c c' : Config} {k : Await} {b : Boundary} {inside : List Pending}

/-- What a step is to a running machine: the machine stays within the limits, or it fails at one. -/
def Passes (p : Program) (control : Control) (s : State) : Config → Prop
  | .running control' s' => Config.Within p (.running control' s')
  | .returned .. => True
  | .faulted f _ => AtLimit p control s f

theorem nested_passes {node : NodeId} {inner : Control} (hs : (counters s).Within p)
    (hinner : inner.Within p s.depth)
    (hlimit : s.nesting = p.settings.maxNesting →
      AtLimit p control s (Run.nestingFault p node)) :
    Passes p control s (nested p ground node inner s) := by
  have hnesting : s.nesting ≤ p.settings.maxNesting := hs.2
  unfold nested
  split
  · next hlt => exact ⟨⟨hs.1, hlt⟩, hinner⟩
  · apply hlimit
    omega

theorem stay {control' : Control} (hs : (counters s).Within p) (hcounters : counters s' = counters s)
    (hcontrol : control'.Within p s.depth) : Config.Within p (.running control' s') := by
  have hdepth : s'.depth = s.depth := congrArg Counters.depth hcounters
  constructor
  · rw [hcounters]
    exact hs
  · rw [hdepth]
    exact hcontrol

theorem counters_asked (p : Program) (name : String) (scope : NodeId) (s : State) :
    counters (asked p name scope s) = counters s := by
  unfold asked
  split <;> rfl

theorem close_passes {r : Option Value} (hb : b.Within p) :
    Passes p control s (b.close ground r s') := by
  cases b with
  | run => trivial
  | call before k => exact ⟨hb.1, hb.2⟩
  | operand before k => exact ⟨hb.1, hb.2⟩

theorem receive_passes {e : Evaluation} (hs : (counters s).Within p) (hk : k.Within p s.depth) :
    Passes p control s (receive p e s k) := by
  cases k with
  | leave k => exact ⟨⟨hs.1, Nat.le_trans (Nat.sub_le _ _) hs.2⟩, hk⟩
  | left => exact ⟨hs, hk⟩
  | right => exact ⟨hs, hk⟩
  | argument => exact stay hs rfl hk
  | store => exact stay hs rfl hk
  | print => exact stay hs rfl hk
  | giveBack => exact ⟨hs, hk⟩
  | discard => exact ⟨hs, hk⟩
  | branches rest inside b =>
    simp only [receive]
    split <;> exact ⟨hs, hk⟩
  | loop condition body inside b =>
    simp only [receive]
    split <;> exact ⟨hs, hk⟩

theorem startNode_passes {node : NodeId} (hs : (counters s).Within p) (hk : k.Within p s.depth) :
    Passes p control s (startNode p node k s) := by
  unfold startNode
  split
  · exact ⟨hs, hk⟩
  · exact ⟨hs, hk⟩
  · split <;> exact ⟨hs, hk⟩
  · exact ⟨hs, hk⟩
  · exact ⟨hs, hs, hk⟩
  · exact ⟨hs, hk⟩
  · exact ⟨hs, hk⟩

theorem startCall_passes {name : String} {arguments : Option NodeId} {access : NodeId}
    (hs : (counters s).Within p) (hk : k.Within p s.depth) :
    Passes p (.call name arguments access k) s (startCall p ground name arguments access k s) := by
  have hdepth : s.depth ≤ p.settings.maxDepth := hs.1
  unfold startCall
  split
  · exact ⟨hs, hk⟩
  · next b hb =>
    split
    · next body hbody =>
      split
      · next hlt => exact ⟨hs, hlt, hk⟩
      · apply AtLimit.call hb hbody
        omega
    · exact ⟨hs, hk⟩

theorem startStatement_passes {node : NodeId} (hs : (counters s).Within p) (hb : b.Within p) :
    Passes p control s (startStatement p node inside b s) := by
  unfold startStatement
  dsimp only
  split
  · exact ⟨hs, hb⟩
  · exact stay hs rfl hb
  · exact stay hs rfl hb
  · exact stay hs (counters_asked ..) hb
  all_goals exact ⟨hs, hb⟩

theorem resume_passes (hs : (counters s).Within p) (hb : b.Within p) :
    Passes p control s (resume ground b s inside) := by
  cases inside with
  | nil => exact close_passes hb
  | cons pending inside =>
    cases pending with
    | leave => exact ⟨⟨hs.1, Nat.le_trans (Nat.sub_le _ _) hs.2⟩, hb⟩
    | statements rest => exact ⟨hs, hb⟩
    | loop condition body => exact ⟨hs, hb⟩

/-- A step within the limits stays within them or fails at one of them. -/
theorem step_passes (hs : (counters s).Within p) (hc : control.Within p s.depth) :
    Passes p control s (step p ground control s) := by
  cases control with
  | evaluate node k =>
    cases node with
    | none => exact ⟨hs, hc⟩
    | some node => exact nested_passes hs hc .evaluate
  | node node k => exact startNode_passes hs hc
  | call name arguments access k => exact startCall_passes hs hc
  | bind names arguments body k =>
    cases names with
    | nil => exact ⟨hs, hc⟩
    | cons name names =>
      cases arguments with
      | nil => exact stay hs rfl hc
      | cons argument arguments => exact ⟨hs, hc⟩
  | enter body k => exact ⟨⟨hc.1, hs.2⟩, hs, hc.2⟩
  | value e k => exact receive_passes hs hc
  | execute body start inside b => exact nested_passes hs hc .execute
  | statements list inside b =>
    cases list with
    | nil => exact ⟨hs, hc⟩
    | cons statement rest => exact ⟨hs, hc⟩
  | statement node inside b => exact startStatement_passes hs hc
  | branches nodes inside b =>
    cases nodes with
    | nil => exact ⟨hs, hc⟩
    | cons condition rest => exact ⟨hs, hc⟩
  | loop condition body inside b => exact ⟨hs, hc⟩
  | ended inside b => exact resume_passes hs hc
  | exit v inside b => exact close_passes hc

theorem Config.Within.reaches (h : c.Within p) (hr : Reaches p ground c c') : c'.Within p := by
  obtain ⟨n, rfl⟩ := hr
  induction n generalizing c with
  | zero => exact h
  | succ n ih =>
    rw [Function.iterate_succ_apply]
    apply ih
    cases c with
    | running control s =>
      have hpasses := @step_passes p ground control s h.1 h.2
      change (step p ground control s).Within p
      cases hstep : step p ground control s with
      | running control' s' =>
        rw [hstep] at hpasses
        exact hpasses
      | returned => trivial
      | faulted => trivial
    | returned => trivial
    | faulted => trivial

theorem exists_atLimit (h : Config.Within p (.running control s))
    (hr : Reaches p ground (.running control s) (.faulted f s')) :
    ∃ control' t, Reaches p ground (.running control s) (.running control' t) ∧
      AtLimit p control' t f := by
  obtain ⟨n, hn⟩ := hr
  induction n generalizing control s with
  | zero => cases hn
  | succ n ih =>
    rw [Function.iterate_succ_apply] at hn
    have hpasses := @step_passes p ground control s h.1 h.2
    change (advance p ground)^[n] (step p ground control s) = _ at hn
    cases hstep : step p ground control s with
    | running control' t =>
      rw [hstep] at hn hpasses
      obtain ⟨last, u, hreaches, hlimit⟩ := ih hpasses hn
      refine ⟨last, u, ?_, hlimit⟩
      apply Reaches.step
      rw [hstep]
      exact hreaches
    | returned r t =>
      rw [hstep, iterate_halted rfl] at hn
      cases hn
    | faulted g t =>
      rw [hstep, iterate_halted rfl] at hn
      rw [hstep] at hpasses
      cases hn
      exact ⟨control, s, .refl _, hpasses⟩

theorem AtLimit.kind (h : AtLimit p control s f) : f.kind = .stack := by
  cases h <;> rfl

theorem failed_atLimit {fuel start : Nat} {body : NodeId} (hs : (counters s).Within p)
    (h : execute p fuel body start s = .failed f s') :
    ∃ control t, Reaches p (counters s) (.running (.execute body start [] .run) s)
      (.running control t) ∧ AtLimit p control t f :=
  exists_atLimit ⟨hs, trivial⟩ (halts_of_failed h)

end Arbor.Machine
