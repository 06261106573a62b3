import Arbor.Proofs.Return.Machine
import Arbor.Proofs.Run.Confined

/-!
# Runs follow the machine

Whatever a run with fuel comes to, the machine comes to; and as long as the fuel does not reach, the
machine takes more steps than there was fuel. So a run ends exactly as the machine ends.
-/
namespace Arbor.Machine

variable {p : Program} {ground : Counters} {fuel k : Nat} {α β : Type} {x : Outcome State α}
  {c c' c'' : Config} {control : Control} {s s' : State} {next : α → State → Config}

theorem Reaches.refl (c : Config) : Reaches p ground c c := ⟨0, rfl⟩

theorem Reaches.step (h : Reaches p ground (step p ground control s) c) :
    Reaches p ground (.running control s) c := by
  obtain ⟨n, hn⟩ := h
  exact ⟨n + 1, hn⟩

theorem Reaches.trans (h : Reaches p ground c c') (h' : Reaches p ground c' c'') :
    Reaches p ground c c'' := by
  obtain ⟨n, rfl⟩ := h
  obtain ⟨m, rfl⟩ := h'
  exact ⟨m + n, Function.iterate_add_apply ..⟩

theorem iterate_halted (hc : advance p ground c = c) (n : Nat) : (advance p ground)^[n] c = c :=
  Function.iterate_fixed hc n

theorem Lasts.mono {n : Nat} (h : Lasts p ground n c) {m : Nat} (hm : m ≤ n) :
    Lasts p ground m c := by
  obtain ⟨control, s, hn⟩ := h
  obtain ⟨d, rfl⟩ := Nat.exists_eq_add_of_le' hm
  rw [Function.iterate_add_apply] at hn
  cases hc : (advance p ground)^[m] c with
  | running control s => exact ⟨control, s, hc⟩
  | returned r s =>
    rw [hc, iterate_halted rfl] at hn
    cases hn
  | faulted f s =>
    rw [hc, iterate_halted rfl] at hn
    cases hn

theorem Lasts.zero (control : Control) (s : State) : Lasts p ground 0 (.running control s) :=
  ⟨control, s, rfl⟩

theorem Lasts.step {n : Nat} (h : Lasts p ground n (step p ground control s)) :
    Lasts p ground (n + 1) (.running control s) := h

theorem Lasts.of_reaches {n : Nat} (hc : Reaches p ground c c') (h : Lasts p ground n c') :
    Lasts p ground n c := by
  obtain ⟨m, rfl⟩ := hc
  obtain ⟨control, s, hn⟩ := h
  rw [← Function.iterate_add_apply] at hn
  exact Lasts.mono ⟨control, s, hn⟩ (Nat.le_add_right n m)

/-- From `c` the machine does what a run with the outcome `x` has done; `next` says where it stands
when the run has ended well. -/
def Follows (p : Program) (ground : Counters) (fuel : Nat) (x : Outcome State α) (c : Config)
    (next : α → State → Config) : Prop :=
  match x with
  | .done a s => Reaches p ground c (next a s)
  | .failed f s => Reaches p ground c (fault ground f s)
  | .outOfFuel => Lasts p ground fuel c

theorem Follows.of_reaches (hc : Reaches p ground c c') (h : Follows p ground fuel x c' next) :
    Follows p ground fuel x c next := by
  cases x with
  | done a s => exact hc.trans h
  | failed f s => exact hc.trans h
  | outOfFuel => exact Lasts.of_reaches hc h

/-- One step pays for one unit of fuel. -/
theorem Follows.step (h : Follows p ground fuel x (step p ground control s) next) :
    Follows p ground (fuel + 1) x (.running control s) next := by
  cases x with
  | done a s' => exact Reaches.step h
  | failed f s' => exact Reaches.step h
  | outOfFuel => exact Lasts.step h

theorem Follows.bind {x : Run α} {f : α → Run β} {next' : β → State → Config}
    (hx : Follows p ground fuel (x s) c next)
    (hf : ∀ a s', x s = .done a s' → Follows p ground fuel (f a s') (next a s') next') :
    Follows p ground fuel ((x >>= f) s) c next' := by
  cases hxs : x s with
  | done a s' =>
    rw [hxs] at hx
    rw [Run.bind_of_done f hxs]
    exact (hf a s' hxs).of_reaches hx
  | failed fault s' =>
    rw [hxs] at hx
    rw [Run.bind_of_failed f hxs]
    exact hx
  | outOfFuel =>
    rw [hxs] at hx
    rw [Run.bind_of_outOfFuel f hxs]
    exact hx

theorem memory_bind (f : Memory → Run α) (s : State) : (Run.memory >>= f) s = f s.memory s := rfl

theorem Follows.nested {x : Run α} {node : NodeId} {next' : α → State → Config}
    (hx : Follows p ground fuel (x { s with nesting := s.nesting + 1 })
      (.running control { s with nesting := s.nesting + 1 }) next')
    (hnext : ∀ a s', Reaches p ground (next' a s') (next a { s' with nesting := s'.nesting - 1 })) :
    Follows p ground fuel (Run.nested p node x s) (nested p ground node control s) next := by
  unfold Run.nested Machine.nested
  by_cases hlimit : s.nesting < p.settings.maxNesting
  · rw [if_pos hlimit, if_pos hlimit]
    cases hxs : x { s with nesting := s.nesting + 1 } with
    | done a s' =>
      rw [hxs] at hx
      exact Reaches.trans hx (hnext a s')
    | failed f s' =>
      rw [hxs] at hx
      exact hx
    | outOfFuel =>
      rw [hxs] at hx
      exact hx
  · rw [if_neg hlimit, if_neg hlimit]
    exact Reaches.refl _

/-- Where the machine stands when a statement is over: it goes on, or it is at the boundary. -/
def onward (ground : Counters) (inside : List Pending) (b : Boundary) (r : Option Value)
    (s : State) : Config :=
  match r with
  | none => .running (.ended inside b) s
  | some v => b.close ground (some v) s

theorem close_recount (b : Boundary) (r : Option Value) (s : State) (n : Nat) :
    b.close ground r { s with nesting := n } = b.close ground r s := by
  cases b <;> rfl

theorem Follows.called {x : Run α} {next' : α → State → Config}
    (hx : Follows p ground fuel (x { s with depth := s.depth + 1 }) c next')
    (hnext : ∀ a s', x { s with depth := s.depth + 1 } = .done a s' →
      Reaches p ground (next' a s') (next a { s' with depth := s'.depth - 1 })) :
    Follows p ground fuel (Run.called x s) c next := by
  unfold Run.called
  cases hxs : x { s with depth := s.depth + 1 } with
  | done a s' =>
    rw [hxs] at hx
    exact Reaches.trans hx (hnext a s' hxs)
  | failed f s' =>
    rw [hxs] at hx
    exact hx
  | outOfFuel =>
    rw [hxs] at hx
    exact hx

theorem onward_boundary (b : Boundary) (r : Option Value) (s : State) :
    Reaches p ground (onward ground [] b r s) (b.close ground r s) := by
  cases r with
  | none => exact Reaches.step (Reaches.refl _)
  | some v => exact Reaches.refl _

structure Simulation (p : Program) (ground : Counters) (fuel : Nat) : Prop where
  evaluate : ∀ node k s, Follows p ground fuel (evaluate p fuel node s)
    (.running (.evaluate node k) s) fun e s => .running (.value e k) s
  evaluateNode : ∀ node k s, Follows p ground fuel (evaluateNode p fuel node s)
    (.running (.node node k) s) fun e s => .running (.value e k) s
  runCall : ∀ name arguments access k s,
    Follows p ground fuel (runCall p fuel name arguments access s)
      (.running (.call name arguments access k) s) fun v s => .running (.value ⟨v, none⟩ k) s
  bindParams : ∀ names arguments body k s,
    Follows p ground fuel (bindParams p fuel names arguments body s)
      (.running (.bind names arguments body k) s) fun _ s => .running (.enter body k) s
  execute : ∀ body start inside b s, Follows p ground fuel (execute p fuel body start s)
    (.running (.execute body start inside b) s) (onward ground inside b)
  runStatements : ∀ statements inside b s,
    Follows p ground fuel (runStatements p fuel statements s)
      (.running (.statements statements inside b) s) (onward ground inside b)
  executeStatement : ∀ node inside b s, Follows p ground fuel (executeStatement p fuel node s)
    (.running (.statement node inside b) s) (onward ground inside b)
  runBranches : ∀ nodes inside b s, Follows p ground fuel (runBranches p fuel nodes s)
    (.running (.branches nodes inside b) s) (onward ground inside b)
  runLoop : ∀ condition body inside b s, Follows p ground fuel (runLoop p fuel condition body s)
    (.running (.loop condition body inside b) s) (onward ground inside b)

theorem Follows.skip (h : Follows p ground fuel x (Machine.step p ground control s) next) :
    Follows p ground fuel x (.running control s) next :=
  h.of_reaches (Reaches.refl _).step

theorem execute_counters {body : NodeId} {start : Nat}
    (h : (execute p fuel body start s).state? = some s') : counters s' = counters s := by
  have hconfined := (@confinement p (fun _ => True) ⟨fun _ _ _ _ => trivial,
    fun _ _ _ _ => trivial⟩ fuel).execute body start trivial
  have heffects := hconfined.effects ⟨fun _ _ _ _ _ => trivial, fun _ _ _ _ _ => trivial⟩ h
  obtain ⟨hdepth, hnesting⟩ := heffects.counters
  rw [counters, hdepth, hnesting, counters]

theorem recount_execute {body : NodeId} {start : Nat}
    (h : (execute p fuel body start s).state? = some s') : recount s' (counters s) = s' := by
  rw [← execute_counters h]
  rfl

theorem evaluateNode_follows (ih : Simulation p ground fuel) (node : NodeId) (k : Await)
    (s : State) : Follows p ground (fuel + 1) (evaluateNode p (fuel + 1) node s)
      (.running (.node node k) s) fun e s => .running (.value e k) s := by
  refine Follows.step ?_
  change Follows p ground fuel _ (startNode p node k s) _
  unfold evaluateNode startNode
  cases p.tree.tag node with
  | get =>
    dsimp only
    rw [memory_bind]
    cases s.memory.resolve p.tree (p.tree.text node) node <;> exact Reaches.refl _
  | call => exact .bind (ih.runCall _ _ _ k s) fun v s' _ => Reaches.refl _
  | body =>
    refine .bind (ih.execute node 0 [] (.operand (counters s) k) s) fun r s' hr => ?_
    have hclose := @onward_boundary p ground (.operand (counters s) k) r s'
    rw [Boundary.close, recount_execute (congrArg Outcome.state? hr)] at hclose
    exact hclose
  | operator =>
    refine .bind (ih.evaluate _ _ s) fun left s₁ _ => ?_
    refine Follows.skip (.bind (ih.evaluate _ _ s₁) fun right s₂ _ => ?_)
    exact Follows.skip (Reaches.refl _)
  | _ => exact Reaches.refl _

theorem called_follows (ih : Simulation p ground fuel) (body : NodeId) (k : Await) (s : State) :
    Follows p ground fuel (Run.called (Arbor.execute p fuel body 0) s)
      (step p ground (.enter body k) s)
      fun r s => .running (.value ⟨r.getD .null, none⟩ k) s := by
  refine .called (ih.execute body 0 [] (.call (counters s) k) _) fun r s' hr => ?_
  have hcounters : recount s' (counters s) = { s' with depth := s'.depth - 1 } := by
    have hsame := execute_counters (congrArg Outcome.state? hr)
    rw [counters, counters, Counters.mk.injEq] at hsame
    obtain ⟨hdepth, hnesting⟩ := hsame
    rw [recount, counters, hdepth, ← hnesting, Nat.add_sub_cancel]
  have hclose := @onward_boundary p ground (.call (counters s) k) r s'
  rw [Boundary.close, hcounters] at hclose
  exact hclose

theorem runCall_follows (ih : Simulation p ground fuel) (name : String)
    (arguments : Option NodeId) (access : NodeId) (k : Await) (s : State) :
    Follows p ground (fuel + 1) (runCall p (fuel + 1) name arguments access s)
      (.running (.call name arguments access k) s)
      fun v s => .running (.value ⟨v, none⟩ k) s := by
  refine Follows.step ?_
  change Follows p ground fuel _ (startCall p ground name arguments access k s) _
  unfold runCall startCall
  rw [memory_bind]
  cases s.memory.resolve p.tree name access with
  | none => exact Reaches.refl _
  | some b =>
    dsimp only
    cases b.value with
    | body body =>
      have hcheck : Follows p ground fuel (Run.checkDepth p name access s)
          (if s.depth < p.settings.maxDepth then
            .running (.bind (paramNames p b.params) (argumentNodes p arguments) body k) s
          else fault ground (.callsTooDeep name (p.tree.position access) p.settings.maxDepth) s)
          fun _ s =>
            .running (.bind (paramNames p b.params) (argumentNodes p arguments) body k) s := by
        unfold Run.checkDepth
        split <;> exact Reaches.refl _
      refine hcheck.bind fun _ s₁ _ => ?_
      refine .bind (ih.bindParams _ _ body k s₁) fun _ s₂ _ => Follows.skip ?_
      exact .bind (called_follows ih body k s₂) fun r s₃ _ => Reaches.refl _
    | _ => exact Reaches.refl _

theorem bindParams_follows (ih : Simulation p ground fuel) (names : List String)
    (arguments : List NodeId) (body : NodeId) (k : Await) (s : State) :
    Follows p ground (fuel + 1) (bindParams p (fuel + 1) names arguments body s)
      (.running (.bind names arguments body k) s) fun _ s => .running (.enter body k) s := by
  refine Follows.step ?_
  cases names with
  | nil =>
    rw [bindParams]
    exact Reaches.refl _
  | cons name names =>
    cases arguments with
    | nil =>
      rw [bindParams]
      exact ih.bindParams names [] body k (stored p name .undefined none body s)
    | cons argument arguments =>
      rw [bindParams]
      refine .bind (ih.evaluate _ _ s) fun e s' _ => Follows.skip ?_
      exact ih.bindParams names arguments body k (stored p name e.value e.params body s')

theorem runStatements_follows (ih : Simulation p ground fuel) (statements : List NodeId)
    (inside : List Pending) (b : Boundary) (s : State) :
    Follows p ground (fuel + 1) (runStatements p (fuel + 1) statements s)
      (.running (.statements statements inside b) s) (onward ground inside b) := by
  refine Follows.step ?_
  cases statements with
  | nil =>
    rw [runStatements]
    exact Reaches.refl _
  | cons statement rest =>
    rw [runStatements]
    refine .bind (ih.executeStatement statement (.statements rest :: inside) b s)
      fun r s' _ => ?_
    cases r with
    | some returned => exact Reaches.refl _
    | none => exact Follows.skip (ih.runStatements rest inside b s')

theorem executeStatement_follows (ih : Simulation p ground fuel) (node : NodeId)
    (inside : List Pending) (b : Boundary) (s : State) :
    Follows p ground (fuel + 1) (executeStatement p (fuel + 1) node s)
      (.running (.statement node inside b) s) (onward ground inside b) := by
  refine Follows.step ?_
  change Follows p ground fuel _ (startStatement p node inside b s) _
  unfold executeStatement startStatement
  dsimp only
  cases p.tree.tag node with
  | store =>
    refine .bind (ih.evaluate _ _ s) fun e s' _ => ?_
    exact Follows.skip (Reaches.refl _)
  | input =>
    have hread : Follows p ground fuel (Run.readLine s)
        (.running (.ended inside b)
          (asked p (p.tree.text node) ((p.tree.parent node).getD node) s))
        fun line s => .running (.ended inside b)
          (stored p (p.tree.text node) (.text line) none ((p.tree.parent node).getD node) s) := by
      unfold Run.readLine asked
      cases s.input <;> exact Reaches.refl _
    exact hread.bind fun line s' _ => Reaches.refl _
  | call => exact .bind (ih.runCall _ _ _ _ s) fun v s' _ => Follows.skip (Reaches.refl _)
  | branch => exact ih.runBranches _ inside b s
  | loop => exact ih.runLoop _ _ inside b s
  | output =>
    refine .bind (ih.evaluate _ _ s) fun e s' _ => Follows.skip ?_
    have hprint : Follows p ground fuel (Run.print p e.value.display s')
        (.running (.ended inside b) (printed p e.value.display s'))
        fun _ s => .running (.ended inside b) s := by
      unfold Run.print printed
      cases p.settings.printNewline <;> exact Reaches.refl _
    exact hprint.bind fun _ s₂ _ => Reaches.refl _
  | giveBack =>
    refine .bind (ih.evaluate _ _ s) fun e s' _ => ?_
    exact Follows.skip (Reaches.step (Reaches.refl _))
  | _ => exact Reaches.refl _

theorem runBranches_follows (ih : Simulation p ground fuel) (nodes : List NodeId)
    (inside : List Pending) (b : Boundary) (s : State) :
    Follows p ground (fuel + 1) (runBranches p (fuel + 1) nodes s)
      (.running (.branches nodes inside b) s) (onward ground inside b) := by
  refine Follows.step ?_
  cases nodes with
  | nil =>
    rw [runBranches]
    exact Reaches.refl _
  | cons condition rest =>
    rw [runBranches]
    refine .bind (ih.evaluate _ _ s) fun e s' _ => Follows.skip ?_
    change Follows p ground fuel _ (receive p e s' (.branches rest inside b)) _
    unfold receive
    cases e.value.truthy with
    | true =>
      cases rest with
      | nil => exact Reaches.refl _
      | cons body _ => exact ih.execute body 0 inside b s'
    | false =>
      cases rest with
      | nil => exact Reaches.refl _
      | cons _ rest => exact ih.runBranches rest inside b s'

theorem runLoop_follows (ih : Simulation p ground fuel) (condition body : Option NodeId)
    (inside : List Pending) (b : Boundary) (s : State) :
    Follows p ground (fuel + 1) (runLoop p (fuel + 1) condition body s)
      (.running (.loop condition body inside b) s) (onward ground inside b) := by
  refine Follows.step ?_
  rw [runLoop]
  refine .bind (ih.evaluate condition _ s) fun e s' _ => Follows.skip ?_
  change Follows p ground fuel _ (receive p e s' (.loop condition body inside b)) _
  unfold receive
  cases e.value.truthy with
  | false => exact Reaches.refl _
  | true =>
    cases body with
    | none => exact ih.runLoop condition none inside b s'
    | some id =>
      refine .bind (ih.execute id 0 (.loop condition (some id) :: inside) b s') fun r s₂ _ => ?_
      cases r with
      | some returned => exact Reaches.refl _
      | none => exact Follows.skip (ih.runLoop condition (some id) inside b s₂)

theorem evaluate_follows (ih : Simulation p ground fuel) (node : Option NodeId) (k : Await)
    (s : State) : Follows p ground (fuel + 1) (evaluate p (fuel + 1) node s)
      (.running (.evaluate node k) s) fun e s => .running (.value e k) s := by
  refine Follows.step ?_
  cases node with
  | none =>
    rw [evaluate]
    exact Reaches.refl _
  | some node =>
    rw [evaluate]
    exact .nested (ih.evaluateNode node (.leave k) _) fun e s' => Reaches.step (Reaches.refl _)

theorem execute_follows (ih : Simulation p ground fuel) (body : NodeId) (start : Nat)
    (inside : List Pending) (b : Boundary) (s : State) :
    Follows p ground (fuel + 1) (execute p (fuel + 1) body start s)
      (.running (.execute body start inside b) s) (onward ground inside b) := by
  refine Follows.step ?_
  rw [execute]
  refine .nested (ih.runStatements _ (.leave :: inside) b _) fun r s' => ?_
  cases r with
  | none => exact Reaches.step (Reaches.refl _)
  | some v =>
    rw [onward, onward, close_recount]
    exact Reaches.refl _

theorem simulation_zero : Simulation p ground 0 where
  evaluate node k s := by
    cases node with
    | none =>
      rw [evaluate]
      exact Reaches.step (Reaches.refl _)
    | some node =>
      rw [evaluate]
      exact Lasts.zero _ s
  evaluateNode node k s := by
    rw [evaluateNode]
    exact Lasts.zero _ s
  runCall name arguments access k s := by
    rw [runCall]
    exact Lasts.zero _ s
  bindParams names arguments body k s := by
    cases names with
    | nil =>
      rw [bindParams]
      exact Reaches.step (Reaches.refl _)
    | cons =>
      rw [bindParams]
      exact Lasts.zero _ s
  execute body start inside b s := by
    rw [execute]
    exact Lasts.zero _ s
  runStatements statements inside b s := by
    cases statements with
    | nil =>
      rw [runStatements]
      exact Reaches.step (Reaches.refl _)
    | cons =>
      rw [runStatements]
      exact Lasts.zero _ s
  executeStatement node inside b s := by
    rw [executeStatement]
    exact Lasts.zero _ s
  runBranches nodes inside b s := by
    cases nodes with
    | nil =>
      rw [runBranches]
      exact Reaches.step (Reaches.refl _)
    | cons =>
      rw [runBranches]
      exact Lasts.zero _ s
  runLoop condition body inside b s := by
    rw [runLoop]
    exact Lasts.zero _ s

/-- A run with any amount of fuel is followed by the machine. -/
theorem simulation (p : Program) (ground : Counters) (fuel : Nat) : Simulation p ground fuel := by
  induction fuel with
  | zero => exact simulation_zero
  | succ fuel ih =>
    exact ⟨evaluate_follows ih, evaluateNode_follows ih, runCall_follows ih, bindParams_follows ih,
      execute_follows ih, runStatements_follows ih, executeStatement_follows ih,
      runBranches_follows ih, runLoop_follows ih⟩

variable {body : NodeId} {start : Nat} {r : Option Value} {f : Fault}

theorem halts_of_done (h : execute p fuel body start s = .done r s') :
    Halts p body start s (.returned r s') := by
  have hfollows := (simulation p (counters s) fuel).execute body start [] .run s
  rw [h] at hfollows
  have hclose := @onward_boundary p (counters s) .run r s'
  rw [Boundary.close, recount_execute (congrArg Outcome.state? h)] at hclose
  exact Reaches.trans hfollows hclose

theorem halts_of_failed (h : execute p fuel body start s = .failed f s') :
    Halts p body start s (.faulted f s') := by
  have hfollows := (simulation p (counters s) fuel).execute body start [] .run s
  rw [h] at hfollows
  have hreaches : Halts p body start s (fault (counters s) f s') := hfollows
  rw [fault, recount_execute (congrArg Outcome.state? h)] at hreaches
  exact hreaches

theorem Halts.unique {result result' : Config} (h : Halts p body start s result)
    (h' : Halts p body start s result') (hr : advance p (counters s) result = result)
    (hr' : advance p (counters s) result' = result') : result = result' := by
  obtain ⟨n, hn⟩ := h
  obtain ⟨m, hm⟩ := h'
  rcases Nat.le_total n m with hle | hle
  · obtain ⟨d, rfl⟩ := Nat.exists_eq_add_of_le' hle
    rw [Function.iterate_add_apply, hn, iterate_halted hr] at hm
    exact hm
  · obtain ⟨d, rfl⟩ := Nat.exists_eq_add_of_le' hle
    rw [Function.iterate_add_apply, hm, iterate_halted hr'] at hn
    exact hn.symm

/-- A machine that halts after `n` steps is a run for which `n` units of fuel reach, and so do more. -/
theorem Halts.exists_fuel {result : Config} (h : Halts p body start s result)
    (hr : ∀ control s, result ≠ .running control s) :
    ∃ n, ∀ fuel, n ≤ fuel → execute p fuel body start s ≠ .outOfFuel := by
  obtain ⟨n, hn⟩ := h
  refine ⟨n, fun fuel hle hout => ?_⟩
  -- a run out of fuel would keep the machine running for as many steps
  have hfollows := (simulation p (counters s) fuel).execute body start [] .run s
  rw [hout] at hfollows
  obtain ⟨control, t, hrunning⟩ := Lasts.mono hfollows hle
  exact hr control t (hn.symm.trans hrunning)

theorem Halts.returned (h : Halts p body start s (.returned r s'))
    (hfuel : execute p fuel body start s ≠ .outOfFuel) :
    execute p fuel body start s = .done r s' := by
  cases he : execute p fuel body start s with
  | outOfFuel => exact absurd he hfuel
  | done r₂ s₂ =>
    have heq := (halts_of_done he).unique h rfl rfl
    cases heq
    rfl
  | failed f₂ s₂ =>
    have heq := (halts_of_failed he).unique h rfl rfl
    cases heq

theorem Halts.faulted (h : Halts p body start s (.faulted f s'))
    (hfuel : execute p fuel body start s ≠ .outOfFuel) :
    execute p fuel body start s = .failed f s' := by
  cases he : execute p fuel body start s with
  | outOfFuel => exact absurd he hfuel
  | done r₂ s₂ =>
    have heq := (halts_of_done he).unique h rfl rfl
    cases heq
  | failed f₂ s₂ =>
    have heq := (halts_of_failed he).unique h rfl rfl
    cases heq
    rfl

theorem done_of_halts (h : Halts p body start s (.returned r s')) :
    ∃ fuel, execute p fuel body start s = .done r s' := by
  obtain ⟨n, hn⟩ := h.exists_fuel fun _ _ => Config.noConfusion
  exact ⟨n, h.returned (hn n (Nat.le_refl n))⟩

theorem failed_of_halts (h : Halts p body start s (.faulted f s')) :
    ∃ fuel, execute p fuel body start s = .failed f s' := by
  obtain ⟨n, hn⟩ := h.exists_fuel fun _ _ => Config.noConfusion
  exact ⟨n, h.faulted (hn n (Nat.le_refl n))⟩

theorem execute_eventually {x : Outcome State (Option Value)}
    (h : execute p fuel body start s = x) (hx : x ≠ .outOfFuel) :
    ∃ n, ∀ k, n ≤ k → execute p k body start s = x := by
  cases x with
  | outOfFuel => exact absurd rfl hx
  | done r s' =>
    have hhalts := halts_of_done h
    obtain ⟨n, hn⟩ := hhalts.exists_fuel fun _ _ => Config.noConfusion
    exact ⟨n, fun k hk => hhalts.returned (hn k hk)⟩
  | failed f s' =>
    have hhalts := halts_of_failed h
    obtain ⟨n, hn⟩ := hhalts.exists_fuel fun _ _ => Config.noConfusion
    exact ⟨n, fun k hk => hhalts.faulted (hn k hk)⟩

/-- A run ends as the machine ends, in value, state and fault; and an exit of the machine leaves out
whatever is still to be done inside the nearest boundary. -/
theorem execute_iff_halts (p : Program) (body : NodeId) (start : Nat) (s : State) :
    (∀ r s', (∃ fuel, execute p fuel body start s = .done r s') ↔
      Halts p body start s (.returned r s')) ∧
    (∀ f s', (∃ fuel, execute p fuel body start s = .failed f s') ↔
      Halts p body start s (.faulted f s')) ∧
    ∀ ground v inside b s', step p ground (.exit v inside b) s' = b.close ground (some v) s' := by
  refine ⟨fun r s' => ⟨?_, done_of_halts⟩, fun f s' => ⟨?_, failed_of_halts⟩, ?_⟩
  · rintro ⟨fuel, h⟩
    exact halts_of_done h
  · rintro ⟨fuel, h⟩
    exact halts_of_failed h
  · intro ground v inside b s'
    rfl

end Arbor.Machine
