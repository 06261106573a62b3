import Arbor.Proofs.Return.Counters
import Arbor.Proofs.Session.Standing
import Mathlib

/-!
# Counters in sessions

A text that runs between two others finds both counters at zero and leaves them there. While it
runs, fewer calls than steps are open, so the limit of calls is out of reach where the limit of
steps is no higher.
-/
namespace Arbor.Session

open Machine (counters Reaches)

variable {s t : Session} {source : String} {first fuel : Nat} {f : Fault}

theorem load_tree (s : Session) (source : String) : ∃ tree,
    (∃ f, s.load source = .failed f { s with tree } ∧ f.kind ≠ .stack) ∨
      ∃ first, s.load source = .done first { s with tree } := by
  simp only [load]
  have hscanned := Token.scan_scanned source
  cases hscan : Token.scan source with
  | error f =>
    rw [hscan] at hscanned
    refine ⟨s.tree, Or.inl ⟨f, rfl, ?_⟩⟩
    rw [hscanned.1]
    exact Fault.Kind.noConfusion
  | ok tokens =>
    have hmisplaces := Tree.Growth.grow_misplaces ⟨s.tree, Tree.root⟩
      ((tokens.find? (·.kind = .eof)).getD (Tree.eofAfter tokens))
      (tokens.takeWhile (·.kind ≠ .eof))
    change Tree.Growth.Misplaces (s.tree.grow tokens) at hmisplaces
    dsimp only
    cases hgrow : s.tree.grow tokens with
    | ok tree => exact ⟨tree, Or.inr ⟨_, rfl⟩⟩
    | error stunted =>
      rw [hgrow] at hmisplaces
      obtain ⟨why, found, hfault⟩ := hmisplaces
      refine ⟨_, Or.inl ⟨_, rfl, ?_⟩⟩
      rw [hfault]
      cases why <;> exact Fault.Kind.noConfusion

theorem load_done (h : s.load source = .done first t) :
    t.state = s.state ∧ t.settings = s.settings := by
  obtain ⟨tree, ⟨f, hl, -⟩ | ⟨first', hl⟩⟩ := load_tree s source
  · rw [hl] at h
    cases h
  · rw [hl] at h
    cases h
    exact ⟨rfl, rfl⟩

theorem load_failed (h : s.load source = .failed f t) :
    t.state = s.state ∧ f.kind ≠ .stack := by
  obtain ⟨tree, ⟨f', hl, hkind⟩ | ⟨first, hl⟩⟩ := load_tree s source
  · rw [hl] at h
    cases h
    exact ⟨rfl, hkind⟩
  · rw [hl] at h
    cases h

theorem runSource_counters (h : (s.runSource fuel source).state? = some t) :
    counters t.state = counters s.state := by
  rcases runSource_cases h with ⟨f, hl, -⟩ | ⟨first, loaded, hl, state, rfl, he⟩
  · rw [(load_failed hl).1]
  · rw [Machine.execute_counters he, (load_done hl).1]

/-- In a text that starts with both counters at zero, no call is one too many where steps are
limited as tightly as calls. -/
theorem runSource_not_callsTooDeep (hs : counters s.state = ⟨0, 0⟩)
    (hle : s.settings.maxNesting ≤ s.settings.maxDepth)
    (h : s.runSource fuel source = .failed f t) (name : String) (position limit : Nat) :
    f ≠ .callsTooDeep name position limit := by
  rcases runSource_failed h with hl | ⟨first, loaded, state, hl, -, he⟩
  · rintro rfl
    exact (load_failed hl).2 rfl
  · obtain ⟨hstate, hsettings⟩ := load_done hl
    exact Machine.not_callsTooDeep (by rw [hstate, hs]) (by rw [program, hsettings]; exact hle) he
      name position limit

/-- The counters are kept by every part of the recursion, stay within their limits at every entry
into it, and are back at zero after every text of a session. Between two texts no call is open, and
inside of one fewer calls than steps are. -/
theorem counter_discipline (p : Program) :
    (∀ fuel, (∀ node, (evaluate p fuel node).Keeps) ∧ (∀ node, (evaluateNode p fuel node).Keeps) ∧
      (∀ name arguments access, (runCall p fuel name arguments access).Keeps) ∧
      (∀ body start, (execute p fuel body start).Keeps) ∧
      ∀ statements, (runStatements p fuel statements).Keeps) ∧
    (∀ fuel state,
      (∀ node, Machine.Follows p (counters state) fuel (evaluate p fuel node state)
        (.running (.evaluate node (.discard [] .run)) state)
        fun e state => .running (.value e (.discard [] .run)) state) ∧
      (∀ name arguments access, Machine.Follows p (counters state) fuel
        (runCall p fuel name arguments access state)
        (.running (.call name arguments access (.discard [] .run)) state)
        fun v state => .running (.value ⟨v, none⟩ (.discard [] .run)) state) ∧
      ∀ body start, Machine.Follows p (counters state) fuel (execute p fuel body start state)
        (.running (.execute body start [] .run) state)
        (Machine.onward (counters state) [] .run)) ∧
    (∀ entry state inner state', Machine.Entry entry → (counters state).Within p →
      Reaches p (counters state) (.running entry state) (.running inner state') →
      (counters state').Within p ∧ inner.Undoes (counters state) (counters state')) ∧
    ∀ (s : Session) (source : String), counters s.state = ⟨0, 0⟩ →
      (∀ first loaded control state, s.load source = .done first loaded →
        Reaches loaded.program (counters loaded.state)
          (.running (.execute Tree.root first [] .run) loaded.state) (.running control state) →
        control.Runs → state.depth < state.nesting) ∧
      (∀ fuel f t, s.settings.maxNesting ≤ s.settings.maxDepth →
        s.runSource fuel source = .failed f t →
        ∀ name position limit, f ≠ .callsTooDeep name position limit) ∧
      ∀ fuel t, (s.runSource fuel source).state? = some t → counters t.state = ⟨0, 0⟩ := by
  refine ⟨counters_kept p, ?_, ?_, ?_⟩
  · intro fuel state
    have hsimulation := Machine.simulation p (counters state) fuel
    exact ⟨fun node => hsimulation.evaluate node _ _,
      fun name arguments access => hsimulation.runCall name arguments access _ _,
      fun body start => hsimulation.execute body start _ _ _⟩
  · exact fun entry state inner state' hentry hwithin hreaches => hentry.reaches hwithin hreaches
  · intro s source hs
    refine ⟨?_, ?_, ?_⟩
    · intro first loaded control state hl hreaches hruns
      exact Machine.depth_lt_nesting (by rw [(load_done hl).1, hs]) hreaches hruns
    · exact fun fuel f t hle h => runSource_not_callsTooDeep hs hle h
    · intro fuel t h
      rw [runSource_counters h, hs]

/-- A function that calls itself comes to the limit of steps before that of calls, and leaves
nothing open. -/
theorem runaway_call_counters : ∃ (s : Session) (f : Fault) (t : Session) (control : Machine.Control)
    (state : State), s.settings.maxNesting = s.settings.maxDepth ∧
      s.runSource 20 "fn f() \x7bf()\x7d f()" = .failed f t ∧
      (∀ name position limit, f ≠ .callsTooDeep name position limit) ∧
      counters t.state = ⟨0, 0⟩ ∧ control.Runs ∧ state.depth < state.nesting ∧
      (counters state).Within s.program := by
  have hload : ∃ loaded, (Session.start ⟨"", 0⟩ ⟨4, 4, false⟩ []).load "fn f() \x7bf()\x7d f()" =
      .done 0 loaded ∧ ∃ control state, Reaches loaded.program (counters loaded.state)
        (.running (.execute Tree.root 0 [] .run) loaded.state) (.running control state) ∧
        control.Runs := ⟨_, by cbv, _, _, ⟨2, by cbv⟩, by exact trivial⟩
  have hrun : ∃ f t, (Session.start ⟨"", 0⟩ ⟨4, 4, false⟩ []).runSource 20
      "fn f() \x7bf()\x7d f()" = .failed f t := ⟨_, _, by cbv⟩
  obtain ⟨loaded, hload, control, state, hreaches, hruns⟩ := hload
  obtain ⟨f, t, hrun⟩ := hrun
  obtain ⟨hstate, hsettings⟩ := load_done hload
  obtain ⟨-, -, hentries, hsessions⟩ := counter_discipline loaded.program
  obtain ⟨hdepth, hcalls, hback⟩ :=
    hsessions (Session.start ⟨"", 0⟩ ⟨4, 4, false⟩ []) "fn f() \x7bf()\x7d f()" rfl
  have hwithin : (counters loaded.state).Within loaded.program := by
    rw [hstate]
    exact ⟨Nat.zero_le _, Nat.zero_le _⟩
  have hreached := (hentries _ _ _ _ (.execute Tree.root 0) hwithin hreaches).1
  refine ⟨_, f, t, control, state, rfl, hrun, hcalls 20 f t (Nat.le_refl 4) hrun,
    hback 20 t (congrArg Outcome.state? hrun), hruns, hdepth _ _ _ _ hload hreaches hruns, ?_⟩
  unfold Machine.Counters.Within program at hreached ⊢
  rwa [hsettings] at hreached

end Arbor.Session
