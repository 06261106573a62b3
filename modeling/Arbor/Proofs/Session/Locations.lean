import Arbor.Proofs.Session.Faults
import Arbor.Proofs.Session.References
import Mathlib

/-!
# Faults point into the source

The text of a fault stands in a source at the offset that the fault names: in the text that could
not be read, or in one of the texts that were loaded before the run failed. Some nodes show a text
that stands nowhere, but the step that goes too deep is never on one of them.
-/
namespace Arbor.Session

variable {s s' t : Session} {source : String} {loaded : List String} {fuel : Nat} {f : Fault}

/-- A session of runs from a fresh start, and the texts that were loaded on the way, latest first. -/
inductive Ran : List String → Session → Prop where
  | start (clock : Clock) (settings : Settings) (input : List String) :
      Ran [] (Session.start clock settings input)
  | refused {loaded : List String} {s s' t : Session} {f : Fault} (fuel : Nat) (source : String) :
      Ran loaded s → s.load source = .failed f t →
      (s.runSource fuel source).state? = some s' → Ran loaded s'
  | run {loaded : List String} {s s' t : Session} {first : Nat} (fuel : Nat) (source : String) :
      Ran loaded s → s.load source = .done first t →
      (s.runSource fuel source).state? = some s' → Ran (source :: loaded) s'

def Stands (loaded : List String) (text : String) (start : Nat) : Prop :=
  ∃ source ∈ loaded, Located source start text

theorem Stands.cons {text : String} {start : Nat} (h : Stands loaded text start)
    (source : String) : Stands (source :: loaded) text start := by
  obtain ⟨src, hsrc, hlocated⟩ := h
  exact ⟨src, List.mem_cons_of_mem _ hsrc, hlocated⟩

theorem Ran.reachable (h : Ran loaded s) : s.Reachable := by
  induction h with
  | start clock settings input => exact .start clock settings input
  | refused fuel source _ _ hs ih => exact .run fuel source ih hs
  | run fuel source _ _ hs ih => exact .run fuel source ih hs

theorem Reachable.refused (h : s.Reachable) (hl : s.load source = .failed f t) : t = s ∧
    (f.kind = .character ∨ f.kind = .grammar) ∧ Located source f.start f.text := by
  have hloads := h.standing.loads source fun _ _ _ => trivial
  rw [hl] at hloads
  obtain ⟨hsame, hcause, hlocated⟩ := hloads.failed
  refine ⟨hsame, ?_, hlocated⟩
  rcases hcause with ⟨_, hkind⟩ | ⟨_, _, _, _, _, hkind⟩
  · exact Or.inl hkind
  · exact Or.inr hkind

theorem Ran.standing (h : Ran loaded s) : s.Standing (Stands loaded) := by
  induction h with
  | start clock settings input => exact start_standing _ clock settings input
  | refused fuel source hran hl hs ih =>
    have hsame := (hran.reachable.refused hl).1
    rw [runSource_of_load hl fuel] at hs
    cases hs
    rw [hsame]
    exact ih
  | run fuel source _ _ hs ih =>
    have hmore := ih.imp fun _ _ hstands => hstands.cons source
    apply hmore.ran _ hs
    intro start text hlocated
    exact ⟨source, List.mem_cons_self, hlocated⟩

/-- What a fault at a limit shows stands in a text that was loaded, unless no step at all is
allowed. -/
theorem Standing.execute_located (h : s.Standing (Stands loaded))
    (hm : s.state.memory.Sound s.tree) (hlimit : 1 ≤ s.settings.maxNesting) {first : Nat}
    {state : State} (he : execute s.program fuel Tree.root first s.state = .failed f state) :
    f.kind = .stack ∧ Stands loaded f.text f.start := by
  have hagree := h.execute_agree hm (G := fun f => f.kind = .stack ∧ Stands loaded f.text f.start)
    (fun n _ hshown => ⟨rfl, hshown⟩) (fun n _ htag => ⟨rfl, h.formed.calls n htag⟩)
    (fun hzero => absurd hlimit hzero) fuel first
  rw [he] at hagree
  cases hagree with
  | failed hfault _ => exact hfault.2

theorem stop_of_kind (h : f.kind ≠ .interpreter) : f.stop = f.start + max 1 f.text.length := by
  rw [Fault.stop_eq, if_neg h]

/-- A fault covers its text, at least one character, and the text stands where the fault starts: in
the text that could not be read, or in one that was loaded, by this run or before. -/
theorem fault_located (h : Ran loaded s) (hlimit : 1 ≤ s.settings.maxNesting)
    (hrun : s.runSource fuel source = .failed f t) :
    f.stop = f.start + max 1 f.text.length ∧
    ((f.kind = .character ∨ f.kind = .grammar) ∧ Located source f.start f.text ∨
      f.kind = .stack ∧ (∃ first s', s.load source = .done first s') ∧
        ∃ src ∈ source :: loaded, Located src f.start f.text) := by
  rcases runSource_failed hrun with hl | ⟨first, s', state, hl, _, he⟩
  · obtain ⟨_, hkind, hlocated⟩ := h.reachable.refused hl
    refine ⟨?_, Or.inl ⟨hkind, hlocated⟩⟩
    apply stop_of_kind
    intro hinterpreter
    rw [hinterpreter] at hkind
    rcases hkind with hk | hk <;> cases hk
  · have hmore := h.standing.imp fun _ _ hstands => hstands.cons source
    have hstanding : s'.Standing (Stands (source :: loaded)) := by
      apply hmore.loaded _ (congrArg Outcome.state? hl)
      intro start text hlocated
      exact ⟨source, List.mem_cons_self, hlocated⟩
    have hm := h.reachable.standing.sound_load h.reachable.sound (congrArg Outcome.state? hl)
    have hsettings : s'.settings = s.settings := by
      obtain ⟨loose, hg⟩ := h.standing.grove
      obtain ⟨tree, rfl, _⟩ := load_grows hg (congrArg Outcome.state? hl)
      rfl
    obtain ⟨hkind, hstands⟩ := hstanding.execute_located hm (by rw [hsettings]; exact hlimit) he
    refine ⟨?_, Or.inr ⟨hkind, ⟨first, s', hl⟩, hstands⟩⟩
    apply stop_of_kind
    rw [hkind]
    exact Fault.Kind.noConfusion

/-- The call that is one too many stands in the text of an earlier run. -/
theorem earlier_call_located : ∃ (s : Session) (f : Fault) (t : Session),
    Ran ["fn f() \x7bf()\x7d"] s ∧ 1 ≤ s.settings.maxNesting ∧
    s.runSource 20 "   f()" = .failed f t ∧ f.text = "f" ∧ f.start = 8 ∧ f.stop = 9 ∧
    ∃ src ∈ ["   f()", "fn f() \x7bf()\x7d"], Located src 8 "f" := by
  have hfirst : ∃ first u, (Session.start ⟨"", 0⟩ { maxDepth := 1 } []).load
      "fn f() \x7bf()\x7d" = .done first u := ⟨_, _, by cbv⟩
  have hsecond : ∃ s, (Session.start ⟨"", 0⟩ { maxDepth := 1 } []).runSource 9
      "fn f() \x7bf()\x7d" = .done () s ∧ s.settings.maxNesting = 40000 ∧
      ∃ f t, s.runSource 20 "   f()" = .failed f t ∧ f.text = "f" ∧ f.start = 8 ∧
        f.kind = .stack :=
    ⟨_, by cbv, by cbv, _, _, by cbv, by cbv, by cbv, by cbv⟩
  obtain ⟨first, u, hl⟩ := hfirst
  obtain ⟨s, hs, hlimit, f, t, hrun, htext, hstart, hkind⟩ := hsecond
  have hran : Ran ["fn f() \x7bf()\x7d"] s :=
    .run 9 _ (.start ..) hl (congrArg Outcome.state? hs)
  have hpos : 1 ≤ s.settings.maxNesting := by
    rw [hlimit]
    decide
  obtain ⟨hstop, hcase⟩ := fault_located hran hpos hrun
  refine ⟨s, f, t, hran, hpos, hrun, htext, hstart, ?_, ?_⟩
  · rw [hstop, hstart, htext]
    decide
  · rcases hcase with ⟨hk, _⟩ | ⟨_, _, hstands⟩
    · rw [hkind] at hk
      rcases hk with hk | hk <;> cases hk
    · rw [hstart, htext] at hstands
      exact hstands

end Arbor.Session
