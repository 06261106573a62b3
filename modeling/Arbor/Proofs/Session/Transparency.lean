import Arbor.Proofs.Run.Abreast
import Arbor.Proofs.Session.Termination
import Mathlib

/-!
# Settings are transparent

A program does not see its settings. With limits that are no tighter, a text that ends well ends well
again and prints the same; and where a run has been stopped, a run that goes on has printed the same
until then.
-/
namespace Arbor

def Settings.pairing (t : Tree) {S S' : Settings} (hdepth : S.maxDepth ≤ S'.maxDepth)
    (hnesting : S.maxNesting ≤ S'.maxNesting) : Pairing where
  tree := t
  first := S
  second := S'
  name _ := True
  alike m m' := m = m'
  depth := hdepth
  nesting := hnesting
  apart _ := ⟨fun _ => trivial, fun _ => rfl⟩
  naming _ _ := trivial
  parameters _ _ _ _ _ _ := trivial
  resolve _ h _ := by rw [h]
  bound _ _ _ _ _ _ _ := trivial
  store _ _ h _ _ := by rw [h]
  remove _ h _ := by rw [h]

namespace Session

variable {s : Session} {source : String} {fuel first : Nat} {S S' : Settings} {f : Fault}

theorem settings_ends (hdepth : S.maxDepth ≤ S'.maxDepth) (hnesting : S.maxNesting ≤ S'.maxNesting)
    (u : Session) (fuel first : Nat) :
    (Settings.pairing u.tree hdepth hnesting).Ends u.state.output.toList (fun _ => True)
      (execute (u.limited S).program fuel Tree.root first (u.limited S).state)
      (execute (u.limited S').program fuel Tree.root first (u.limited S').state) :=
  (((Settings.pairing u.tree hdepth hnesting).abreast fuel).execute Tree.root first).ends _ u.state
    u.state ⟨rfl, ⟨[], by simp⟩, rfl, rfl, rfl⟩

theorem same_but_output {base : List Emission} {state state' : State} {t : Tree}
    {hdepth : S.maxDepth ≤ S'.maxDepth} {hnesting : S.maxNesting ≤ S'.maxNesting}
    (h : (Settings.pairing t hdepth hnesting).Beside base state state') :
    state' = { state with output := state'.output } := by
  have hmemory : state.memory = state'.memory := h.memory
  cases state'
  simp only [State.mk.injEq, true_and]
  exact ⟨hmemory.symm, h.input, h.depth, h.nesting⟩

variable {u : Session} {state state' : State}

theorem execute_done_limited (hdepth : S.maxDepth ≤ S'.maxDepth)
    (hnesting : S.maxNesting ≤ S'.maxNesting) {r : Option Value}
    (h : execute (u.limited S).program fuel Tree.root first (u.limited S).state = .done r state) :
    ∃ state' texts,
      execute (u.limited S').program fuel Tree.root first (u.limited S').state = .done r state' ∧
      state' = { state with output := state'.output } ∧
      state.output.toList = u.state.output.toList ++ S.spoken texts ∧
      state'.output.toList = u.state.output.toList ++ S'.spoken texts := by
  have hends := settings_ends hdepth hnesting u fuel first
  rw [h] at hends
  generalize execute (u.limited S').program fuel Tree.root first (u.limited S').state = y at hends
  cases hends with
  | done _ hbeside =>
    obtain ⟨texts, hfirst, hsecond⟩ := hbeside.output
    exact ⟨_, texts, rfl, same_but_output hbeside, hfirst, hsecond⟩

/-- What is printed until a run is stopped comes first in what is printed under looser limits. -/
theorem execute_failed_limited (hdepth : S.maxDepth ≤ S'.maxDepth)
    (hnesting : S.maxNesting ≤ S'.maxNesting)
    (h : execute (u.limited S).program fuel Tree.root first (u.limited S).state = .failed f state)
    (h' : (execute (u.limited S').program fuel Tree.root first (u.limited S').state).state? =
      some state') : ∃ texts more,
      state.output.toList = u.state.output.toList ++ S.spoken texts ∧
      state'.output.toList = u.state.output.toList ++ S'.spoken (texts ++ more) := by
  have hends := settings_ends hdepth hnesting u fuel first
  rw [h] at hends
  generalize execute (u.limited S').program fuel Tree.root first (u.limited S').state = y
    at h' hends
  cases hends with
  | failed hbeside =>
    cases h'
    obtain ⟨texts, hfirst, hsecond⟩ := hbeside.output
    refine ⟨texts, [], hfirst, ?_⟩
    rw [List.append_nil]
    exact hsecond
  | behind _ hfirst hsecond =>
    obtain ⟨more, hmore⟩ := hsecond state' h'
    exact ⟨_, more, hfirst, hmore⟩

/-- With limits that are no tighter, a text that ends well ends well again and leaves the same, up to
the line breaks after what is printed. What a run has printed that is stopped comes first in what a
run prints that may go on. -/
theorem settings_transparent (s : Session) (source : String) (hdepth : S.maxDepth ≤ S'.maxDepth)
    (hnesting : S.maxNesting ≤ S'.maxNesting) :
    (∀ fuel t, (s.limited S).runSource fuel source = .done () t → ∃ t' texts,
      (s.limited S').runSource fuel source = .done () t' ∧ t'.tree = t.tree ∧
      t'.state = { t.state with output := t'.state.output } ∧
      t.state.output.toList = s.state.output.toList ++ S.spoken texts ∧
      t'.state.output.toList = s.state.output.toList ++ S'.spoken texts) ∧
    ∀ fuel fuel' f t t', (s.limited S).runSource fuel source = .failed f t →
      ((s.limited S').runSource fuel' source).state? = some t' → ∃ texts more,
      t.state.output.toList = s.state.output.toList ++ S.spoken texts ∧
      t'.state.output.toList = s.state.output.toList ++ S'.spoken (texts ++ more) := by
  have hload := fun S => load_of_tree (show (s.limited S).tree = s.tree from rfl) source
  cases hl : s.load source with
  | outOfFuel =>
    rw [hl] at hload
    simp [runSource, hload, Outcome.update]
  | failed f u =>
    rw [hl] at hload
    have hrun := fun S fuel => runSource_of_load (hload S) fuel
    simp only [hrun]
    refine ⟨fun _ _ h => (by cases h), fun _ _ _ _ _ h h' => ⟨[], [], ?_⟩⟩
    cases h
    cases h'
    simp [limited]
  | done first t =>
    rw [hl] at hload
    -- only the tree has changed
    obtain ⟨u, hu, hload⟩ : ∃ u : Session, u.state = s.state ∧
        ∀ S, (s.limited S).load source = .done first (u.limited S) :=
      ⟨{ s with tree := t.tree }, rfl, hload⟩
    rw [← hu]
    constructor
    · intro fuel t h
      rw [runSource_loaded (hload S)] at h
      cases hx : execute (u.limited S).program fuel Tree.root first (u.limited S).state with
      | done r state =>
        rw [hx] at h
        cases h
        obtain ⟨state', texts, hx', hsame, hfirst, hsecond⟩ :=
          execute_done_limited hdepth hnesting hx
        refine ⟨{ u.limited S' with state := state' }, texts, ?_, rfl, hsame, hfirst, hsecond⟩
        rw [runSource_loaded (hload S'), hx']
      | failed | outOfFuel =>
        rw [hx] at h
        cases h
    · intro fuel fuel' f t t' h h'
      -- the two runs may have been given different amounts of fuel
      have hne : (s.limited S').runSource fuel' source ≠ .outOfFuel := by
        intro hout
        rw [hout] at h'
        cases h'
      obtain ⟨k, hk, hk'⟩ := runSource_common h (by simp) rfl hne
      rw [← hk', runSource_loaded (hload S')] at h'
      rw [runSource_loaded (hload S)] at hk
      cases hx : execute (u.limited S).program k Tree.root first (u.limited S).state with
      | failed g state =>
        rw [hx] at hk
        cases hk
        cases hy : execute (u.limited S').program k Tree.root first (u.limited S').state with
        | outOfFuel =>
          rw [hy] at h'
          cases h'
        | done r state' | failed g' state' =>
          rw [hy] at h'
          cases h'
          exact execute_failed_limited hdepth hnesting hx (congrArg Outcome.state? hy)
      | done | outOfFuel =>
        rw [hx] at hk
        cases hk

/-- Where the second text to be printed nests too deep for one run, the other one prints it too. -/
theorem second_text_under_looser_limits : ∃ f t t' texts more,
    ((Session.start ⟨"", 0⟩ {} []).limited { maxNesting := 2 }).runSource 20
      "print \"a\" print \"b\" + \"c\"" = .failed f t ∧
    ((Session.start ⟨"", 0⟩ {} []).limited { printNewline := true }).runSource 20
      "print \"a\" print \"b\" + \"c\"" = .done () t' ∧
    t.state.output.toList = Settings.spoken { maxNesting := 2 } texts ∧
    t'.state.output.toList = Settings.spoken { printNewline := true } (texts ++ more) := by
  have hfirst : ∃ f t, ((Session.start ⟨"", 0⟩ {} []).limited { maxNesting := 2 }).runSource 20
      "print \"a\" print \"b\" + \"c\"" = .failed f t := ⟨_, _, by cbv⟩
  have hsecond : ∃ t', ((Session.start ⟨"", 0⟩ {} []).limited { printNewline := true }).runSource 20
      "print \"a\" print \"b\" + \"c\"" = .done () t' := ⟨_, by cbv⟩
  obtain ⟨f, t, hfirst⟩ := hfirst
  obtain ⟨t', hsecond⟩ := hsecond
  obtain ⟨texts, more, htexts, hmore⟩ :=
    (settings_transparent (Session.start ⟨"", 0⟩ {} []) "print \"a\" print \"b\" + \"c\""
      (show Settings.maxDepth { maxNesting := 2 } ≤ Settings.maxDepth { printNewline := true } by decide)
      (by decide)).2 20 20 f t t' hfirst (congrArg Outcome.state? hsecond)
  exact ⟨f, t, t', texts, more, hfirst, hsecond, htexts, hmore⟩

end Session

end Arbor
