import Arbor.Proofs.Session.Standing
import Mathlib

/-!
# Kinds of faults

The kind of a fault says at which stage a text failed: in the scan, in the grammar, or at a limit
while it ran. No fault of the interpreter itself ever arises.
-/
namespace Arbor.Session

variable {P : String → Nat → Prop} {s t : Session} {source : String} {fuel : Nat} {f : Fault}

def limited (s : Session) (settings : Settings) : Session := { s with settings }

theorem Standing.limited (h : s.Standing P) (settings : Settings) :
    (s.limited settings).Standing P :=
  ⟨h.grove, h.formed, h.root, h.counters⟩

/-- The stage at which a text has failed, and the kind that goes with it. -/
theorem Standing.failed_cases (h : s.Standing fun _ _ => True)
    (hrun : s.runSource fuel source = .failed f t) :
    (Token.scan source = .error f ∧ f.kind = .character) ∨
    (∃ tokens stunted, Token.scan source = .ok tokens ∧ s.tree.grow tokens = .error stunted ∧
      stunted.fault = f ∧ f.kind = .grammar) ∨
    (∃ tokens tree, Token.scan source = .ok tokens ∧ s.tree.grow tokens = .ok tree ∧
      f.kind = .stack) := by
  have hloads := h.loads source fun _ _ _ => trivial
  rcases runSource_failed hrun with hl | ⟨first, loaded, state, hl, _, he⟩
  · rw [hl] at hloads
    rcases hloads.failed.2.1 with hscan | hgrow
    · exact Or.inl hscan
    · exact Or.inr (Or.inl hgrow)
  · rw [hl] at hloads
    have hkind := (hloads.done.execute_atLimit he).1
    cases hloads with
    | read hscan hgrow _ _ => exact Or.inr (Or.inr ⟨_, _, hscan, hgrow, hkind⟩)

theorem Standing.failed_character_iff (h : s.Standing fun _ _ => True) (fuel : Nat) :
    (∃ f t, s.runSource fuel source = .failed f t ∧ f.kind = .character) ↔
      ∃ f, Token.scan source = .error f := by
  constructor
  · rintro ⟨f, t, hrun, hkind⟩
    rcases h.failed_cases hrun with ⟨hscan, _⟩ | ⟨_, _, _, _, _, hk⟩ | ⟨_, _, _, _, hk⟩
    · exact ⟨f, hscan⟩
    · rw [hk] at hkind
      cases hkind
    · rw [hk] at hkind
      cases hkind
  · rintro ⟨f, hscan⟩
    have hload : s.load source = .failed f s := by simp only [load, hscan]
    have hrun := runSource_of_load hload fuel
    rcases h.failed_cases hrun with ⟨_, hkind⟩ | ⟨_, _, hok, _⟩ | ⟨_, _, hok, _⟩
    · exact ⟨f, _, hrun, hkind⟩
    · rw [hscan] at hok
      cases hok
    · rw [hscan] at hok
      cases hok

theorem Standing.failed_grammar_iff (h : s.Standing fun _ _ => True) (fuel : Nat) :
    (∃ f t, s.runSource fuel source = .failed f t ∧ f.kind = .grammar) ↔
      ∃ tokens stunted, Token.scan source = .ok tokens ∧ s.tree.grow tokens = .error stunted := by
  constructor
  · rintro ⟨f, t, hrun, hkind⟩
    rcases h.failed_cases hrun with
      ⟨_, hk⟩ | ⟨tokens, stunted, hscan, hgrow, _, _⟩ | ⟨_, _, _, _, hk⟩
    · rw [hk] at hkind
      cases hkind
    · exact ⟨tokens, stunted, hscan, hgrow⟩
    · rw [hk] at hkind
      cases hkind
  · rintro ⟨tokens, stunted, hscan, hgrow⟩
    have hload : ∃ t, s.load source = .failed stunted.fault t :=
      ⟨_, by simp only [load, hscan, hgrow]; rfl⟩
    obtain ⟨t, hload⟩ := hload
    have hrun := runSource_of_load hload fuel
    rcases h.failed_cases hrun with ⟨herror, _⟩ | ⟨_, _, _, _, _, hkind⟩ | ⟨_, _, hok, hgrow', _⟩
    · rw [hscan] at herror
      cases herror
    · exact ⟨_, t, hrun, hkind⟩
    · cases Except.ok.inj (hscan.symm.trans hok)
      rw [hgrow] at hgrow'
      cases hgrow'

theorem ofSource_kind (h : Tree.ofSource source = .error f) :
    f.kind = .character ∨ f.kind = .grammar := by
  have hstanding := start_standing (fun _ _ => True) ⟨"", 0⟩ {} []
  have hloads := hstanding.loads source fun _ _ _ => trivial
  unfold Tree.ofSource at h
  cases hscan : Token.scan source with
  | error g =>
    rw [hscan] at h
    cases h
    have hscanned := Token.scan_scanned source
    rw [hscan] at hscanned
    exact Or.inl hscanned.1
  | ok tokens =>
    rw [hscan] at h
    have hcomes := Tree.grow_comes (Tree.planted_formed fun _ _ => True) Tree.planted_grove rfl
      hscan fun _ _ _ => trivial
    cases hgrow : Tree.planted.grow tokens with
    | ok tree =>
      simp only [hgrow] at h
      cases h
    | error stunted =>
      simp only [hgrow] at h
      rw [hgrow] at hcomes
      cases h
      obtain ⟨why, found, _, hkind, _⟩ := hcomes
      exact Or.inr hkind

/-- A text fails with a fault of each kind exactly at its own stage, and after a load only at a limit
that the run has come to. -/
theorem fault_kinds (h : s.Reachable) (settings : Settings) (source : String) :
    (∀ fuel, (∃ f t, (s.limited settings).runSource fuel source = .failed f t ∧
        f.kind = .character) ↔ ∃ f, Token.scan source = .error f) ∧
    (∀ fuel, (∃ f t, (s.limited settings).runSource fuel source = .failed f t ∧
        f.kind = .grammar) ↔
      ∃ tokens stunted, Token.scan source = .ok tokens ∧ s.tree.grow tokens = .error stunted) ∧
    (∀ fuel first loaded f t, (s.limited settings).load source = .done first loaded →
      (s.limited settings).runSource fuel source = .failed f t → f.kind = .stack ∧
      ∃ control state, Machine.Reaches loaded.program (Machine.counters loaded.state)
          (.running (.execute Tree.root first [] .run) loaded.state) (.running control state) ∧
        Machine.AtLimit loaded.program control state f) ∧
    (∀ fuel f t, (s.limited settings).runSource fuel source = .failed f t →
      f.kind ≠ .interpreter) ∧
    ∀ f, Tree.ofSource source = .error f → f.kind ≠ .interpreter := by
  have hstanding := h.standing.limited settings
  refine ⟨hstanding.failed_character_iff, hstanding.failed_grammar_iff, ?_, ?_, ?_⟩
  · intro fuel first loaded f t hload hrun
    rcases runSource_failed hrun with hl | ⟨first', loaded', state, hl, _, he⟩
    · rw [hload] at hl
      cases hl
    · rw [hload] at hl
      cases hl
      have hloads := hstanding.loads source fun _ _ _ => trivial
      rw [hload] at hloads
      exact hloads.done.execute_atLimit he
  · intro fuel f t hrun hkind
    rcases hstanding.failed_cases hrun with ⟨_, hk⟩ | ⟨_, _, _, _, _, hk⟩ | ⟨_, _, _, _, hk⟩ <;>
      · rw [hk] at hkind
        cases hkind
  · intro f hf hkind
    rcases ofSource_kind hf with hk | hk <;>
      · rw [hk] at hkind
        cases hkind

/-- The second call of a function that calls itself is one too many where one is allowed. -/
theorem second_call_fault : ∃ (s : Session) (f : Fault) (t : Session), s.Reachable ∧
    (s.limited { maxDepth := 1 }).runSource 20 "fn f() \x7bf()\x7d f()" = .failed f t ∧
    f.kind = .stack ∧ f.text = "f" ∧ f.start = 8 := by
  have hload : ∃ first loaded, ((Session.start ⟨"", 0⟩ {} []).limited { maxDepth := 1 }).load
      "fn f() \x7bf()\x7d f()" = .done first loaded := ⟨_, _, by cbv⟩
  have hrun : ∃ f t, ((Session.start ⟨"", 0⟩ {} []).limited { maxDepth := 1 }).runSource 20
      "fn f() \x7bf()\x7d f()" = .failed f t ∧ f.text = "f" ∧ f.start = 8 :=
    ⟨_, _, by cbv, by cbv, by cbv⟩
  obtain ⟨first, loaded, hload⟩ := hload
  obtain ⟨f, t, hrun, htext, hstart⟩ := hrun
  have hkinds := fault_kinds (.start ⟨"", 0⟩ {} []) { maxDepth := 1 } "fn f() \x7bf()\x7d f()"
  have hstack := (hkinds.2.2.1 20 first loaded f t hload hrun).1
  exact ⟨_, f, t, .start ⟨"", 0⟩ {} [], hrun, hstack, htext, hstart⟩

end Arbor.Session
