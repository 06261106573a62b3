import Arbor.Proofs.Growth.Origin
import Arbor.Proofs.Run.Settling
import Arbor.Proofs.Session.Faults
import Mathlib

/-!
# Termination

A loop comes into a program only by its keyword. Without one, running a text ends, however its
functions call themselves and each other: it runs to its end, it is refused, or it comes to a limit.
-/
namespace Arbor.Session

variable {P : String → Nat → Prop} {s loaded : Session} {source : String} {fuel first : Nat}

theorem runSource_loaded (hl : s.load source = .done first loaded) (fuel : Nat) :
    s.runSource fuel source =
      match execute loaded.program fuel Tree.root first loaded.state with
      | .done _ state => Outcome.done () { loaded with state }
      | .failed f state => Outcome.failed f { loaded with state }
      | .outOfFuel => Outcome.outOfFuel := by
  simp only [runSource, hl, perform]
  cases execute loaded.program fuel Tree.root first loaded.state <;> rfl

theorem runSource_eventually {o : Outcome Session Unit} (h : s.runSource fuel source = o)
    (ho : o ≠ .outOfFuel) : ∃ N, ∀ k, N ≤ k → s.runSource k source = o := by
  subst h
  cases hl : s.load source with
  | outOfFuel =>
    simp only [runSource, hl] at ho
    exact absurd rfl ho
  | failed f t =>
    refine ⟨0, fun k _ => ?_⟩
    rw [runSource_of_load hl, runSource_of_load hl]
  | done first loaded =>
    rw [runSource_loaded hl] at ho
    have hx : execute loaded.program fuel Tree.root first loaded.state ≠ .outOfFuel := by
      intro hx
      rw [hx] at ho
      exact ho rfl
    obtain ⟨N, hN⟩ := Machine.execute_eventually rfl hx
    refine ⟨N, fun k hk => ?_⟩
    rw [runSource_loaded hl, runSource_loaded hl, hN k hk]

theorem runSource_common {o o' : Outcome Session Unit} {s' : Session} {fuel' : Nat}
    (h : s.runSource fuel source = o) (ho : o ≠ .outOfFuel)
    (h' : s'.runSource fuel' source = o') (ho' : o' ≠ .outOfFuel) :
    ∃ k, s.runSource k source = o ∧ s'.runSource k source = o' := by
  obtain ⟨N, hN⟩ := runSource_eventually h ho
  obtain ⟨N', hN'⟩ := runSource_eventually h' ho'
  exact ⟨max N N', hN _ (Nat.le_max_left ..), hN' _ (Nat.le_max_right ..)⟩

theorem Standing.load_loopless (h : s.Standing fun _ _ => True)
    (hl : s.load source = .done first loaded) (hloop : ∀ n < s.tree.size, s.tree.tag n ≠ .loop)
    (hsource : ∀ tokens, Token.scan source = .ok tokens →
      ∀ t ∈ tokens, t.kind = .keyword → t.text ≠ Keyword.loop.text) :
    ∀ n, loaded.tree.tag n ≠ .loop := by
  have hloads := h.loads source fun _ _ _ => trivial
  rw [hl] at hloads
  cases hloads with
  | @read _ tree hscan hgrow hgrows hstanding =>
    intro n
    -- every node is an old one or comes from a token of the source
    by_cases hn : n < tree.size
    · refine hgrows.of_traced (Q := fun tag _ => tag ≠ .loop) (Tree.grow_traced hgrow) hloop ?_ n hn
      rintro tag text horigin rfl
      obtain ⟨t, ht, hkind, htext⟩ := horigin.of_loop
      exact hsource _ hscan t ht hkind htext
    · rw [Tree.tag_of_le (Nat.le_of_not_lt hn)]
      exact Tag.noConfusion

/-- Without loops, statements that hang on the root come to an end. -/
theorem execute_ends (hloop : ∀ n, s.tree.tag n ≠ .loop) (first : Nat) :
    ∃ fuel, execute s.program fuel Tree.root first s.state ≠ .outOfFuel := by
  have hloop : ∀ n, s.program.tree.tag n ≠ .loop := hloop
  have hsettling := settling hloop s.settings.maxNesting
  refine ⟨s.settings.maxNesting * (2 * s.program.tree.width + 3) + 1, fun hout => ?_⟩
  obtain ⟨t, ht, -⟩ := hsettling.execute _ Tree.root first (Nat.le_refl _) s.state
    (Nat.le_add_left ..)
  rw [hout] at ht
  cases ht

/-- In a session without loops every text without the keyword of one terminates. -/
theorem loopless_terminates (h : s.Reachable) (settings : Settings)
    (hloop : ∀ n < s.tree.size, s.tree.tag n ≠ .loop)
    (hsource : ∀ tokens, Token.scan source = .ok tokens →
      ∀ t ∈ tokens, t.kind = .keyword → t.text ≠ Keyword.loop.text) :
    ∃ N o, (∀ fuel, N ≤ fuel → (s.limited settings).runSource fuel source = o) ∧
      ((∃ t, o = .done () t) ∨
        (∃ f t, o = .failed f t ∧ (s.limited settings).load source = .failed f t) ∨
        ∃ f t, o = .failed f t ∧ f.kind = .stack) := by
  have hstanding := h.standing.limited settings
  cases hl : (s.limited settings).load source with
  | outOfFuel =>
    have hloads := hstanding.loads source fun _ _ _ => trivial
    rw [hl] at hloads
    cases hloads
  | failed f t =>
    exact ⟨0, .failed f t, fun fuel _ => runSource_of_load hl fuel, Or.inr (Or.inl ⟨f, t, rfl, rfl⟩)⟩
  | done first loaded =>
    obtain ⟨fuel, hfuel⟩ := execute_ends (hstanding.load_loopless hl hloop hsource) first
    cases hx : execute loaded.program fuel Tree.root first loaded.state with
    | outOfFuel => exact absurd hx hfuel
    | done r state =>
      have hrun : (s.limited settings).runSource fuel source = .done () { loaded with state } := by
        rw [runSource_loaded hl, hx]
      obtain ⟨N, hN⟩ := runSource_eventually hrun (by simp)
      exact ⟨N, _, hN, Or.inl ⟨_, rfl⟩⟩
    | failed f state =>
      have hrun : (s.limited settings).runSource fuel source = .failed f { loaded with state } := by
        rw [runSource_loaded hl, hx]
      obtain ⟨N, hN⟩ := runSource_eventually hrun (by simp)
      have hloads := hstanding.loads source fun _ _ _ => trivial
      rw [hl] at hloads
      have hkind := (hloads.done.execute_atLimit hx).1
      exact ⟨N, _, hN, Or.inr (Or.inr ⟨f, _, rfl, hkind⟩)⟩

/-- A function that calls itself without end is stopped. -/
theorem runaway_call_terminates : ∃ N o, (∀ fuel, N ≤ fuel →
      ((Session.start ⟨"", 0⟩ {} []).limited {}).runSource fuel "fn f() \x7bf()\x7d f()" = o) ∧
      ((∃ t, o = .done () t) ∨
        (∃ f t, o = .failed f t ∧
          ((Session.start ⟨"", 0⟩ {} []).limited {}).load "fn f() \x7bf()\x7d f()" = .failed f t) ∨
        ∃ f t, o = .failed f t ∧ f.kind = .stack) := by
  have hscan : ∃ tokens, Token.scan "fn f() \x7bf()\x7d f()" = .ok tokens ∧
      ∀ t ∈ tokens, t.text ≠ Keyword.loop.text := ⟨_, by cbv, by decide⟩
  obtain ⟨tokens, hscan, htokens⟩ := hscan
  refine loopless_terminates (.start ⟨"", 0⟩ {} []) {} (by decide) ?_
  intro tokens' hscan' t ht _
  cases Except.ok.inj (hscan.symm.trans hscan')
  exact htokens t ht

end Arbor.Session
