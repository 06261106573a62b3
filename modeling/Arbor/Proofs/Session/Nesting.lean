import Arbor.Proofs.Run.Flat
import Arbor.Proofs.Session.Slots
import Mathlib

/-!
# The nesting limit on expressions

An expression without calls takes exactly as many levels as it is high. So it is known beforehand
whether it can be evaluated, and at which of its nodes the limit is met if it cannot.
-/
namespace Arbor.Session

variable {s s' : Session} {source : String} {n : NodeId} {state : State}

theorem load_paired (hs : s.Reachable) (h : s.tree.Paired)
    (hl : (s.load source).state? = some s') : s'.tree.Paired := by
  have hshaped : Tree.Growth.Shaped (fun _ _ => True) ⟨s.tree, Tree.root⟩ :=
    ⟨⟨⟨[], hs.grove_nil⟩, .refl⟩, hs.standing.formed, hs.standing.scope⟩
  rcases load_cases hs.grove_nil source with ⟨f, hfailed⟩ | ⟨tokens, tree, -, hgrow, hdone⟩
  · rw [hfailed] at hl
    cases hl
    exact h
  · rw [hdone] at hl
    cases hl
    exact Tree.Growth.grow_paired hshaped h hgrow

theorem Reachable.paired (h : s.Reachable) : s.tree.Paired := by
  induction h with
  | start => exact Tree.planted_paired
  | load source hs hl ih => exact load_paired hs ih hl
  | run fuel source hs hr ih =>
    rcases runSource_cases hr with ⟨f, hl, -⟩ | ⟨first, loaded, hl, state, rfl, -⟩
    · exact load_paired hs ih (congrArg Outcome.state? hl)
    · have hpaired : loaded.tree.Paired := load_paired hs ih (congrArg Outcome.state? hl)
      exact hpaired

/-- An expression without calls is evaluated exactly if as many levels are free as it is high, and
nothing else is changed. Otherwise the limit is met at the first node, in the order in which a node
comes before its children, that stands as many levels below it as are free; the fault shows that
node, and nothing is changed either. -/
theorem expression_levels (hs : s.Reachable) (hn : (s.tree.tag n).isExpression = true)
    (hcalls : ∀ m, s.tree.Under n m → s.tree.tag m ≠ .call) :
    (∀ fuel, 2 * s.tree.height n ≤ fuel →
      ((∃ e state', evaluate s.program fuel (some n) state = .done e state') ↔
        state.nesting + s.tree.height n ≤ s.settings.maxNesting)) ∧
    (state.nesting + s.tree.height n ≤ s.settings.maxNesting → ∃ e, ∀ fuel,
      2 * s.tree.height n ≤ fuel → evaluate s.program fuel (some n) state = .done e state) ∧
    (s.settings.maxNesting < state.nesting + s.tree.height n → ∃ m f,
      s.tree.firstBelow (s.settings.maxNesting - state.nesting) n = some m ∧
      f.kind = .stack ∧ f.start = s.tree.position m ∧ f.text = s.tree.text m ∧
      ∀ fuel, 2 * s.tree.height n ≤ fuel →
        evaluate s.program fuel (some n) state = .failed f state) := by
  have ht : s.program.tree.Resting := hs.resting
  have hp : s.program.tree.Paired := hs.paired
  have hflat : s.program.tree.Flat n := ⟨hn, hcalls⟩
  have hdone : state.nesting + s.tree.height n ≤ s.settings.maxNesting → ∃ e, ∀ fuel,
      2 * s.tree.height n ≤ fuel → evaluate s.program fuel (some n) state = .done e state := by
    intro hroom
    obtain ⟨e, he⟩ := hflat.evaluate_done ht hp state.memory
    exact ⟨e, fun fuel hfuel => he state fuel (.refl _ _ _) hroom hfuel⟩
  have hstops : s.settings.maxNesting < state.nesting + s.tree.height n → ∃ m,
      s.tree.firstBelow (s.settings.maxNesting - state.nesting) n = some m ∧ s.tree.Flat m ∧
      ∀ fuel, 2 * s.tree.height n ≤ fuel → evaluate s.program fuel (some n) state =
        .failed (Run.nestingFault s.program m) state :=
    fun hroom => hflat.evaluate_stops ht hp hroom
  refine ⟨fun fuel hfuel => ⟨?_, fun hroom => ?_⟩, hdone, fun hroom => ?_⟩
  · rintro ⟨e, state', he⟩
    by_contra hroom
    obtain ⟨m, -, -, hm⟩ := hstops (Nat.lt_of_not_le hroom)
    rw [hm fuel hfuel] at he
    cases he
  · obtain ⟨e, he⟩ := hdone hroom
    exact ⟨e, state, he fuel hfuel⟩
  · obtain ⟨m, hfirst, hm, hfails⟩ := hstops hroom
    have htag : (s.program.tree.tag m).isExpression = true := hm.tag
    have htext : Run.nestingFault s.program m = .nestsTooDeep (s.tree.text m) (s.tree.position m)
        s.settings.maxNesting := by
      unfold Run.nestingFault
      rw [if_neg]
      · rfl
      · intro hbody
        rw [hbody] at htag
        cases htag
    refine ⟨m, _, hfirst, ?_, ?_, ?_, hfails⟩ <;> rw [htext] <;> rfl

/-- A sum of three texts is three levels high. Where two are free, the first text is one too many. -/
theorem sum_of_three_too_high : ∃ (s : Session) (f : Fault), s.Reachable ∧
    s.settings.maxNesting = 2 ∧ s.state.nesting = 0 ∧ s.tree.tag 6 = .operator ∧
    s.tree.height 6 = 3 ∧ s.tree.firstBelow 2 6 = some 2 ∧ s.tree.text 2 = "a" ∧
    f.kind = .stack ∧ f.start = 7 ∧ f.text = "a" ∧
    evaluate s.program 6 (some 6) s.state = .failed f s.state := by
  have hload : ∃ s, (Session.start ⟨"", 0⟩ { maxNesting := 2 } []).load
      "print \"a\" + \"b\" + \"c\"" = .done 0 s ∧ s.settings.maxNesting = 2 ∧
      s.state.nesting = 0 ∧ s.tree.tag 6 = .operator ∧ s.tree.height 6 = 3 ∧
      s.tree.firstBelow 2 6 = some 2 ∧ s.tree.text 2 = "a" ∧ s.tree.position 2 = 7 ∧
      ((List.range s.tree.size).all fun n => s.tree.tag n != .call) = true :=
    ⟨_, by cbv, by cbv, by cbv, by cbv, by cbv, by cbv, by cbv, by cbv, by cbv⟩
  obtain ⟨s, hl, hmax, hnesting, htag, hheight, hfirst, htext, hposition, hall⟩ := hload
  have hs : s.Reachable := .load _ (.start ..) (congrArg Outcome.state? hl)
  have hcalls : ∀ m, s.tree.Under 6 m → s.tree.tag m ≠ .call := by
    intro m _ hcall
    have hlt : m < s.tree.size := Tree.lt_of_tag (by rw [hcall]; decide)
    have hm := List.all_eq_true.mp hall m (List.mem_range.mpr hlt)
    rw [hcall] at hm
    cases hm
  obtain ⟨-, -, hfails⟩ := expression_levels hs (by rw [htag]; rfl) hcalls
  obtain ⟨m, f, hm, hkind, hstart, hshown, hf⟩ :=
    hfails (show s.settings.maxNesting < s.state.nesting + s.tree.height 6 by omega)
  rw [hmax, hnesting, hfirst] at hm
  obtain rfl : 2 = m := Option.some.inj hm
  exact ⟨s, f, hs, hmax, hnesting, htag, hheight, hfirst, htext, hkind, hstart.trans hposition,
    hshown.trans htext, hf 6 (by omega)⟩

end Arbor.Session
