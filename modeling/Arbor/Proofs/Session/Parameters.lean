import Arbor.Proofs.Run.Parameters
import Arbor.Proofs.Session.Nesting
import Arbor.Proofs.Session.Removal
import Mathlib

/-!
# Parameters in sessions

The parameters of a function are cells of its body, or of a body around it that has them already. An
argument that reads such a name sees what the arguments before it have left there.
-/
namespace Arbor.Session

open Machine (counters Control)

variable {s loaded : Session} {source : String} {first : Nat} {control : Control} {state : State}
  {access body : NodeId} {names : List String} {passed : List NodeId}

/-- A call whose arguments call nothing binds its parameters and runs the body if as many levels are
free as each argument is high, and all but memory is then as it was before the call; otherwise the limit
is met in an argument. What is passed beyond the parameters makes no difference: with any other
arguments behind the first ones, the binding and so the call are the same. -/
theorem parameters_bound (hs : s.Reachable) (hl : s.load source = .done first loaded)
    (hcomes : loaded.Comes first control state)
    (hcall : loaded.program.Calls state access names passed body) (hnames : names.Nodup)
    (hcalls : ∀ a ∈ passed, ∀ m, loaded.tree.Under a m → loaded.tree.tag m ≠ .call) :
    ((∀ a ∈ passed, state.nesting + loaded.tree.height a ≤ loaded.settings.maxNesting) →
      ∃ given next, loaded.program.Binds state names passed body given next ∧
        ∃ N, ∀ fuel, N ≤ fuel →
          runCall loaded.program (fuel + 1) (loaded.tree.text access)
            (loaded.tree.child? access 0) access state =
          runBody loaded.program fuel body { state with memory := next }) ∧
    ((∃ a ∈ passed, loaded.settings.maxNesting < state.nesting + loaded.tree.height a) →
      ∃ a ∈ passed, ∃ m,
        loaded.tree.firstBelow (loaded.settings.maxNesting - state.nesting) a = some m ∧
        ∃ state' N, ∀ fuel, N ≤ fuel →
          runCall loaded.program (fuel + 1) (loaded.tree.text access)
            (loaded.tree.child? access 0) access state =
          .failed (Run.nestingFault loaded.program m) state') ∧
    (∀ list fuel, (argumentNodes loaded.program list).take names.length = passed →
      runCall loaded.program fuel (loaded.tree.text access) list access state =
      runCall loaded.program fuel (loaded.tree.text access) (loaded.tree.child? access 0) access
        state) ∧
    ∀ arguments fuel, arguments.take names.length = passed →
      runCall loaded.program (fuel + 1) (loaded.tree.text access) (loaded.tree.child? access 0)
        access state =
      (bindParams loaded.program fuel names arguments body >>= fun _ =>
        runBody loaded.program fuel body) state := by
  have hunderway : loaded.Underway (.running control state) := ⟨s, source, first, hs, hl, hcomes⟩
  have hreach := hunderway.reachable
  have ht : loaded.program.tree.Resting := hreach.resting
  have hp : loaded.program.tree.Paired := hreach.paired
  have hlayers : state.memory.Layered loaded.program.tree := hunderway.layered
  have hflat := hcall.flat ht hcalls
  refine ⟨fun hroom => ?_, fun hhigh => ?_, fun list fuel hlist => ?_, fun arguments fuel hsame => ?_⟩
  · obtain ⟨given, next, hbinds, N, hdone⟩ :=
      bindParams_binds ht hp hlayers hflat hroom hnames body
    refine ⟨given, next, hbinds, N, fun fuel hfuel => ?_⟩
    exact (hcall.runCall_eq hcall.passed fuel).trans (Run.bind_of_done _ (hdone fuel hfuel))
  · obtain ⟨a, ha, m, hm, state', N, hfails⟩ :=
      bindParams_failed ht hp hflat hcall.length_le body hhigh
    refine ⟨a, ha, m, hm, state', N, fun fuel hfuel => ?_⟩
    exact (hcall.runCall_eq hcall.passed fuel).trans (Run.bind_of_failed _ (hfails fuel hfuel))
  · cases fuel with
    | zero => rw [runCall, runCall]
    | succ fuel => exact (hcall.runCall_eq hlist fuel).trans (hcall.runCall_eq hcall.passed fuel).symm
  · rw [← bindParams_take, hsame]
    exact hcall.runCall_eq hcall.passed fuel

/-- The first parameter has the cell of `a`, so the second argument reads what the first has left there.
The third argument is a call, and is not looked at. -/
theorem argument_reads_parameter : ∃ (loaded : Session) (k : Machine.Await) (state : State)
    (next : Memory) (b : Binding),
    (Session.start ⟨"", 0⟩ {} []).load "a: \"u\" fn f(a, b) \x7b\x7d f(\"v\", a, f())" =
      .done 0 loaded ∧
    loaded.Comes 0 (.call "f" (some 9) 8 k) state ∧
    loaded.program.Calls state 8 ["a", "b"] [10, 11] 7 ∧ ["a", "b"].Nodup ∧
    evaluate loaded.program 2 (some 11) state = .done ⟨.text "u", none⟩ state ∧
    next.resolve loaded.tree "b" 7 = some b ∧ b.value = .text "v" ∧
    ∃ N, ∀ fuel, N ≤ fuel →
      runCall loaded.program (fuel + 1) (loaded.tree.text 8) (loaded.tree.child? 8 0) 8 state =
        runBody loaded.program fuel 7 { state with memory := next } := by
  have hrun : ∃ loaded k state c,
      (Session.start ⟨"", 0⟩ {} []).load "a: \"u\" fn f(a, b) \x7b\x7d f(\"v\", a, f())" =
        .done 0 loaded ∧
      (Machine.advance loaded.program (counters loaded.state))^[13] (loaded.entry 0) =
        .running (.call "f" (some 9) 8 k) state ∧
      loaded.tree.tag 8 = .call ∧
      state.memory.resolve loaded.tree (loaded.tree.text 8) 8 = some c ∧ c.value = .body 7 ∧
      paramNames loaded.program c.params = ["a", "b"] ∧
      (argumentNodes loaded.program (loaded.tree.child? 8 0)).take 2 = [10, 11] ∧
      state.depth < loaded.settings.maxDepth ∧
      ([10, 11].all fun a => state.nesting + loaded.tree.height a ≤ loaded.settings.maxNesting) ∧
      ([10, 11].all fun a => 2 * loaded.tree.height a ≤ 2) ∧
      ([10, 11].all fun a => (List.range loaded.tree.size).all fun m =>
        !loaded.tree.encloses (some a) m || loaded.tree.tag m != .call) ∧
      evaluate loaded.program 2 (some 10) state = .done ⟨.text "v", none⟩ state ∧
      evaluate loaded.program 2 (some 11) state = .done ⟨.text "u", none⟩ state ∧
      evaluate loaded.program 2 (some 11) { state with
        memory := state.memory.store loaded.tree "a" (.text "v") none 7 } =
          .done ⟨.text "v", none⟩ { state with
            memory := state.memory.store loaded.tree "a" (.text "v") none 7 } :=
    ⟨_, _, _, _, by cbv, by cbv, by cbv, by cbv, by cbv, by cbv, by cbv, by cbv, by cbv, by cbv,
      by cbv, by cbv, by cbv, by cbv⟩
  obtain ⟨loaded, k, state, c, hl, hn, htag, hc, hbody, hnames, hpassed, hdepth, hlevels, hheights,
    hclear, hfirst, hbefore, hsecond⟩ := hrun
  have hreach : loaded.Reachable := .load _ (.start ..) (congrArg Outcome.state? hl)
  have hcall : loaded.program.Calls state 8 ["a", "b"] [10, 11] 7 :=
    ⟨htag, ⟨c, hc, hbody, hnames⟩, hpassed, hdepth⟩
  have hcalls : ∀ a ∈ [10, 11], ∀ m, loaded.tree.Under a m → loaded.tree.tag m ≠ .call := by
    intro a ha m hm hcalled
    have hlt : m < loaded.tree.size := Tree.lt_of_tag (by rw [hcalled]; decide)
    have hnone := List.all_eq_true.mp (List.all_eq_true.mp hclear a ha) m (List.mem_range.mpr hlt)
    rw [hreach.grove_nil.nests.encloses_iff.mpr hm, hcalled] at hnone
    cases hnone
  obtain ⟨hdone, -⟩ := parameters_bound (.start ..) hl ⟨13, hn⟩ hcall (by decide) hcalls
  obtain ⟨given, next, hbinds, hruns⟩ :=
    hdone fun a ha => of_decide_eq_true (List.all_eq_true.mp hlevels a ha)
  obtain ⟨e₁, e₂, rfl⟩ := List.length_eq_two.mp hbinds.length
  have hgiven₁ := hbinds.gives 0 e₁ rfl 2
    (of_decide_eq_true (List.all_eq_true.mp hheights 10 List.mem_cons_self))
  cases hfirst.symm.trans hgiven₁
  have hgiven₂ := hbinds.gives 1 e₂ rfl 2
    (of_decide_eq_true (List.all_eq_true.mp hheights 11 (by decide)))
  cases hsecond.symm.trans hgiven₂
  obtain ⟨b, hb, hvalue, -⟩ := hbinds.resolved "b" _ (List.mem_cons_of_mem _ List.mem_cons_self)
  exact ⟨loaded, k, state, next, b, hl, ⟨13, hn⟩, hcall, by decide, hbefore, hb, hvalue, hruns⟩

end Arbor.Session
