import Arbor.Proofs.Return.Writes
import Arbor.Proofs.Session.Input
import Mathlib

/-!
# Removal in sessions

A `rem` takes away the binding that is found where it stands, and that one only. Another one of the
name, made further in by an earlier run of the same body, may be found behind it. Where none is, the
name is undefined until it is stored again, in this text or in a later one.
-/
namespace Arbor.Session

open Machine (Config Control counters Reaches)

variable {s loaded loaded' : Session} {source name : String} {first n : Nat} {c d : Config}
  {state : State} {control : Control} {q g : NodeId}

/-- A session has loaded a text as `loaded` and runs it, and its machine stands in `c`. -/
def Underway (loaded : Session) (c : Config) : Prop :=
  ∃ s source first, Reachable s ∧ s.load source = .done first loaded ∧
    Reaches loaded.program (counters loaded.state) (loaded.entry first) c

/-- From `c`, in the text that was loaded as `loaded`, the session has come to another place, in this
text or in a later one, and has not stored `name`. -/
inductive Since (name : String) (loaded : Session) (c : Config) : Session → Config → Prop where
  | now : Since name loaded c loaded c
  | step {later : Session} {control : Control} {state : State} :
      Since name loaded c later (.running control state) →
      ¬control.Stores later.program state name →
      Since name loaded c later
        (Machine.step later.program (counters later.state) control state)
  | text {later next : Session} {d : Config} {source : String} {first : Nat} :
      Since name loaded c later d → (∀ control state, d ≠ .running control state) →
      ({ later with state := d.state } : Session).load source = .done first next →
      Since name loaded c next (next.entry first)

namespace Underway

theorem reachable (h : loaded.Underway c) : loaded.Reachable := by
  obtain ⟨s, source, first, hs, hl, -⟩ := h
  exact (hs.load_done hl).1

theorem trans (h : loaded.Underway c)
    (hd : Reaches loaded.program (counters loaded.state) c d) : loaded.Underway d := by
  obtain ⟨s, source, first, hs, hl, hc⟩ := h
  exact ⟨s, source, first, hs, hl, hc.trans hd⟩

theorem sited (h : loaded.Underway c) : c.Sited loaded.tree := by
  obtain ⟨s, source, first, hs, hl, hc⟩ := h
  have hreach := (hs.load_done hl).1
  exact (Reaches.written hreach.resting (hreach.sited first) hc).1

theorem layered (h : loaded.Underway c) : c.memory.Layered loaded.tree := by
  obtain ⟨s, source, first, hs, hl, hc⟩ := h
  have hlayers : (loaded.entry first).memory.Layered loaded.tree :=
    (hs.load_done hl).1.layered.layers
  exact Machine.Reaches.layered (p := loaded.program) hlayers hc

theorem ended (h : loaded.Underway c) (hc : ∀ control state, c ≠ .running control state) :
    Reachable { loaded with state := c.state } := by
  obtain ⟨s, source, first, hs, hl, n, hn⟩ := h
  cases c with
  | running control state => exact absurd rfl (hc control state)
  | returned r state =>
    have hends := EndsAs.returned (s := loaded) r state
    rw [← hn] at hends
    obtain ⟨N, hN⟩ := hends.runSource hl
    exact .run N source hs (congrArg Outcome.state? (hN N (Nat.le_refl N)))
  | faulted f state =>
    have hends := EndsAs.faulted (s := loaded) f state
    rw [← hn] at hends
    obtain ⟨N, hN⟩ := hends.runSource hl
    exact .run N source hs (congrArg Outcome.state? (hN N (Nat.le_refl N)))

end Underway

theorem memory_state (c : Config) : c.state.memory = c.memory := by
  cases c <;> rfl

/-- What is not found is not found later either, unless it is stored in between. -/
theorem Since.lookup_none {later : Session} (h : Since name loaded c later d)
    (hc : loaded.Underway c) (hq : q < loaded.tree.size)
    (hnone : c.memory.lookup loaded.tree name q = none) :
    later.Underway d ∧ q < later.tree.size ∧ d.memory.lookup later.tree name q = none := by
  induction h with
  | now => exact ⟨hc, hq, hnone⟩
  | step _ hstores ih =>
    obtain ⟨hd, hq, hnone⟩ := ih
    exact ⟨hd.trans ⟨1, rfl⟩, hq, Machine.lookup_step_none (p := Session.program _) hnone hstores⟩
  | @text later next d source first _ hhalted hl ih =>
    obtain ⟨hd, hq, hnone⟩ := ih
    have hreach := hd.ended hhalted
    obtain ⟨hnext, hstate⟩ := hreach.load_done hl
    obtain ⟨tree, rfl, hgrows, -⟩ := load_grows hreach.grove_nil (congrArg Outcome.state? hl)
    refine ⟨⟨_, source, first, hreach, hl, .refl _⟩, Nat.lt_of_lt_of_le hq hgrows.size_le, ?_⟩
    have hmemory : (Session.entry { later with tree, state := d.state } first).memory = d.memory :=
      memory_state d
    rw [hmemory, Memory.lookup_growsTo hgrows hreach.grove_nil hnext.grove_nil hq]
    exact hnone

theorem Underway.get_undefined (h : loaded.Underway c)
    (hnone : c.memory.lookup loaded.tree name q = none) (hg : loaded.tree.Holds q g)
    (htag : loaded.tree.tag g = .get) (htext : loaded.tree.text g = name) (fuel : Nat) :
    evaluateNode loaded.program (fuel + 1) g c.state = .done ⟨.undefined, none⟩ c.state := by
  have hlookup : c.state.memory.lookup loaded.tree name g = none := by
    rw [memory_state, Memory.lookup_held h.reachable.grove_nil.nests hg, hnone]
    intro i b hb a ha
    exact (h.sited.memory.anchor i b hb a ha).scope
  have hresolve : c.state.memory.resolve loaded.program.tree (loaded.program.tree.text g) g = none :=
    Memory.resolve_eq_none (htext ▸ hlookup)
  have htag : loaded.program.tree.tag g = .get := htag
  simp only [evaluateNode, htag, bind, Run.memory, hresolve]
  rfl

/-- A `rem` empties the slot that is found in its body, and no other. Nothing is found behind it
exactly if no other slot of the name was visible; then a read in that body gives undefined, now and
later, until the name is stored. Otherwise the outermost of the bindings that are left is found, which
stands inside of the one that was removed. -/
theorem removal_uncovers {inside : List Machine.Pending} {b : Machine.Boundary} (hs : s.Reachable)
    (hl : s.load source = .done first loaded)
    (hcomes : loaded.Comes first (.statement n inside b) state)
    (htag : loaded.tree.tag n = .remove) :
    ∃ q next, loaded.tree.parent n = some q ∧ (loaded.tree.tag q).isScope = true ∧
      loaded.Comes first (.ended inside b) { state with memory := next } ∧
      (∀ i, next.get? i = if state.memory.lookup loaded.tree (loaded.tree.text n) q = some i then none
        else state.memory.get? i) ∧
      (next.resolve loaded.tree (loaded.tree.text n) q = none ↔
        ∀ i, state.memory.sees loaded.tree (loaded.tree.text n) q i = true →
          state.memory.lookup loaded.tree (loaded.tree.text n) q = some i) ∧
      (∀ c, next.resolve loaded.tree (loaded.tree.text n) q = some c →
        ∃ r, state.memory.resolve loaded.tree (loaded.tree.text n) q = some r ∧
          loaded.tree.covers r.anchor c.anchor = true ∧ c.anchor ≠ r.anchor ∧
          ∀ c', next.Visible loaded.tree (loaded.tree.text n) q c' →
            loaded.tree.covers c.anchor c'.anchor = true) ∧
      (next.resolve loaded.tree (loaded.tree.text n) q = none →
        ∀ later d, Since (loaded.tree.text n) loaded
            (.running (.ended inside b) { state with memory := next }) later d →
          d.memory.resolve later.tree (loaded.tree.text n) q = none ∧
          ∀ g, later.tree.Holds q g → later.tree.tag g = .get →
            later.tree.text g = loaded.tree.text n → ∀ fuel,
              evaluateNode later.program (fuel + 1) g d.state =
                .done ⟨.undefined, none⟩ d.state) := by
  have hunderway : loaded.Underway (.running (.statement n inside b) state) :=
    ⟨s, source, first, hs, hl, hcomes⟩
  have hreach := hunderway.reachable
  have hexecutable : loaded.tree.Executable n := (hunderway.sited.running _ _ rfl).1
  obtain ⟨q, hq, hanchors⟩ := hexecutable.scope (by rw [htag]; rfl) (by rw [htag]; decide)
    (by rw [htag]; decide)
  have hstep : Machine.step loaded.program (counters loaded.state) (.statement n inside b) state =
      .running (.ended inside b) { state with
        memory := state.memory.remove loaded.tree (loaded.tree.text n) q } :=
    Machine.step_remove htag hq inside b state
  have hended : Reaches loaded.program (counters loaded.state)
      (.running (.statement n inside b) state) (.running (.ended inside b) { state with
        memory := state.memory.remove loaded.tree (loaded.tree.text n) q }) :=
    Reaches.step (hstep ▸ .refl _)
  refine ⟨q, _, hq, hanchors.scope, hcomes.trans hended, fun i => Memory.get?_remove_eq,
    Memory.resolve_remove_eq_none, fun c hc => hunderway.layered.resolve_remove
      hreach.grove_nil.nests hc, ?_⟩
  intro hnone later d hsince
  have hnone : (state.memory.remove loaded.tree (loaded.tree.text n) q).lookup loaded.tree
      (loaded.tree.text n) q = none := Memory.lookup_eq_none_of_resolve hnone
  obtain ⟨hd, -, hlater⟩ := hsince.lookup_none (hunderway.trans hended)
    (hanchors.under.lt hreach.grove_nil.size_pos) hnone
  exact ⟨Memory.resolve_eq_none hlater,
    fun g hg hget htext fuel => hd.get_undefined hlater hg hget htext fuel⟩

/-- A name that is stored and removed is undefined for the next text. -/
theorem stored_then_removed : ∃ (loaded : Session) (inside : List Machine.Pending)
    (b : Machine.Boundary) (state : State) (q : NodeId) (next : Memory),
    (Session.start ⟨"", 0⟩ {} []).load "x: \"a\" rem x" = .done 0 loaded ∧
    loaded.Comes 0 (.statement 3 inside b) state ∧ loaded.tree.tag 3 = .remove ∧
    loaded.tree.parent 3 = some q ∧
    loaded.Comes 0 (.ended inside b) { state with memory := next } ∧
    next.resolve loaded.tree (loaded.tree.text 3) q = none ∧
    ∀ later d, Since (loaded.tree.text 3) loaded
        (.running (.ended inside b) { state with memory := next }) later d →
      d.memory.resolve later.tree (loaded.tree.text 3) q = none := by
  have hrun : ∃ loaded inside b state,
      (Session.start ⟨"", 0⟩ {} []).load "x: \"a\" rem x" = .done 0 loaded ∧
      (Machine.advance loaded.program (counters loaded.state))^[9] (loaded.entry 0) =
        .running (.statement 3 inside b) state ∧
      loaded.tree.tag 3 = .remove ∧ loaded.tree.text 3 = "x" ∧ loaded.tree.parent 3 = some 0 ∧
      (state.memory.remove loaded.tree "x" 0).resolve loaded.tree "x" 0 = none :=
    ⟨_, _, _, _, by cbv, by cbv, by cbv, by cbv, by cbv, by cbv⟩
  obtain ⟨loaded, inside, b, state, hl, hn, htag, htext, hparent, hnone⟩ := hrun
  obtain ⟨q, next, hq, -, hcomes, hslots, hiff, -, hlater⟩ :=
    removal_uncovers (.start ..) hl ⟨9, hn⟩ htag
  obtain rfl : 0 = q := Option.some.inj (hparent.symm.trans hq)
  have hgone : next.resolve loaded.tree (loaded.tree.text 3) 0 = none := by
    rw [hiff, htext]
    exact Memory.resolve_remove_eq_none.mp hnone
  exact ⟨loaded, inside, b, state, 0, next, hl, ⟨9, hn⟩, htag, hq, hcomes, hgone,
    fun later d hd => (hlater hgone later d hd).1⟩

/-- The body of `f` has a binding of its own from the first call. In the second call the binding of
the root is found first and removed, and then the one from the first call is found. -/
theorem removal_uncovers_older : ∃ (s loaded : Session) (inside : List Machine.Pending)
    (b : Machine.Boundary) (state next : State),
    (Session.start ⟨"", 0⟩ {} []).runSource 30 "fn f() \x7brem x x: \"a\"\x7d f() x: \"b\"" =
      .done () s ∧ s.Reachable ∧ s.load "f()" = .done 3 loaded ∧
    loaded.Comes 3 (.statement 4 inside b) state ∧ loaded.tree.tag 4 = .remove ∧
    loaded.tree.text 4 = "x" ∧ loaded.tree.parent 4 = some 3 ∧
    Machine.step loaded.program (counters loaded.state) (.statement 4 inside b) state =
      .running (.ended inside b) next ∧
    next.memory.resolve loaded.tree "x" 3 = some ⟨"x", .text "a", none, some 3⟩ := by
  have hrun : ∃ s loaded inside b state next,
      (Session.start ⟨"", 0⟩ {} []).runSource 30 "fn f() \x7brem x x: \"a\"\x7d f() x: \"b\"" =
        .done () s ∧ s.load "f()" = .done 3 loaded ∧
      (Machine.advance loaded.program (counters loaded.state))^[8] (loaded.entry 3) =
        .running (.statement 4 inside b) state ∧
      loaded.tree.tag 4 = .remove ∧ loaded.tree.text 4 = "x" ∧ loaded.tree.parent 4 = some 3 ∧
      Machine.step loaded.program (counters loaded.state) (.statement 4 inside b) state =
        .running (.ended inside b) next ∧
      next.memory.resolve loaded.tree "x" 3 = some ⟨"x", .text "a", none, some 3⟩ :=
    ⟨_, _, _, _, _, _, by cbv, by cbv, by cbv, by cbv, by cbv, by cbv, by cbv, by cbv⟩
  obtain ⟨s, loaded, inside, b, state, next, hs, hl, hn, htag, htext, hparent, hstep, hfound⟩ := hrun
  have hreach : s.Reachable := .run 30 _ (.start ..) (congrArg Outcome.state? hs)
  exact ⟨s, loaded, inside, b, state, next, hs, hreach, hl, ⟨8, hn⟩, htag, htext, hparent, hstep,
    hfound⟩

end Arbor.Session
