import Arbor.Proofs.Return.Input
import Arbor.Proofs.Session.Counters
import Arbor.Proofs.Session.Slots
import Arbor.Proofs.Session.Termination
import Mathlib

/-!
# Input line by line

A text that ends has taken as many lines from the front as it has executed `ask`s, whether it ends
well or not. The lines that are left do not count: with other lines, of which it reads the same, a
text does the same.
-/
namespace Arbor.Session

open Machine (Config counters Reaches advance asks)

def supplied (s : Session) (lines : List String) : Session :=
  { s with state := s.state.supplied lines }

def entry (loaded : Session) (first : Nat) : Config :=
  .running (.execute Tree.root first [] .run) loaded.state

/-- Running `source` executes the `ask`s in the list, in order, and ends. Each comes with the state
that it is executed in. -/
inductive Asks (s : Session) (source : String) : List (NodeId × State) → Prop where
  | refused {f : Fault} {t : Session} : s.load source = .failed f t → Asks s source []
  | ran {first n : Nat} {loaded : Session} : s.load source = .done first loaded →
      (∀ control state, (advance loaded.program (counters loaded.state))^[n] (loaded.entry first) ≠
        .running control state) →
      Asks s source (asks loaded.program (counters loaded.state) n (loaded.entry first))

variable {s t loaded : Session} {source : String} {fuel first n : Nat} {lines : List String}
  {asked asked' : List (NodeId × State)} {o : Outcome Session Unit}

theorem load_supplied (s : Session) (source : String) (lines : List String) :
    (s.supplied lines).load source = (s.load source).update (·.supplied lines) := by
  rw [load_of_tree (show (s.supplied lines).tree = s.tree from rfl)]
  obtain ⟨tree, ⟨f, hl, -⟩ | ⟨first, hl⟩⟩ := load_tree s source
  · rw [hl]
    rfl
  · rw [hl]
    rfl

theorem asks_of_halted {p : Program} {ground : Machine.Counters} {c : Config} {n m : Nat}
    (hn : ∀ control state, (advance p ground)^[n] c ≠ .running control state)
    (hm : ∀ control state, (advance p ground)^[m] c ≠ .running control state) :
    asks p ground n c = asks p ground m c := by
  have hlonger : ∀ {n m}, (∀ control state, (advance p ground)^[n] c ≠ .running control state) →
      n ≤ m → asks p ground m c = asks p ground n c := by
    intro n m hn hle
    obtain ⟨d, rfl⟩ := Nat.exists_eq_add_of_le hle
    rw [Machine.asks_add, Machine.asks_halted hn, List.append_nil]
  rcases Nat.le_total n m with hle | hle
  · exact (hlonger hn hle).symm
  · exact hlonger hm hle

theorem Asks.unique (h : s.Asks source asked) (h' : s.Asks source asked') : asked = asked' := by
  cases h with
  | refused hl =>
    cases h' with
    | refused => rfl
    | ran hl' =>
      rw [hl] at hl'
      cases hl'
  | ran hl hn =>
    cases h' with
    | refused hl' =>
      rw [hl] at hl'
      cases hl'
    | ran hl' hm =>
      rw [hl] at hl'
      cases hl'
      exact asks_of_halted hn hm

inductive EndsAs (s : Session) : Config → Outcome Session Unit → Prop where
  | returned (r : Option Value) (state : State) :
      EndsAs s (.returned r state) (.done () { s with state })
  | faulted (f : Fault) (state : State) : EndsAs s (.faulted f state) (.failed f { s with state })

theorem EndsAs.supplied {c : Config} (h : s.EndsAs c o) (lines rest : List String) :
    (s.supplied lines).EndsAs (c.supplied rest) (o.update (·.supplied rest)) := by
  cases h with
  | returned r state => exact .returned r _
  | faulted f state => exact .faulted f _

theorem EndsAs.state {c : Config} (h : s.EndsAs c o) (hs : o.state? = some t) :
    t.state = c.state := by
  cases h with
  | returned | faulted =>
    cases hs
    rfl

theorem exists_ends (hl : s.load source = .done first loaded) (h : s.runSource fuel source = o)
    (ho : o ≠ .outOfFuel) : ∃ n, loaded.EndsAs
      ((advance loaded.program (counters loaded.state))^[n] (loaded.entry first)) o := by
  rw [runSource_loaded hl] at h
  cases hx : execute loaded.program fuel Tree.root first loaded.state with
  | outOfFuel =>
    rw [hx] at h
    exact absurd h.symm ho
  | done r state =>
    rw [hx] at h
    obtain ⟨n, hn⟩ := Machine.halts_of_done hx
    subst h
    refine ⟨n, ?_⟩
    rw [entry, hn]
    exact .returned r state
  | failed f state =>
    rw [hx] at h
    obtain ⟨n, hn⟩ := Machine.halts_of_failed hx
    subst h
    refine ⟨n, ?_⟩
    rw [entry, hn]
    exact .faulted f state

theorem EndsAs.runSource (hl : s.load source = .done first loaded)
    (h : loaded.EndsAs ((advance loaded.program (counters loaded.state))^[n] (loaded.entry first)) o) :
    ∃ N, ∀ k, N ≤ k → s.runSource k source = o := by
  generalize hc : (advance loaded.program (counters loaded.state))^[n] (loaded.entry first) = c at h
  cases h with
  | returned r state =>
    obtain ⟨fuel, hx⟩ := Machine.done_of_halts ⟨n, hc⟩
    have hrun := runSource_loaded hl fuel
    rw [hx] at hrun
    exact runSource_eventually hrun (by simp)
  | faulted f state =>
    obtain ⟨fuel, hx⟩ := Machine.failed_of_halts ⟨n, hc⟩
    have hrun := runSource_loaded hl fuel
    rw [hx] at hrun
    exact runSource_eventually hrun (by simp)

theorem EndsAs.halted {c : Config} (h : s.EndsAs c o) (control : Machine.Control) (state : State) :
    c ≠ .running control state := by
  cases h with
  | returned | faulted => exact Config.noConfusion

/-- A text that ends has taken one line for each `ask` that it has executed. With lines of which it
reads the same it ends the same, and leaves the others. -/
theorem runSource_asks (h : s.runSource fuel source = o) (ho : o ≠ .outOfFuel) :
    ∃ asked, s.Asks source asked ∧
      (∀ t, o.state? = some t → t.state.input = s.state.input.drop asked.length) ∧
      ∀ lines, (∀ i < asked.length, lines.getD i "" = s.state.input.getD i "") →
        ∃ N, ∀ k, N ≤ k → (s.supplied lines).runSource k source =
          o.update (·.supplied (lines.drop asked.length)) := by
  cases hl : s.load source with
  | outOfFuel =>
    obtain ⟨tree, ⟨f, hl', -⟩ | ⟨first, hl'⟩⟩ := load_tree s source <;>
    · rw [hl] at hl'
      cases hl'
  | failed f t =>
    obtain rfl : o = .failed f t := h.symm.trans (runSource_of_load hl fuel)
    refine ⟨[], .refused hl, ?_, ?_⟩
    · rintro t' ⟨⟩
      rw [(load_failed hl).1]
      rfl
    · intro lines _
      refine ⟨0, fun k _ => runSource_of_load ?_ k⟩
      rw [load_supplied, hl]
      rfl
  | done first loaded =>
    obtain ⟨n, hends⟩ := exists_ends hl h ho
    refine ⟨_, .ran hl hends.halted, ?_, ?_⟩
    · intro t ht
      rw [hends.state ht, Machine.iterate_input, entry, Config.state, (load_done hl).1]
    · intro lines hlines
      rw [← (load_done hl).1] at hlines
      have hload : (s.supplied lines).load source = .done first (loaded.supplied lines) := by
        rw [load_supplied, hl]
        rfl
      have hlines : ∀ i < (asks loaded.program (counters loaded.state) n (loaded.entry first)).length,
          lines.getD i "" = (loaded.entry first).state.input.getD i "" := hlines
      have hsame := (Machine.iterate_supplied hlines).1
      have hends' := hends.supplied lines
        (lines.drop (asks loaded.program (counters loaded.state) n (loaded.entry first)).length)
      rw [← hsame] at hends'
      exact EndsAs.runSource hload hends'

theorem Asks.getElem? {i : Nat} {node : NodeId} {state : State} (h : s.Asks source asked)
    (hi : asked[i]? = some (node, state)) : ∃ first loaded, s.load source = .done first loaded ∧
      loaded.tree.tag node = .input ∧ state.input = s.state.input.drop i ∧
      ∃ inside b, loaded.Comes first (.statement node inside b) state := by
  cases h with
  | refused => cases hi
  | @ran first n loaded hl hn =>
    obtain ⟨htag, hinput, hreaches⟩ := Machine.asks_getElem? hi
    refine ⟨first, loaded, hl, htag, ?_, hreaches⟩
    rw [hinput, entry, Config.state, (load_done hl).1]

/-- A text that ends executes some number of `ask`s. The `i`th of them stores the `i`th line, or the
empty text where there is none, and behind it that is what the name stands for. As many lines are gone
in the end, also where the text fails. With any lines that begin with the same reads the text ends the
same: with others behind those that were read, or with empty ones behind the last. -/
theorem input_line_by_line (h : s.runSource fuel source = o) (ho : o ≠ .outOfFuel) :
    ∃ asked, (∀ asked', s.Asks source asked' ↔ asked' = asked) ∧
      (∀ t, o.state? = some t → t.state.input = s.state.input.drop asked.length) ∧
      (∀ i node state, asked[i]? = some (node, state) →
        ∃ first loaded inside b next, s.load source = .done first loaded ∧
          loaded.tree.tag node = .input ∧ loaded.Comes first (.statement node inside b) state ∧
          next = state.memory.store loaded.tree (loaded.tree.text node)
            (.text (s.state.input.getD i "")) none ((loaded.tree.parent node).getD node) ∧
          loaded.Comes first (.ended inside b)
            { state with memory := next, input := s.state.input.drop (i + 1) } ∧
          ∃ found, next.resolve loaded.tree (loaded.tree.text node)
              ((loaded.tree.parent node).getD node) = some found ∧
            found.value = .text (s.state.input.getD i "") ∧ found.params = none) ∧
      (∀ lines, (∀ i < asked.length, lines.getD i "" = s.state.input.getD i "") →
        ∃ N, ∀ k, N ≤ k → (s.supplied lines).runSource k source =
          o.update (·.supplied (lines.drop asked.length))) ∧
      (∀ more, asked.length ≤ s.state.input.length →
        ∃ N, ∀ k, N ≤ k →
          (s.supplied (s.state.input.take asked.length ++ more)).runSource k source =
            o.update (·.supplied more)) ∧
      ∀ empty, ∃ N, ∀ k, N ≤ k →
        (s.supplied (s.state.input ++ List.replicate empty "")).runSource k source =
          o.update (·.supplied ((s.state.input ++ List.replicate empty "").drop asked.length)) := by
  obtain ⟨asked, hasked, hinput, hsame⟩ := runSource_asks h ho
  refine ⟨asked, ?_, hinput, ?_, hsame, ?_, ?_⟩
  · intro asked'
    exact ⟨fun h' => h'.unique hasked, fun heq => heq ▸ hasked⟩
  · intro i node state hi
    obtain ⟨first, loaded, hl, htag, hlines, inside, b, hcomes⟩ := hasked.getElem? hi
    have hnode : node < loaded.tree.size := Tree.lt_of_tag (by rw [htag]; decide)
    have hself := Tree.encloses_self (Nat.zero_lt_of_lt hnode)
      ((loaded.tree.parent node).getD node)
    refine ⟨first, loaded, inside, b, _, hl, htag, hcomes, rfl, hcomes.trans (Reaches.step ?_), _,
      Memory.resolve_store_self hself _ none, rfl, rfl⟩
    rw [Machine.step_ask htag, hlines, List.tail_drop, List.headD_eq_head?_getD, List.head?_drop,
      ← List.getD_eq_getElem?_getD]
    exact .refl _
  · intro more hle
    have hlength : (s.state.input.take asked.length).length = asked.length :=
      List.length_take_of_le hle
    obtain ⟨N, hN⟩ := hsame (s.state.input.take asked.length ++ more) (by
      intro i hi
      rw [List.getD_append _ _ _ _ (by omega), List.getD_eq_getElem?_getD,
        List.getElem?_take_of_lt hi, ← List.getD_eq_getElem?_getD])
    refine ⟨N, fun k hk => ?_⟩
    rw [hN k hk, List.drop_left' hlength]
  · intro empty
    refine hsame _ fun i _ => ?_
    rcases Nat.lt_or_ge i s.state.input.length with hlt | hge
    · exact List.getD_append _ _ _ _ hlt
    · rw [List.getD_append_right _ _ _ _ hge, List.getD_eq_default _ _ hge]
      rw [List.getD_eq_getElem?_getD, List.getElem?_replicate]
      split <;> rfl

/-- The text stops behind its only `ask`. Without the line that it leaves it stops as well. -/
theorem ask_then_stopped : ∃ f t N,
    (Session.start ⟨"", 0⟩ { maxNesting := 2 } ["x", "y"]).runSource 20
      "ask a print \"b\" + \"c\"" = .failed f t ∧ t.state.input = ["y"] ∧
    ∀ k, N ≤ k →
      ((Session.start ⟨"", 0⟩ { maxNesting := 2 } ["x", "y"]).supplied ["x"]).runSource k
        "ask a print \"b\" + \"c\"" = .failed f (t.supplied []) := by
  have hrun : ∃ f t, (Session.start ⟨"", 0⟩ { maxNesting := 2 } ["x", "y"]).runSource 20
      "ask a print \"b\" + \"c\"" = .failed f t ∧ t.state.input = ["y"] :=
    ⟨_, _, by cbv, by cbv⟩
  obtain ⟨f, t, ht, hinput⟩ := hrun
  obtain ⟨asked, -, hleft, -, -, hmore, -⟩ := input_line_by_line ht (by simp)
  have hone : asked.length = 1 := by
    have hdrop := congrArg List.length (hleft t rfl)
    rw [hinput, List.length_drop] at hdrop
    simp only [Session.start, List.length_cons, List.length_nil] at hdrop
    omega
  rw [hone] at hmore
  obtain ⟨N, hN⟩ := hmore [] (by decide)
  exact ⟨f, t, N, ht, hinput, hN⟩

end Arbor.Session
