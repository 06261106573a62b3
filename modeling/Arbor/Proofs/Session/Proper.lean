import Arbor.Proofs.Growth.Origin
import Arbor.Proofs.Number.Numeral
import Arbor.Proofs.Operator.Proper
import Arbor.Proofs.Return.Values
import Arbor.Proofs.Run.Flat
import Arbor.Proofs.Session.Slots

/-!
# Numbers in sessions

Neither not-a-number nor the zero below zero comes into a session: the texts of numbers are read as
proper ones, operators give proper ones, and every other value is handed on as it is. So whatever a
name is bound to equals itself.
-/
namespace Arbor

namespace Tree

variable {t u : Tree} {tokens : List Token} {source : String}

/-- Every number in the tree is spelled by its text, so that none is read as zero for want of a
number. -/
def Numerals (t : Tree) : Prop :=
  ∀ n, t.tag n = .numberLiteral →
    ∃ x, Number.read? (t.text n).toList = some x ∧ Number.Proper x

theorem planted_numerals : planted.Numerals := by
  intro n htag
  have hn : n < planted.size := lt_of_tag (by rw [htag]; decide)
  obtain rfl : n = root := Nat.lt_one_iff.mp hn
  cases htag

theorem Numerals.grow (h : t.Numerals) (hscan : Token.scan source = .ok tokens)
    (hgrow : t.grow tokens = .ok u) : u.Numerals := by
  intro n htag
  have hgrows : t.GrowsTo u := by
    have hleaves := grow_leaves t tokens
    rw [hgrow] at hleaves
    exact hleaves
  refine hgrows.of_traced (Q := fun tag text => tag = .numberLiteral →
    ∃ x, Number.read? text.toList = some x ∧ Number.Proper x) (grow_traced hgrow)
    (fun n _ => h n) ?_ n (lt_of_tag (by rw [htag]; decide)) htag
  rintro tag text horigin rfl
  rcases horigin.of_number with rfl | ⟨t, ht, hkind, rfl⟩
  · -- the condition that stands for a missing one
    exact Number.read?_of_spells (.digits rfl (List.forall_mem_nil _))
  · exact Number.read?_of_scan hscan ht hkind

theorem Numerals.makes {settings : Settings} (h : t.Numerals) :
    Machine.Makes ⟨t, settings⟩ Value.Proper where
  text _ := trivial
  body _ := trivial
  undefined := trivial
  null := trivial
  zero := Number.proper_zero
  literal n htag := by
    obtain ⟨x, hread, hx⟩ := h n htag
    have hliteral : literalNumber (t.text n) = x := by rw [literalNumber, hread, Option.getD_some]
    exact hliteral ▸ hx
  apply symbol left right _ _ := Operator.proper_apply symbol left right

end Tree

variable {p : Program} {n l r : NodeId} {state : State}

theorem resolve_beside (ht : p.tree.Resting) (hm : state.memory.Sound p.tree)
    (hchildren : p.tree.children n = #[l, r]) (hl : p.tree.tag l = .get)
    (hr : p.tree.tag r = .get) (name : String) :
    state.memory.resolve p.tree name l = state.memory.resolve p.tree name r := by
  -- neither of the two holds bindings, so each finds what the node around them finds
  have hlookup : ∀ c, c ∈ p.tree.children n → p.tree.tag c = .get →
      state.memory.lookup p.tree name c = state.memory.lookup p.tree name n := by
    intro c hc htag
    have hholds : p.tree.Holds n c :=
      Tree.holds_parent ((ht.grove.parent_iff n c).mpr hc) (by rw [htag]; rfl)
    exact Memory.lookup_held ht.grove.nests hholds fun i b hb a ha => (hm.anchor i b hb a ha).scope
  have hleft := hlookup l (by simp [hchildren]) hl
  have hright := hlookup r (by simp [hchildren]) hr
  rw [Memory.resolve, Memory.resolve, hleft, hright]

theorem evaluate_equal_self (ht : p.tree.Resting) (hm : state.memory.Sound p.tree)
    (hproper : ∀ i b, state.memory.get? i = some b → b.value.Proper)
    (htag : p.tree.tag n = .operator) (htext : p.tree.text n = Operator.equal.symbol)
    (hchildren : p.tree.children n = #[l, r]) (hl : p.tree.tag l = .get)
    (hr : p.tree.tag r = .get) (hname : p.tree.text l = p.tree.text r)
    (hroom : state.nesting + 1 < p.settings.maxNesting) (fuel : Nat) :
    evaluate p (fuel + 4) (some n) state = .done ⟨.number 1, none⟩ state := by
  refine evaluate_of_done (Nat.lt_of_succ_lt hroom) ?_
  have hleft := evaluate_get (s := { state with nesting := state.nesting + 1 }) hl hroom fuel
  have hright := evaluate_get (s := { state with nesting := state.nesting + 1 }) hr hroom fuel
  dsimp only at hleft hright
  rw [← resolve_beside ht hm hchildren hl hr, ← hname] at hright
  rw [evaluateNode_operator htag hchildren, Run.bind_of_done _ hleft, Run.bind_of_done _ hright, htext,
    Operator.equal_self]
  · rfl
  · cases hresolve : state.memory.resolve p.tree (p.tree.text l) l with
    | none => trivial
    | some b =>
      obtain ⟨i, -, hi, -⟩ := Memory.of_resolve hresolve
      exact hproper i b hi

namespace Session

open Machine (counters Reaches Config)

variable {s s' loaded : Session} {source : String} {first : Nat}

/-- What is reached from a start at a proper time. -/
inductive Timed : Session → Prop where
  | start {clock : Clock} (settings : Settings) (input : List String) :
      Number.Proper clock.time → Timed (Session.start clock settings input)
  | load {s s' : Session} (source : String) : Timed s → (s.load source).state? = some s' →
      Timed s'
  | run {s s' : Session} (fuel : Nat) (source : String) : Timed s →
      (s.runSource fuel source).state? = some s' → Timed s'

theorem Timed.reachable (h : s.Timed) : s.Reachable := by
  induction h with
  | start settings input _ => exact .start _ settings input
  | load source _ hs ih => exact .load source ih hs
  | run fuel source _ hs ih => exact .run fuel source ih hs

structure Proper (s : Session) : Prop where
  numerals : s.tree.Numerals
  memory : ∀ i b, s.state.memory.get? i = some b → b.value.Proper

theorem proper_seed {m : Memory} {name : String} {value : Value} (hv : value.Proper)
    (hm : ∀ i b, m.get? i = some b → b.value.Proper) (i : Nat) (b : Binding)
    (hb : (m.seed name value).get? i = some b) : b.value.Proper := by
  rw [Memory.seed, Memory.get?_push] at hb
  split at hb
  · cases hb
    exact hv
  · exact hm i b hb

theorem start_proper {clock : Clock} (settings : Settings) (input : List String)
    (h : Number.Proper clock.time) : (Session.start clock settings input).Proper where
  numerals := Tree.planted_numerals
  memory := by
    refine proper_seed h (proper_seed trivial (proper_seed trivial ?_))
    intro i b hb
    simp [Memory.get?, Memory.empty] at hb

theorem Proper.load (h : s.Proper) (hs : s.Reachable) (hl : (s.load source).state? = some s') :
    s'.Proper := by
  rcases load_cases hs.grove_nil source with ⟨f, hfailed⟩ | ⟨tokens, tree, hscan, hgrow, hdone⟩
  · rw [hfailed] at hl
    cases hl
    exact h
  · rw [hdone] at hl
    cases hl
    exact ⟨h.numerals.grow hscan hgrow, h.memory⟩

theorem Proper.carries {c : Config} (h : loaded.Proper)
    (hc : Reaches loaded.program (counters loaded.state)
      (.running (.execute Tree.root first [] .run) loaded.state) c) : c.Carries Value.Proper := by
  have hstart : Config.Carries Value.Proper
      (.running (.execute Tree.root first [] .run) loaded.state) :=
    ⟨List.forall_mem_nil _, h.memory⟩
  exact hc.carries h.numerals.makes hstart

theorem Timed.proper (h : s.Timed) : s.Proper := by
  induction h with
  | start settings input htime => exact start_proper settings input htime
  | load source hs hl ih => exact ih.load hs.reachable hl
  | run fuel source hs hr ih =>
    rcases runSource_cases hr with ⟨f, hl, -⟩ | ⟨first, loaded, hl, state, rfl, he⟩
    · exact ih.load hs.reachable (congrArg Outcome.state? hl)
    · have hloaded : loaded.Proper := ih.load hs.reachable (congrArg Outcome.state? hl)
      obtain ⟨c, hreaches, hmemory⟩ := exists_halted he
      refine ⟨hloaded.numerals, ?_⟩
      rw [← hmemory]
      exact (hloaded.carries hreaches).memory

/-- Over any texts, no value is a number that is not-a-number or the zero below zero: none that a
name is bound to, and none that is an operand, an argument, stored, printed or returned at any step
of a text, nor one that an expression gives there. Every number of a program is read as its text
spells it. So whatever is bound equals itself, and a name that is compared with itself gives one,
where there is room for the comparison. -/
theorem values_proper (h : s.Timed) :
    (∀ i b, s.state.memory.get? i = some b →
      b.value.Proper ∧ Operator.apply Operator.equal.symbol b.value b.value = .number 1) ∧
    ∀ source first loaded, s.load source = .done first loaded →
      (∀ n, loaded.tree.tag n = .numberLiteral →
        ∃ x, Number.read? (loaded.tree.text n).toList = some x ∧ Number.Proper x) ∧
      (∀ c, Reaches loaded.program (counters loaded.state)
        (.running (.execute Tree.root first [] .run) loaded.state) c → c.Carries Value.Proper) ∧
      ∀ control state, loaded.Comes first control state →
        (∀ fuel n e state', evaluate loaded.program fuel n state = .done e state' →
          e.value.Proper) ∧
        ∀ n l r, loaded.tree.tag n = .operator → loaded.tree.text n = Operator.equal.symbol →
          loaded.tree.children n = #[l, r] → loaded.tree.tag l = .get →
          loaded.tree.tag r = .get → loaded.tree.text l = loaded.tree.text r →
          state.nesting + 1 < loaded.settings.maxNesting →
          ∀ fuel, evaluate loaded.program (fuel + 4) (some n) state =
            .done ⟨.number 1, none⟩ state := by
  refine ⟨fun i b hb => ?_, fun source first loaded hl => ?_⟩
  · have hvalue := h.proper.memory i b hb
    exact ⟨hvalue, Operator.equal_self hvalue⟩
  · have hloaded : loaded.Proper := h.proper.load h.reachable (congrArg Outcome.state? hl)
    have hreach : loaded.Reachable := (h.reachable.load_done hl).1
    refine ⟨hloaded.numerals, fun c hc => hloaded.carries hc, ?_⟩
    intro control state hcomes
    have hcarries := hloaded.carries hcomes
    refine ⟨fun fuel n e state' he => ?_, ?_⟩
    · exact (Machine.evaluate_carries hloaded.numerals.makes hcarries.memory he).1
    · intro n l r htag htext hchildren hl hr hname hroom fuel
      have hsited := (Reaches.written hreach.resting (hreach.sited first) hcomes).1
      exact evaluate_equal_self hreach.resting hsited.memory hcarries.memory htag htext hchildren
        hl hr hname hroom fuel

/-- A product that is the zero below zero inside of its operator, and the quotient of two zeros. A
name that every session starts with equals itself. -/
theorem product_and_quotient_proper : Number.Proper 0 ∧
    (∃ s b, ((Session.start ⟨"", 0⟩ {} []).runSource 30
        "x: 0 - 1 y: 0 * x z: 0 / 0").state? = some s ∧ s.state.memory.get? 4 = some b ∧
      b.name = "y" ∧ b.value.Proper) ∧
    ∃ loaded n, (Session.start ⟨"", 0⟩ {} []).load "print TIME == TIME" = .done 0 loaded ∧
      loaded.tree.text n = Operator.equal.symbol ∧
      evaluate loaded.program 4 (some n) loaded.state = .done ⟨.number 1, none⟩ loaded.state := by
  have hstart : (Session.start ⟨"", 0⟩ {} []).Timed := .start {} [] Number.proper_zero
  refine ⟨Number.proper_zero, ?_, ?_⟩
  · have hname : ((((Session.start ⟨"", 0⟩ {} []).runSource 30
        "x: 0 - 1 y: 0 * x z: 0 / 0").state?.bind fun s => s.state.memory.get? 4).map (·.name)) =
        some "y" := by decide +kernel
    obtain ⟨b, hb, hname⟩ := Option.map_eq_some_iff.mp hname
    obtain ⟨s, hs, hb⟩ := Option.bind_eq_some_iff.mp hb
    obtain ⟨hvalues, -⟩ := values_proper (.run 30 _ hstart hs)
    exact ⟨s, b, hs, hb, hname, (hvalues 4 b hb).1⟩
  · have hload : ∃ loaded, (Session.start ⟨"", 0⟩ {} []).load "print TIME == TIME" =
        .done 0 loaded ∧ loaded.tree.tag 4 = .operator ∧
        loaded.tree.text 4 = Operator.equal.symbol ∧ loaded.tree.children 4 = #[2, 3] ∧
        loaded.tree.tag 2 = .get ∧ loaded.tree.tag 3 = .get ∧
        loaded.tree.text 2 = loaded.tree.text 3 ∧
        loaded.state.nesting + 1 < loaded.settings.maxNesting :=
      ⟨_, by cbv, by cbv, by cbv, by cbv, by cbv, by cbv, by cbv, by decide⟩
    obtain ⟨loaded, hl, htag, htext, hchildren, hleft, hright, hname, hroom⟩ := hload
    obtain ⟨-, hloaded⟩ := values_proper hstart
    obtain ⟨-, -, hequal⟩ := hloaded _ 0 loaded hl
    exact ⟨loaded, 4, hl, htext, (hequal _ loaded.state (.refl _)).2 4 2 3 htag htext hchildren
      hleft hright hname hroom 0⟩

end Session

end Arbor
