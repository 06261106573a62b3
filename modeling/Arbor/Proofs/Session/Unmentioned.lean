import Arbor.Proofs.Memory.Agreement
import Arbor.Proofs.Run.Abreast
import Arbor.Proofs.Session.References
import Arbor.Proofs.Session.Termination
import Mathlib

/-!
# Names that are not mentioned

What a name is bound to plays no part in a run of a program that does not mention the name: neither in
the tree, where names stand in expressions, statements and parameter lists, nor in the text.
-/
namespace Arbor

variable {Z : String → Prop}

theorem Tree.Formed.lists_parameters {P : String → Nat → Prop} {N : String → Prop} {t : Tree}
    (h : t.Formed P) (hN : ∀ n, (t.tag n).isNaming = true → N (t.text n)) {f : NodeId}
    (hf : t.tag f = .function) : t.Lists N (t.child? f 0) := by
  intro l hl c hc
  apply hN
  rw [(h.parameters hf hl).2 c hc]
  rfl

structure Unread (t : Tree) (Z : String → Prop) (m₀ m₀' m m' : Memory) : Prop where
  agree : m.AgreesBut Z m'
  left : m₀.Untouched Z m
  right : m₀'.Untouched Z m'
  bound : ∀ i b, m.get? i = some b → t.Lists (fun n => ¬Z n) b.params

namespace Unread

variable {t : Tree} {m₀ m₀' m m' : Memory} {name : String} {params : Option NodeId}

theorem store (h : Unread t Z m₀ m₀' m m') (hname : ¬Z name)
    (hparams : t.Lists (fun n => ¬Z n) params) (value : Value) (access : NodeId) :
    Unread t Z m₀ m₀' (m.store t name value params access) (m'.store t name value params access) where
  agree := h.agree.store hname
  left := h.left.store hname
  right := h.right.store hname
  bound i b hb := by
    rw [Memory.get?_store] at hb
    by_cases hi : i = m.target t name access
    · rw [if_pos hi] at hb
      cases hb
      exact hparams
    · rw [if_neg hi] at hb
      exact h.bound i b hb

theorem remove (h : Unread t Z m₀ m₀' m m') (hname : ¬Z name) (access : NodeId) :
    Unread t Z m₀ m₀' (m.remove t name access) (m'.remove t name access) where
  agree := h.agree.remove
  left := h.left.remove hname
  right := h.right.remove hname
  bound i b hb := h.bound i b (Memory.get?_remove hb)

end Unread

def Tree.unreadPairing (t : Tree) (S : Settings) (Z : String → Prop) (m₀ m₀' : Memory)
    (hnaming : ∀ n, (t.tag n).isNaming = true → ¬Z (t.text n))
    (hparameters : ∀ n, t.tag n = .function → t.Lists (fun n => ¬Z n) (t.child? n 0)) : Pairing where
  tree := t
  first := S
  second := S
  name n := ¬Z n
  alike := Unread t Z m₀ m₀'
  depth := Nat.le_refl _
  nesting := Nat.le_refl _
  apart h := absurd rfl h
  naming := hnaming
  parameters := hparameters
  resolve _ h hname := h.agree.resolve hname
  bound h _ hb := by
    obtain ⟨i, -, hi, -⟩ := Memory.of_resolve hb
    exact h.bound i _ hi
  store value access h hname hparams := h.store hname hparams value access
  remove access h hname := h.remove hname access

/-- The same value or fault, in states that are related; or the fuel reaches in neither. -/
inductive Outcome.Alike {σ α : Type} (R : σ → σ → Prop) : Outcome σ α → Outcome σ α → Prop where
  | done {a : α} {s s' : σ} : R s s' → Alike R (.done a s) (.done a s')
  | failed {f : Fault} {s s' : σ} : R s s' → Alike R (.failed f s) (.failed f s')
  | outOfFuel : Alike R .outOfFuel .outOfFuel

structure State.AgreesBut (Z : String → Prop) (s s' : State) : Prop where
  memory : s.memory.AgreesBut Z s'.memory
  output : s'.output = s.output
  input : s'.input = s.input
  depth : s'.depth = s.depth
  nesting : s'.nesting = s.nesting

/-- What two runs leave of `s` and `s'`: they differ in the slots of `Z` only, which are as they
were. -/
structure State.StaysBut (Z : String → Prop) (s s' t t' : State) : Prop where
  agree : t.AgreesBut Z t'
  left : s.memory.Untouched Z t.memory
  right : s'.memory.Untouched Z t'.memory

theorem State.AgreesBut.stays {s s' : State} (h : s.AgreesBut Z s') : s.StaysBut Z s' s s' :=
  ⟨h, .refl _, .refl _⟩

theorem execute_alike {p : Program} {s s' : State} (hs : s.AgreesBut Z s')
    (hnaming : ∀ n, (p.tree.tag n).isNaming = true → ¬Z (p.tree.text n))
    (hparameters : ∀ n, p.tree.tag n = .function →
      p.tree.Lists (fun n => ¬Z n) (p.tree.child? n 0))
    (hbound : ∀ i b, s.memory.get? i = some b → p.tree.Lists (fun n => ¬Z n) b.params)
    (fuel : Nat) (body : NodeId) (start : Nat) :
    Outcome.Alike (s.StaysBut Z s') (execute p fuel body start s)
      (execute p fuel body start s') := by
  have habreast := ((p.tree.unreadPairing p.settings Z s.memory s'.memory hnaming
    hparameters).abreast fuel).execute body start
  have hends := habreast.ends s.output.toList s s'
    ⟨⟨hs.memory, .refl _, .refl _, hbound⟩, ⟨[], by simp, by simp [hs.output]⟩, hs.input, hs.depth,
      hs.nesting⟩
  have hstays : ∀ {t t'}, (p.tree.unreadPairing p.settings Z s.memory s'.memory hnaming
      hparameters).Beside s.output.toList t t' → s.StaysBut Z s' t t' := by
    intro t t' h
    obtain ⟨texts, hfirst, hsecond⟩ := h.output
    have houtput : t'.output = t.output := Array.toList_inj.mp (hsecond.trans hfirst.symm)
    exact ⟨⟨h.memory.agree, houtput, h.input, h.depth, h.nesting⟩, h.memory.left, h.memory.right⟩
  cases p with
  | mk tree settings =>
  change Pairing.Ends _ _ _ (execute ⟨tree, settings⟩ fuel body start s)
    (execute ⟨tree, settings⟩ fuel body start s') at hends
  generalize execute ⟨tree, settings⟩ fuel body start s = x at hends ⊢
  generalize execute ⟨tree, settings⟩ fuel body start s' = y at hends ⊢
  cases hends with
  | done _ h => exact .done (hstays h)
  | failed h => exact .failed (hstays h)
  | outOfFuel => exact .outOfFuel
  | behind hne => exact absurd rfl hne

namespace Session

variable {s s' loaded : Session} {source : String} {first : Nat}

/-- The same session, up to what the names in `Z` are bound to. -/
structure AgreesBut (Z : String → Prop) (s s' : Session) : Prop where
  tree : s'.tree = s.tree
  settings : s'.settings = s.settings
  state : s.state.AgreesBut Z s'.state

structure StaysBut (Z : String → Prop) (s s' t t' : Session) : Prop where
  tree : t'.tree = t.tree
  settings : t'.settings = t.settings
  state : s.state.StaysBut Z s'.state t.state t'.state

theorem Standing.load_naming (h : s.Standing fun _ _ => True)
    (hl : s.load source = .done first loaded)
    (htree : ∀ n < s.tree.size, (s.tree.tag n).isNaming = true → ¬Z (s.tree.text n))
    (hsource : ∀ tokens, Token.scan source = .ok tokens →
      ∀ t ∈ tokens, t.kind = .name → ¬Z t.text) :
    ∀ n, (loaded.tree.tag n).isNaming = true → ¬Z (loaded.tree.text n) := by
  have hloads := h.loads source fun _ _ _ => trivial
  rw [hl] at hloads
  cases hloads with
  | @read _ tree hscan hgrow hgrows hstanding =>
    intro n htag
    -- past the end of the arena no tag names anything
    have hn : n < tree.size := by
      apply Tree.lt_of_tag
      intro hroot
      rw [show ({ s with tree } : Session).tree.tag n = .root from hroot] at htag
      cases htag
    refine hgrows.of_traced (Q := fun tag text => tag.isNaming = true → ¬Z text)
      (Tree.grow_traced hgrow) htree ?_ n hn htag
    intro tag text horigin hnaming
    obtain ⟨t, ht, hkind, rfl⟩ := horigin.of_naming hnaming
    exact hsource _ hscan t ht hkind

theorem Standing.lists_bound (h : s.Standing fun _ _ => True) (hm : s.state.memory.Sound s.tree)
    {N : String → Prop} (hN : ∀ n, (s.tree.tag n).isNaming = true → N (s.tree.text n)) (i : Nat)
    (b : Binding) (hb : s.state.memory.get? i = some b) : s.tree.Lists N b.params := by
  intro l hl
  obtain ⟨-, f, hf, hlist⟩ := (hm.callable i b hb).params l hl
  exact h.formed.lists_parameters hN hf.tag l hlist

/-- A text that does not mention the names in `Z`, in a session that does not either. -/
theorem runSource_alike (hs : s.Reachable) (h : s.AgreesBut Z s')
    (htree : ∀ n < s.tree.size, (s.tree.tag n).isNaming = true → ¬Z (s.tree.text n))
    (hsource : ∀ tokens, Token.scan source = .ok tokens →
      ∀ t ∈ tokens, t.kind = .name → ¬Z t.text) (fuel : Nat) :
    Outcome.Alike (s.StaysBut Z s') (s.runSource fuel source) (s'.runSource fuel source) := by
  have hload := load_of_tree h.tree source
  cases hl : s.load source with
  | outOfFuel =>
    rw [hl] at hload
    have hload : s'.load source = .outOfFuel := hload
    simp only [runSource, hl, hload]
    exact .outOfFuel
  | failed f t =>
    have hloads := hs.standing.loads source fun _ _ _ => trivial
    rw [hl] at hload hloads
    rw [runSource_of_load hl, runSource_of_load hload]
    rw [hloads.failed.1]
    exact .failed ⟨rfl, h.settings, h.state.stays⟩
  | done first u =>
    have hstanding := hs.standing.loaded (fun _ _ _ => trivial) (congrArg Outcome.state? hl)
    have hsound := hs.standing.sound_load hs.sound (congrArg Outcome.state? hl)
    have hnaming := hs.standing.load_naming hl htree hsource
    obtain ⟨tree, rfl, -, -, -⟩ := hs.standing.load_done hl
    rw [hl] at hload
    rw [runSource_loaded hl, runSource_loaded hload]
    have hprogram : ({ s' with tree } : Session).program = ({ s with tree } : Session).program := by
      rw [program, program, h.settings]
    have halike := execute_alike (p := ({ s with tree } : Session).program) h.state hnaming
      (fun n => hstanding.formed.lists_parameters hnaming) (hstanding.lists_bound hsound hnaming)
      fuel Tree.root first
    rw [hprogram]
    generalize execute ({ s with tree } : Session).program fuel Tree.root first s.state = x at halike ⊢
    generalize execute ({ s with tree } : Session).program fuel Tree.root first s'.state = y at halike ⊢
    cases halike with
    | done hstays => exact .done ⟨rfl, h.settings, hstays⟩
    | failed hstays => exact .failed ⟨rfl, h.settings, hstays⟩
    | outOfFuel => exact .outOfFuel

theorem start_agrees (clock clock' : Clock) (settings : Settings) (input : List String)
    (hdate : clock'.date = clock.date ∨ Z "DATE") (htime : clock'.time = clock.time ∨ Z "TIME") :
    (Session.start clock settings input).AgreesBut Z (Session.start clock' settings input) := by
  refine ⟨rfl, rfl, ?_, rfl, rfl, rfl, rfl⟩
  apply Memory.AgreesBut.seed
  · apply Memory.AgreesBut.seed
    · exact .refl _
    · exact hdate.imp_left (congrArg Value.text)
  · exact htime.imp_left (congrArg Value.number)

theorem start_unmentioned (clock : Clock) (settings : Settings) (input : List String) :
    ∀ n < (Session.start clock settings input).tree.size,
      ((Session.start clock settings input).tree.tag n).isNaming = true →
        ¬Z ((Session.start clock settings input).tree.text n) := by
  intro n hn hnaming
  obtain rfl : n = 0 := Nat.lt_one_iff.mp hn
  cases hnaming

/-- What names are bound to that neither the program nor the text mentions makes no difference to a
run and stays as it is. So a text that does not mention the start of the session runs alike whenever
the session has started. -/
theorem unmentioned_names :
    (∀ (Z : String → Prop) (s s' : Session) (source : String), s.Reachable → s.AgreesBut Z s' →
      (∀ n < s.tree.size, (s.tree.tag n).isNaming = true → ¬Z (s.tree.text n)) →
      (∀ tokens, Token.scan source = .ok tokens → ∀ t ∈ tokens, t.kind = .name → ¬Z t.text) →
      ∀ fuel, Outcome.Alike (s.StaysBut Z s') (s.runSource fuel source)
        (s'.runSource fuel source)) ∧
    ∀ (clock clock' : Clock) (settings : Settings) (input : List String) (source : String),
      (∀ tokens, Token.scan source = .ok tokens →
        ∀ t ∈ tokens, t.kind = .name → ¬(t.text = "DATE" ∨ t.text = "TIME")) →
      ∀ fuel, Outcome.Alike
        ((start clock settings input).StaysBut (fun n => n = "DATE" ∨ n = "TIME")
          (start clock' settings input))
        ((start clock settings input).runSource fuel source)
        ((start clock' settings input).runSource fuel source) := by
  constructor
  · intro Z s s' source hs h htree hsource fuel
    exact runSource_alike hs h htree hsource fuel
  · intro clock clock' settings input source hsource fuel
    exact runSource_alike (.start clock settings input)
      (start_agrees clock clock' settings input (Or.inr (Or.inl rfl)) (Or.inr (Or.inr rfl)))
      (start_unmentioned clock settings input) hsource fuel

/-- A date that is not asked for. -/
theorem date_unmentioned :
    Outcome.Alike ((start ⟨"1970", 0⟩ {} []).StaysBut (· = "DATE") (start ⟨"2000", 0⟩ {} []))
      ((start ⟨"1970", 0⟩ {} []).runSource 20 "x: 1 print x")
      ((start ⟨"2000", 0⟩ {} []).runSource 20 "x: 1 print x") ∧
    Outcome.Alike
      ((start ⟨"1970", 0⟩ {} []).StaysBut (fun n => n = "DATE" ∨ n = "TIME")
        (start ⟨"2000", 0⟩ {} []))
      ((start ⟨"1970", 0⟩ {} []).runSource 20 "x: 1 print x")
      ((start ⟨"2000", 0⟩ {} []).runSource 20 "x: 1 print x") := by
  have hscan : ∃ tokens, Token.scan "x: 1 print x" = .ok tokens ∧
      ∀ t ∈ tokens, t.text ≠ "DATE" ∧ t.text ≠ "TIME" := ⟨_, by cbv, by decide⟩
  obtain ⟨tokens, hscan, htokens⟩ := hscan
  constructor
  · refine unmentioned_names.1 (fun n => n = "DATE") (start ⟨"1970", 0⟩ {} [])
      (start ⟨"2000", 0⟩ {} []) _ (.start _ _ _) ?_ ?_ ?_ 20
    · exact start_agrees ⟨"1970", 0⟩ ⟨"2000", 0⟩ {} [] (Or.inr rfl) (Or.inl rfl)
    · exact start_unmentioned (Z := fun n => n = "DATE") _ _ _
    · intro tokens' hscan' t ht _
      cases Except.ok.inj (hscan.symm.trans hscan')
      exact (htokens t ht).1
  · refine unmentioned_names.2 _ _ _ _ _ ?_ 20
    intro tokens' hscan' t ht _
    cases Except.ok.inj (hscan.symm.trans hscan')
    exact not_or.mpr (htokens t ht)

end Session

end Arbor
