import Arbor.Proofs.Run.Lockstep
import Arbor.Proofs.Session.Standing
import Mathlib

/-!
# References between memory and the tree

In every session that is reached the nodes that memory refers to exist and are of the right kind,
also after texts that were refused and after runs that failed. So a run reads nothing past the end of
the arena: what might stand there makes no difference.
-/
namespace Arbor

variable {P : String → Nat → Prop} {s s' : Session} {source : String}

theorem Tree.Formed.parameters {t : Tree} (h : t.Formed P) {f l : NodeId}
    (hf : t.tag f = .function) (hl : t.child? f 0 = some l) :
    t.tag l = .arguments ∧ ∀ c ∈ t.children l, t.tag c = .store := by
  have hhangs := h.hangs f 0 l hl
  have hlist : t.tag l = .arguments := by
    have hfits := hhangs.fits
    rw [hf] at hfits
    exact hfits
  refine ⟨hlist, fun c hc => ?_⟩
  have hlisting := hhangs.listing hlist c hc
  rw [if_pos hf] at hlisting
  exact hlisting

theorem Agree.sound {t : Tree} {E : Fault → Fault → Prop} {good : α → Prop} {n : Nat}
    {x y : Outcome State α} {state : State} (h : Agree t E good n x y)
    (hx : x.state? = some state) : state.memory.Sound t := by
  cases h with
  | done _ hs _ =>
    cases hx
    exact hs
  | failed _ hs =>
    cases hx
    exact hs
  | outOfFuel => cases hx

namespace Session

/-- What is known of a run from a session at rest, and of the faults that it can fail with. -/
theorem Standing.execute_agree (h : s.Standing P) (hm : s.state.memory.Sound s.tree)
    {G : Fault → Prop}
    (hnesting : ∀ n, s.tree.Inner n → P (s.tree.label n).shown (s.tree.position n) →
      G (Run.nestingFault s.program n))
    (hcalls : ∀ n, s.tree.Inner n → s.tree.tag n = .call →
      G (.callsTooDeep (s.tree.text n) (s.tree.position n) s.settings.maxDepth))
    (hroot : ¬0 < s.settings.maxNesting → G (Run.nestingFault s.program Tree.root))
    (fuel first : Nat) : Agree s.tree (fun f g => f = g ∧ G f) (fun _ => True) 0
      (execute s.program fuel Tree.root first s.state)
      (execute s.program fuel Tree.root first s.state) := by
  obtain ⟨loose, hg⟩ := h.grove
  have hself : Mirrors P (fun f g => f = g ∧ G f) s.program s.program :=
    .self hnesting hcalls
  apply execute_root_inStep hself h.formed hg h.scope rfl 0
  · intro hlimit
    exact ⟨rfl, hroot hlimit⟩
  · exact hm
  · exact congrArg Machine.Counters.nesting h.counters

theorem start_sound (clock : Clock) (settings : Settings) (input : List String) :
    (start clock settings input).state.memory.Sound (start clock settings input).tree := by
  apply Memory.Sound.seed
  · apply Memory.Sound.seed
    · apply Memory.Sound.seed
      · exact Memory.sound_empty _
      · exact fun _ => Value.noConfusion
    · exact fun _ => Value.noConfusion
  · exact fun _ => Value.noConfusion

theorem Standing.sound_load (h : s.Standing fun _ _ => True)
    (hm : s.state.memory.Sound s.tree) (hs : (s.load source).state? = some s') :
    s'.state.memory.Sound s'.tree := by
  obtain ⟨loose, hg⟩ := h.grove
  obtain ⟨tree, rfl, hgrows, _⟩ := load_grows hg hs
  exact hm.growsTo hg hgrows

theorem Reachable.sound (h : s.Reachable) : s.state.memory.Sound s.tree := by
  induction h with
  | start clock settings input => exact start_sound clock settings input
  | load source hreach hs ih => exact hreach.standing.sound_load ih hs
  | run fuel source hreach hs ih =>
    rcases runSource_cases hs with ⟨f, hl, _⟩ | ⟨first, loaded, hl, state, rfl, he⟩
    · exact hreach.standing.sound_load ih (congrArg Outcome.state? hl)
    · have hm := hreach.standing.sound_load ih (congrArg Outcome.state? hl)
      have hstanding := hreach.standing.loaded (fun _ _ _ => trivial)
        (congrArg Outcome.state? hl)
      have hagree := @Standing.execute_agree _ _ hstanding hm (fun _ => True)
        (fun _ _ _ => trivial) (fun _ _ _ => trivial) (fun _ => trivial) fuel first
      exact hagree.sound he

theorem Standing.parameters (h : s.Standing P) {f l : NodeId} (hf : s.tree.Declares f)
    (hl : s.tree.child? f 0 = some l) : l < s.tree.size ∧ s.tree.tag l = .arguments ∧
      ∀ c ∈ s.tree.children l, c < s.tree.size ∧ s.tree.tag c = .store := by
  obtain ⟨hlist, hstores⟩ := h.formed.parameters hf.tag hl
  exact ⟨h.formed.child_lt hl, hlist, fun c hc => ⟨h.formed.mem_lt hc, hstores c hc⟩⟩

theorem Standing.execute_past_end (h : s.Standing fun _ _ => True)
    (hm : s.state.memory.Sound s.tree) {u : Tree} (hu : s.tree.PrefixOf u) (fuel first : Nat) :
    execute ⟨u, s.settings⟩ fuel Tree.root first s.state =
      execute s.program fuel Tree.root first s.state := by
  obtain ⟨loose, hg⟩ := h.grove
  have hmirrors : Mirrors (fun _ _ => True) Eq s.program ⟨u, s.settings⟩ := .of_stands hu hg
  have hroot := hu.node Tree.root hg.size_pos
  have hfault : Run.nestingFault s.program Tree.root =
      Run.nestingFault ⟨u, s.settings⟩ Tree.root := by
    have hlabel : u.label Tree.root = s.tree.label Tree.root := hu.label hg.size_pos
    rw [nestingFault_label, nestingFault_label]
    dsimp only
    rw [hlabel]
    rfl
  have hagree := execute_root_inStep hmirrors h.formed hg h.scope (congrArg Node.children hroot) 0
    (fun _ => hfault) fuel first s.state hm (congrArg Machine.Counters.nesting h.counters)
  generalize execute s.program fuel Tree.root first s.state = x at hagree
  generalize execute ⟨u, s.settings⟩ fuel Tree.root first s.state = y at hagree
  cases hagree with
  | done _ _ _ => rfl
  | failed he _ => rw [he]
  | outOfFuel => rfl

/-- No binding dangles, and no run reads past the end of the arena or of the slots. -/
theorem references_sound (h : s.Reachable) :
    (∀ i b, s.state.memory.get? i = some b →
      (∀ a : Nat, b.anchor = some a → a < s.tree.size ∧
        (s.tree.tag a = .root ∨ s.tree.tag a = .body) ∧ s.tree.Under Tree.root a) ∧
      (∀ n : Nat, b.value = .body n → n < s.tree.size ∧ s.tree.tag n = .body ∧
        ∃ f, s.tree.tag f = .function ∧ s.tree.child? f 1 = some n ∧
          ∀ l, b.params = some l → s.tree.child? f 0 = some l) ∧
      (∀ l : Nat, b.params = some l → l < s.tree.size ∧ s.tree.tag l = .arguments ∧
        (∀ c : Nat, c ∈ s.tree.children l → c < s.tree.size ∧ s.tree.tag c = .store) ∧
        (∃ f, s.tree.tag f = .function ∧ s.tree.child? f 0 = some l) ∧
        ((∃ n, b.value = .body n) ∨ b.value = .null))) ∧
    (∀ (m : Memory) name access slot, m.lookup s.tree name access = some slot → slot < m.size) ∧
    ∀ source first loaded, s.load source = .done first loaded → ∀ u, loaded.tree.PrefixOf u →
      ∀ fuel, execute ⟨u, loaded.settings⟩ fuel Tree.root first loaded.state =
        execute loaded.program fuel Tree.root first loaded.state := by
  have hstanding := h.standing
  obtain ⟨loose, hg⟩ := hstanding.grove
  refine ⟨?_, ?_, ?_⟩
  · intro i b hb
    have hcallable := h.sound.callable i b hb
    refine ⟨?_, ?_, ?_⟩
    · intro a ha
      have hanchors := h.sound.anchor i b hb a ha
      refine ⟨hanchors.under.lt hg.size_pos, ?_, hanchors.under⟩
      have hscope := hanchors.scope
      cases htag : s.tree.tag a
      case root => exact Or.inl rfl
      case body => exact Or.inr rfl
      all_goals
        rw [htag] at hscope
        cases hscope
    · intro n hn
      obtain ⟨f, hf, hbody, hlist⟩ := hcallable.body n hn
      exact ⟨hstanding.formed.child_lt hbody, (hstanding.formed.block_of_declares hf hbody).tag,
        f, hf.tag, hbody, hlist⟩
    · intro l hl
      obtain ⟨hvalue, f, hf, hlist⟩ := hcallable.params l hl
      obtain ⟨hlt, htag, hentries⟩ := hstanding.parameters hf hlist
      exact ⟨hlt, htag, hentries, ⟨f, hf.tag, hlist⟩, hvalue⟩
  · intro m name access slot hl
    obtain ⟨b, hb, _⟩ := Memory.sees_iff.mp (Memory.lookup_eq_some.mp hl).1
    exact Memory.lt_of_get? hb
  · intro source first loaded hl u hu fuel
    have hstanding' := hstanding.loaded (fun _ _ _ => trivial) (congrArg Outcome.state? hl)
    have hm := hstanding.sound_load h.sound (congrArg Outcome.state? hl)
    exact hstanding'.execute_past_end hm hu fuel first

/-- A text that was refused had nodes of its own where the function stands now. -/
theorem function_after_refusal : ∃ s : Session, s.Reachable ∧
    s.state.memory.get? 3 = some ⟨"f", .body 4, some 2, some 0⟩ ∧
    s.state.memory.get? 4 = some ⟨"g", .body 4, some 2, some 0⟩ ∧
    s.tree.tag 4 = .body ∧ s.tree.tag 2 = .arguments := by
  have hrefused : ∃ f s, (Session.start ⟨"", 0⟩ {} []).runSource 9 "print 1 print 2 x" =
      .failed f s ∧ ∃ s', s.runSource 9 "fn f(a) \x7bprint a\x7d g: f" = .done () s' ∧
      s'.state.memory.get? 3 = some ⟨"f", .body 4, some 2, some 0⟩ ∧
      s'.state.memory.get? 4 = some ⟨"g", .body 4, some 2, some 0⟩ :=
    ⟨_, _, by cbv, _, by cbv, by cbv, by cbv⟩
  obtain ⟨f, s, hs, s', hs', hf, hg⟩ := hrefused
  have hreach : s.Reachable := .run 9 _ (.start ..) (congrArg Outcome.state? hs)
  have hreach' : s'.Reachable := .run 9 _ hreach (congrArg Outcome.state? hs')
  obtain ⟨_, hbody, hparams⟩ := (references_sound hreach').1 4 _ hg
  exact ⟨s', hreach', hf, hg, (hbody 4 rfl).2.1, (hparams 2 rfl).2.1⟩

end Session

end Arbor
