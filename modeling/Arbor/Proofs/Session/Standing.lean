import Arbor.Proofs.Growth.Refusal
import Arbor.Proofs.Return.Limits
import Arbor.Proofs.Session.Reachable

/-!
# Sessions at rest

Between two texts the tree of a session is well formed and both counters stand at zero. A load then
ends in one of three ways: the text cannot be scanned, its tokens are refused, or a well formed tree
has grown out of the old one.
-/
namespace Arbor.Session

variable {P Q : String → Nat → Prop} {s t s' : Session} {source : String} {fuel first : Nat}
  {f : Fault}

structure Standing (P : String → Nat → Prop) (s : Session) : Prop where
  grove : ∃ loose, s.tree.Grove loose
  formed : s.tree.Formed P
  root : s.tree.tag Tree.root = .root
  counters : Machine.counters s.state = ⟨0, 0⟩

theorem start_standing (P : String → Nat → Prop) (clock : Clock) (settings : Settings)
    (input : List String) : (Session.start clock settings input).Standing P :=
  ⟨⟨[], Tree.planted_grove⟩, Tree.planted_formed P, rfl, rfl⟩

theorem Standing.imp (hPQ : ∀ text start, P text start → Q text start) (h : s.Standing P) :
    s.Standing Q :=
  ⟨h.grove, h.formed.imp hPQ, h.root, h.counters⟩

theorem Standing.scope (h : s.Standing P) : (s.tree.tag Tree.root).isScope = true := by
  rw [h.root]
  rfl

inductive Loads (P : String → Nat → Prop) (s : Session) (source : String) :
    Outcome Session Nat → Prop where
  | unread {f : Fault} : Token.scan source = .error f → f.kind = .character →
      Located source f.start f.text → Loads P s source (.failed f s)
  | refused {tokens : List Token} {stunted : Tree.Stunted} : Token.scan source = .ok tokens →
      s.tree.grow tokens = .error stunted → stunted.fault.kind = .grammar →
      Located source stunted.fault.start stunted.fault.text →
      Loads P s source (.failed stunted.fault s)
  | read {tokens : List Token} {tree : Tree} : Token.scan source = .ok tokens →
      s.tree.grow tokens = .ok tree → s.tree.GrowsTo tree → ({ s with tree } : Session).Standing P →
      Loads P s source (.done (s.tree.children Tree.root).size { s with tree })

/-- A load of a text in which everything that stands is as `P` says. -/
theorem Standing.loads (h : s.Standing P) (source : String)
    (hP : ∀ start text, Located source start text → P text start) :
    s.Loads P source (s.load source) := by
  obtain ⟨loose, hg⟩ := h.grove
  have hscanned := Token.scan_scanned source
  cases hscan : Token.scan source with
  | error f =>
    rw [hscan] at hscanned
    have hload : s.load source = .failed f s := by
      simp only [Session.load, hscan]
    rw [hload]
    exact .unread hscan hscanned.1 hscanned.2
  | ok tokens =>
    rw [hscan] at hscanned
    have hcomes := Tree.grow_comes h.formed hg h.root hscan hP
    have hleaves := Tree.grow_leaves s.tree tokens
    cases hgrow : s.tree.grow tokens with
    | error stunted =>
      rw [hgrow] at hcomes hleaves
      have htree := Tree.GrowsTo.truncate hleaves fun _ _ hc => hg.child_lt hc
      have hload : s.load source = .failed stunted.fault s := by
        simp only [Session.load, hscan, hgrow, htree]
      obtain ⟨why, found, hfault, hkind, hfound⟩ := hcomes
      have hlocated : Located source stunted.fault.start stunted.fault.text := by
        rw [hfault]
        exact (hscanned found hfound).located
      rw [hload]
      exact .refused hscan hgrow hkind hlocated
    | ok tree =>
      rw [hgrow] at hcomes hleaves
      have hload : s.load source = .done (s.tree.children Tree.root).size { s with tree } := by
        simp only [Session.load, hscan, hgrow]
      have hgrows : s.tree.GrowsTo tree := hleaves
      have hroot : tree.tag Tree.root = .root := by
        rw [hgrows.tag Tree.root hg.size_pos, h.root]
      rw [hload]
      exact .read hscan hgrow hgrows ⟨Tree.grow_grove hg hgrow, hcomes, hroot, h.counters⟩

theorem Loads.failed (h : s.Loads P source (.failed f t)) : t = s ∧
    (Token.scan source = .error f ∧ f.kind = .character ∨
      ∃ tokens stunted, Token.scan source = .ok tokens ∧ s.tree.grow tokens = .error stunted ∧
        stunted.fault = f ∧ f.kind = .grammar) ∧ Located source f.start f.text := by
  cases h with
  | unread hscan hkind hlocated => exact ⟨rfl, Or.inl ⟨hscan, hkind⟩, hlocated⟩
  | refused hscan hgrow hkind hlocated =>
    exact ⟨rfl, Or.inr ⟨_, _, hscan, hgrow, rfl, hkind⟩, hlocated⟩

theorem Loads.done (h : s.Loads P source (.done first t)) : t.Standing P := by
  cases h with
  | read _ _ _ hstanding => exact hstanding

theorem Standing.load_done (h : s.Standing fun _ _ => True)
    (hl : s.load source = .done first t) : ∃ tree, t = { s with tree } ∧
      first = (s.tree.children Tree.root).size ∧ s.tree.GrowsTo tree ∧
      t.Standing fun _ _ => True := by
  have hloads := h.loads source fun _ _ _ => trivial
  rw [hl] at hloads
  cases hloads with
  | read _ _ hgrows hstanding => exact ⟨_, rfl, rfl, hgrows, hstanding⟩

theorem runSource_failed (h : s.runSource fuel source = .failed f t) :
    s.load source = .failed f t ∨ ∃ first loaded state, s.load source = .done first loaded ∧
      t = { loaded with state } ∧
      execute loaded.program fuel Tree.root first loaded.state = .failed f state := by
  simp only [runSource] at h
  cases hl : s.load source with
  | outOfFuel =>
    rw [hl] at h
    cases h
  | failed g u =>
    rw [hl] at h
    cases h
    exact Or.inl rfl
  | done first loaded =>
    rw [hl] at h
    simp only [perform] at h
    cases he : execute loaded.program fuel Tree.root first loaded.state with
    | outOfFuel =>
      rw [he] at h
      cases h
    | done r state =>
      rw [he] at h
      cases h
    | failed g state =>
      rw [he] at h
      cases h
      exact Or.inr ⟨first, loaded, state, rfl, rfl, he⟩

theorem Standing.executed (h : s.Standing P) {state : State}
    (he : (execute s.program fuel Tree.root first s.state).state? = some state) :
    ({ s with state } : Session).Standing P := by
  refine ⟨h.grove, h.formed, h.root, ?_⟩
  rw [Machine.execute_counters he]
  exact h.counters

theorem Standing.loaded (h : s.Standing P)
    (hP : ∀ start text, Located source start text → P text start)
    (hs : (s.load source).state? = some s') : s'.Standing P := by
  have hloads := h.loads source hP
  cases hl : s.load source with
  | outOfFuel =>
    rw [hl] at hs
    cases hs
  | failed f u =>
    rw [hl] at hs hloads
    cases hs
    rw [hloads.failed.1]
    exact h
  | done first u =>
    rw [hl] at hs hloads
    cases hs
    exact hloads.done

theorem Standing.execute_atLimit (h : s.Standing P) {state : State}
    (he : execute s.program fuel Tree.root first s.state = .failed f state) :
    f.kind = .stack ∧ ∃ control state', Machine.Reaches s.program (Machine.counters s.state)
        (.running (.execute Tree.root first [] .run) s.state) (.running control state') ∧
      Machine.AtLimit s.program control state' f := by
  have hwithin : (Machine.counters s.state).Within s.program := by
    rw [h.counters]
    exact ⟨Nat.zero_le _, Nat.zero_le _⟩
  obtain ⟨control, state', hreaches, hlimit⟩ := Machine.failed_atLimit hwithin he
  exact ⟨hlimit.kind, control, state', hreaches, hlimit⟩

theorem Standing.ran (h : s.Standing P)
    (hP : ∀ start text, Located source start text → P text start)
    (hs : (s.runSource fuel source).state? = some s') : s'.Standing P := by
  rcases runSource_cases hs with ⟨f, hl, _⟩ | ⟨first, loaded, hl, state, rfl, he⟩
  · exact h.loaded hP (congrArg Outcome.state? hl)
  · exact (h.loaded hP (congrArg Outcome.state? hl)).executed he

theorem Reachable.standing (h : s.Reachable) : s.Standing fun _ _ => True := by
  induction h with
  | start clock settings input => exact start_standing _ clock settings input
  | load source _ hs ih => exact ih.loaded (fun _ _ _ => trivial) hs
  | run fuel source _ hs ih => exact ih.ran (fun _ _ _ => trivial) hs

end Arbor.Session
