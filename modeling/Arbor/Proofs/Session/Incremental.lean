import Arbor.Proofs.Growth.Seam
import Arbor.Proofs.Return.Sequence
import Arbor.Proofs.Run.Joined
import Arbor.Proofs.Session.References
import Mathlib

/-!
# One text after another, or both at once

A text in which the braces match and a further text behind it are loaded alike one after the other
and at once, with a line break and a semicolon between them. If the first one runs to its end, both
ways of running them come to the same: what is loaded behind the statements that run cannot change
what they do.
-/
namespace Arbor.Session

variable {s mid loaded ran : Session} {a b source : String} {tokens : List Token} {first fuel n : Nat}
  {state : State} {f : Fault}

inductive Joined (mid s : Session) (d : Nat) : Outcome Session Nat → Outcome Session Nat → Prop where
  | refused {f g : Fault} {t u : Session} : Joined mid s d (.failed f t) (.failed g u)
  | read {tree : Tree} : mid.tree.GrowsTo tree →
      (∀ n < mid.tree.size, n ≠ Tree.root → tree.node n = mid.tree.node n) →
      Joined mid s d (.done (mid.tree.children Tree.root).size { mid with tree })
        (.done (s.tree.children Tree.root).size { s with tree := tree.later mid.tree.size d })

theorem load_joined (hs : s.Reachable) (ha : s.load a = .done n mid)
    (hscan : Token.scan a = .ok tokens)
    (hbraces : tokens.countP Token.opens = tokens.countP Token.closes) (b : String) :
    Joined mid s a.length (mid.load ("\n;" ++ b)) (s.load (a ++ "\n;" ++ b)) := by
  have hstanding := hs.standing
  obtain ⟨loose, hg⟩ := hstanding.grove
  have hloads := hstanding.loads a fun _ _ _ => trivial
  rw [ha] at hloads
  cases hloads with
  | read hscan' hgrow hgrows hstanding' =>
    rename_i tokens' tree
    cases Except.ok.inj (hscan.symm.trans hscan')
    obtain ⟨lexemes, rfl, hkinds⟩ := Token.scan_ends hscan
    have hseam := Token.scan_seam b hscan
    unfold Session.load
    cases hb : Token.scan ("\n;" ++ b) with
    | error f =>
      rw [hb] at hseam
      obtain ⟨g, hboth⟩ := hseam
      rw [hboth]
      exact .refused
    | ok tokens =>
      rw [hb] at hseam
      have hboth : Token.scan (a ++ "\n;" ++ b) =
        .ok (lexemes ++ tokens.map (Token.later a.length)) := hseam
      rw [hboth]
      dsimp only
      obtain ⟨token, second, e, rfl, htoken, he, hsecond⟩ := Token.scan_semicolon hb
      have hshaped : Tree.Growth.Shaped (fun _ _ => True) ⟨s.tree, Tree.root⟩ :=
        ⟨⟨⟨loose, hg⟩, .refl⟩, hstanding.formed, hstanding.scope⟩
      have hkeyword : ∀ u ∈ lexemes, u.kind = .keyword → (Keyword.ofText? u.text).isSome = true := by
        intro u hu
        have hfrom := Token.scan_scanned a
        rw [hscan] at hfrom
        exact (hfrom u (List.mem_append_left _ hu)).keyword
      have hbraces' : lexemes.countP Token.opens = lexemes.countP Token.closes := by
        rw [List.countP_append, List.countP_append] at hbraces
        exact Nat.add_right_cancel hbraces
      have hparallel := Tree.grow_seam hshaped hkeyword hkinds rfl hbraces' hgrow htoken hsecond he
        a.length
      have hleaves := Tree.grow_leaves tree (token :: second ++ [e])
      rcases hparallel.ends with ⟨v, hgrow₂, hgrow₁⟩ | ⟨stunted, stunted', hgrow₂, hgrow₁⟩
      · rw [hgrow₂] at hleaves
        rw [hgrow₂, hgrow₁]
        refine .read hleaves ?_
        intro n hn hne
        obtain ⟨loose', hg'⟩ := hstanding'.grove
        rw [Tree.grow_ended he hsecond] at hgrow₂
        have hopens := Token.opens_of_ne_keyword (t := token) (by rw [htoken]; decide)
        exact Tree.Growth.grow_statement_apart hg' hopens hgrow₂ hn hne
      · rw [hgrow₂, hgrow₁]
        exact .refused

/-- The text runs to its end: nothing fails, and no `return` stands outside of calls. -/
def RunsThrough (s : Session) (source : String) (ran : Session) : Prop :=
  ∃ fuel first loaded, s.load source = .done first loaded ∧
    (loaded.perform fun p => execute p fuel Tree.root first) = .done none ran

theorem RunsThrough.runSource (h : s.RunsThrough source ran) :
    ∃ fuel, s.runSource fuel source = .done () ran := by
  obtain ⟨fuel, first, loaded, hl, hrun⟩ := h
  exact ⟨fuel, by simp only [Session.runSource, hl, hrun]⟩

/-- With enough fuel, running the text ends well, in `state`. -/
def Finishes (s : Session) (source : String) (state : State) : Prop :=
  ∃ fuel t, s.runSource fuel source = .done () t ∧ t.state = state

/-- With enough fuel, running the text ends with `f`, in `state`. -/
def FailsWith (s : Session) (source : String) (f : Fault) (state : State) : Prop :=
  ∃ fuel t, s.runSource fuel source = .failed f t ∧ t.state = state

theorem finishes_iff (hl : s.load source = .done first loaded) : s.Finishes source state ↔
    ∃ r fuel, execute loaded.program fuel Tree.root first loaded.state = .done r state := by
  constructor
  · rintro ⟨fuel, t, hrun, rfl⟩
    simp only [runSource, hl, perform] at hrun
    cases he : execute loaded.program fuel Tree.root first loaded.state with
    | done r state =>
      rw [he] at hrun
      cases hrun
      exact ⟨r, fuel, he⟩
    | failed g state =>
      rw [he] at hrun
      cases hrun
    | outOfFuel =>
      rw [he] at hrun
      cases hrun
  · rintro ⟨r, fuel, he⟩
    exact ⟨fuel, { loaded with state }, by simp only [runSource, hl, perform, he], rfl⟩

theorem failsWith_iff (hl : s.load source = .done first loaded) : s.FailsWith source f state ↔
    ∃ fuel, execute loaded.program fuel Tree.root first loaded.state = .failed f state := by
  constructor
  · rintro ⟨fuel, t, hrun, rfl⟩
    rcases runSource_failed hrun with hfailed | ⟨first', loaded', state, hl', rfl, he⟩
    · rw [hl] at hfailed
      cases hfailed
    · rw [hl] at hl'
      cases hl'
      exact ⟨fuel, he⟩
  · rintro ⟨fuel, he⟩
    exact ⟨fuel, { loaded with state }, by simp only [runSource, hl, perform, he], rfl⟩

theorem perform_done {r : Option Value} (h : (s.perform fun p => execute p fuel Tree.root first) =
    .done r ran) : ∃ state, execute s.program fuel Tree.root first s.state = .done r state ∧
      ran = { s with state } := by
  simp only [perform] at h
  cases he : execute s.program fuel Tree.root first s.state with
  | outOfFuel =>
    rw [he] at h
    cases h
  | failed f state =>
    rw [he] at h
    cases h
  | done r' state =>
    rw [he] at h
    cases h
    exact ⟨state, rfl, rfl⟩

theorem load_state (hl : s.load source = .done first loaded) (state : State) :
    ({ s with state } : Session).load source = .done first { loaded with state } := by
  unfold Session.load at hl ⊢
  cases hscan : Token.scan source with
  | error f =>
    rw [hscan] at hl
    cases hl
  | ok tokens =>
    rw [hscan] at hl
    dsimp only at hl ⊢
    cases hgrow : s.tree.grow tokens with
    | error stunted =>
      rw [hgrow] at hl
      cases hl
    | ok tree =>
      rw [hgrow] at hl
      cases hl
      rfl

/-- Where the first text runs to its end, a run of both texts comes to the same as a run of the
second one from there. -/
theorem runs_joined {v : Tree} {k l d : Nat} (hs : s.Reachable) (ha : s.load a = .done n mid)
    (hran : s.RunsThrough a ran) (hgrows : mid.tree.GrowsTo v)
    (hnode : ∀ n < mid.tree.size, n ≠ Tree.root → v.node n = mid.tree.node n)
    (hsecond : mid.load b = .done l { mid with tree := v })
    (hboth : s.load source = .done k { s with tree := v.later mid.tree.size d }) :
    (∀ state, s.Finishes source state ↔ ran.Finishes b state) ∧
      ∀ (f : Fault) state, (∃ g, f.Alike g ∧ s.FailsWith source g state) ↔
        ∃ g, f.Alike g ∧ ran.FailsWith b g state := by
  have hreach : ran.Reachable := by
    obtain ⟨fuel, hrun⟩ := hran.runSource
    exact .run fuel a hs (congrArg Outcome.state? hrun)
  obtain ⟨fuel, first, loaded, hl, hperform⟩ := hran
  cases hl.symm.trans ha
  obtain ⟨m, rfl, rfl, hgrown, hmid⟩ := hs.standing.load_done ha
  obtain ⟨_, _, rfl, _, hv⟩ := hmid.load_done hsecond
  obtain ⟨_, _, rfl, _, hu⟩ := hs.standing.load_done hboth
  obtain ⟨loose, hg⟩ := hmid.grove
  obtain ⟨loose₁, hg₁⟩ := hv.grove
  obtain ⟨loose₂, hg₂⟩ := hu.grove
  obtain ⟨state, he, rfl⟩ := perform_done hperform
  have hmem := hs.standing.sound_load hs.sound (congrArg Outcome.state? ha)
  -- the first text runs alike in front of the second one
  have hkept : ∀ n < m.size, n ≠ Tree.root → (v.later m.size d).node n = m.node n := by
    intro n hn hne
    rw [Tree.node_later (hn.trans_le hgrows.size_le), if_pos hn]
    exact hnode n hn hne
  have hstart := hgrown.children_size_le Tree.root
  obtain ⟨hdone, hfailed⟩ := @execute_behind _ ⟨m, s.settings⟩ (v.later m.size d) loose loose₂
    s.state state fuel _ hmid.formed hg hg₂ hmid.scope (hgrows.later d) hkept hmem hstart he
  -- the second text runs alike where it stands later
  have hload := load_state hsecond state
  have hmem' := hreach.standing.sound_load hreach.sound (congrArg Outcome.state? hload)
  have hagree := fun fuel => @execute_later _ ⟨v, s.settings⟩ loose₁ state hv.formed hg₁ hv.scope
    hmem' m.size d fuel (m.children Tree.root).size
  constructor
  · intro t
    rw [finishes_iff hboth, finishes_iff hload]
    apply exists_congr
    intro r
    apply (hdone r t).trans
    exact exists_congr fun fuel => (hagree fuel).done_iff.symm
  · intro f t
    constructor
    · rintro ⟨g, hg, hfails⟩
      obtain ⟨fuel, he⟩ := (hfailed g t).mp ((failsWith_iff hboth).mp hfails)
      obtain ⟨g', hg', he'⟩ := (hagree fuel).failed_iff.mpr ⟨g, hg, he⟩
      exact ⟨g', hg', (failsWith_iff hload).mpr ⟨fuel, he'⟩⟩
    · rintro ⟨g, hg, hfails⟩
      obtain ⟨fuel, he⟩ := (failsWith_iff hload).mp hfails
      obtain ⟨g', hg', he'⟩ := (hagree fuel).failed_iff.mp ⟨g, hg, he⟩
      exact ⟨g', hg', (failsWith_iff hboth).mpr ((hfailed g' t).mpr ⟨fuel, he'⟩)⟩

/-- Both loads go well or neither does, and then the trees differ in positions only. If the first
text runs to its end as well, both runs finish in the same states and fail in the same states with
faults that differ in their offsets only. -/
theorem incremental_batch (hs : s.Reachable) (ha : s.load a = .done n mid)
    (hscan : Token.scan a = .ok tokens)
    (hbraces : tokens.countP Token.closes = tokens.countP Token.opens) :
    ((∃ k both, s.load (a ++ "\n;" ++ b) = .done k both) ↔
      ∃ k second, mid.load ("\n;" ++ b) = .done k second) ∧
    ∀ k both l second, s.load (a ++ "\n;" ++ b) = .done k both →
      mid.load ("\n;" ++ b) = .done l second →
      both.tree = second.tree.later mid.tree.size a.length ∧
      ∀ ran, s.RunsThrough a ran →
        (∀ state, s.Finishes (a ++ "\n;" ++ b) state ↔ ran.Finishes ("\n;" ++ b) state) ∧
        ∀ (f : Fault) state, (∃ g, f.Alike g ∧ s.FailsWith (a ++ "\n;" ++ b) g state) ↔
          ∃ g, f.Alike g ∧ ran.FailsWith ("\n;" ++ b) g state := by
  have hjoined := load_joined hs ha hscan hbraces.symm b
  refine ⟨?_, ?_⟩
  · generalize mid.load ("\n;" ++ b) = x at hjoined
    generalize s.load (a ++ "\n;" ++ b) = y at hjoined
    cases hjoined with
    | refused =>
      constructor
      · rintro ⟨k, both, h⟩
        cases h
      · rintro ⟨k, second, h⟩
        cases h
    | read _ _ => exact ⟨fun _ => ⟨_, _, rfl⟩, fun _ => ⟨_, _, rfl⟩⟩
  · intro k both l second hboth hsecond
    rw [hboth, hsecond] at hjoined
    cases hjoined with
    | read hgrows hnode =>
      exact ⟨rfl, fun ran hran => runs_joined hs ha hran hgrows hnode hsecond hboth⟩

/-- The call in the second text is one too many, whether the text is run after the definition or
together with it. -/
theorem call_behind_definition : ∃ (s ran : Session) (f : Fault) (state : State),
    s.RunsThrough "fn f() \x7bf()\x7d" ran ∧ ran.FailsWith ("\n;" ++ "f()") f state ∧
      f.text = "f" ∧
      ∃ g, f.Alike g ∧ s.FailsWith ("fn f() \x7bf()\x7d" ++ "\n;" ++ "f()") g state := by
  have hfirst : ∃ n mid ran, (Session.start ⟨"", 0⟩ { maxDepth := 1 } []).load
      "fn f() \x7bf()\x7d" = .done n mid ∧
      (mid.perform fun p => execute p 9 Tree.root n) = .done none ran ∧
      (∃ l second, mid.load ("\n;" ++ "f()") = .done l second) ∧
      ∃ f t, ran.runSource 20 ("\n;" ++ "f()") = .failed f t ∧ f.text = "f" :=
    ⟨_, _, _, by cbv, by cbv, ⟨_, _, by cbv⟩, _, _, by cbv, by cbv⟩
  have hscan : ∃ tokens, Token.scan "fn f() \x7bf()\x7d" = .ok tokens ∧
      tokens.countP Token.closes = tokens.countP Token.opens := ⟨_, by cbv, by cbv⟩
  obtain ⟨n, mid, ran, ha, hrun, ⟨l, second, hsecond⟩, f, t, hfails, htext⟩ := hfirst
  obtain ⟨tokens, hscan, hbraces⟩ := hscan
  have hran : (Session.start ⟨"", 0⟩ { maxDepth := 1 } []).RunsThrough "fn f() \x7bf()\x7d" ran :=
    ⟨9, n, mid, ha, hrun⟩
  have hfails : ran.FailsWith ("\n;" ++ "f()") f t.state := ⟨20, t, hfails, rfl⟩
  obtain ⟨hloads, hruns⟩ := incremental_batch (b := "f()") (.start ..) ha hscan hbraces
  obtain ⟨k, both, hboth⟩ := hloads.mpr ⟨l, second, hsecond⟩
  obtain ⟨_, hends⟩ := hruns k both l second hboth hsecond
  exact ⟨_, ran, f, t.state, hran, hfails, htext,
    ((hends ran hran).2 f t.state).mpr ⟨f, ⟨rfl, rfl, rfl⟩, hfails⟩⟩

end Arbor.Session
