import Arbor.Proofs.Grammar.Continued
import Arbor.Proofs.Growth.Seam
import Arbor.Proofs.Session.Litter
import Arbor.Proofs.Session.Standing

/-!
# Texts behind texts

A text adds its statements behind those of earlier texts and leaves all else alone, and whether it is
accepted does not hang on them: this holds of every text but one that starts with a body and finds a
statement to hang it on.
-/
namespace Arbor

namespace Tree

/-- `u` is `t` with further statements, which hang on the root from the place `first` on. -/
structure Appended (t u : Tree) (first : Nat) : Prop where
  size_le : t.size ≤ u.size
  node : ∀ n < t.size, n ≠ root → u.node n = t.node n
  tag : u.tag root = t.tag root
  text : u.text root = t.text root
  position : u.position root = t.position root
  parent : u.parent root = t.parent root
  kept : (u.children root).toList.take first = (t.children root).toList
  new : ∀ c ∈ (u.children root).toList.drop first, t.size ≤ c ∧ (u.tag c).isStatement = true

variable {t u : Tree} {loose loose' : List NodeId} {tokens : List Token}

theorem GrowsTo.appended (h : t.GrowsTo u) (ht : t.Grove loose)
    (hu : u.Formed fun _ _ => True) (hroot : (u.tag root).isScope = true)
    (hnode : ∀ n < t.size, n ≠ root → u.node n = t.node n) :
    t.Appended u (t.children root).size := by
  obtain ⟨new, hnew, hle⟩ := h.children root ht.size_pos
  have hlength : (t.children root).size = (t.children root).toList.length := rfl
  constructor
  · exact h.size_le
  · exact hnode
  · exact h.tag root ht.size_pos
  · exact h.text root ht.size_pos
  · exact h.position root ht.size_pos
  · exact h.parent root ht.size_pos
  · rw [hnew, hlength, List.take_left]
  · rw [hnew, hlength, List.drop_left]
    intro c hc
    have hmem : c ∈ u.children root := by
      rw [← Array.mem_toList_iff, hnew]
      exact List.mem_append_right _ hc
    obtain ⟨i, hi⟩ := child?_of_mem hmem
    exact ⟨hle c hc, ((hu.hangs root i c hi).stated hroot).tag⟩

/-- A text that does not start with a body leaves all old nodes but the root as they are. -/
theorem grow_apart (ht : t.Grove loose) (hstart : Token.startBody tokens = false)
    (h : t.grow tokens = .ok u) : ∀ n < t.size, n ≠ root → u.node n = t.node n := by
  rw [← Token.startBody_takeWhile] at hstart
  unfold grow at h
  intro n hn hne
  -- the first statement hangs on the root, and all others on what is new
  cases htokens : tokens.takeWhile (·.kind ≠ .eof) with
  | nil =>
    rw [htokens, Growth.grow] at h
    cases h
    rfl
  | cons token rest =>
    rw [htokens] at h hstart
    exact Growth.grow_statement_apart ht hstart h hn hne

end Tree

namespace Session

open Arbor.Tree (root)

variable {s s' : Session} {source : String} {first : Nat}

/-- If the text is accepted it appends statements only, and it is accepted exactly if it is on its
own. -/
def AppendsOnly (s : Session) (source : String) : Prop :=
  (∀ first s', s.load source = .done first s' → s.tree.Appended s'.tree first) ∧
    ((∃ first s', s.load source = .done first s') ↔ ∃ t, Tree.ofSource source = .ok t)

/-- The text starts with a body and is accepted: the body hangs on the last statement before. -/
def Reopens (s : Session) (source : String) : Prop :=
  ∃ tokens first s', Token.scan source = .ok tokens ∧ Token.startBody tokens = true ∧
    s.load source = .done first s'

theorem ofSource_iff {tokens : List Token} (h : Token.scan source = .ok tokens) :
    (∃ t, Tree.ofSource source = .ok t) ↔ ∃ t, Tree.planted.grow tokens = .ok t := by
  simp only [Tree.ofSource, h]
  cases hgrow : Tree.planted.grow tokens with
  | ok t => simp [Except.mapError]
  | error stunted => simp [Except.mapError]

theorem load_iff {tokens : List Token} (h : Token.scan source = .ok tokens) :
    (∃ first s', s.load source = .done first s') ↔ ∃ t, s.tree.grow tokens = .ok t := by
  simp only [Session.load, h]
  cases hgrow : s.tree.grow tokens with
  | ok t => simp
  | error stunted => simp

theorem load_appends (h : s.Reachable) {tokens : List Token} (hscan : Token.scan source = .ok tokens)
    (hstart : Token.startBody tokens = false) (hl : s.load source = .done first s') :
    s.tree.Appended s'.tree first := by
  have hloads := h.standing.loads source fun _ _ _ => trivial
  rw [hl] at hloads
  cases hloads with
  | read hscan' hgrow hgrows hstanding =>
    rw [hscan] at hscan'
    cases hscan'
    exact hgrows.appended h.grove_nil hstanding.formed hstanding.scope
      (Tree.grow_apart h.grove_nil hstart hgrow)

/-- Loading a text appends only, and asks for nothing but the text, except where the text starts with
a body that hangs on an old statement. -/
theorem load_appendsOnly_iff (h : s.Reachable) (source : String) :
    s.AppendsOnly source ↔ ¬s.Reopens source := by
  cases hscan : Token.scan source with
  | error fault =>
    have hload : s.load source = .failed fault s := by simp only [Session.load, hscan]
    have hsource : Tree.ofSource source = .error fault := by simp only [Tree.ofSource, hscan]
    simp [AppendsOnly, Reopens, hload, hsource, hscan]
  | ok tokens =>
    cases hstart : Token.startBody tokens with
    | false =>
      have hsame := Grammar.grow_iff_planted h.grove_nil hstart
      refine iff_of_true ⟨fun first s' hl => load_appends h hscan hstart hl, ?_⟩ ?_
      · rw [load_iff hscan, ofSource_iff hscan, hsame]
      · rintro ⟨tokens', first, s', hscan', hstart', -⟩
        rw [hscan] at hscan'
        cases hscan'
        rw [hstart] at hstart'
        cases hstart'
    | true =>
      have hrefused := Grammar.planted_refuses_body hstart
      constructor
      · rintro ⟨-, hsame⟩ ⟨_, first, s', _, _, hl⟩
        exact hrefused ((ofSource_iff hscan).mp (hsame.mp ⟨first, s', hl⟩))
      · intro hnot
        have hfails : ¬∃ first s', s.load source = .done first s' := by
          rintro ⟨first, s', hl⟩
          exact hnot ⟨tokens, first, s', hscan, hstart, hl⟩
        refine ⟨fun first s' hl => absurd ⟨first, s', hl⟩ hfails, ?_⟩
        rw [ofSource_iff hscan]
        exact iff_of_false hfails hrefused

/-- Behind an `if` a statement is appended, and so is its body; a body on its own is not. -/
theorem print_appends_only : ∃ s : Session, s.Reachable ∧ s.tree.size = 3 ∧
    s.AppendsOnly "print a \x7b;\x7d" ∧ ¬s.AppendsOnly "\x7b;\x7d" := by
  have hrun : ∃ s tokens tokens' first s',
      (Session.start ⟨"", 0⟩ {} []).runSource 9 "if a" = .done () s ∧ s.tree.size = 3 ∧
      Token.scan "print a \x7b;\x7d" = .ok tokens ∧ Token.startBody tokens = false ∧
      Token.scan "\x7b;\x7d" = .ok tokens' ∧ Token.startBody tokens' = true ∧
      s.load "\x7b;\x7d" = .done first s' :=
    ⟨_, _, _, _, _, by cbv, by cbv, by cbv, by cbv, by cbv, by cbv, by cbv⟩
  obtain ⟨s, tokens, tokens', first, s', hs, hsize, hscan, hstart, hscan', hstart', hl⟩ := hrun
  have hreach : s.Reachable := .run 9 "if a" (.start ..) (congrArg Outcome.state? hs)
  refine ⟨s, hreach, hsize, (load_appendsOnly_iff hreach _).mpr ?_, ?_⟩
  · rintro ⟨ts, first, s', hts, hstarts, -⟩
    rw [hscan] at hts
    cases hts
    rw [hstart] at hstarts
    cases hstarts
  · intro happends
    exact (load_appendsOnly_iff hreach _).mp happends ⟨tokens', first, s', hscan', hstart', hl⟩

/-- On its own the text is refused. Behind an `if` it is accepted, and the old `if`, which had its
condition only, has got a body. -/
theorem body_hangs_on_old_if : ∃ (s s' : Session) (first : Nat) (fault : Fault), s.Reachable ∧
    Tree.ofSource "\x7b;\x7d" = .error fault ∧ s.load "\x7b;\x7d" = .done first s' ∧
    s.tree.children 1 = #[2] ∧ s'.tree.children 1 = #[2, 3] ∧ ¬s.AppendsOnly "\x7b;\x7d" := by
  have hrun : ∃ s s' first fault, (Session.start ⟨"", 0⟩ {} []).runSource 9 "if a" = .done () s ∧
      Tree.ofSource "\x7b;\x7d" = .error fault ∧ s.load "\x7b;\x7d" = .done first s' ∧
      s.tree.children 1 = #[2] ∧ s'.tree.children 1 = #[2, 3] :=
    ⟨_, _, _, _, by cbv, by cbv, by cbv, by cbv, by cbv⟩
  obtain ⟨s, s', first, fault, hs, hsource, hl, hold, hnew⟩ := hrun
  have hreach : s.Reachable := .run 9 "if a" (.start ..) (congrArg Outcome.state? hs)
  refine ⟨s, s', first, fault, hreach, hsource, hl, hold, hnew, ?_⟩
  rintro ⟨-, hsame⟩
  obtain ⟨t, ht⟩ := hsame.mp ⟨first, s', hl⟩
  rw [hsource] at ht
  cases ht

end Session

end Arbor
