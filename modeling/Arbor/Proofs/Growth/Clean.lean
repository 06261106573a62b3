import Arbor.Proofs.Grammar.Statements
import Arbor.Proofs.Growth.Rooted

/-!
# Growth that succeeds leaves no litter

An operand that is tried and not read sends its tokens back to be read as statements. Where an
expression starts none of them can be one, so that in a growth which succeeds no expression was
started and given up: nothing was taken and nothing was added. What is not litter hangs on the tree.
-/
namespace Arbor

namespace Expr

theorem readOptional_bare {ts : List Token} (h : Grammar.starts ts = false) :
    readOptional ts = (.error ⟨[], none, ts⟩, ts) := by
  have hread : read .whole ts = .error ⟨[], none, ts⟩ := by
    cases ts with
    | nil => rfl
    | cons t rest =>
      simp only [Grammar.starts, decide_eq_false_iff_not, not_or] at h
      obtain ⟨hstring, hnumber, hname⟩ := h
      have hmove : move .whole [] t none = .stuck := by
        simp only [move]
        split <;> first | contradiction | rfl
      rw [read, readFrom, hmove]
  simp only [readOptional, hread]

end Expr

namespace Tree

variable {t t' : Tree} {n : NodeId} {loose : List NodeId}

theorem litter_bare (u : Tree) (ts : List Token) : u.litter ⟨[], none, ts⟩ = u := rfl

namespace Growth

variable {g g' : Growth} {eof token : Token} {rest rest' tokens tokens' ts : List Token}

inductive Passes (eof : Token) : Growth → List Token → Growth → List Token → Prop where
  | refl {g : Growth} {tokens : List Token} : Passes eof g tokens g tokens
  | step {g g' g'' : Growth} {token : Token} {rest rest' tokens : List Token} :
      g.statement eof token rest = .ok (g', rest') → Passes eof g' rest' g'' tokens →
      Passes eof g (token :: rest) g'' tokens

theorem Passes.grow (h : Passes eof g tokens g' tokens') :
    grow eof g tokens = grow eof g' tokens' := by
  induction h with
  | refl => rfl
  | step hs _ ih => rw [grow_ok hs, ih]

theorem Passes.rooted (h : Passes eof g tokens g' tokens') (hg : g.Rooted) : g'.Rooted := by
  induction h with
  | refl => exact hg
  | step hs _ ih => exact ih (statement_rooted hg hs)

theorem grow_cons (h : grow eof g (token :: rest) = .ok t) : ∃ g' rest',
    g.statement eof token rest = .ok (g', rest') ∧ grow eof g' rest' = .ok t := by
  cases hs : g.statement eof token rest with
  | ok r => exact ⟨r.1, r.2, rfl, (grow_ok hs).symm.trans h⟩
  | error stunted =>
    rw [grow_error hs] at h
    cases h

theorem Tries.rest_eq (h : Tries g token rest ts)
    (hs : g.statement eof token rest = .ok (g', rest')) : rest' = (Expr.readOptional ts).2 := by
  cases h with
  | @operand k hkind hk hoperand =>
    simp only [statement, hkind, keyword, hk] at hs
    rcases hoperand with rfl | rfl | rfl | rfl <;> cases hs <;> rfl
  | condition hkind hk _ =>
    simp only [statement, hkind, keyword, hk] at hs
    obtain ⟨branch, -, -, hrest, -⟩ := elseBranch_cases hs
    exact hrest
  | value hkind hread hcolon =>
    simp only [statement, hkind] at hs
    rcases nameStatement_cases hs with ⟨name, colon, after, hread', -, hrest, -⟩ | ⟨call, hread', hne, -⟩
    · rw [hread] at hread'
      cases hread'
      exact hrest
    · rw [hread] at hread'
      cases hread'
      exact absurd rfl (hne _)

/-- Every operand that is tried in a growth that succeeds is read, or none starts there. -/
theorem Tries.read_or_bare (h : Tries g token rest ts)
    (hgrow : grow eof g (token :: rest) = .ok t) :
    (∃ e, (Expr.readOptional ts).1 = .ok e) ∨ Grammar.starts ts = false := by
  rcases Grammar.optional_cases ts with ⟨operand, after, hread, hoptional⟩ | ⟨_, hread, _, hbreaks⟩
  · cases hstarts : Grammar.starts ts with
    | false => exact Or.inr rfl
    | true =>
      simp only [Grammar.optional?, hstarts, if_true] at hoptional
      obtain ⟨r, hr, -⟩ := Option.map_eq_some_iff.mp hoptional
      obtain ⟨e, he⟩ := Grammar.readOptional_some hr
      exact Or.inl ⟨e, by rw [he]⟩
  · obtain ⟨g', rest', hs, hgrow'⟩ := grow_cons hgrow
    have hrest := h.rest_eq hs
    rw [hread] at hrest
    obtain ⟨stunted, hfails⟩ := @Grammar.BreaksOff.grow eof ts hbreaks g'
    rw [hrest, hfails] at hgrow'
    cases hgrow'

theorem clean_of_grow (hgrow : grow eof g (token :: rest) = .ok t) : g.Clean token rest := by
  intro ts htries stuck hstuck u
  rcases htries.read_or_bare hgrow with ⟨e, he⟩ | hstarts
  · rw [he] at hstuck
    cases hstuck
  · rw [Expr.readOptional_bare hstarts] at hstuck
    cases hstuck
    exact litter_bare u ts

/-- What is loose in the end was loose from the start. -/
theorem grow_grove_same (hg : g.tree.Grove loose) (hs : g.tree.Under root g.scope)
    (h : grow eof g tokens = .ok t) : t.Grove loose := by
  fun_induction grow eof g tokens with
  | case1 =>
    cases h
    exact hg
  | case2 g token rest g' rest' hstep ih =>
    obtain ⟨litter, hplaced, hclean⟩ := statement_places hstep
    obtain ⟨hgrove, hunder⟩ := hplaced.grove hg hs
    rw [hclean (clean_of_grow ((grow_ok hstep).trans h))] at hgrove
    exact ih hgrove hunder h
  | case3 => cases h

end Growth

theorem grow_grove_same {tokens : List Token} (h : t.Grove loose) (hg : t.grow tokens = .ok t') :
    t'.Grove loose :=
  Growth.grow_grove_same h .refl hg

def ending (tokens : List Token) : Token := (tokens.find? (·.kind = .eof)).getD (eofAfter tokens)

/-- While `tokens` are read onto `t`, growth comes to `g` and has `rest` before it. -/
def Reads (t : Tree) (tokens : List Token) (g : Growth) (rest : List Token) : Prop :=
  Growth.Passes (ending tokens) ⟨t, root⟩ (tokens.takeWhile (·.kind ≠ .eof)) g rest

theorem Reads.grow {tokens rest : List Token} {g : Growth} (h : t.Reads tokens g rest) :
    t.grow tokens = g.grow (ending tokens) rest :=
  Growth.Passes.grow h

theorem follow?_append (t : Tree) (path : List Nat) (i : Nat) :
    t.follow? (path ++ [i]) = (t.follow? path).bind (t.child? · i) := by
  simp [follow?, List.foldlM_append]

theorem Grove.exists_path (h : t.Grove []) (hn : n < t.size) : ∃ path, t.follow? path = some n := by
  obtain ⟨r, hr, hrn⟩ := h.covered n hn
  obtain rfl := List.mem_singleton.mp hr
  clear hr hn
  induction hrn with
  | refl => exact ⟨[], rfl⟩
  | step hp _ ih =>
    obtain ⟨path, hpath⟩ := ih
    obtain ⟨i, hi⟩ := Array.mem_iff_getElem?.mp ((h.parent_iff _ _).mp hp)
    exact ⟨path ++ [i], by rw [follow?_append, hpath, Option.bind_some, child?, hi]⟩

end Tree

end Arbor
