import Arbor.Evaluate
import Arbor.Proofs.Growth.Layout
import Mathlib

/-!
# Guards and their bodies

The executor takes the children of an `if` in twos: a guard, and what stands behind it as its body.
What it executes then is a body, and that of an `else` stands with its own condition, exactly where
each `else` has found as many guards as bodies before it.
-/
namespace Arbor

/-- The children of an `if` in twos: each guard with what stands behind it. -/
def guarded : List NodeId → List (NodeId × Option NodeId)
  | [] => []
  | [guard] => [(guard, none)]
  | guard :: body :: rest => (guard, some body) :: guarded rest

theorem mem_guarded {nodes : List NodeId} {guard body : NodeId} :
    (guard, some body) ∈ guarded nodes ↔
      ∃ i, nodes[2 * i]? = some guard ∧ nodes[2 * i + 1]? = some body := by
  fun_induction guarded nodes with
  | case1 => simp
  | case2 => simp
  | case3 guard' body' rest ih =>
    rw [List.mem_cons, ih]
    constructor
    · rintro (heq | ⟨i, hguard, hbody⟩)
      · cases heq
        exact ⟨0, rfl, rfl⟩
      · exact ⟨i + 1, hguard, hbody⟩
    · rintro ⟨i, hguard, hbody⟩
      cases i with
      | zero =>
        cases hguard
        cases hbody
        exact Or.inl rfl
      | succ i => exact Or.inr ⟨i, hguard, hbody⟩

open Run

variable (p : Program)

/-- Executes what stands with the first guard that holds, if it is a body. -/
def runGuarded : Nat → List (NodeId × Option NodeId) → Run (Option Value)
  | _, [] => return none
  | 0, _ :: _ => outOfFuel
  | fuel + 1, (guard, body) :: rest => do
    let e ← evaluate p fuel (some guard)
    if e.value.truthy then
      match body with
      | some body => if p.tree.tag body = .body then execute p fuel body 0 else return none
      | none => return none
    else runGuarded fuel rest

variable {p}

/-- Where bodies stand in the odd places, branches execute bodies only. -/
theorem runBranches_eq_runGuarded {fuel : Nat} {nodes : List NodeId}
    (h : ∀ i c, nodes[2 * i + 1]? = some c → p.tree.tag c = .body) :
    runBranches p fuel nodes = runGuarded p fuel (guarded nodes) := by
  induction fuel generalizing nodes with
  | zero =>
    fun_cases guarded nodes <;> rw [runBranches, runGuarded]
  | succ fuel ih =>
    fun_cases guarded nodes with
    | case1 => rw [runBranches, runGuarded]
    | case2 guard =>
      rw [runBranches, runGuarded]
      congr 1
      funext e
      cases e.value.truthy
      · simp only [Bool.false_eq_true, if_false, runGuarded]
      · rfl
    | case3 guard body rest =>
      rw [runBranches, runGuarded]
      congr 1
      funext e
      cases e.value.truthy
      · exact ih fun i c hc => h (i + 1) c hc
      · exact (if_pos (h 0 body rfl)).symm

namespace Tree

variable {t : Tree} {tokens : List Token} {source : String}

theorem laidOut_iff_guarded : t.LaidOut ↔ ∀ n < t.size, t.tag n = .branch →
    ∀ pair ∈ guarded (t.children n).toList, ∀ body ∈ pair.2, t.tag body = .body := by
  constructor
  · rintro hlaid n - hn ⟨guard, body?⟩ hpair body hbody
    cases hbody
    obtain ⟨i, -, hi⟩ := mem_guarded.mp hpair
    exact hlaid n hn i body (child?_eq_some.mpr hi)
  · intro hall n hn i body hbody
    rw [child?_eq_some] at hbody
    have hlt := (List.getElem?_eq_some_iff.mp hbody).1
    have hguard := List.getElem?_eq_getElem (Nat.lt_of_succ_lt hlt)
    exact hall n (lt_of_tag (by rw [hn]; decide)) hn _ (mem_guarded.mpr ⟨i, hguard, hbody⟩) body rfl

instance : Decidable t.LaidOut := decidable_of_iff' _ laidOut_iff_guarded

/-- In every `if` of `t`, which `tokens` were read into, guards and bodies alternate: a body stands in
each odd place, an `else` has put its condition in an even place and its body behind it, and the
executor takes them as a pair and executes bodies only. -/
structure Alternates (tokens : List Token) (t : Tree) : Prop where
  bodies : t.LaidOut
  pairs : ∀ g token rest g' rest', planted.Reads tokens g (token :: rest) →
    token.furthers = true → g.statement (ending tokens) token rest = .ok (g', rest') →
    ∃ branch condition i, g.Furthered g' branch condition ∧
      t.child? branch (2 * i) = some condition ∧ t.child? branch (2 * i + 1) = some g'.scope ∧
      (condition, some g'.scope) ∈ guarded (t.children branch).toList
  executes : ∀ n, t.tag n = .branch → ∀ settings fuel,
    runBranches ⟨t, settings⟩ fuel (t.children n).toList =
      runGuarded ⟨t, settings⟩ fuel (guarded (t.children n).toList)

theorem grow_of_ofSource (hscan : Token.scan source = .ok tokens) (h : ofSource source = .ok t) :
    planted.grow tokens = .ok t := by
  simp only [ofSource, hscan] at h
  cases hgrow : planted.grow tokens with
  | ok u =>
    rw [hgrow] at h
    cases h
    rfl
  | error stunted =>
    rw [hgrow] at h
    cases h

/-- An `else` that finds an even number of children puts its guard in the even place that comes next,
and its body behind it. -/
theorem Reads.pairs {g g' : Growth} {token : Token} {rest rest' : List Token}
    (hreads : planted.Reads tokens g (token :: rest)) (hfurthers : token.furthers = true)
    (hs : g.statement (ending tokens) token rest = .ok (g', rest'))
    (hgrow : planted.grow tokens = .ok t)
    (heven : ∀ branch, g.tree.parent g.scope = some branch → (g.tree.children branch).size % 2 = 0) :
    ∃ branch condition i, g.Furthered g' branch condition ∧
      t.child? branch (2 * i) = some condition ∧ t.child? branch (2 * i + 1) = some g'.scope := by
  obtain ⟨loose, hgrove⟩ := (Growth.Passes.rooted hreads (planted_shaped fun _ _ => True).rooted).grove
  obtain ⟨litter, hplaced, -⟩ := Growth.statement_places hs
  obtain ⟨branch, condition, h⟩ := hplaced.furthered hgrove hfurthers
  have hgrows : Growth.Leaves g'.tree.GrowsTo id (g'.grow (ending tokens) rest') :=
    Growth.grow_growsTo (.refl g'.tree) rest'
  rw [← Growth.grow_ok hs, ← hreads.grow, hgrow] at hgrows
  obtain ⟨hcondition, hbody⟩ := h.child? hgrows
  have hsize : (g.tree.children branch).size = 2 * ((g.tree.children branch).size / 2) := by
    have := heven branch h.parent
    omega
  rw [hsize] at hcondition hbody
  exact ⟨branch, condition, _, h, hcondition, hbody⟩

/-- Guards and bodies alternate in the tree of a text exactly if each `else` finds an even number of
children on its `if`. -/
theorem alternates_iff_even (hscan : Token.scan source = .ok tokens)
    (h : ofSource source = .ok t) : Alternates tokens t ↔
      ∀ g token rest, planted.Reads tokens g (token :: rest) → token.furthers = true →
        ∀ branch, g.tree.parent g.scope = some branch →
          (g.tree.children branch).size % 2 = 0 := by
  have hgrow := grow_of_ofSource hscan h
  have hlaid := Growth.grow_laidOut_iff (planted_shaped _) hgrow
  constructor
  · intro halternates
    exact (hlaid.mp halternates.bodies).2
  · intro heven
    have hbodies := hlaid.mpr ⟨planted_laidOut, heven⟩
    constructor
    · exact hbodies
    · intro g token rest g' rest' hreads hfurthers hs
      obtain ⟨branch, condition, i, hfurthered, hcondition, hbody⟩ :=
        hreads.pairs hfurthers hs hgrow (heven g token rest hreads hfurthers)
      exact ⟨branch, condition, i, hfurthered, hcondition, hbody,
        mem_guarded.mpr ⟨i, child?_eq_some.mp hcondition, child?_eq_some.mp hbody⟩⟩
    · intro n hn settings fuel
      apply runBranches_eq_runGuarded
      intro i c hc
      exact hbodies n hn i c (child?_eq_some.mpr hc)

/-- Two conditions and an `else` without one. -/
theorem three_guards_alternate : ∃ tokens t,
    Token.scan "if a { print 1 else b print 2 else print 3 }" = .ok tokens ∧
    ofSource "if a { print 1 else b print 2 else print 3 }" = .ok t ∧
    (t.children 1).toList.map t.tag = [.get, .body, .get, .body, .numberLiteral, .body] ∧
    Alternates tokens t := by
  have htree : ∃ tokens t,
      Token.scan "if a { print 1 else b print 2 else print 3 }" = .ok tokens ∧
      ofSource "if a { print 1 else b print 2 else print 3 }" = .ok t ∧
      (t.children 1).toList.map t.tag = [.get, .body, .get, .body, .numberLiteral, .body] ∧
      decide t.LaidOut = true :=
    ⟨_, _, by cbv, by cbv, by cbv, by cbv⟩
  obtain ⟨tokens, t, hscan, ht, htags, hlaid⟩ := htree
  have heven := (Growth.grow_laidOut_iff (planted_shaped _) (grow_of_ofSource hscan ht)).mp
    (of_decide_eq_true hlaid)
  exact ⟨tokens, t, hscan, ht, htags, (alternates_iff_even hscan ht).mpr heven.2⟩

/-- An `if` without a condition: its body stands as a guard, the condition of the `else` where a body
should, and the body of the `else` as a guard again. -/
theorem body_without_guard : ∃ tokens t,
    Token.scan "if { ; else 0; print 5; }" = .ok tokens ∧
    ofSource "if { ; else 0; print 5; }" = .ok t ∧
    (t.children 1).toList.map t.tag = [.body, .numberLiteral, .body] ∧ ¬Alternates tokens t := by
  have htree : ∃ tokens t, Token.scan "if { ; else 0; print 5; }" = .ok tokens ∧
      ofSource "if { ; else 0; print 5; }" = .ok t ∧
      (t.children 1).toList.map t.tag = [.body, .numberLiteral, .body] ∧
      decide t.LaidOut = false :=
    ⟨_, _, by cbv, by cbv, by cbv, by cbv⟩
  obtain ⟨tokens, t, hscan, ht, htags, hlaid⟩ := htree
  exact ⟨tokens, t, hscan, ht, htags, fun h => of_decide_eq_false hlaid h.bodies⟩

end Tree

end Arbor
