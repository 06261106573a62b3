import Arbor.Evaluate
import Arbor.Proofs.Run.Effect
import Arbor.Proofs.Tree.Links
import Mathlib

/-!
# Programs without loops end

Every way round the recursion goes through a step one level deeper, and levels are limited. Between
one level and the next a program without loops takes a bounded number of steps, since a body has
finitely many statements and a call binds finitely many parameters. So some fuel always suffices, and
how much is told by the levels that are free and by the width of the tree.
-/
namespace Arbor

open Run

def Tree.width (t : Tree) : Nat := (Finset.range t.size).sup fun n => (t.children n).size

theorem Tree.children_size_le_width (t : Tree) (n : NodeId) : (t.children n).size ≤ t.width := by
  by_cases hn : n < t.size
  · exact Finset.le_sup (f := fun n => (t.children n).size) (Finset.mem_range.mpr hn)
  · simp [children_of_le (Nat.le_of_not_lt hn)]

/-- Wherever at most `room` levels are free, the run ends at the level at which it started. -/
def Run.Settles (limit room : Nat) (x : Run α) : Prop :=
  ∀ s, limit ≤ s.nesting + room → ∃ s', (x s).state? = some s' ∧ s'.nesting = s.nesting

namespace Run.Settles

variable {p : Program} {limit room : Nat} {x : Run α}

theorem pure (a : α) : Settles limit room (Pure.pure a) :=
  fun s _ => ⟨s, rfl, rfl⟩

theorem bind {f : α → Run β} (hx : Settles limit room x) (hf : ∀ a, Settles limit room (f a)) :
    Settles limit room (x >>= f) := by
  intro s hs
  obtain ⟨s', hs', hnesting⟩ := hx s hs
  cases hxs : x s with
  | outOfFuel =>
    rw [hxs] at hs'
    cases hs'
  | failed fault t =>
    rw [hxs] at hs'
    rw [bind_of_failed f hxs]
    exact ⟨s', hs', hnesting⟩
  | done a t =>
    rw [hxs] at hs'
    cases hs'
    obtain ⟨s'', hs'', hnesting'⟩ := hf a s' (by omega)
    rw [bind_of_done f hxs]
    exact ⟨s'', hs'', by omega⟩

theorem memory : Settles limit room Run.memory :=
  fun s _ => ⟨s, rfl, rfl⟩

theorem store (name : String) (value : Value) (params : Option NodeId) (scope : NodeId) :
    Settles limit room (Run.store p name value params scope) :=
  fun _ _ => ⟨_, rfl, rfl⟩

theorem remove (name : String) (scope : NodeId) : Settles limit room (Run.remove p name scope) :=
  fun _ _ => ⟨_, rfl, rfl⟩

theorem emit (e : Emission) : Settles limit room (Run.emit e) :=
  fun _ _ => ⟨_, rfl, rfl⟩

theorem print (text : String) : Settles limit room (Run.print p text) := by
  refine (emit _).bind fun _ => ?_
  by_cases hline : p.settings.printNewline = true
  · simpa [hline] using emit _
  · simpa [hline] using pure ()

theorem readLine : Settles limit room Run.readLine := by
  intro s _
  unfold Run.readLine
  cases s.input with
  | nil => exact ⟨s, rfl, rfl⟩
  | cons line rest => exact ⟨_, rfl, rfl⟩

theorem checkDepth (name : String) (access : NodeId) :
    Settles limit room (Run.checkDepth p name access) := by
  intro s _
  unfold Run.checkDepth
  by_cases h : s.depth < p.settings.maxDepth
  · rw [if_pos h]
    exact ⟨s, rfl, rfl⟩
  · rw [if_neg h]
    exact ⟨s, rfl, rfl⟩

theorem nested_full (node : NodeId) (x : Run α) :
    Settles p.settings.maxNesting 0 (Run.nested p node x) := by
  intro s hs
  rw [nested_of_not_lt node x (by omega)]
  exact ⟨s, rfl, rfl⟩

theorem nested (node : NodeId) (hx : Settles p.settings.maxNesting room x) :
    Settles p.settings.maxNesting (room + 1) (Run.nested p node x) := by
  intro s hs
  by_cases hlimit : s.nesting < p.settings.maxNesting
  · obtain ⟨s', hs', hnesting⟩ := hx { s with nesting := s.nesting + 1 } (by dsimp only; omega)
    rw [nested_of_lt node x hlimit, Outcome.state?_update, hs']
    exact ⟨_, rfl, by simp [hnesting]⟩
  · rw [nested_of_not_lt node x hlimit]
    exact ⟨s, rfl, rfl⟩

theorem called (hx : Settles limit room x) : Settles limit room (Run.called x) := by
  intro s hs
  obtain ⟨s', hs', hnesting⟩ := hx { s with depth := s.depth + 1 } hs
  rw [called_eq, Outcome.state?_update, hs']
  exact ⟨_, rfl, hnesting⟩

end Run.Settles

/-- Where at most `room` levels are free, what is evaluated or executed with `bound` units of fuel
ends. -/
structure Settling (p : Program) (room bound : Nat) : Prop where
  evaluate : ∀ fuel node, bound ≤ fuel →
    Settles p.settings.maxNesting room (evaluate p fuel node)
  execute : ∀ fuel body start, bound ≤ fuel →
    Settles p.settings.maxNesting room (execute p fuel body start)

namespace Settling

variable {p : Program} {room bound fuel : Nat}

theorem bindParams (h : Settling p room bound) (names : List String) (arguments : List NodeId)
    (body : NodeId) (hfuel : bound + names.length ≤ fuel) :
    Settles p.settings.maxNesting room (bindParams p fuel names arguments body) := by
  induction names generalizing fuel arguments with
  | nil =>
    cases fuel <;>
      · rw [Arbor.bindParams]
        exact .pure ()
  | cons name names ih =>
    simp only [List.length_cons] at hfuel
    obtain ⟨fuel, rfl⟩ := Nat.exists_eq_add_of_le' (show 1 ≤ fuel by omega)
    cases arguments with
    | nil =>
      rw [Arbor.bindParams]
      exact (Settles.store _ _ _ _).bind fun _ => ih [] (by omega)
    | cons argument arguments =>
      rw [Arbor.bindParams]
      refine (h.evaluate fuel _ (by omega)).bind fun e => ?_
      exact (Settles.store _ _ _ _).bind fun _ => ih arguments (by omega)

theorem paramNames_length (p : Program) (params : Option NodeId) :
    (paramNames p params).length ≤ p.tree.width := by
  cases params with
  | none => exact Nat.zero_le _
  | some list =>
    simp only [paramNames, List.length_map, Array.length_toList]
    exact p.tree.children_size_le_width list

theorem runCall (h : Settling p room bound) (name : String) (arguments : Option NodeId)
    (access : NodeId) (hfuel : bound + p.tree.width + 1 ≤ fuel) :
    Settles p.settings.maxNesting room (runCall p fuel name arguments access) := by
  obtain ⟨fuel, rfl⟩ := Nat.exists_eq_add_of_le' (show 1 ≤ fuel by omega)
  simp only [Arbor.runCall]
  refine Settles.memory.bind fun m => ?_
  split
  · exact .pure _
  · next b _ =>
    split
    · next body _ =>
      have hnames := paramNames_length p b.params
      refine (Settles.checkDepth name access).bind fun _ => ?_
      refine (h.bindParams _ _ body (by omega)).bind fun _ => ?_
      exact (h.execute fuel body 0 (by omega)).called.bind fun r => .pure _
    · exact .pure _

theorem evaluateNode (h : Settling p room bound) (node : NodeId)
    (hfuel : bound + p.tree.width + 2 ≤ fuel) :
    Settles p.settings.maxNesting room (evaluateNode p fuel node) := by
  obtain ⟨fuel, rfl⟩ := Nat.exists_eq_add_of_le' (show 1 ≤ fuel by omega)
  simp only [Arbor.evaluateNode]
  split
  · exact .pure _
  · exact .pure _
  · refine Settles.memory.bind fun m => ?_
    split <;> exact .pure _
  · exact (h.runCall _ _ _ (by omega)).bind fun v => .pure _
  · exact (h.execute fuel node 0 (by omega)).bind fun r => .pure _
  · refine (h.evaluate fuel _ (by omega)).bind fun left => ?_
    exact (h.evaluate fuel _ (by omega)).bind fun right => .pure _
  · exact .pure _

theorem runBranches (h : Settling p room bound) (nodes : List NodeId)
    (hfuel : bound + nodes.length ≤ fuel) :
    Settles p.settings.maxNesting room (runBranches p fuel nodes) := by
  induction fuel generalizing nodes with
  | zero =>
    have hnil : nodes = [] := List.eq_nil_of_length_eq_zero (by omega)
    subst hnil
    rw [Arbor.runBranches]
    exact .pure none
  | succ fuel ih =>
    cases nodes with
    | nil =>
      rw [Arbor.runBranches]
      exact .pure none
    | cons condition rest =>
      simp only [List.length_cons] at hfuel
      rw [Arbor.runBranches]
      refine (h.evaluate fuel _ (by omega)).bind fun e => ?_
      split
      · exact h.execute fuel _ 0 (by omega)
      · exact .pure none
      · simp only [List.length_cons] at hfuel
        exact ih _ (by omega)
      · exact .pure none

theorem executeStatement (h : Settling p room bound) (node : NodeId)
    (hloop : p.tree.tag node ≠ .loop) (hfuel : bound + p.tree.width + 2 ≤ fuel) :
    Settles p.settings.maxNesting room (executeStatement p fuel node) := by
  obtain ⟨fuel, rfl⟩ := Nat.exists_eq_add_of_le' (show 1 ≤ fuel by omega)
  have hoperand := h.evaluate fuel (p.tree.child? node 0) (by omega)
  simp only [Arbor.executeStatement]
  cases htag : p.tree.tag node with
  | store => exact hoperand.bind fun e => (Settles.store _ _ _ _).bind fun _ => .pure none
  | function => exact (Settles.store _ _ _ _).bind fun _ => .pure none
  | remove => exact (Settles.remove _ _).bind fun _ => .pure none
  | input => exact Settles.readLine.bind fun line => (Settles.store _ _ _ _).bind fun _ => .pure none
  | call => exact (h.runCall _ _ _ (by omega)).bind fun _ => .pure none
  | branch =>
    have hchildren := p.tree.children_size_le_width node
    exact h.runBranches _ (by simp only [Array.length_toList]; omega)
  | loop => exact absurd htag hloop
  | output => exact hoperand.bind fun e => (Settles.print _).bind fun _ => .pure none
  | giveBack => exact hoperand.bind fun e => .pure _
  | _ => exact .pure none

theorem runStatements (h : Settling p room bound) (hloop : ∀ n, p.tree.tag n ≠ .loop)
    (statements : List NodeId) (hfuel : bound + p.tree.width + 2 + statements.length ≤ fuel) :
    Settles p.settings.maxNesting room (runStatements p fuel statements) := by
  induction statements generalizing fuel with
  | nil =>
    cases fuel <;>
      · rw [Arbor.runStatements]
        exact .pure none
  | cons statement rest ih =>
    simp only [List.length_cons] at hfuel
    obtain ⟨fuel, rfl⟩ := Nat.exists_eq_add_of_le' (show 1 ≤ fuel by omega)
    rw [Arbor.runStatements]
    refine (h.executeStatement statement (hloop statement) (by omega)).bind fun r => ?_
    cases r with
    | some returned => exact .pure _
    | none => exact ih (by omega)

theorem full (p : Program) : Settling p 0 1 where
  evaluate fuel node hfuel := by
    obtain ⟨fuel, rfl⟩ := Nat.exists_eq_add_of_le' hfuel
    cases node with
    | none =>
      rw [Arbor.evaluate]
      exact .pure _
    | some node =>
      rw [Arbor.evaluate]
      exact .nested_full node _
  execute fuel body start hfuel := by
    obtain ⟨fuel, rfl⟩ := Nat.exists_eq_add_of_le' hfuel
    rw [Arbor.execute]
    exact .nested_full body _

theorem deeper (hloop : ∀ n, p.tree.tag n ≠ .loop) (h : Settling p room bound) :
    Settling p (room + 1) (bound + (2 * p.tree.width + 3)) where
  evaluate fuel node hfuel := by
    obtain ⟨fuel, rfl⟩ := Nat.exists_eq_add_of_le' (show 1 ≤ fuel by omega)
    cases node with
    | none =>
      rw [Arbor.evaluate]
      exact .pure _
    | some node =>
      rw [Arbor.evaluate]
      exact .nested node (h.evaluateNode node (by omega))
  execute fuel body start hfuel := by
    obtain ⟨fuel, rfl⟩ := Nat.exists_eq_add_of_le' (show 1 ≤ fuel by omega)
    have hchildren := p.tree.children_size_le_width body
    rw [Arbor.execute]
    refine .nested body (h.runStatements hloop _ ?_)
    simp only [List.length_drop, Array.length_toList]
    omega

end Settling

/-- In a program without loops a fuel that grows with the number of free levels suffices. -/
theorem settling {p : Program} (hloop : ∀ n, p.tree.tag n ≠ .loop) (room : Nat) :
    Settling p room (room * (2 * p.tree.width + 3) + 1) := by
  induction room with
  | zero => simpa using Settling.full p
  | succ room ih =>
    have hbound : (room + 1) * (2 * p.tree.width + 3) + 1 =
        room * (2 * p.tree.width + 3) + 1 + (2 * p.tree.width + 3) := by
      rw [Nat.succ_mul]
      omega
    rw [hbound]
    exact ih.deeper hloop

end Arbor
