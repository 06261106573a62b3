import Arbor.Evaluate
import Arbor.Proofs.Run.Effect

/-!
# A program keeps to its tree

A run that starts in a set of nodes that is closed under children and parents stays in it: it stores
at places in the set only, and the bodies that it stores and gives are in the set.
-/
namespace Arbor

structure Tree.Closed (t : Tree) (R : NodeId → Prop) : Prop where
  child : ∀ n c, R n → c ∈ t.children n → R c
  parent : ∀ n p, R n → t.parent n = some p → R p

def Returned.Within (R : NodeId → Prop) (r : Option Value) : Prop := ∀ v, r = some v → v.Within R

open Run

variable {p : Program} {R : NodeId → Prop} {fuel : Nat}

theorem Tree.Closed.child? {t : Tree} (h : t.Closed R) {n c : NodeId} {i : Nat} (hn : R n)
    (hc : t.child? n i = some c) : R c :=
  h.child n c hn (Array.mem_of_getElem? hc)

theorem Tree.Closed.children {t : Tree} (h : t.Closed R) {n : NodeId} (hn : R n) :
    ∀ c ∈ (t.children n).toList, R c :=
  fun c hc => h.child n c hn (Array.mem_toList_iff.mp hc)

theorem Tree.Closed.scope {t : Tree} (h : t.Closed R) {n : NodeId} (hn : R n) :
    R ((t.parent n).getD n) := by
  cases hp : t.parent n with
  | none => exact hn
  | some q => exact h.parent n q hn hp

theorem Returned.within_getD {r : Option Value} (h : Returned.Within R r) :
    (r.getD .null).Within R := by
  cases r with
  | none => intro id hid; cases hid
  | some v => exact h v rfl

theorem Operator.apply_ne_body (symbol : String) (left right : Value) (id : NodeId) :
    Operator.apply symbol left right ≠ .body id := by
  simp only [Operator.apply]
  cases Operator.ofSymbol? symbol with
  | none => exact Value.noConfusion
  | some op =>
    have hresult : op.result left right ≠ .body id := by
      unfold Operator.result Value.ofBool
      split
      · split <;> exact Value.noConfusion
      all_goals exact Value.noConfusion
    simp only [Value.orZero]
    split
    · exact hresult
    · exact Value.noConfusion

/-- What confinement says of each part of the recursion, for one amount of fuel. -/
structure Confinement (p : Program) (R : NodeId → Prop) (fuel : Nat) : Prop where
  evaluate : ∀ node, (∀ n, node = some n → R n) →
    Confined p.tree R (evaluate p fuel node) (·.value.Within R)
  evaluateNode : ∀ node, R node → Confined p.tree R (evaluateNode p fuel node) (·.value.Within R)
  runCall : ∀ name arguments access, (∀ n, arguments = some n → R n) →
    Confined p.tree R (runCall p fuel name arguments access) (·.Within R)
  bindParams : ∀ names arguments body, (∀ n ∈ arguments, R n) → R body →
    Confined p.tree R (bindParams p fuel names arguments body) fun _ => True
  execute : ∀ body start, R body →
    Confined p.tree R (execute p fuel body start) (Returned.Within R)
  runStatements : ∀ statements, (∀ n ∈ statements, R n) →
    Confined p.tree R (runStatements p fuel statements) (Returned.Within R)
  executeStatement : ∀ node, R node →
    Confined p.tree R (executeStatement p fuel node) (Returned.Within R)
  runBranches : ∀ nodes, (∀ n ∈ nodes, R n) →
    Confined p.tree R (runBranches p fuel nodes) (Returned.Within R)
  runLoop : ∀ condition body, (∀ n, condition = some n → R n) → (∀ n, body = some n → R n) →
    Confined p.tree R (runLoop p fuel condition body) (Returned.Within R)

theorem evaluateNode_confined (hR : p.tree.Closed R) (ih : Confinement p R fuel) {node : NodeId}
    (hn : R node) : Confined p.tree R (evaluateNode p (fuel + 1) node) (·.value.Within R) := by
  simp only [evaluateNode]
  split
  · exact .pure fun id hid => by cases hid
  · exact .pure fun id hid => by cases hid
  · refine .bind .memory fun m hm => ?_
    split
    · next b hb =>
      obtain ⟨i, _, hi, _⟩ := Memory.of_resolve hb
      exact .pure (hm.value i b hi)
    · exact .pure fun id hid => by cases hid
  · exact .bind (ih.runCall _ _ _ fun c hc => hR.child? hn hc) fun v hv => .pure hv
  · exact .bind (ih.execute _ _ hn) fun r hr => .pure (Returned.within_getD hr)
  · refine .bind (ih.evaluate _ fun c hc => hR.child? hn hc) fun left _ => ?_
    refine .bind (ih.evaluate _ fun c hc => hR.child? hn hc) fun right _ => ?_
    exact .pure fun id hid => absurd hid (Operator.apply_ne_body _ _ _ id)
  · exact .pure fun id hid => by cases hid

theorem runCall_confined (hR : p.tree.Closed R) (ih : Confinement p R fuel) (name : String)
    {arguments : Option NodeId} (access : NodeId) (ha : ∀ n, arguments = some n → R n) :
    Confined p.tree R (runCall p (fuel + 1) name arguments access) (·.Within R) := by
  simp only [runCall]
  refine .bind .memory fun m hm => ?_
  split
  · exact .pure fun id hid => by cases hid
  · next b hb =>
    obtain ⟨i, _, hi, _⟩ := Memory.of_resolve hb
    split
    · next body hbody =>
      have hbody : R body := hm.value i b hi body hbody
      have hargs : ∀ n ∈ argumentNodes p arguments, R n := by
        cases arguments with
        | none => intro n hn; cases hn
        | some list => exact hR.children (ha list rfl)
      refine .bind (.checkDepth name access) fun _ _ => ?_
      refine .bind (ih.bindParams _ _ _ hargs hbody) fun _ _ => ?_
      exact .bind (.called (ih.execute _ _ hbody)) fun r hr => .pure (Returned.within_getD hr)
    · exact .pure fun id hid => by cases hid

theorem bindParams_confined (ih : Confinement p R fuel) (names : List String)
    (arguments : List NodeId) {body : NodeId} (ha : ∀ n ∈ arguments, R n) (hb : R body) :
    Confined p.tree R (bindParams p (fuel + 1) names arguments body) fun _ => True := by
  cases names with
  | nil =>
    rw [bindParams]
    exact .pure trivial
  | cons name names =>
    cases arguments with
    | nil =>
      rw [bindParams]
      refine .bind (.store none (fun id hid => by cases hid) hb) fun _ _ => ?_
      exact ih.bindParams _ _ _ (fun n hn => by cases hn) hb
    | cons argument arguments =>
      have hargument : ∀ n, some argument = some n → R n :=
        fun n hn => Option.some.inj hn ▸ ha argument List.mem_cons_self
      rw [bindParams]
      refine .bind (ih.evaluate _ hargument) fun e he => ?_
      refine .bind (.store e.params he hb) fun _ _ => ?_
      exact ih.bindParams _ _ _ (fun n hn => ha n (List.mem_cons_of_mem _ hn)) hb

theorem runStatements_confined (ih : Confinement p R fuel) (statements : List NodeId)
    (hs : ∀ n ∈ statements, R n) :
    Confined p.tree R (runStatements p (fuel + 1) statements) (Returned.Within R) := by
  cases statements with
  | nil =>
    rw [runStatements]
    exact .pure fun v hv => by cases hv
  | cons statement rest =>
    rw [runStatements]
    refine .bind (ih.executeStatement _ (hs statement List.mem_cons_self)) fun r hr => ?_
    cases r with
    | some returned => exact .pure hr
    | none => exact ih.runStatements _ fun n hn => hs n (List.mem_cons_of_mem _ hn)

theorem executeStatement_confined (hR : p.tree.Closed R) (ih : Confinement p R fuel)
    {node : NodeId} (hn : R node) :
    Confined p.tree R (executeStatement p (fuel + 1) node) (Returned.Within R) := by
  have hscope := hR.scope hn
  have hnone : Returned.Within R none := fun v hv => by cases hv
  have hoperand : ∀ c, p.tree.child? node 0 = some c → R c := fun c hc => hR.child? hn hc
  rw [executeStatement]
  dsimp only
  split
  · refine .bind (ih.evaluate _ hoperand) fun e he => ?_
    exact .bind (.store e.params he hscope) fun _ _ => .pure hnone
  · refine .bind (.store _ ?_ hscope) fun _ _ => .pure hnone
    cases hbody : p.tree.child? node 1 with
    | none => intro id hid; cases hid
    | some body =>
      intro id hid
      cases hid
      exact hR.child? hn hbody
  · exact .bind (.remove _ _) fun _ _ => .pure hnone
  · refine .bind .readLine fun line _ => ?_
    exact .bind (.store none (fun id hid => by cases hid) hscope) fun _ _ => .pure hnone
  · exact .bind (ih.runCall _ _ _ hoperand) fun _ _ => .pure hnone
  · exact ih.runBranches _ (hR.children hn)
  · exact ih.runLoop _ _ hoperand fun c hc => hR.child? hn hc
  · refine .bind (ih.evaluate _ hoperand) fun e _ => ?_
    exact .bind (.print _) fun _ _ => .pure hnone
  · refine .bind (ih.evaluate _ hoperand) fun e he => .pure ?_
    intro v hv
    exact Option.some.inj hv ▸ he
  · exact .pure hnone

theorem runBranches_confined (ih : Confinement p R fuel) (nodes : List NodeId)
    (hn : ∀ n ∈ nodes, R n) :
    Confined p.tree R (runBranches p (fuel + 1) nodes) (Returned.Within R) := by
  have hnone : Returned.Within R none := fun v hv => by cases hv
  cases nodes with
  | nil =>
    rw [runBranches]
    exact .pure hnone
  | cons condition rest =>
    have hcondition : ∀ n, some condition = some n → R n :=
      fun n h => Option.some.inj h ▸ hn condition List.mem_cons_self
    rw [runBranches]
    refine .bind (ih.evaluate _ hcondition) fun e _ => ?_
    split
    · exact ih.execute _ _ (hn _ (by simp))
    · exact .pure hnone
    · exact ih.runBranches _ fun n h => hn n (by simp [h])
    · exact .pure hnone

theorem runLoop_confined (ih : Confinement p R fuel) {condition body : Option NodeId}
    (hc : ∀ n, condition = some n → R n) (hb : ∀ n, body = some n → R n) :
    Confined p.tree R (runLoop p (fuel + 1) condition body) (Returned.Within R) := by
  rw [runLoop]
  refine .bind (ih.evaluate _ hc) fun e _ => ?_
  split
  · exact .pure fun v hv => by cases hv
  · exact ih.runLoop _ _ hc hb
  · refine .bind (ih.execute _ _ (hb _ rfl)) fun r hr => ?_
    cases r with
    | some returned => exact .pure hr
    | none => exact ih.runLoop _ _ hc hb

theorem confinement_zero : Confinement p R 0 where
  evaluate node _ := by
    cases node with
    | none =>
      rw [evaluate]
      exact .pure fun id hid => by cases hid
    | some node =>
      rw [evaluate]
      exact .outOfFuel
  evaluateNode _ _ := by
    simp only [evaluateNode]
    exact .outOfFuel
  runCall _ _ _ _ := by
    simp only [runCall]
    exact .outOfFuel
  bindParams names _ _ _ _ := by
    cases names with
    | nil =>
      rw [bindParams]
      exact .pure trivial
    | cons =>
      rw [bindParams]
      exact .outOfFuel
  execute _ _ _ := by
    rw [execute]
    exact .outOfFuel
  runStatements statements _ := by
    cases statements with
    | nil =>
      rw [runStatements]
      exact .pure fun v hv => by cases hv
    | cons =>
      rw [runStatements]
      exact .outOfFuel
  executeStatement _ _ := by
    simp only [executeStatement]
    exact .outOfFuel
  runBranches nodes _ := by
    cases nodes with
    | nil =>
      rw [runBranches]
      exact .pure fun v hv => by cases hv
    | cons =>
      rw [runBranches]
      exact .outOfFuel
  runLoop _ _ _ _ := by
    rw [runLoop]
    exact .outOfFuel

theorem Confinement.succ (hR : p.tree.Closed R) (ih : Confinement p R fuel) :
    Confinement p R (fuel + 1) where
  evaluate node hnode := by
    cases node with
    | none =>
      rw [Arbor.evaluate]
      exact .pure fun id hid => by cases hid
    | some node =>
      rw [Arbor.evaluate]
      exact .nested node (ih.evaluateNode node (hnode node rfl))
  evaluateNode _ := evaluateNode_confined hR ih
  runCall name _ access := runCall_confined hR ih name access
  bindParams names arguments _ := bindParams_confined ih names arguments
  execute body start hbody := by
    rw [Arbor.execute]
    refine .nested body (ih.runStatements _ fun n hn => ?_)
    exact hR.children hbody n (List.mem_of_mem_drop hn)
  runStatements := runStatements_confined ih
  executeStatement _ := executeStatement_confined hR ih
  runBranches := runBranches_confined ih
  runLoop _ _ := runLoop_confined ih

/-- Whatever a program does from `R` stays in `R`. -/
theorem confinement (hR : p.tree.Closed R) (fuel : Nat) : Confinement p R fuel := by
  induction fuel with
  | zero => exact confinement_zero
  | succ fuel ih => exact ih.succ hR

end Arbor
