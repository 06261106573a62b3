import Arbor.Proofs.Run.Pairing

/-!
# Two runs keep abreast

The two runs of a pairing go through the recursion together, with any amount of fuel.
-/
namespace Arbor

open Run

namespace Pairing

structure Abreast (P : Pairing) (fuel : Nat) : Prop where
  evaluate : ∀ node, P.InPace (evaluate P.left fuel node) (evaluate P.right fuel node)
    fun e => P.tree.Lists P.name e.params
  evaluateNode : ∀ node, P.InPace (evaluateNode P.left fuel node) (evaluateNode P.right fuel node)
    fun e => P.tree.Lists P.name e.params
  runCall : ∀ name arguments access, P.name name →
    P.InPace (runCall P.left fuel name arguments access) (runCall P.right fuel name arguments access)
      fun _ => True
  bindParams : ∀ names arguments body, (∀ n ∈ names, P.name n) →
    P.InPace (bindParams P.left fuel names arguments body)
      (bindParams P.right fuel names arguments body) fun _ => True
  execute : ∀ body start, P.InPace (execute P.left fuel body start)
    (execute P.right fuel body start) fun _ => True
  runStatements : ∀ statements, P.InPace (runStatements P.left fuel statements)
    (runStatements P.right fuel statements) fun _ => True
  executeStatement : ∀ node, P.InPace (executeStatement P.left fuel node)
    (executeStatement P.right fuel node) fun _ => True
  runBranches : ∀ nodes, P.InPace (runBranches P.left fuel nodes) (runBranches P.right fuel nodes)
    fun _ => True
  runLoop : ∀ condition body, P.InPace (runLoop P.left fuel condition body)
    (runLoop P.right fuel condition body) fun _ => True

variable {P : Pairing} {fuel : Nat}

theorem lists_none : P.tree.Lists P.name none := fun _ h => by cases h

theorem lists_apart (h : P.first ≠ P.second) (list : Option NodeId) : P.tree.Lists P.name list :=
  fun _ _ _ _ => (P.apart h).1 _

namespace InPace

theorem plain (v : Value) : P.InPace (Pure.pure (⟨v, none⟩ : Evaluation)) (Pure.pure ⟨v, none⟩)
    fun e => P.tree.Lists P.name e.params :=
  pure lists_none fun h e => lists_apart h e.params

theorem andThen {x y : Run α} {good : α → Prop} {f g : α → Run β} (hx : P.InPace x y good)
    (hf : ∀ a, good a → P.InPace (f a) (g a) fun _ => True) :
    P.InPace (x >>= f) (y >>= g) fun _ => True :=
  hx.bind hf fun _ _ => trivial

end InPace

theorem evaluateNode_abreast (ih : P.Abreast fuel) (node : NodeId) :
    P.InPace (evaluateNode P.left (fuel + 1) node) (evaluateNode P.right (fuel + 1) node)
      fun e => P.tree.Lists P.name e.params := by
  have hall : P.first ≠ P.second → ∀ e : Evaluation, P.tree.Lists P.name e.params :=
    fun h e => lists_apart h e.params
  simp only [evaluateNode, left_tree, right_tree]
  cases htag : P.tree.tag node with
  | get =>
    have hname : P.name (P.tree.text node) := P.naming node (by rw [htag]; rfl)
    refine .memory fun m m' hm => ?_
    rw [P.resolve node hm hname]
    cases hb : m.resolve P.tree (P.tree.text node) node with
    | none => exact .plain _
    | some b => exact .pure (P.bound hm hname hb) hall
  | call =>
    have hname : P.name (P.tree.text node) := P.naming node (by rw [htag]; rfl)
    exact (ih.runCall _ _ node hname).bind (fun v _ => .plain v) hall
  | body => exact (ih.execute node 0).bind (fun r _ => .plain _) hall
  | operator =>
    refine (ih.evaluate _).bind (fun left _ => ?_) hall
    exact (ih.evaluate _).bind (fun right _ => .plain _) hall
  | _ => exact .plain _

theorem paramNames_named {list : Option NodeId} (h : P.tree.Lists P.name list) :
    ∀ n ∈ paramNames P.left list, P.name n := by
  intro n hn
  cases list with
  | none => cases hn
  | some l =>
    obtain ⟨c, hc, rfl⟩ := List.mem_map.mp hn
    exact h l rfl c (Array.mem_toList_iff.mp hc)

theorem runCall_abreast (ih : P.Abreast fuel) {name : String} (arguments : Option NodeId)
    (access : NodeId) (hname : P.name name) :
    P.InPace (runCall P.left (fuel + 1) name arguments access)
      (runCall P.right (fuel + 1) name arguments access) fun _ => True := by
  simp only [runCall]
  refine .memory fun m m' hm => ?_
  rw [left_tree, right_tree, P.resolve access hm hname]
  cases hb : m.resolve P.tree name access with
  | none => exact .give _
  | some b =>
    dsimp only
    cases b.value with
    | body body =>
      refine (InPace.checkDepth name access).andThen fun _ _ => ?_
      have hnames := paramNames_named (P.bound hm hname hb)
      refine (ih.bindParams _ _ body hnames).andThen fun _ _ => ?_
      exact (ih.execute body 0).called.andThen fun r _ => .give _
    | _ => exact .give _

theorem bindParams_abreast (ih : P.Abreast fuel) (names : List String) (arguments : List NodeId)
    (body : NodeId) (hnames : ∀ n ∈ names, P.name n) :
    P.InPace (bindParams P.left (fuel + 1) names arguments body)
      (bindParams P.right (fuel + 1) names arguments body) fun _ => True := by
  cases names with
  | nil =>
    rw [bindParams, bindParams]
    exact .give ()
  | cons name names =>
    obtain ⟨hname, hrest⟩ := List.forall_mem_cons.mp hnames
    cases arguments with
    | nil =>
      rw [bindParams, bindParams]
      refine (InPace.store hname _ lists_none body).andThen fun _ _ => ?_
      exact ih.bindParams names [] body hrest
    | cons argument arguments =>
      rw [bindParams, bindParams]
      refine (ih.evaluate (some argument)).andThen fun e he => ?_
      refine (InPace.store hname e.value he body).andThen fun _ _ => ?_
      exact ih.bindParams names arguments body hrest

theorem runStatements_abreast (ih : P.Abreast fuel) (statements : List NodeId) :
    P.InPace (runStatements P.left (fuel + 1) statements)
      (runStatements P.right (fuel + 1) statements) fun _ => True := by
  cases statements with
  | nil =>
    rw [runStatements, runStatements]
    exact .give none
  | cons statement rest =>
    rw [runStatements, runStatements]
    refine (ih.executeStatement statement).andThen fun r _ => ?_
    cases r with
    | some returned => exact .give _
    | none => exact ih.runStatements rest

theorem executeStatement_abreast (ih : P.Abreast fuel) (node : NodeId) :
    P.InPace (executeStatement P.left (fuel + 1) node) (executeStatement P.right (fuel + 1) node)
      fun _ => True := by
  have hname : (P.tree.tag node).isNaming = true → P.name (P.tree.text node) := P.naming node
  simp only [executeStatement, left_tree, right_tree]
  cases htag : P.tree.tag node with
  | store =>
    rw [htag] at hname
    refine (ih.evaluate _).andThen fun e he => ?_
    exact (InPace.store (hname rfl) e.value he _).andThen fun _ _ => .give none
  | function =>
    rw [htag] at hname
    exact (InPace.store (hname rfl) _ (P.parameters node htag) _).andThen fun _ _ => .give none
  | remove =>
    rw [htag] at hname
    exact (InPace.remove (hname rfl) _).andThen fun _ _ => .give none
  | input =>
    rw [htag] at hname
    refine InPace.readLine.andThen fun line _ => ?_
    exact (InPace.store (hname rfl) _ lists_none _).andThen fun _ _ => .give none
  | call =>
    rw [htag] at hname
    exact (ih.runCall _ _ node (hname rfl)).andThen fun _ _ => .give none
  | branch => exact ih.runBranches _
  | loop => exact ih.runLoop _ _
  | output =>
    refine (ih.evaluate _).andThen fun e _ => ?_
    exact (InPace.print _).andThen fun _ _ => .give none
  | giveBack => exact (ih.evaluate _).andThen fun e _ => .give _
  | _ => exact .give none

theorem runBranches_abreast (ih : P.Abreast fuel) (nodes : List NodeId) :
    P.InPace (runBranches P.left (fuel + 1) nodes) (runBranches P.right (fuel + 1) nodes)
      fun _ => True := by
  cases nodes with
  | nil =>
    rw [runBranches, runBranches]
    exact .give none
  | cons condition rest =>
    rw [runBranches, runBranches]
    refine (ih.evaluate _).andThen fun e _ => ?_
    cases e.value.truthy with
    | true =>
      cases rest with
      | nil => exact .give none
      | cons body _ => exact ih.execute body 0
    | false =>
      cases rest with
      | nil => exact .give none
      | cons _ rest => exact ih.runBranches rest

theorem runLoop_abreast (ih : P.Abreast fuel) (condition body : Option NodeId) :
    P.InPace (runLoop P.left (fuel + 1) condition body) (runLoop P.right (fuel + 1) condition body)
      fun _ => True := by
  rw [runLoop, runLoop]
  refine (ih.evaluate condition).andThen fun e _ => ?_
  cases e.value.truthy with
  | false => exact .give none
  | true =>
    cases body with
    | none => exact ih.runLoop condition none
    | some body =>
      refine (ih.execute body 0).andThen fun r _ => ?_
      cases r with
      | some returned => exact .give _
      | none => exact ih.runLoop condition (some body)

theorem abreast_zero : P.Abreast 0 where
  evaluate node := by
    cases node with
    | none =>
      rw [evaluate, evaluate]
      exact .plain _
    | some node =>
      rw [evaluate, evaluate]
      exact .outOfFuel fun h e => lists_apart h e.params
  evaluateNode node := by
    rw [evaluateNode, evaluateNode]
    exact .outOfFuel fun h e => lists_apart h e.params
  runCall name arguments access _ := by
    rw [runCall, runCall]
    exact .outOfFuel fun _ _ => trivial
  bindParams names arguments body _ := by
    cases names with
    | nil =>
      rw [bindParams, bindParams]
      exact .give ()
    | cons =>
      rw [bindParams, bindParams]
      exact .outOfFuel fun _ _ => trivial
  execute body start := by
    rw [execute, execute]
    exact .outOfFuel fun _ _ => trivial
  runStatements statements := by
    cases statements with
    | nil =>
      rw [runStatements, runStatements]
      exact .give none
    | cons =>
      rw [runStatements, runStatements]
      exact .outOfFuel fun _ _ => trivial
  executeStatement node := by
    rw [executeStatement, executeStatement]
    exact .outOfFuel fun _ _ => trivial
  runBranches nodes := by
    cases nodes with
    | nil =>
      rw [runBranches, runBranches]
      exact .give none
    | cons =>
      rw [runBranches, runBranches]
      exact .outOfFuel fun _ _ => trivial
  runLoop condition body := by
    rw [runLoop, runLoop]
    exact .outOfFuel fun _ _ => trivial

theorem Abreast.succ (ih : P.Abreast fuel) : P.Abreast (fuel + 1) where
  evaluate node := by
    cases node with
    | none =>
      rw [Arbor.evaluate, Arbor.evaluate]
      exact .plain _
    | some node =>
      rw [Arbor.evaluate, Arbor.evaluate]
      exact .nested node (ih.evaluateNode node)
  evaluateNode := evaluateNode_abreast ih
  runCall _ arguments access := runCall_abreast ih arguments access
  bindParams := bindParams_abreast ih
  execute body start := by
    rw [Arbor.execute, Arbor.execute]
    exact .nested body (ih.runStatements _)
  runStatements := runStatements_abreast ih
  executeStatement := executeStatement_abreast ih
  runBranches := runBranches_abreast ih
  runLoop := runLoop_abreast ih

/-- The two runs of a pairing keep abreast, whatever the fuel. -/
theorem abreast (P : Pairing) (fuel : Nat) : P.Abreast fuel := by
  induction fuel with
  | zero => exact abreast_zero
  | succ fuel ih => exact ih.succ

end Pairing

end Arbor
