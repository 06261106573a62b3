import Arbor.Proofs.Return.Limits

/-!
# The counters along a run

Every part of the recursion ends with the counters that it started with, whether it ends well or
not. Along the way they count the levels that are open: what waits to undo a level finds one to
undo, and a boundary puts back exactly what undoing the open levels leaves. Whatever holds at the
start of a run, and is passed on from each level to the next, holds wherever a statement or an
expression runs.
-/
namespace Arbor

/-- A run ends with the counters it started with, also when it fails. -/
def Run.Keeps (x : Run α) : Prop :=
  ∀ s s', (x s).state? = some s' → Machine.counters s' = Machine.counters s

theorem Run.Confined.keeps {t : Tree} {x : Run α} {q : α → Prop}
    (h : x.Confined t (fun _ => True) q) : x.Keeps := by
  intro s s' hs
  obtain ⟨hdepth, hnesting⟩ := (h.effects ⟨fun _ _ _ _ _ => trivial, fun _ _ _ _ _ => trivial⟩ hs).counters
  rw [Machine.counters, hdepth, hnesting, Machine.counters]

theorem Tree.closed_univ (t : Tree) : t.Closed fun _ => True :=
  ⟨fun _ _ _ _ => trivial, fun _ _ _ _ => trivial⟩

namespace Machine

namespace Counters

def deeper (c : Counters) : Counters := { c with depth := c.depth + 1 }

def inner (c : Counters) : Counters := { c with nesting := c.nesting + 1 }

def outer (c : Counters) : Counters := { c with nesting := c.nesting - 1 }

end Counters

/-- The counters when all levels that are open in `inside` are undone. -/
def undone (inside : List Pending) (c : Counters) : Counters :=
  { c with nesting := c.nesting - inside.count .leave }

/-- The counters at a boundary are those that it puts back, with one call more behind a call. -/
def Boundary.Closes (ground : Counters) : Boundary → Counters → Prop
  | .run, c => c = ground
  | .call before _, c => c = before.deeper
  | .operand before _, c => c = before

def Control.Undoes (ground : Counters) : Control → Counters → Prop
  | .value _ (.leave _), c | .ended (.leave :: _) _, c => 0 < c.nesting
  | .ended [] b, c => b.Closes ground c
  | .exit _ inside b, c => inside.count .leave ≤ c.nesting ∧ b.Closes ground (undone inside c)
  | _, _ => True

def Control.Runs : Control → Prop
  | .execute .. | .ended [] _ => False
  | _ => True

/-- What is passed on from level to level: `R` holds wherever a statement or an expression runs, and
`W` where a body is about to be executed. -/
structure Nests (R W : Counters → Prop) : Prop where
  step : ∀ c, R c → R c.inner
  body : ∀ c, W c → R c.inner
  enter : ∀ c, R c → W c
  call : ∀ c, R c → W c.deeper

section
variable (ground : Counters) (R W : Counters → Prop)

def Inside (B : Counters → Prop) : List Pending → Counters → Prop
  | [], c => B c
  | .leave :: inside, c => 0 < c.nesting ∧ (inside ≠ [] → R c.outer) ∧ Inside B inside c.outer
  | _ :: inside, c => Inside B inside c

mutual

def Await.Counts : Await → Counters → Prop
  | .leave k, c => 0 < c.nesting ∧ R c.outer ∧ k.Counts c.outer
  | .left _ _ k, c | .right _ _ k, c | .argument _ _ _ _ k, c => k.Counts c
  | .store _ _ inside b, c | .print inside b, c | .giveBack inside b, c | .discard inside b, c
  | .branches _ inside b, c | .loop _ _ inside b, c => Inside R b.Counts inside c

def Boundary.Counts : Boundary → Counters → Prop
  | .run, c => c = ground
  | .call before k, c => c = before.deeper ∧ R before ∧ k.Counts before
  | .operand before k, c => c = before ∧ R before ∧ k.Counts before

end

def Control.Counts : Control → Counters → Prop
  | .evaluate _ k, c | .node _ k, c | .call _ _ _ k, c | .bind _ _ _ k, c | .enter _ k, c
  | .value _ k, c => R c ∧ k.Counts ground R c
  | .execute _ _ inside b, c =>
    W c ∧ (inside ≠ [] → R c) ∧ Inside R (b.Counts ground R) inside c
  | .ended inside b, c => (inside ≠ [] → R c) ∧ Inside R (b.Counts ground R) inside c
  | .statements _ inside b, c | .statement _ inside b, c | .branches _ inside b, c
  | .loop _ _ inside b, c | .exit _ inside b, c => R c ∧ Inside R (b.Counts ground R) inside c

def Config.Counts : Config → Prop
  | .running control s => control.Counts ground R W (counters s)
  | .returned .. | .faulted .. => True

end

variable {p : Program} {ground : Counters} {R W : Counters → Prop} {B : Counters → Prop}
  {control : Control} {s s' : State} {c c' : Config} {k : Await} {b : Boundary}
  {inside : List Pending} {n : Counters}

/-- Where the levels inside of a boundary are undone at once, the boundary finds what it expects. -/
theorem Inside.undone (h : Inside R B inside n) :
    inside.count .leave ≤ n.nesting ∧ B (undone inside n) := by
  induction inside generalizing n with
  | nil => exact ⟨Nat.zero_le _, h⟩
  | cons pending inside ih =>
    cases pending with
    | leave =>
      obtain ⟨hpos, -, hinside⟩ := h
      obtain ⟨hle, hB⟩ := ih hinside
      have hcount : (Pending.leave :: inside).count .leave = inside.count .leave + 1 :=
        List.count_cons_self
      have hle' : inside.count .leave ≤ n.nesting - 1 := hle
      refine ⟨by omega, ?_⟩
      have hundone : Machine.undone (.leave :: inside) n = Machine.undone inside n.outer := by
        simp only [Machine.undone, Counters.outer, hcount, Counters.mk.injEq, true_and]
        omega
      rwa [hundone]
    | statements rest => exact ih h
    | loop condition body => exact ih h

theorem nested_counts {node : NodeId} {inner : Control}
    (h : inner.Counts ground R W (counters s).inner) :
    (nested p ground node inner s).Counts ground R W := by
  unfold nested
  split
  · exact h
  · trivial

theorem close_counts {r : Option Value} {n : Counters} (hb : b.Counts ground R n) :
    (b.close ground r s).Counts ground R W := by
  cases b with
  | run => trivial
  | call before k => exact hb.2
  | operand before k => exact hb.2

theorem receive_counts (hN : Nests R W) {e : Evaluation} (hR : R (counters s))
    (hk : k.Counts ground R (counters s)) : (receive p e s k).Counts ground R W := by
  cases k with
  | leave k => exact hk.2
  | left => exact ⟨hR, hk⟩
  | right => exact ⟨hR, hk⟩
  | argument => exact ⟨hR, hk⟩
  | store => exact ⟨fun _ => hR, hk⟩
  | print => exact ⟨fun _ => hR, hk⟩
  | giveBack => exact ⟨hR, hk⟩
  | discard => exact ⟨fun _ => hR, hk⟩
  | branches rest inside b =>
    simp only [receive]
    split
    · exact ⟨hN.enter _ hR, fun _ => hR, hk⟩
    · exact ⟨hR, hk⟩
    · exact ⟨fun _ => hR, hk⟩
  | loop condition body inside b =>
    simp only [receive]
    split
    · exact ⟨fun _ => hR, hk⟩
    · exact ⟨hR, hk⟩
    · exact ⟨hN.enter _ hR, fun _ => hR, hk⟩

theorem startNode_counts (hN : Nests R W) {node : NodeId} (hR : R (counters s))
    (hk : k.Counts ground R (counters s)) : (startNode p node k s).Counts ground R W := by
  unfold startNode
  split
  · exact ⟨hR, hk⟩
  · exact ⟨hR, hk⟩
  · split <;> exact ⟨hR, hk⟩
  · exact ⟨hR, hk⟩
  · exact ⟨hN.enter _ hR, fun h => absurd rfl h, rfl, hR, hk⟩
  · exact ⟨hR, hk⟩
  · exact ⟨hR, hk⟩

theorem startCall_counts {name : String} {arguments : Option NodeId} {access : NodeId}
    (hR : R (counters s)) (hk : k.Counts ground R (counters s)) :
    (startCall p ground name arguments access k s).Counts ground R W := by
  unfold startCall
  split
  · exact ⟨hR, hk⟩
  split
  · split
    · exact ⟨hR, hk⟩
    · trivial
  · exact ⟨hR, hk⟩

theorem startStatement_counts {node : NodeId} (hR : R (counters s))
    (hb : Inside R (b.Counts ground R) inside (counters s)) :
    (startStatement p node inside b s).Counts ground R W := by
  have hended : ∀ s', counters s' = counters s →
      (Config.running (.ended inside b) s').Counts ground R W := by
    intro s' hs
    change Control.Counts ground R W (.ended inside b) (counters s')
    rw [hs]
    exact ⟨fun _ => hR, hb⟩
  unfold startStatement
  dsimp only
  split
  · exact ⟨hR, hb⟩
  · exact hended _ rfl
  · exact hended _ rfl
  · exact hended _ (counters_asked ..)
  · exact ⟨hR, hb⟩
  · exact ⟨hR, hb⟩
  · exact ⟨hR, hb⟩
  · exact ⟨hR, hb⟩
  · exact ⟨hR, hb⟩
  · exact hended _ rfl

theorem resume_counts (hR : inside ≠ [] → R (counters s))
    (hb : Inside R (b.Counts ground R) inside (counters s)) :
    (resume ground b s inside).Counts ground R W := by
  cases inside with
  | nil => exact close_counts hb
  | cons pending inside =>
    have hrunning := hR (List.cons_ne_nil _ _)
    cases pending with
    | leave => exact hb.2
    | statements rest => exact ⟨hrunning, hb⟩
    | loop condition body => exact ⟨hrunning, hb⟩

theorem step_counts (hN : Nests R W) (h : control.Counts ground R W (counters s)) :
    (step p ground control s).Counts ground R W := by
  cases control with
  | evaluate node k =>
    cases node with
    | none => exact h
    | some node =>
      exact nested_counts ⟨hN.step _ h.1, Nat.succ_pos _, h.1, h.2⟩
  | node node k => exact startNode_counts hN h.1 h.2
  | call name arguments access k => exact startCall_counts h.1 h.2
  | bind names arguments body k =>
    cases names with
    | nil => exact h
    | cons name names =>
      cases arguments with
      | nil => exact h
      | cons argument arguments => exact h
  | enter body k => exact ⟨hN.call _ h.1, fun hne => absurd rfl hne, rfl, h.1, h.2⟩
  | value e k => exact receive_counts hN h.1 h.2
  | execute body start inside b =>
    exact nested_counts ⟨hN.body _ h.1, Nat.succ_pos _, h.2.1, h.2.2⟩
  | statements list inside b =>
    cases list with
    | nil => exact ⟨fun _ => h.1, h.2⟩
    | cons statement rest => exact h
  | statement node inside b => exact startStatement_counts h.1 h.2
  | branches nodes inside b =>
    cases nodes with
    | nil => exact ⟨fun _ => h.1, h.2⟩
    | cons condition rest => exact h
  | loop condition body inside b => exact h
  | ended inside b => exact resume_counts h.1 h.2
  | exit v inside b => exact close_counts h.2.undone.2

theorem Config.Counts.reaches (hN : Nests R W) (h : c.Counts ground R W)
    (hr : Reaches p ground c c') : c'.Counts ground R W := by
  obtain ⟨steps, rfl⟩ := hr
  induction steps generalizing c with
  | zero => exact h
  | succ steps ih =>
    rw [Function.iterate_succ_apply]
    apply ih
    cases c with
    | running control s => exact step_counts hN h
    | returned => trivial
    | faulted => trivial

theorem Boundary.Counts.closes (h : b.Counts ground R n) : b.Closes ground n := by
  cases b with
  | run => exact h
  | call before k => exact h.1
  | operand before k => exact h.1

theorem Control.Counts.undoes (h : control.Counts ground R W n) : control.Undoes ground n := by
  cases control with
  | value e k =>
    cases k with
    | leave k => exact h.2.1
    | _ => trivial
  | ended inside b =>
    cases inside with
    | nil => exact h.2.closes
    | cons pending inside =>
      cases pending with
      | leave => exact h.2.1
      | _ => trivial
  | exit v inside b => exact ⟨h.2.undone.1, h.2.undone.2.closes⟩
  | _ => trivial

theorem Control.Counts.runs (h : control.Counts ground R W n) (hruns : control.Runs) : R n := by
  cases control with
  | execute => exact hruns.elim
  | ended inside b =>
    cases inside with
    | nil => exact hruns.elim
    | cons pending inside => exact h.1 (List.cons_ne_nil _ _)
  | _ => exact h.1

inductive Entry : Control → Prop where
  | evaluate (node : Option NodeId) : Entry (.evaluate node (.discard [] .run))
  | call (name : String) (arguments : Option NodeId) (access : NodeId) :
      Entry (.call name arguments access (.discard [] .run))
  | execute (body : NodeId) (start : Nat) : Entry (.execute body start [] .run)

theorem Entry.within (h : Entry control) (depth : Nat) : control.Within p depth := by
  cases h <;> trivial

theorem Entry.counts (h : Entry control) (n : Counters) :
    control.Counts n (fun _ => True) (fun _ => True) n := by
  cases h with
  | evaluate => exact ⟨trivial, rfl⟩
  | call => exact ⟨trivial, rfl⟩
  | execute => exact ⟨trivial, fun _ => trivial, rfl⟩

theorem Entry.reaches {inner : Control} (h : Entry control) (hs : (counters s).Within p)
    (hr : Reaches p (counters s) (.running control s) (.running inner s')) :
    (counters s').Within p ∧ inner.Undoes (counters s) (counters s') := by
  have hwithin : Config.Within p (.running control s) := ⟨hs, h.within _⟩
  have hnests : Nests (fun _ => True) (fun _ => True) :=
    ⟨fun _ _ => trivial, fun _ _ => trivial, fun _ _ => trivial, fun _ _ => trivial⟩
  have hstart : Config.Counts (counters s) (fun _ => True) (fun _ => True)
      (.running control s) := h.counts _
  have hcounts := hstart.reaches hnests hr
  exact ⟨(hwithin.reaches hr).1, Control.Counts.undoes hcounts⟩

theorem nests_depth : Nests (fun n => n.depth < n.nesting) (fun n => n.depth ≤ n.nesting) where
  step _ h := Nat.lt_succ_of_lt h
  body _ h := Nat.lt_succ_of_le h
  enter _ h := Nat.le_of_lt h
  call _ h := h

theorem depth_lt_nesting {body : NodeId} {start : Nat} (hs : counters s = ⟨0, 0⟩)
    (hr : Reaches p (counters s) (.running (.execute body start [] .run) s) (.running control s'))
    (hruns : control.Runs) : s'.depth < s'.nesting := by
  have hstart : Config.Counts (counters s) (fun n => n.depth < n.nesting)
      (fun n => n.depth ≤ n.nesting) (.running (.execute body start [] .run) s) := by
    refine ⟨?_, fun hne => absurd rfl hne, rfl⟩
    simp only [hs, Nat.le_refl]
  have hcounts : Config.Counts _ _ _ _ := hstart.reaches nests_depth hr
  exact Control.Counts.runs hcounts hruns

/-- Where steps are limited as tightly as calls, no call is ever one too many. -/
theorem not_callsTooDeep {fuel start : Nat} {body : NodeId} {f : Fault} (hs : counters s = ⟨0, 0⟩)
    (hle : p.settings.maxNesting ≤ p.settings.maxDepth)
    (h : execute p fuel body start s = .failed f s') (name : String) (position limit : Nat) :
    f ≠ .callsTooDeep name position limit := by
  have hwithin : (counters s).Within p := by
    rw [hs]
    exact ⟨Nat.zero_le _, Nat.zero_le _⟩
  obtain ⟨control, t, hreaches, hlimit⟩ := failed_atLimit hwithin h
  have hnesting := ((Entry.execute body start).reaches hwithin hreaches).1.2
  rintro rfl
  cases hlimit with
  | call _ _ hdepth =>
    have hlt := depth_lt_nesting hs hreaches trivial
    have hnesting : t.nesting ≤ p.settings.maxNesting := hnesting
    omega

end Machine

/-- Every way into the recursion leaves the counters as they were, and so do the parts that run
between counting a level in and counting it out. -/
theorem counters_kept (p : Program) (fuel : Nat) :
    (∀ node, (evaluate p fuel node).Keeps) ∧ (∀ node, (evaluateNode p fuel node).Keeps) ∧
    (∀ name arguments access, (runCall p fuel name arguments access).Keeps) ∧
    (∀ body start, (execute p fuel body start).Keeps) ∧
    ∀ statements, (runStatements p fuel statements).Keeps := by
  have hconfined := confinement p.tree.closed_univ fuel
  refine ⟨?_, ?_, ?_, ?_, ?_⟩
  · exact fun node => (hconfined.evaluate node fun _ _ => trivial).keeps
  · exact fun node => (hconfined.evaluateNode node trivial).keeps
  · exact fun name arguments access => (hconfined.runCall name _ access fun _ _ => trivial).keeps
  · exact fun body start => (hconfined.execute body start trivial).keeps
  · exact fun statements => (hconfined.runStatements statements fun _ _ => trivial).keeps

end Arbor
