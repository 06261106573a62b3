import Arbor.Proofs.Memory.Lookup
import Arbor.Run
import Mathlib.Logic.Relation

/-!
# Effects of a run

What a run does to its state, one thing after the other: it stores and removes, it sends and it
reads. No effect changes a counter. A set of nodes `R` may bound the bodies that are stored and the
places of the stores.
-/
namespace Arbor

def Value.Within (R : NodeId → Prop) (v : Value) : Prop := ∀ id, v = .body id → R id

structure Memory.Within (R : NodeId → Prop) (m : Memory) : Prop where
  value : ∀ i b, m.get? i = some b → b.value.Within R
  anchor : ∀ i b, m.get? i = some b → ∀ n, b.anchor = some n → R n

inductive Effect (t : Tree) (R : NodeId → Prop) : State → State → Prop where
  | store (s : State) (name : String) (value : Value) (params : Option NodeId) (scope : NodeId) :
      value.Within R → R scope →
      Effect t R s { s with memory := s.memory.store t name value params scope }
  | remove (s : State) (name : String) (scope : NodeId) :
      Effect t R s { s with memory := s.memory.remove t name scope }
  | emit (s : State) (e : Emission) : Effect t R s { s with output := s.output.push e }
  | readLine (s : State) (line : String) (rest : List String) : s.input = line :: rest →
      Effect t R s { s with input := rest }

abbrev Effects (t : Tree) (R : NodeId → Prop) : State → State → Prop :=
  Relation.ReflTransGen (Effect t R)

variable {t : Tree} {R : NodeId → Prop} {m : Memory} {s s' : State} {α β : Type}

theorem Memory.Within.store (h : m.Within R) {name : String} {value : Value}
    (params : Option NodeId) {scope : NodeId} (hv : value.Within R) (hs : R scope) :
    (m.store t name value params scope).Within R := by
  constructor
  · intro i b hb
    rw [get?_store] at hb
    split at hb
    · cases hb
      exact hv
    · exact h.value i b hb
  · intro i b hb n hn
    rw [get?_store] at hb
    split at hb
    · cases hb
      rcases m.target_cases t name scope with ⟨_, _, hanchor⟩ | ⟨c, _, hc, _, hanchor, _⟩
      · rw [hanchor] at hn
        exact Option.some.inj hn ▸ hs
      · exact h.anchor _ c hc n (hanchor.trans hn)
    · exact h.anchor i b hb n hn

theorem Memory.Within.remove (h : m.Within R) (name : String) (scope : NodeId) :
    (m.remove t name scope).Within R :=
  ⟨fun i b hb => h.value i b (get?_remove hb), fun i b hb => h.anchor i b (get?_remove hb)⟩

theorem Memory.Within.mono {R' : NodeId → Prop} (h : m.Within R) (hR : ∀ n, R n → R' n) :
    m.Within R' :=
  ⟨fun i b hb id hid => hR id (h.value i b hb id hid),
    fun i b hb n hn => hR n (h.anchor i b hb n hn)⟩

/-- A property of states that no single effect can break holds after all of them. -/
theorem Effects.preserves {P : State → Prop} (h : Effects t R s s')
    (step : ∀ s s', Effect t R s s' → P s → P s') (hs : P s) : P s' := by
  induction h with
  | refl => exact hs
  | tail _ he ih => exact step _ _ he ih

theorem Effects.within (h : Effects t R s s') (hs : s.memory.Within R) : s'.memory.Within R := by
  refine h.preserves (P := fun s => s.memory.Within R) ?_ hs
  intro s s' he hs
  cases he with
  | store name value params scope hv hr => exact hs.store params hv hr
  | remove name scope => exact hs.remove name scope
  | emit => exact hs
  | readLine => exact hs

theorem Effects.counters (h : Effects t R s s') : s'.depth = s.depth ∧ s'.nesting = s.nesting := by
  refine h.preserves (P := fun u => u.depth = s.depth ∧ u.nesting = s.nesting) ?_ ⟨rfl, rfl⟩
  intro u v he hu
  cases he <;> exact hu

theorem Effects.recount (h : Effects t R s s') (depth nesting : Nat) :
    Effects t R { s with depth, nesting } { s' with depth, nesting } := by
  induction h with
  | refl => exact .refl
  | tail _ he ih =>
    refine ih.tail ?_
    -- no effect looks at the counters
    cases he with
    | store name value params scope hv hr => exact .store _ name value params scope hv hr
    | remove name scope => exact .remove _ name scope
    | emit e => exact .emit _ e
    | readLine line rest hin => exact .readLine _ line rest hin

theorem Effects.nested (h : Effects t R { s with nesting := s.nesting + 1 } s') :
    Effects t R s { s' with nesting := s'.nesting - 1 } := by
  obtain ⟨hdepth, hnesting⟩ := h.counters
  have hcount := h.recount s.depth s.nesting
  simp only at hdepth hnesting hcount
  rw [hnesting, Nat.add_sub_cancel]
  rw [← hdepth] at hcount
  exact hdepth ▸ hcount

theorem Effects.called (h : Effects t R { s with depth := s.depth + 1 } s') :
    Effects t R s { s' with depth := s'.depth - 1 } := by
  obtain ⟨hdepth, hnesting⟩ := h.counters
  have hcount := h.recount s.depth s.nesting
  simp only at hdepth hnesting hcount
  rw [hdepth, Nat.add_sub_cancel]
  exact hnesting ▸ hcount

def Outcome.state? {σ α : Type} : Outcome σ α → Option σ
  | .done _ s | .failed _ s => some s
  | .outOfFuel => none

def Outcome.update {σ α : Type} (change : σ → σ) : Outcome σ α → Outcome σ α
  | .done a s => .done a (change s)
  | .failed f s => .failed f (change s)
  | .outOfFuel => .outOfFuel

theorem Outcome.state?_update {σ α : Type} (change : σ → σ) (o : Outcome σ α) :
    (o.update change).state? = o.state?.map change := by
  cases o <;> rfl

namespace Run

variable {x : Run α} {fault : Fault}

theorem bind_of_done {a : α} (f : α → Run β) (h : x s = .done a s') : (x >>= f) s = f a s' := by
  simp only [bind, h]

theorem bind_of_failed (f : α → Run β) (h : x s = .failed fault s') :
    (x >>= f) s = .failed fault s' := by
  simp only [bind, h]

theorem bind_of_outOfFuel (f : α → Run β) (h : x s = .outOfFuel) : (x >>= f) s = .outOfFuel := by
  simp only [bind, h]

theorem nested_of_lt {p : Program} {s : State} (node : NodeId) (x : Run α)
    (h : s.nesting < p.settings.maxNesting) : Run.nested p node x s =
      (x { s with nesting := s.nesting + 1 }).update fun s => { s with nesting := s.nesting - 1 } := by
  rw [Run.nested, if_pos h]
  cases x { s with nesting := s.nesting + 1 } <;> rfl

theorem nested_of_not_lt {p : Program} {s : State} (node : NodeId) (x : Run α)
    (h : ¬s.nesting < p.settings.maxNesting) :
    Run.nested p node x s = .failed (nestingFault p node) s := by
  rw [Run.nested, if_neg h]

theorem called_eq (x : Run α) (s : State) : Run.called x s =
    (x { s with depth := s.depth + 1 }).update fun s => { s with depth := s.depth - 1 } := by
  rw [Run.called]
  cases x { s with depth := s.depth + 1 } <;> rfl

end Run

/-- From a state whose memory is within `R`, a run has effects only, and what it gives is as `q`
says. -/
def Run.Confined (t : Tree) (R : NodeId → Prop) (x : Run α) (q : α → Prop) : Prop :=
  ∀ s, s.memory.Within R → match x s with
    | .done a s' => Effects t R s s' ∧ q a
    | .failed _ s' => Effects t R s s'
    | .outOfFuel => True

namespace Run.Confined

variable {p : Program} {x : Run α} {q r : α → Prop}

theorem effects (hx : Confined t R x q) (hs : s.memory.Within R)
    (hout : (x s).state? = some s') : Effects t R s s' := by
  have h := hx s hs
  cases hxs : x s with
  | outOfFuel =>
    rw [hxs] at hout
    cases hout
  | failed fault s'' =>
    rw [hxs] at h hout
    exact Option.some.inj hout ▸ h
  | done a s'' =>
    rw [hxs] at h hout
    exact Option.some.inj hout ▸ h.1

theorem pure {a : α} (h : q a) : Confined t R (Pure.pure a) q :=
  fun _ _ => ⟨.refl, h⟩

theorem outOfFuel : Confined t R (Run.outOfFuel : Run α) q :=
  fun _ _ => trivial

theorem bind {f : α → Run β} {q' : β → Prop} (hx : Confined t R x q)
    (hf : ∀ a, q a → Confined t R (f a) q') : Confined t R (x >>= f) q' := by
  intro s hs
  have h := hx s hs
  cases hxs : x s with
  | outOfFuel =>
    rw [bind_of_outOfFuel f hxs]
    trivial
  | failed fault s' =>
    rw [hxs] at h
    rw [bind_of_failed f hxs]
    exact h
  | done a s' =>
    rw [hxs] at h
    have hf := hf a h.2 s' (h.1.within hs)
    rw [bind_of_done f hxs]
    cases hfs : f a s' with
    | outOfFuel => trivial
    | failed fault s'' =>
      rw [hfs] at hf
      exact h.1.trans hf
    | done b s'' =>
      rw [hfs] at hf
      exact ⟨h.1.trans hf.1, hf.2⟩

theorem memory : Confined t R Run.memory (·.Within R) :=
  fun _ hs => ⟨.refl, hs⟩

theorem store {name : String} {value : Value} (params : Option NodeId) {scope : NodeId}
    (hv : value.Within R) (hs : R scope) :
    Confined p.tree R (Run.store p name value params scope) fun _ => True :=
  fun s _ => ⟨.single (.store s name value params scope hv hs), trivial⟩

theorem remove (name : String) (scope : NodeId) :
    Confined p.tree R (Run.remove p name scope) fun _ => True :=
  fun s _ => ⟨.single (.remove s name scope), trivial⟩

theorem emit (e : Emission) : Confined t R (Run.emit e) fun _ => True :=
  fun s _ => ⟨.single (.emit s e), trivial⟩

theorem print (text : String) : Confined p.tree R (Run.print p text) fun _ => True := by
  refine bind (emit _) fun _ _ => ?_
  by_cases hline : p.settings.printNewline = true
  · rw [if_pos hline]
    exact emit _
  · rw [if_neg hline]
    exact pure trivial

theorem readLine : Confined t R Run.readLine fun _ => True := by
  intro s _
  simp only [Run.readLine]
  cases hin : s.input with
  | nil => exact ⟨.refl, trivial⟩
  | cons line rest => exact ⟨.single (.readLine s line rest hin), trivial⟩

theorem checkDepth (name : String) (access : NodeId) :
    Confined t R (Run.checkDepth p name access) fun _ => True := by
  intro s _
  simp only [Run.checkDepth]
  by_cases h : s.depth < p.settings.maxDepth
  · rw [if_pos h]
    exact ⟨.refl, trivial⟩
  · rw [if_neg h]

theorem nested (node : NodeId) (hx : Confined t R x q) : Confined t R (Run.nested p node x) q := by
  intro s hs
  simp only [Run.nested]
  by_cases hlimit : s.nesting < p.settings.maxNesting
  · rw [if_pos hlimit]
    have h := hx { s with nesting := s.nesting + 1 } hs
    cases hxs : x { s with nesting := s.nesting + 1 } with
    | outOfFuel => trivial
    | failed fault s' =>
      rw [hxs] at h
      exact Effects.nested h
    | done a s' =>
      rw [hxs] at h
      exact ⟨Effects.nested h.1, h.2⟩
  · rw [if_neg hlimit]

theorem called (hx : Confined t R x q) : Confined t R (Run.called x) q := by
  intro s hs
  simp only [Run.called]
  have h := hx { s with depth := s.depth + 1 } hs
  cases hxs : x { s with depth := s.depth + 1 } with
  | outOfFuel => trivial
  | failed fault s' =>
    rw [hxs] at h
    exact Effects.called h
  | done a s' =>
    rw [hxs] at h
    exact ⟨Effects.called h.1, h.2⟩

end Run.Confined

end Arbor
