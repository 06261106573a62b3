import Arbor.Proofs.Return.Simulation

/-!
# Executing a body in two parts

Where the first statements of a body run to their end, executing the body comes to the same as
executing the statements after them from where the first ones ended.
-/
namespace Arbor.Machine

variable {p : Program} {ground : Counters} {c c' result : Config} {s s' : State} {fuel start start' : Nat}
  {first rest : List NodeId} {body : NodeId} {inside : List Pending} {b : Boundary}

theorem Reaches.halted_iff (h : Reaches p ground c c') (hr : advance p ground result = result) :
    Reaches p ground c result ↔ Reaches p ground c' result := by
  refine ⟨?_, h.trans⟩
  obtain ⟨n, hn⟩ := h
  rintro ⟨m, hm⟩
  rcases Nat.le_total n m with hle | hle
  · obtain ⟨d, rfl⟩ := Nat.exists_eq_add_of_le' hle
    rw [Function.iterate_add_apply, hn] at hm
    exact ⟨d, hm⟩
  · obtain ⟨d, rfl⟩ := Nat.exists_eq_add_of_le' hle
    rw [Function.iterate_add_apply, hm, iterate_halted hr] at hn
    exact ⟨0, hn.symm⟩

theorem bind_eq_done {α β : Type} {x : Run α} {f : α → Run β} {r : β} {t : State}
    (h : (x >>= f) s = .done r t) : ∃ a s', x s = .done a s' ∧ f a s' = .done r t := by
  cases hx : x s with
  | done a s' =>
    rw [Run.bind_of_done f hx] at h
    exact ⟨a, s', rfl, h⟩
  | failed fault s' =>
    rw [Run.bind_of_failed f hx] at h
    cases h
  | outOfFuel =>
    rw [Run.bind_of_outOfFuel f hx] at h
    cases h

theorem statements_reach (h : runStatements p fuel first s = .done none s') :
    Reaches p ground (.running (.statements (first ++ rest) inside b) s)
      (.running (.statements rest inside b) s') := by
  -- by induction on the first statements: each ends where the next one starts
  induction first generalizing fuel s with
  | nil =>
    have hs : s = s' := by
      rw [runStatements] at h
      cases h
      rfl
    rw [hs]
    exact Reaches.refl _
  | cons statement tail ih =>
    cases fuel with
    | zero =>
      rw [runStatements] at h
      cases h
    | succ fuel =>
      have hfollows := (simulation p ground fuel).executeStatement statement
        (.statements (tail ++ rest) :: inside) b s
      rw [runStatements] at h
      obtain ⟨r, t, he, h⟩ := bind_eq_done h
      rw [he] at hfollows
      cases r with
      | some returned => cases h
      | none =>
        have hended : Reaches p ground (.running (.ended (.statements (tail ++ rest) :: inside) b) t)
            (.running (.statements rest inside b) s') := Reaches.step (ih h)
        exact Reaches.step (Reaches.trans hfollows hended)

/-- After the first statements, which end in `s'` with the counters of the start, execution halts in
what it halts in when it starts behind them. -/
theorem halts_sequence (hlt : s.nesting < p.settings.maxNesting) (hcounters : counters s' = counters s)
    (hsplit : (p.tree.children body).toList.drop start =
      first ++ (p.tree.children body).toList.drop start')
    (hfirst : runStatements p fuel first { s with nesting := s.nesting + 1 } =
      .done none { s' with nesting := s'.nesting + 1 })
    (hr : advance p (counters s) result = result) :
    Halts p body start s result ↔ Halts p body start' s' result := by
  have hnesting : s'.nesting = s.nesting := congrArg Counters.nesting hcounters
  have henter : ∀ {t : State} {start : Nat}, t.nesting = s.nesting →
      Reaches p (counters s) (.running (.execute body start [] .run) t)
        (.running (.statements ((p.tree.children body).toList.drop start) [.leave] .run)
          { t with nesting := t.nesting + 1 }) := by
    intro t start ht
    apply Reaches.step
    have hstep : step p (counters s) (.execute body start [] .run) t =
        .running (.statements ((p.tree.children body).toList.drop start) [.leave] .run)
          { t with nesting := t.nesting + 1 } := by
      rw [step, nested, if_pos (by rw [ht]; exact hlt)]
    rw [hstep]
    exact Reaches.refl _
  have hstart := @henter s start rfl
  rw [hsplit] at hstart
  have hmid := hstart.trans (statements_reach hfirst)
  unfold Halts
  rw [hcounters, hmid.halted_iff hr, (@henter s' start' hnesting).halted_iff hr]

theorem execute_sequence (hlt : s.nesting < p.settings.maxNesting)
    (hcounters : counters s' = counters s)
    (hsplit : (p.tree.children body).toList.drop start =
      first ++ (p.tree.children body).toList.drop start')
    (hfirst : runStatements p fuel first { s with nesting := s.nesting + 1 } =
      .done none { s' with nesting := s'.nesting + 1 }) :
    (∀ r t, (∃ fuel, execute p fuel body start s = .done r t) ↔
      ∃ fuel, execute p fuel body start' s' = .done r t) ∧
    ∀ f t, (∃ fuel, execute p fuel body start s = .failed f t) ↔
      ∃ fuel, execute p fuel body start' s' = .failed f t := by
  have hhalts := fun result hr => @halts_sequence p result s s' fuel start start' first body hlt
    hcounters hsplit hfirst hr
  constructor
  · intro r t
    constructor
    · rintro ⟨fuel, he⟩
      exact done_of_halts ((hhalts _ rfl).mp (halts_of_done he))
    · rintro ⟨fuel, he⟩
      exact done_of_halts ((hhalts _ rfl).mpr (halts_of_done he))
  · intro f t
    constructor
    · rintro ⟨fuel, he⟩
      exact failed_of_halts ((hhalts _ rfl).mp (halts_of_failed he))
    · rintro ⟨fuel, he⟩
      exact failed_of_halts ((hhalts _ rfl).mpr (halts_of_failed he))

end Arbor.Machine
