import Arbor.Expr
import Arbor.Proofs.Grammar.Recogniser

/-!
# Expressions and their grammar

Reading an expression token by token and descending by the grammar take the same tokens. The
operators that wait are folded away whenever an argument or the whole expression ends, so that how
tight they bind does not matter for where it ends.
-/
namespace Arbor.Grammar

open Arbor.Expr

/-- Where an expression of any length may stand: by itself, or as an argument. -/
inductive Base : Extent → List Frame → Prop where
  | whole : Base .whole []
  | argument (extent : Extent) (name bracket : Token) (before : List Expr) (below : List Frame) :
      Base extent (.argument name bracket before :: below)

variable {extent : Extent} {ts rest : List Token} {t : Token} {e : Expr}
  {frames base below : List Frame} {ops : List (Expr × Token)} {name bracket : Token}
  {before : List Expr}

def waiting (ops : List (Expr × Token)) (base : List Frame) : List Frame :=
  ops.map (fun o => .operand o.1 o.2) ++ base

theorem Base.fold (h : Base extent base) (group : Nat) (e : Expr) :
    Expr.fold group base e = (base, e) := by
  cases h <;> rfl

theorem Base.not_bounded (h : Base extent base) :
    ¬(extent = .operand ∧ (waiting ops base).isEmpty = true) := by
  rintro ⟨hextent, hempty⟩
  cases h with
  | whole => cases hextent
  | argument => simp [waiting] at hempty

theorem fold_waiting (h : Base extent base) (group : Nat) (ops : List (Expr × Token)) (e : Expr) :
    ∃ ops' e', Expr.fold group (waiting ops base) e = (waiting ops' base, e') := by
  induction ops generalizing e with
  | nil => exact ⟨[], e, h.fold group e⟩
  | cons o ops ih =>
    rw [waiting, List.map_cons, List.cons_append, Expr.fold]
    by_cases hgroup : Operator.group o.2.text ≤ group
    · rw [if_pos hgroup]
      exact ih _
    · rw [if_neg hgroup]
      exact ⟨o :: ops, e, rfl⟩

theorem fold_loosest (h : Base extent base) (ops : List (Expr × Token)) (e : Expr) :
    ∃ e', Expr.fold Operator.loosest (waiting ops base) e = (base, e') := by
  -- no operator binds looser than the loosest group, so each of them is folded
  induction ops generalizing e with
  | nil => exact ⟨e, h.fold _ e⟩
  | cons o ops ih =>
    rw [waiting, List.map_cons, List.cons_append, Expr.fold,
      if_pos (Operator.group_le_loosest _)]
    exact ih _

def Settled (e : Expr) (rest : List Token) : Prop :=
  ∀ name, e = .get name → ∀ t more, rest = t :: more → t.kind ≠ .opening

structure Ended (e : Expr) (rest : List Token) : Prop where
  settled : Settled e rest
  no_operator : ∀ t more, rest = t :: more → t.kind ≠ .operator

def Asks (frames : List Frame) (ts : List Token) : Prop :=
  ∀ name bracket below, frames = .argument name bracket [] :: below →
    ∀ t more, ts = t :: more → t.kind ≠ .closing

theorem asks_of_starts (h : starts ts = true) (frames : List Frame) : Asks frames ts := by
  rintro _ _ _ _ t more rfl hk
  simp [starts, hk] at h

/-- What a token does after a complete operand that it opens no arguments of. -/
theorem move_after (h : Settled e (t :: rest))
    (hbound : ¬(extent = .operand ∧ frames.isEmpty = true)) :
    move extent frames t (some e) = afterOperand frames e t := by
  simp only [move]
  split
  · next name hopening =>
    exact absurd hopening (h name rfl t rest rfl)
  · rw [if_neg hbound]

theorem readFrom_operator (ops : List (Expr × Token)) (hb : Base extent base) (h : Settled e (t :: rest))
    (hk : t.kind = .operator) : ∃ o ops', readFrom extent (waiting ops base) (some e) (t :: rest) =
      readFrom extent (waiting (o :: ops') base) none rest := by
  obtain ⟨ops', e', hfold⟩ := fold_waiting hb (Operator.group t.text) ops e
  refine ⟨(e', t), ops', ?_⟩
  rw [readFrom, move_after h hb.not_bounded]
  simp only [afterOperand, hk, hfold]
  rfl

/-- What reading makes of the parts of an expression that the grammar takes from `ts`, or does not
take. -/
structure Reads (extent : Extent) (ts : List Token) : Prop where
  operand : ∀ frames, (∀ r, operand? ts = some r → ∃ e, Settled e r.1 ∧
      readFrom extent frames none ts = readFrom extent frames (some e) r.1) ∧
    (operand? ts = none → Asks frames ts → ∃ stuck, readFrom extent frames none ts = .error stuck)
  expression : ∀ ops base, Base extent base →
    (∀ r, expression? ts = some r → ∃ ops' e, Ended e r.1 ∧
      readFrom extent (waiting ops base) none ts =
        readFrom extent (waiting ops' base) (some e) r.1) ∧
    (expression? ts = none → Asks (waiting ops base) ts →
      ∃ stuck, readFrom extent (waiting ops base) none ts = .error stuck)
  furtherArguments : ∀ name bracket before below,
    (∀ r, furtherArguments? ts = some r → ∃ arguments,
      readFrom extent (.argument name bracket before :: below) none ts =
        readFrom extent below (some (.call name bracket arguments)) r.1) ∧
    (furtherArguments? ts = none → Asks (.argument name bracket before :: below) ts →
      ∃ stuck, readFrom extent (.argument name bracket before :: below) none ts = .error stuck)
  arguments : ∀ name bracket below,
    (∀ r, arguments? ts = some r → ∃ arguments,
      readFrom extent (.argument name bracket [] :: below) none ts =
        readFrom extent below (some (.call name bracket arguments)) r.1) ∧
    (arguments? ts = none →
      ∃ stuck, readFrom extent (.argument name bracket [] :: below) none ts = .error stuck)

theorem settled_of_ne (h : ∀ name, e ≠ .get name) (rest : List Token) : Settled e rest :=
  fun name he => absurd he (h name)

theorem readFrom_literal (h : t.kind = .string ∨ t.kind = .number) (frames : List Frame) :
    readFrom extent frames none (t :: rest) = readFrom extent frames (some (.literal t)) rest := by
  rw [readFrom]
  rcases h with hk | hk <;> simp only [move, hk]

theorem readFrom_name (h : t.kind = .name) (frames : List Frame) :
    readFrom extent frames none (t :: rest) = readFrom extent frames (some (.get t)) rest := by
  rw [readFrom]
  simp only [move, h]

theorem readFrom_opening (h : bracket.kind = .opening) (name : Token) (frames : List Frame) :
    readFrom extent frames (some (.get name)) (bracket :: rest) =
      readFrom extent (.argument name bracket [] :: frames) none rest := by
  rw [readFrom]
  simp only [move, h]

theorem readFrom_none (h : starts ts = false) (hask : Asks frames ts) :
    ∃ stuck, readFrom extent frames none ts = .error stuck := by
  cases ts with
  | nil => exact ⟨_, rfl⟩
  | cons t rest =>
    simp only [starts, decide_eq_false_iff_not, not_or] at h
    obtain ⟨hs, hnum, hname⟩ := h
    have hmove : move extent frames t none = .stuck := by
      simp only [move]
      split
      · next hk => exact absurd hk hs
      · next hk => exact absurd hk hnum
      · next hk => exact absurd hk hname
      · next name bracket below hk => exact absurd hk (hask name bracket below rfl t rest rfl)
      · rfl
    refine ⟨⟨frames, none, t :: rest⟩, ?_⟩
    rw [readFrom, hmove]

theorem operand_reads (ih : ∀ us, us.length < ts.length → Reads extent us) (frames : List Frame) :
    (∀ r, operand? ts = some r → ∃ e, Settled e r.1 ∧
      readFrom extent frames none ts = readFrom extent frames (some e) r.1) ∧
    (operand? ts = none → Asks frames ts →
      ∃ stuck, readFrom extent frames none ts = .error stuck) := by
  cases hstarts : starts ts with
  | false =>
    rw [operand?_none hstarts]
    exact ⟨fun r h => (by cases h), fun _ => readFrom_none hstarts⟩
  | true =>
    cases ts with
    | nil => cases hstarts
    | cons t rest =>
      simp only [starts, decide_eq_true_eq, ← or_assoc] at hstarts
      rcases hstarts with hliteral | hname
      · rw [operand?_literal hliteral]
        refine ⟨fun r h => ?_, fun h => by cases h⟩
        cases h
        exact ⟨.literal t, settled_of_ne (fun _ => Expr.noConfusion) rest,
          readFrom_literal hliteral frames⟩
      · by_cases hcall : ∃ bracket more, rest = bracket :: more ∧ bracket.kind = .opening
        · obtain ⟨bracket, more, rfl, hb⟩ := hcall
          have harguments := (ih more (by simp only [List.length_cons]; omega)).arguments t bracket
            frames
          rw [operand?_call hname hb, readFrom_name hname, readFrom_opening hb]
          constructor
          · intro r h
            obtain ⟨r', hr', rfl⟩ := Option.map_eq_some_iff.mp h
            obtain ⟨arguments, hread⟩ := harguments.1 r' hr'
            exact ⟨_, settled_of_ne (fun _ => Expr.noConfusion) _, hread⟩
          · intro h _
            exact harguments.2 (Option.map_eq_none_iff.mp h)
        · have hsettled : Settled (.get t) rest :=
            fun _ _ bracket more hr hb => hcall ⟨bracket, more, hr, hb⟩
          rw [operand?_name hname (hsettled t rfl)]
          refine ⟨fun r h => ?_, fun h => by cases h⟩
          cases h
          exact ⟨.get t, hsettled, readFrom_name hname frames⟩

theorem expression_reads (ih : ∀ us, us.length < ts.length → Reads extent us)
    (ops : List (Expr × Token)) (hb : Base extent base) :
    (∀ r, expression? ts = some r → ∃ ops' e, Ended e r.1 ∧
      readFrom extent (waiting ops base) none ts =
        readFrom extent (waiting ops' base) (some e) r.1) ∧
    (expression? ts = none → Asks (waiting ops base) ts →
      ∃ stuck, readFrom extent (waiting ops base) none ts = .error stuck) := by
  have hoperand := operand_reads ih (waiting ops base)
  cases hfirst : operand? ts with
  | none =>
    rw [expression?_none hfirst]
    exact ⟨fun r h => (by cases h), fun _ => hoperand.2 hfirst⟩
  | some r =>
    obtain ⟨e, hsettled, hread⟩ := hoperand.1 r hfirst
    by_cases hop : ∃ t more, r.1 = t :: more ∧ t.kind = .operator
    · -- a further operand has to follow
      obtain ⟨t, more, hr, hk⟩ := hop
      obtain ⟨rest, hlt⟩ := r
      cases hr
      obtain ⟨o, ops', hnext⟩ := readFrom_operator ops hb hsettled hk
      have hmore := (ih more (Nat.lt_of_succ_lt hlt)).expression (o :: ops') base hb
      rw [expression?_operator hfirst hk, hread, hnext]
      constructor
      · intro r h
        obtain ⟨r', hr', rfl⟩ := Option.map_eq_some_iff.mp h
        exact hmore.1 r' hr'
      · intro h _
        refine hmore.2 (Option.map_eq_none_iff.mp h) ?_
        intro _ _ _ hframes
        cases hframes
    · have hended : Ended e r.1 := ⟨hsettled, fun t more hr hk => hop ⟨t, more, hr, hk⟩⟩
      rw [expression?_ended hfirst hended.no_operator]
      refine ⟨fun r' h => ?_, fun h => by cases h⟩
      cases h
      exact ⟨ops, e, hended, hread⟩

theorem readFrom_comma (h : Settled e (t :: rest)) (hk : t.kind = .comma) :
    ∃ e', readFrom extent (waiting ops (.argument name bracket before :: below)) (some e)
        (t :: rest) =
      readFrom extent (.argument name bracket (e' :: before) :: below) none rest := by
  have hb : Base extent (.argument name bracket before :: below) := .argument ..
  obtain ⟨e', hfold⟩ := fold_loosest hb ops e
  refine ⟨e', ?_⟩
  rw [readFrom, move_after h hb.not_bounded]
  simp only [afterOperand, hk, hfold]

theorem readFrom_closing (h : Settled e (t :: rest)) (hk : t.kind = .closing) :
    ∃ arguments, readFrom extent (waiting ops (.argument name bracket before :: below)) (some e)
        (t :: rest) =
      readFrom extent below (some (.call name bracket arguments)) rest := by
  have hb : Base extent (.argument name bracket before :: below) := .argument ..
  obtain ⟨e', hfold⟩ := fold_loosest hb ops e
  refine ⟨(e' :: before).reverse, ?_⟩
  rw [readFrom, move_after h hb.not_bounded]
  simp only [afterOperand, hk, hfold]

theorem readFrom_unclosed (h : Ended e ts)
    (hts : ∀ t more, ts = t :: more → t.kind ≠ .comma ∧ t.kind ≠ .closing) :
    ∃ stuck, readFrom extent (waiting ops (.argument name bracket before :: below)) (some e) ts =
      .error stuck := by
  have hb : Base extent (.argument name bracket before :: below) := .argument ..
  obtain ⟨e', hfold⟩ := fold_loosest hb ops e
  have hconclude : conclude (waiting ops (.argument name bracket before :: below)) (some e) =
      none := by
    simp only [conclude, hfold]
  refine ⟨⟨waiting ops (.argument name bracket before :: below), some e, ts⟩, ?_⟩
  cases ts with
  | nil => rw [readFrom, hconclude]
  | cons t rest =>
    obtain ⟨hcomma, hclosing⟩ := hts t rest rfl
    have hmove : afterOperand (waiting ops (.argument name bracket before :: below)) e t =
        .stuck := by
      simp only [afterOperand]
      split
      · next hk => exact absurd hk (h.no_operator t rest rfl)
      · next hk => exact absurd hk hcomma
      · next hk => exact absurd hk hclosing
      · rw [hconclude]
    rw [readFrom, move_after h.settled hb.not_bounded, hmove]

theorem furtherArguments_reads (ih : ∀ us, us.length < ts.length → Reads extent us)
    (name bracket : Token) (before : List Expr) (below : List Frame) :
    (∀ r, furtherArguments? ts = some r → ∃ arguments,
      readFrom extent (.argument name bracket before :: below) none ts =
        readFrom extent below (some (.call name bracket arguments)) r.1) ∧
    (furtherArguments? ts = none → Asks (.argument name bracket before :: below) ts →
      ∃ stuck, readFrom extent (.argument name bracket before :: below) none ts =
        .error stuck) := by
  have hexpression := expression_reads ih [] (.argument extent name bracket before below)
  cases hfirst : expression? ts with
  | none =>
    rw [furtherArguments?_none hfirst]
    exact ⟨fun r h => (by cases h), fun _ => hexpression.2 hfirst⟩
  | some r =>
    obtain ⟨ops, e, hended, hread⟩ := hexpression.1 r hfirst
    change readFrom extent (.argument name bracket before :: below) none ts = _ at hread
    obtain ⟨rest, hlt⟩ := r
    by_cases hcomma : ∃ t more, rest = t :: more ∧ t.kind = .comma
    · obtain ⟨t, more, rfl, hk⟩ := hcomma
      obtain ⟨e', hnext⟩ := @readFrom_comma extent more t e below ops name bracket before
        hended.settled hk
      have hmore := (ih more (Nat.lt_of_succ_lt hlt)).furtherArguments name bracket (e' :: before)
        below
      rw [furtherArguments?_comma hfirst hk, hread, hnext]
      constructor
      · intro r h
        obtain ⟨r', hr', rfl⟩ := Option.map_eq_some_iff.mp h
        exact hmore.1 r' hr'
      · intro h _
        refine hmore.2 (Option.map_eq_none_iff.mp h) ?_
        intro _ _ _ hframes
        cases hframes
    · by_cases hclosing : ∃ t more, rest = t :: more ∧ t.kind = .closing
      · obtain ⟨t, more, rfl, hk⟩ := hclosing
        rw [furtherArguments?_closing hfirst hk, hread]
        refine ⟨fun r h => ?_, fun h => by cases h⟩
        cases h
        exact readFrom_closing hended.settled hk
      · have hother : ∀ t more, rest = t :: more → t.kind ≠ .comma ∧ t.kind ≠ .closing :=
          fun t more hr => ⟨fun hk => hcomma ⟨t, more, hr, hk⟩, fun hk => hclosing ⟨t, more, hr, hk⟩⟩
        rw [furtherArguments?_other hfirst hother, hread]
        exact ⟨fun r h => (by cases h), fun _ _ => readFrom_unclosed hended hother⟩

theorem arguments_reads (ih : ∀ us, us.length < ts.length → Reads extent us)
    (name bracket : Token) (below : List Frame) :
    (∀ r, arguments? ts = some r → ∃ arguments,
      readFrom extent (.argument name bracket [] :: below) none ts =
        readFrom extent below (some (.call name bracket arguments)) r.1) ∧
    (arguments? ts = none →
      ∃ stuck, readFrom extent (.argument name bracket [] :: below) none ts = .error stuck) := by
  cases hstarts : starts ts with
  | true =>
    have hfurther := furtherArguments_reads ih name bracket [] below
    rw [arguments?_some hstarts]
    exact ⟨hfurther.1, fun h => hfurther.2 h (asks_of_starts hstarts _)⟩
  | false =>
    cases ts with
    | nil =>
      refine ⟨fun r h => ?_, fun _ => ⟨_, rfl⟩⟩
      rw [arguments?_none hstarts fun _ _ hr => by cases hr] at h
      cases h
    | cons t rest =>
      by_cases hk : t.kind = .closing
      · rw [arguments?_closing hk]
        refine ⟨fun r h => ?_, fun h => by cases h⟩
        cases h
        refine ⟨[], ?_⟩
        rw [readFrom]
        simp only [move, hk]
        rfl
      · have hother : ∀ u more, t :: rest = u :: more → u.kind ≠ .closing := by
          intro u more hu
          cases hu
          exact hk
        rw [arguments?_none hstarts hother]
        exact ⟨fun r h => (by cases h), fun _ => readFrom_none hstarts fun _ _ _ _ => hother⟩

/-- Reading and the grammar take the same tokens. -/
theorem reads (extent : Extent) (ts : List Token) : Reads extent ts := by
  induction hn : ts.length using Nat.strongRecOn generalizing ts with
  | ind n ih =>
    have ih : ∀ us, us.length < ts.length → Reads extent us :=
      fun us hlt => ih us.length (hn ▸ hlt) us rfl
    exact ⟨operand_reads ih, fun ops _ => expression_reads ih ops, furtherArguments_reads ih,
      arguments_reads ih⟩

theorem readFrom_whole (h : Ended e ts) :
    ∃ e', readFrom .whole (waiting ops []) (some e) ts = .ok (e', ts) := by
  obtain ⟨e', hfold⟩ := fold_loosest .whole ops e
  have hconclude : conclude (waiting ops []) (some e) = some e' := by
    simp only [conclude, hfold]
  refine ⟨e', ?_⟩
  cases ts with
  | nil => rw [readFrom, hconclude]
  | cons t rest =>
    have hmove : afterOperand (waiting ops []) e t = .finish e' := by
      simp only [afterOperand]
      split
      · next hk => exact absurd hk (h.no_operator t rest rfl)
      · rw [hfold]
      · rw [hfold]
      · rw [hconclude]
    rw [readFrom, move_after h.settled Base.whole.not_bounded, hmove]

theorem readFrom_bounded (h : Settled e ts) : readFrom .operand [] (some e) ts = .ok (e, ts) := by
  cases ts with
  | nil => rfl
  | cons t rest =>
    have hmove : move .operand [] t (some e) = .finish e := by
      simp only [move]
      split
      · next name hopening => exact absurd hopening (h name rfl t rest rfl)
      · rfl
    rw [readFrom, hmove]

theorem readOptional_some {r : Rest ts} (h : expression? ts = some r) :
    ∃ e, readOptional ts = (.ok e, r.1) := by
  obtain ⟨ops, e, hended, hread⟩ := ((reads .whole ts).expression [] [] .whole).1 r h
  obtain ⟨e', hwhole⟩ := @readFrom_whole r.1 e ops hended
  have hok : read .whole ts = .ok (e', r.1) := hread.trans hwhole
  exact ⟨e', by simp only [readOptional, hok]⟩

theorem readOptional_none (h : expression? ts = none) :
    ∃ stuck, readOptional ts = (.error stuck, ts) := by
  obtain ⟨stuck, hread⟩ := ((reads .whole ts).expression [] [] .whole).2 h fun _ _ _ hf => by cases hf
  have herror : read .whole ts = .error stuck := hread
  exact ⟨stuck, by simp only [readOptional, herror]⟩

theorem read_name (h : t.kind = .name)
    (hr : ∀ bracket more, rest = bracket :: more → bracket.kind ≠ .opening) :
    read .operand (t :: rest) = .ok (.get t, rest) := by
  rw [Expr.read, readFrom_name h]
  exact readFrom_bounded fun _ _ => hr

theorem read_call (h : t.kind = .name) (hb : bracket.kind = .opening) {r : Rest rest}
    (hr : arguments? rest = some r) :
    ∃ arguments, read .operand (t :: bracket :: rest) = .ok (.call t bracket arguments, r.1) := by
  obtain ⟨arguments, hread⟩ := ((reads .operand rest).arguments t bracket []).1 r hr
  refine ⟨arguments, ?_⟩
  rw [Expr.read, readFrom_name h, readFrom_opening hb, hread]
  exact readFrom_bounded (settled_of_ne (fun _ => Expr.noConfusion) _)

theorem read_call_none (h : t.kind = .name) (hb : bracket.kind = .opening)
    (hr : arguments? rest = none) :
    ∃ stuck, read .operand (t :: bracket :: rest) = .error stuck := by
  obtain ⟨stuck, hread⟩ := ((reads .operand rest).arguments t bracket []).2 hr
  refine ⟨stuck, ?_⟩
  rw [Expr.read, readFrom_name h, readFrom_opening hb, hread]

end Arbor.Grammar
