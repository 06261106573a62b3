import Arbor.Proofs.Expr.Chain
import Arbor.Proofs.Expr.Made
import Arbor.Proofs.Tree.Subtree
import Mathlib

/-!
# How operators group

What is read is the tree of the chain that was taken. The machine gets there from the left: the
operators that wait in its frames bind tighter and tighter, and each has all of its left operand.
-/
namespace Arbor.Expr

inductive ArgumentOf (a : Expr) : Expr → Prop where
  | here {name bracket : Token} {arguments : List Expr} : a ∈ arguments →
      ArgumentOf a (.call name bracket arguments)
  | inner {name bracket : Token} {arguments : List Expr} {b : Expr} : b ∈ arguments →
      ArgumentOf a b → ArgumentOf a (.call name bracket arguments)
  | left {symbol : Token} {left right : Expr} : ArgumentOf a left →
      ArgumentOf a (.operator symbol left right)
  | right {symbol : Token} {left right : Expr} : ArgumentOf a right →
      ArgumentOf a (.operator symbol left right)

mutual

inductive PrimaryTakes : Expr → List Token → Prop where
  | literal {t : Token} : t.kind = .string ∨ t.kind = .number → PrimaryTakes (.literal t) [t]
  | get {name : Token} : name.kind = .name → PrimaryTakes (.get name) [name]
  | call {name bracket : Token} {arguments : List Expr} {taken : List Token} :
      name.kind = .name → bracket.kind = .opening → ArgumentsTake arguments taken →
      PrimaryTakes (.call name bracket arguments) (name :: bracket :: taken)

inductive ChainTakes : Chain → List Token → Prop where
  | last {e : Expr} {taken : List Token} : PrimaryTakes e taken → ChainTakes ⟨e, []⟩ taken
  | link {e next : Expr} {symbol : Token} {rest : List (Token × Expr)} {taken more : List Token} :
      PrimaryTakes e taken → symbol.kind = .operator → ChainTakes ⟨next, rest⟩ more →
      ChainTakes ⟨e, (symbol, next) :: rest⟩ (taken ++ symbol :: more)

inductive ArgumentsTake : List Expr → List Token → Prop where
  | none {closing : Token} : closing.kind = .closing → ArgumentsTake [] [closing]
  | last {e : Expr} {closing : Token} {taken : List Token} : ChainTakes e.chain taken →
      closing.kind = .closing → ArgumentsTake [e] (taken ++ [closing])
  | more {e next : Expr} {comma : Token} {rest : List Expr} {taken more : List Token} :
      ChainTakes e.chain taken → comma.kind = .comma → ArgumentsTake (next :: rest) more →
      ArgumentsTake (e :: next :: rest) (taken ++ comma :: more)

end

variable {e a : Expr} {symbol : Token} {taken more stretch : List Token} {frames : List Frame}
  {operand : Option Expr} {extent : Extent} {tokens rest : List Token}

theorem ChainTakes.join {c d : Chain} (hc : ChainTakes c taken) (hsymbol : symbol.kind = .operator)
    (hd : ChainTakes d more) : ChainTakes (c.join symbol d) (taken ++ symbol :: more) := by
  obtain ⟨first, rest⟩ := c
  induction rest generalizing first taken with
  | nil =>
    cases hc with
    | last hprimary => exact .link hprimary hsymbol hd
  | cons link rest ih =>
    cases hc with
    | link hprimary hoperator hrest =>
      rw [List.append_assoc, List.cons_append]
      exact .link hprimary hoperator (ih _ hrest)

theorem ChainTakes.of_join {c d : Chain} (h : ChainTakes (c.join symbol d) taken) :
    ∃ before behind, taken = before ++ symbol :: behind ∧ ChainTakes c before ∧
      ChainTakes d behind := by
  obtain ⟨first, rest⟩ := c
  induction rest generalizing first taken with
  | nil =>
    cases h with
    | link hprimary _ hrest => exact ⟨_, _, rfl, .last hprimary, hrest⟩
  | cons link rest ih =>
    cases h with
    | link hprimary hoperator hrest =>
      obtain ⟨before, behind, rfl, hbefore, hbehind⟩ := ih _ hrest
      refine ⟨_, behind, ?_, .link hprimary hoperator hbefore, hbehind⟩
      rw [List.append_assoc, List.cons_append]

theorem PrimaryTakes.chain (h : PrimaryTakes e taken) : ChainTakes e.chain taken := by
  cases h with
  | literal hkind => exact .last (.literal hkind)
  | get hkind => exact .last (.get hkind)
  | call hname hbracket harguments => exact .last (.call hname hbracket harguments)

theorem PrimaryTakes.tops (h : PrimaryTakes e taken) (p : Nat → Prop) : e.Tops p := by
  cases h <;> trivial

def Stretch (taken stretch : List Token) : Prop :=
  ∃ before next behind, taken = before ++ stretch ++ next :: behind ∧
    (next.kind = .comma ∨ next.kind = .closing)

theorem Stretch.append_left (h : Stretch taken stretch) (more : List Token) :
    Stretch (more ++ taken) stretch := by
  obtain ⟨before, next, behind, rfl, hnext⟩ := h
  exact ⟨more ++ before, next, behind, by simp, hnext⟩

theorem Stretch.append_right (h : Stretch taken stretch) (more : List Token) :
    Stretch (taken ++ more) stretch := by
  obtain ⟨before, next, behind, rfl, hnext⟩ := h
  exact ⟨before, next, behind ++ more, by simp, hnext⟩

theorem ArgumentsTake.delimited {arguments : List Expr} (h : ArgumentsTake arguments taken)
    (ha : a ∈ arguments) : ∃ stretch, Stretch taken stretch ∧ ChainTakes a.chain stretch := by
  induction arguments generalizing taken with
  | nil => cases ha
  | cons b arguments ih =>
    cases h with
    | last htakes hclosing =>
      obtain rfl := List.mem_singleton.mp ha
      exact ⟨_, ⟨[], _, [], rfl, Or.inr hclosing⟩, htakes⟩
    | @more _ next comma rest taken more htakes hcomma hrest =>
      rcases List.mem_cons.mp ha with rfl | ha
      · exact ⟨_, ⟨[], _, _, rfl, Or.inl hcomma⟩, htakes⟩
      · obtain ⟨stretch, hstretch, ha⟩ := ih hrest ha
        refine ⟨stretch, ?_, ha⟩
        rw [← List.singleton_append, ← List.append_assoc]
        exact hstretch.append_left _

theorem ChainTakes.arguments {name bracket : Token} {arguments : List Expr}
    (h : ChainTakes (chain (.call name bracket arguments)) taken) :
    ∃ inner, taken = name :: bracket :: inner ∧ ArgumentsTake arguments inner := by
  cases h with
  | last hprimary =>
    cases hprimary with
    | call _ _ harguments => exact ⟨_, rfl, harguments⟩

theorem ArgumentOf.delimited (h : ArgumentOf a e) (htakes : ChainTakes e.chain taken) :
    ∃ stretch, Stretch taken stretch ∧ ChainTakes a.chain stretch := by
  induction h generalizing taken with
  | here ha =>
    obtain ⟨inner, rfl, harguments⟩ := htakes.arguments
    obtain ⟨stretch, hstretch, ha⟩ := harguments.delimited ha
    exact ⟨stretch, hstretch.append_left [_, _], ha⟩
  | inner hb _ ih =>
    -- a stretch of the tokens of the argument that it is in
    obtain ⟨inner, rfl, harguments⟩ := htakes.arguments
    obtain ⟨outer, ⟨before, next, behind, rfl, -⟩, hb⟩ := harguments.delimited hb
    obtain ⟨stretch, hstretch, ha⟩ := ih hb
    exact ⟨stretch, ((hstretch.append_left before).append_right _).append_left [_, _], ha⟩
  | left _ ih =>
    obtain ⟨before, behind, rfl, hleft, -⟩ := htakes.of_join
    obtain ⟨stretch, hstretch, ha⟩ := ih hleft
    exact ⟨stretch, hstretch.append_right _, ha⟩
  | @right symbol left right _ ih =>
    obtain ⟨before, behind, rfl, -, hright⟩ := htakes.of_join
    obtain ⟨stretch, hstretch, ha⟩ := ih hright
    exact ⟨stretch, (hstretch.append_left [symbol]).append_left before, ha⟩

/-- Graded, with all of the arguments inside. -/
inductive Settled : Expr → Prop where
  | literal {t : Token} : Settled (.literal t)
  | get {name : Token} : Settled (.get name)
  | call {name bracket : Token} {arguments : List Expr} : (∀ a ∈ arguments, Settled a) →
      Settled (.call name bracket arguments)
  | operator {symbol : Token} {left right : Expr} : left.Tops (· ≤ Operator.group symbol.text) →
      right.Tops (· < Operator.group symbol.text) → Settled left → Settled right →
      Settled (.operator symbol left right)

theorem Settled.graded (h : e.Settled) : e.Graded := by
  induction h with
  | operator hleft hright _ _ ihleft ihright => exact ⟨hleft, hright, ihleft, ihright⟩
  | _ => trivial

theorem Settled.argument (h : e.Settled) (ha : ArgumentOf a e) : a.Settled := by
  induction ha with
  | here ha =>
    cases h with
    | call harguments => exact harguments _ ha
  | inner hb _ ih =>
    cases h with
    | call harguments => exact ih (harguments _ hb)
  | left _ ih =>
    cases h with
    | operator _ _ hleft _ => exact ih hleft
  | right _ ih =>
    cases h with
    | operator _ _ _ hright => exact ih hright

/-- The operator that waits on top of `frames`, if one does, is looser than `group`. -/
def Above (group : Nat) : List Frame → Prop
  | .operand _ symbol :: _ => group < Operator.group symbol.text
  | _ => True

inductive EarlierTake : List Expr → List Token → Prop where
  | nil : EarlierTake [] []
  | cons {e : Expr} {before : List Expr} {comma : Token} {taken more : List Token} :
      EarlierTake before taken → ChainTakes e.chain more → e.Settled → comma.kind = .comma →
      EarlierTake (e :: before) (taken ++ (more ++ [comma]))

/-- What waits in the frames was made of these tokens. Of two operators in a row, the inner one is
tighter. -/
inductive Waits : List Frame → List Token → Prop where
  | nil : Waits [] []
  | operand {below : List Frame} {left : Expr} {symbol : Token} {pending taken : List Token} :
      Waits below pending → ChainTakes left.chain taken → left.Settled →
      left.Tops (· ≤ Operator.group symbol.text) → symbol.kind = .operator →
      Above (Operator.group symbol.text) below →
      Waits (.operand left symbol :: below) (pending ++ (taken ++ [symbol]))
  | argument {below : List Frame} {name bracket : Token} {before : List Expr}
      {pending taken : List Token} : Waits below pending → name.kind = .name →
      bracket.kind = .opening → EarlierTake before taken →
      Waits (.argument name bracket before :: below) (pending ++ name :: bracket :: taken)

inductive Ready (frames : List Frame) (e : Expr) : List Token → Prop where
  | mk {pending taken : List Token} : Waits frames pending → ChainTakes e.chain taken →
      e.Settled → e.Tops (Above · frames) → Ready frames e (pending ++ taken)

theorem EarlierTake.settled {before : List Expr} (h : EarlierTake before taken) :
    ∀ a ∈ before, a.Settled := by
  induction h with
  | nil => exact fun a ha => (List.not_mem_nil ha).elim
  | cons _ _ he _ ih => exact List.forall_mem_cons.mpr ⟨he, ih⟩

theorem EarlierTake.arguments {before behind : List Expr} (h : EarlierTake before taken)
    (hbehind : ArgumentsTake (e :: behind) more) :
    ArgumentsTake (before.reverse ++ e :: behind) (taken ++ more) := by
  induction h generalizing e behind more with
  | nil => exact hbehind
  | cons _ htakes _ hcomma ih =>
    rw [List.reverse_cons, List.append_assoc, List.singleton_append, List.append_assoc,
      List.append_assoc, List.singleton_append]
    exact ih (.more htakes hcomma hbehind)

/-- Folding keeps the tokens, and what it leaves on top is looser than `group`. -/
theorem fold_ready (group : Nat) {before : List Token} (h : Ready frames e before)
    (he : e.Tops (· ≤ group)) :
    Ready (fold group frames e).1 (fold group frames e).2 before ∧
      (fold group frames e).2.Tops (· ≤ group) ∧ Above group (fold group frames e).1 := by
  fun_induction fold group frames e with
  | case1 e left symbol below hgroup ih =>
    obtain ⟨hwaits, htakes, hsettled, htops⟩ := h
    cases hwaits with
    | @operand _ _ _ pending taken hbelow hleft hlsettled hltops hsymbol habove =>
      -- `e` was tighter than the operator that takes it, which is tighter than the one below
      refine ih ?_ hgroup
      rw [List.append_assoc, List.append_assoc, List.singleton_append]
      exact .mk hbelow (hleft.join hsymbol htakes) (.operator hltops htops hlsettled hsettled)
        habove
  | case2 e left symbol below hgroup => exact ⟨h, he, Nat.lt_of_not_le hgroup⟩
  | case3 frames e hframes =>
    refine ⟨h, he, ?_⟩
    cases frames with
    | nil => trivial
    | cons frame below =>
      cases frame with
      | operand left symbol => exact (hframes _ _ _ rfl).elim
      | argument => trivial

def Midway (frames : List Frame) (operand : Option Expr) (before : List Token) : Prop :=
  match operand with
  | none => Waits frames before
  | some e => ∃ pending taken, before = pending ++ taken ∧ Waits frames pending ∧
      PrimaryTakes e taken ∧ e.Settled

theorem Midway.ready {before : List Token} (h : Midway frames (some e) before) :
    Ready frames e before ∧ ∀ p, e.Tops p := by
  obtain ⟨pending, taken, rfl, hwaits, hprimary, hsettled⟩ := h
  exact ⟨.mk hwaits hprimary.chain hsettled (hprimary.tops _), hprimary.tops⟩

def Move.Keeps (extent : Extent) (before : List Token) (t : Token) : Move → Prop
  | .shift frames operand => Midway frames operand (before ++ [t])
  | .finish e => ChainTakes e.chain before ∧ e.Settled ∧ (extent = .whole → t.kind ≠ .operator)
  | .stuck => True

theorem Ready.finished {before : List Token} (h : Ready [] e before) :
    ChainTakes e.chain before ∧ e.Settled := by
  obtain ⟨hwaits, htakes, hsettled, -⟩ := h
  cases hwaits with
  | nil => exact ⟨htakes, hsettled⟩

theorem conclude_settled {before : List Token} {e' : Expr} (h : Midway frames (some e) before)
    (hconclude : conclude frames (some e) = some e') :
    ChainTakes e'.chain before ∧ e'.Settled := by
  obtain ⟨hready, htops⟩ := h.ready
  have hfold := (fold_ready Operator.loosest hready (htops _)).1
  simp only [conclude] at hconclude
  split at hconclude
  · next hfolded =>
    rw [hfolded] at hfold
    cases hconclude
    exact hfold.finished
  · cases hconclude

theorem afterOperand_keeps {before : List Token} (h : Midway frames (some e) before)
    (extent : Extent) (t : Token) : (afterOperand frames e t).Keeps extent before t := by
  obtain ⟨hready, htops⟩ := h.ready
  have hfold := fun group => fold_ready group hready (htops _)
  unfold afterOperand
  split
  · next hk =>
    -- all that is left waiting is looser than `t`, so that `t` may wait on top of it
    obtain ⟨⟨hwaits, htakes, hsettled, -⟩, hle, habove⟩ := hfold (Operator.group t.text)
    dsimp only [Move.Keeps, Midway]
    rw [List.append_assoc]
    exact .operand hwaits htakes hsettled hle hk habove
  · next hk =>
    have hloose := (hfold Operator.loosest).1
    split
    · next name bracket before' below e' hfolded =>
      rw [hfolded] at hloose
      obtain ⟨hwaits, htakes, hsettled, -⟩ := hloose
      cases hwaits with
      | argument hbelow hname hbracket hearlier =>
        dsimp only [Move.Keeps, Midway]
        rw [List.append_assoc, List.append_assoc, List.cons_append, List.cons_append]
        exact .argument hbelow hname hbracket (.cons hearlier htakes hsettled hk)
    · next hfolded =>
      rw [hfolded] at hloose
      obtain ⟨htakes, hsettled⟩ := hloose.finished
      exact ⟨htakes, hsettled, fun _ => by rw [hk]; decide⟩
    · trivial
  · next hk =>
    have hloose := (hfold Operator.loosest).1
    split
    · next name bracket before' below e' hfolded =>
      rw [hfolded] at hloose
      obtain ⟨hwaits, htakes, hsettled, -⟩ := hloose
      cases hwaits with
      | argument hbelow hname hbracket hearlier =>
        have harguments := hearlier.arguments (.last htakes hk)
        rw [← List.reverse_cons] at harguments
        refine ⟨_, _, ?_, hbelow, .call hname hbracket harguments, .call ?_⟩
        · simp
        · intro a ha
          rcases List.mem_cons.mp (List.mem_reverse.mp ha) with rfl | ha
          · exact hsettled
          · exact hearlier.settled a ha
    · next hfolded =>
      rw [hfolded] at hloose
      obtain ⟨htakes, hsettled⟩ := hloose.finished
      exact ⟨htakes, hsettled, fun _ => by rw [hk]; decide⟩
    · trivial
  · next hk _ _ =>
    split
    · next hc =>
      obtain ⟨htakes, hsettled⟩ := conclude_settled h hc
      exact ⟨htakes, hsettled, fun _ => hk⟩
    · trivial

theorem move_keeps {before : List Token} (h : Midway frames operand before) (extent : Extent)
    (t : Token) : (move extent frames t operand).Keeps extent before t := by
  unfold move
  cases operand with
  | none =>
    dsimp only
    split
    · next hk => exact ⟨before, [t], rfl, h, .literal (Or.inl hk), .literal⟩
    · next hk => exact ⟨before, [t], rfl, h, .literal (Or.inr hk), .literal⟩
    · next hk => exact ⟨before, [t], rfl, h, .get hk, .get⟩
    · next name bracket below hk =>
      cases h with
      | argument hbelow hname hbracket hearlier =>
        cases hearlier with
        | nil =>
          refine ⟨_, _, ?_, hbelow, .call hname hbracket (.none hk), .call ?_⟩
          · simp
          · exact fun a ha => (List.not_mem_nil ha).elim
    · trivial
  | some e =>
    dsimp only
    split
    · next name hk =>
      obtain ⟨pending, taken, rfl, hwaits, hprimary, -⟩ := h
      cases hprimary with
      | get hname =>
        dsimp only [Move.Keeps, Midway]
        rw [List.append_assoc, List.singleton_append]
        exact .argument hwaits hname hk .nil
    · split
      · next hend =>
        rw [List.isEmpty_iff.mp hend.2] at h
        obtain ⟨htakes, hsettled⟩ := h.ready.1.finished
        refine ⟨htakes, hsettled, fun hwhole => ?_⟩
        rw [hwhole] at hend
        cases hend.1
      · exact afterOperand_keeps h extent t

/-- The tokens that are taken make up one chain, settled on one tree. -/
theorem readFrom_settled {before : List Token} (h : Midway frames operand before)
    (hread : readFrom extent frames operand tokens = .ok (e, rest)) :
    ∃ taken, tokens = taken ++ rest ∧ ChainTakes e.chain (before ++ taken) ∧ e.Settled ∧
      (extent = .whole → ∀ t ∈ rest.head?, t.kind ≠ .operator) := by
  -- by induction on the tokens, with what waits in the frames as the invariant
  fun_induction readFrom extent frames operand tokens generalizing before with
  | case1 frames operand e' hc =>
    cases hread
    cases operand with
    | none => cases hc
    | some operand =>
      obtain ⟨htakes, hsettled⟩ := conclude_settled h hc
      refine ⟨[], rfl, ?_, hsettled, fun _ t ht => by cases ht⟩
      rwa [List.append_nil]
  | case2 => cases hread
  | case3 frames operand t rest' frames' operand' hm ih =>
    have hkeeps := move_keeps h extent t
    rw [hm] at hkeeps
    obtain ⟨taken, rfl, htakes, hsettled, hend⟩ := ih hkeeps hread
    refine ⟨t :: taken, rfl, ?_, hsettled, hend⟩
    rwa [List.append_assoc, List.singleton_append] at htakes
  | case4 frames operand t rest' e' hm =>
    have hkeeps := move_keeps h extent t
    rw [hm] at hkeeps
    cases hread
    obtain ⟨htakes, hsettled, hend⟩ := hkeeps
    refine ⟨[], rfl, ?_, hsettled, ?_⟩
    · rwa [List.append_nil]
    · intro hwhole u hu
      cases hu
      exact hend hwhole
  | case5 => cases hread

/-- The chain of `e` is what `taken` spells, and `e` is the tree of it: the one that is cut at its
loosest operators, and the only one that is graded. -/
structure Grouped (taken : List Token) (e : Expr) : Prop where
  takes : ChainTakes e.chain taken
  graded : e.Graded
  built : e.chain.build = e
  only : ∀ other : Expr, other.chain = e.chain → other.Graded → other = e

theorem Settled.grouped (h : e.Settled) (htakes : ChainTakes e.chain taken) : Grouped taken e :=
  ⟨htakes, h.graded, h.graded.build, fun _ hchain hgraded => h.graded.unique hgraded hchain⟩

/-- An expression is grouped as its operators say, and so is each argument of a call inside of it,
on a stretch of its tokens of its own. No operator goes on with either. Grafted on a tree, the
expression keeps its shape. -/
theorem read_grouped (h : read extent tokens = .ok (e, rest)) :
    ∃ taken, tokens = taken ++ rest ∧ Grouped taken e ∧
      (extent = .whole → ∀ t ∈ rest.head?, t.kind ≠ .operator) ∧
      (∀ a, ArgumentOf a e → ∃ before stretch next behind,
        taken = before ++ stretch ++ next :: behind ∧ Grouped stretch a ∧ next.kind ≠ .operator) ∧
      ∀ (t : Tree) (loose : List NodeId), t.Grove loose →
        (t.graft e).1.shape (t.graft e).2 = e.shape := by
  have hstart : Midway [] none [] := Waits.nil
  obtain ⟨taken, htaken, htakes, hsettled, hend⟩ := readFrom_settled hstart h
  refine ⟨taken, htaken, hsettled.grouped htakes, hend, ?_, fun t loose hgrove =>
    hgrove.graft_shape e⟩
  intro a ha
  obtain ⟨stretch, ⟨before, next, behind, hstretch, hnext⟩, hatakes⟩ := ha.delimited htakes
  refine ⟨before, stretch, next, behind, hstretch, (hsettled.argument ha).grouped hatakes, ?_⟩
  rcases hnext with hnext | hnext <;> rw [hnext] <;> decide

/-- `f(8-2-1)>=2**3;` is a power whose left side is an inequality, and in its call `8-2` is the left
side. -/
theorem power_of_inequality_grouped : ∃ taken e,
    read .whole [⟨.name, "f", 0⟩, ⟨.opening, "(", 1⟩, ⟨.number, "8", 2⟩, ⟨.operator, "-", 3⟩,
      ⟨.number, "2", 4⟩, ⟨.operator, "-", 5⟩, ⟨.number, "1", 6⟩, ⟨.closing, ")", 7⟩,
      ⟨.operator, ">=", 8⟩, ⟨.number, "2", 10⟩, ⟨.operator, "**", 11⟩, ⟨.number, "3", 13⟩,
      ⟨.semicolon, ";", 14⟩] = .ok (e, [⟨.semicolon, ";", 14⟩]) ∧
    Grouped taken e ∧ taken.length = 12 ∧ e.chain.symbols.map Token.text = [">=", "**"] ∧
    ∃ stretch, Grouped stretch (.operator ⟨.operator, "-", 5⟩ (.operator ⟨.operator, "-", 3⟩
      (.literal ⟨.number, "8", 2⟩) (.literal ⟨.number, "2", 4⟩)) (.literal ⟨.number, "1", 6⟩)) := by
  have hread : read .whole [⟨.name, "f", 0⟩, ⟨.opening, "(", 1⟩, ⟨.number, "8", 2⟩,
      ⟨.operator, "-", 3⟩, ⟨.number, "2", 4⟩, ⟨.operator, "-", 5⟩, ⟨.number, "1", 6⟩,
      ⟨.closing, ")", 7⟩, ⟨.operator, ">=", 8⟩, ⟨.number, "2", 10⟩, ⟨.operator, "**", 11⟩,
      ⟨.number, "3", 13⟩, ⟨.semicolon, ";", 14⟩] =
      .ok (.operator ⟨.operator, "**", 11⟩ (.operator ⟨.operator, ">=", 8⟩
        (.call ⟨.name, "f", 0⟩ ⟨.opening, "(", 1⟩ [.operator ⟨.operator, "-", 5⟩
          (.operator ⟨.operator, "-", 3⟩ (.literal ⟨.number, "8", 2⟩) (.literal ⟨.number, "2", 4⟩))
          (.literal ⟨.number, "1", 6⟩)]) (.literal ⟨.number, "2", 10⟩))
        (.literal ⟨.number, "3", 13⟩), [⟨.semicolon, ";", 14⟩]) := by
    cbv
  obtain ⟨taken, htaken, hgrouped, -, harguments, -⟩ := read_grouped hread
  obtain ⟨-, stretch, -, -, -, hstretch, -⟩ := harguments _ (.left (.left (.here (.head _))))
  refine ⟨taken, _, hread, hgrouped, ?_, rfl, stretch, hstretch⟩
  have hlength := congrArg List.length htaken
  rw [List.length_append] at hlength
  exact (Nat.add_right_cancel hlength).symm

end Arbor.Expr
