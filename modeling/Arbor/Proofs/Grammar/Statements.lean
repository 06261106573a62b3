import Arbor.Proofs.Grammar.Expressions
import Arbor.Proofs.Grammar.Tracks
import Arbor.Proofs.Growth.Extension

/-!
# Programs and their grammar

Growing a tree succeeds on the token lists that the grammar accepts. Growth may go on where the
grammar has given up, when an optional expression breaks off; the tokens of that expression are then
tried as statements, and none of them can be one.
-/
namespace Arbor.Grammar

open Arbor.Tree Arbor.Tree.Growth

variable {eof t : Token} {ts rest rest' : List Token} {g g' : Growth} {b b' : Bodies} {w : Tree}

/-- Growth may have taken a step, but from there it gets nowhere. -/
def Doomed (eof : Token) (r : Step) : Prop :=
  ∀ g rest, r = .ok (g, rest) → ∃ stunted, grow eof g rest = .error stunted

theorem doomed_error (eof : Token) (stunted : Stunted) : Doomed eof (.error stunted) := by
  intro _ _ h
  cases h

theorem Doomed.grow (h : Doomed eof (g.statement eof t rest)) :
    ∃ stunted, grow eof g (t :: rest) = .error stunted := by
  cases hs : g.statement eof t rest with
  | error stunted => exact ⟨stunted, grow_error hs⟩
  | ok r =>
    obtain ⟨stunted, hgrow⟩ := h r.1 r.2 hs
    exact ⟨stunted, (grow_ok hs).trans hgrow⟩

theorem statement_refused (hk : t.kind ≠ .semicolon ∧ t.kind ≠ .keyword ∧ t.kind ≠ .name)
    (g : Growth) (rest : List Token) : g.statement eof t rest = g.refuse .noStatement t := by
  obtain ⟨hsemicolon, hkeyword, hname⟩ := hk
  rw [statement]
  split
  · next h => exact absurd h hsemicolon
  · next h => exact absurd h hkeyword
  · next h => exact absurd h hname
  · rfl

theorem grow_refused (hk : t.kind ≠ .semicolon ∧ t.kind ≠ .keyword ∧ t.kind ≠ .name)
    (g : Growth) (rest : List Token) : ∃ stunted, grow eof g (t :: rest) = .error stunted :=
  ⟨_, grow_error (statement_refused hk g rest)⟩

theorem expect_some {kind : Token.Kind} {why : Misplacement} (h : token? kind ts = some rest) :
    ∃ t, expect eof kind why w ts = .ok (t, rest) := by
  obtain ⟨t, rfl, hk⟩ := token?_eq_some.mp h
  exact ⟨t, by rw [expect, if_pos hk]⟩

theorem expect_none {kind : Token.Kind} {why : Misplacement} (h : token? kind ts = none) :
    ∃ stunted, expect eof kind why w ts = .error stunted := by
  cases ts with
  | nil => exact ⟨_, rfl⟩
  | cons t rest =>
    have hk : t.kind ≠ kind := by
      intro hk
      rw [token?, if_pos hk] at h
      cases h
    rw [expect, if_neg hk]
    exact ⟨_, rfl⟩

/-- An expression starts here, and the grammar gives up on it. -/
def BreaksOff (ts : List Token) : Prop := starts ts = true ∧ expression? ts = none

theorem optional_cases (ts : List Token) :
    (∃ operand rest, Expr.readOptional ts = (operand, rest) ∧ optional? ts = some rest) ∨
    ∃ operand, Expr.readOptional ts = (operand, ts) ∧ optional? ts = none ∧ BreaksOff ts := by
  cases hstarts : starts ts with
  | false =>
    obtain ⟨stuck, hread⟩ := readOptional_none (expression?_none (operand?_none hstarts))
    exact Or.inl ⟨_, ts, hread, by simp [optional?, hstarts]⟩
  | true =>
    cases hexpression : expression? ts with
    | some r =>
      obtain ⟨e, hread⟩ := readOptional_some hexpression
      exact Or.inl ⟨_, r.1, hread, by simp [optional?, hstarts, hexpression]⟩
    | none =>
      obtain ⟨stuck, hread⟩ := readOptional_none hexpression
      exact Or.inr ⟨_, hread, by simp [optional?, hstarts, hexpression], hstarts, hexpression⟩

theorem nameStatement_name (ht : t.kind = .name)
    (hr : ∀ bracket more, rest = bracket :: more → bracket.kind ≠ .opening) :
    g.nameStatement eof t rest =
      expect eof .assign (.noColonAfter t.text) (g.tree.graft (.get t)).1 rest >>= fun after =>
        pure (appendGuarded g.scope
          ((g.tree.graft (.get t)).1.retag (g.tree.graft (.get t)).2 .store)
          (g.tree.graft (.get t)).2 (Expr.readOptional after.2).1,
          (Expr.readOptional after.2).2) := by
  simp only [nameStatement]
  rw [read_name ht hr]

theorem nameStatement_error {next : Token} {more : List Token} (ht : t.kind = .name)
    (hk : next.kind = .opening) (ha : arguments? more = none) :
    ∃ stunted, g.nameStatement eof t (next :: more) = .error stunted := by
  obtain ⟨stuck, hread⟩ := read_call_none ht hk ha
  simp only [nameStatement]
  rw [hread]
  exact ⟨_, rfl⟩

theorem nameStatement_call {next : Token} {more : List Token} (ht : t.kind = .name)
    (hk : next.kind = .opening) {r : Rest more} (ha : arguments? more = some r) :
    ∃ arguments, g.nameStatement eof t (next :: more) =
      .ok (⟨(g.tree.graft (.call t next arguments)).1.attach g.scope
        (g.tree.graft (.call t next arguments)).2, g.scope⟩, r.1) := by
  obtain ⟨arguments, hread⟩ := read_call ht hk ha
  refine ⟨arguments, ?_⟩
  simp only [nameStatement]
  rw [hread]

theorem statement_name (ht : t.kind = .name) (g : Growth) (rest : List Token) :
    g.statement eof t rest = g.nameStatement eof t rest := by
  simp only [statement]
  simp only [ht]

theorem operator_of_none {r : Rest ts} (h : expression? ts = none) (ho : operand? ts = some r) :
    ∃ t more, r.1 = t :: more ∧ t.kind = .operator := by
  by_contra hnone
  rw [expression?_ended ho fun t more hr hk => hnone ⟨t, more, hr, hk⟩] at h
  cases h

theorem refused_operator (hk : t.kind = .operator) (g : Growth) (rest : List Token) :
    ∃ stunted, grow eof g (t :: rest) = .error stunted := by
  refine grow_refused ⟨?_, ?_, ?_⟩ g rest
  all_goals
    intro h
    rw [hk] at h
    cases h

theorem BreaksOff.grow_call {bracket : Token} {more : List Token} (ht : t.kind = .name)
    (hb : bracket.kind = .opening) (h : expression? (t :: bracket :: more) = none) (g : Growth) :
    ∃ stunted, grow eof g (t :: bracket :: more) = .error stunted := by
  cases ha : arguments? more with
  | none =>
    obtain ⟨stunted, hs⟩ := @nameStatement_error eof t g bracket more ht hb ha
    exact ⟨stunted, grow_error ((statement_name ht g _).trans hs)⟩
  | some r =>
    obtain ⟨arguments, hs⟩ := @nameStatement_call eof t g bracket more ht hb r ha
    have hoperand := @operand?_call t bracket more ht hb
    rw [ha, Option.map_some] at hoperand
    -- the call itself is a statement; the operator behind it starts none
    obtain ⟨u, after, hr, hk⟩ := operator_of_none h hoperand
    change r.1 = u :: after at hr
    rw [grow_ok ((statement_name ht g _).trans hs), hr]
    exact refused_operator hk _ after

theorem BreaksOff.grow_name (ht : t.kind = .name)
    (hr : ∀ bracket more, rest = bracket :: more → bracket.kind ≠ .opening)
    (h : expression? (t :: rest) = none) (g : Growth) :
    ∃ stunted, grow eof g (t :: rest) = .error stunted := by
  -- the expression went on with an operator, where a statement needs a colon
  obtain ⟨u, after, hrest, hk⟩ := operator_of_none h (operand?_name ht hr)
  change rest = u :: after at hrest
  have hcolon : token? .assign rest = none := by simp [hrest, token?, hk]
  obtain ⟨stunted, he⟩ := @expect_none eof rest (g.tree.graft (.get t)).1 .assign
    (.noColonAfter t.text) hcolon
  refine ⟨stunted, grow_error ?_⟩
  rw [statement_name ht, nameStatement_name ht hr, he]
  rfl

/-- No token of an expression that breaks off starts a statement that leads on. -/
theorem BreaksOff.grow (h : BreaksOff ts) (g : Growth) :
    ∃ stunted, grow eof g ts = .error stunted := by
  obtain ⟨hstarts, hexpression⟩ := h
  cases ts with
  | nil => cases hstarts
  | cons t rest =>
    by_cases ht : t.kind = .name
    · by_cases hcall : ∃ bracket more, rest = bracket :: more ∧ bracket.kind = .opening
      · obtain ⟨bracket, more, rfl, hb⟩ := hcall
        exact BreaksOff.grow_call ht hb hexpression g
      · refine BreaksOff.grow_name ht ?_ hexpression g
        intro bracket more hr hb
        exact hcall ⟨bracket, more, hr, hb⟩
    · refine grow_refused ⟨?_, ?_, ht⟩ g rest
      all_goals
        intro hk
        simp [starts, hk] at hstarts

/-- Where the grammar takes a statement, growth takes it and the open bodies stay tracked; where it
does not, growth fails now or a little later. -/
def Agrees (eof : Token) (r : Step) : Option (Bodies × List Token) → Prop
  | some (b, rest) => ∃ g, r = .ok (g, rest) ∧ Tracks g.tree g.scope b
  | none => Doomed eof r

theorem append_tracks (h : Tracks g.tree g.scope b) (tag : Tag) (text : String) (position : Nat) :
    Tracks (g.append tag text position).tree g.scope (b.hold (tag = .branch)) := by
  have hprefix := (PrefixOf.refl g.tree).add tag text position
  have hattach := h.attach hprefix (Nat.le_refl _) lt_size_add
  rw [isBranch, tag_new] at hattach
  exact hattach

theorem appendGuarded_tracks (h : Tracks g.tree g.scope b) (tag : Tag) (text : String)
    (position : Nat) (operand : Except Expr.Stuck Expr) :
    Tracks (appendGuarded g.scope (g.tree.add tag text position) g.tree.size operand).tree g.scope
      (b.hold (tag = .branch)) := by
  have hstands := hangOperand_stands ((PrefixOf.refl g.tree).add tag text position)
    (Nat.le_refl _) operand
  have hgrows := (GrowsTo.refl (g.tree.add tag text position)).hangOperand g.tree.size operand
  have hbranch : isBranch ((g.tree.add tag text position).hangOperand g.tree.size operand)
      g.tree.size = decide (tag = .branch) := by
    rw [isBranch, hgrows.tag _ lt_size_add, tag_new]
  rw [appendGuarded_eq, ← hbranch]
  exact h.attach hstands (Nat.le_refl _) (lt_size_add.trans_le hgrows.size_le)

/-- The operand is read as far as the grammar takes it, or growth breaks off behind it. -/
theorem Agrees.optional {f : Except Expr.Stuck Expr → Growth} {b' : Bodies}
    (h : ∀ operand, Tracks (f operand).tree (f operand).scope b') (rest : List Token) :
    Agrees eof (.ok (f (Expr.readOptional rest).1, (Expr.readOptional rest).2))
      ((optional? rest).map (b', ·)) := by
  rcases optional_cases rest with ⟨operand, after, hread, ho⟩ | ⟨operand, hread, ho, hbreak⟩
  · rw [hread, ho]
    exact ⟨_, rfl, h operand⟩
  · rw [hread, ho]
    intro g' rest' hok
    obtain ⟨rfl, rfl⟩ := Prod.mk.inj (Except.ok.inj hok)
    exact hbreak.grow _

theorem withOperand_agrees (h : Tracks g.tree g.scope b) (tag : Tag) (t : Token)
    (rest : List Token) : Agrees eof (g.withOperand tag t rest)
      ((optional? rest).map (b.hold (tag = .branch), ·)) := by
  exact .optional (appendGuarded_tracks h tag t.text t.position) rest

theorem Agrees.expect {kind : Token.Kind} {why : Misplacement} {f : Token × List Token → Step}
    {s : List Token → Option (Bodies × List Token)}
    (h : ∀ t rest, token? kind ts = some rest → Agrees eof (f (t, rest)) (s rest)) :
    Agrees eof (expect eof kind why w ts >>= f) ((token? kind ts).bind s) := by
  cases ht : token? kind ts with
  | none =>
    obtain ⟨stunted, he⟩ := @expect_none eof ts w kind why ht
    rw [he]
    exact doomed_error eof stunted
  | some rest =>
    obtain ⟨t, he⟩ := @expect_some eof ts rest w kind why ht
    rw [he]
    exact h t rest ht

theorem withName_agrees (h : Tracks g.tree g.scope b) {tag : Tag} (htag : tag ≠ .branch) (t : Token)
    (rest : List Token) : Agrees eof (g.withName eof tag t rest)
      ((token? .name rest).map (b.hold false, ·)) := by
  rw [Option.map_eq_bind]
  refine Agrees.expect fun name after _ => ?_
  have htracks := append_tracks h tag name.text name.position
  rw [decide_eq_false htag] at htracks
  exact ⟨_, rfl, htracks⟩

theorem closeBody_agrees (h : Tracks g.tree g.scope b) (brace : Token) (rest : List Token) :
    Agrees eof (g.closeBody brace rest) (b.close?.map (·, rest)) := by
  obtain ⟨tree, scope⟩ := g
  simp only [closeBody]
  cases h with
  | root hr hl =>
    rw [if_pos (show (⟨tree, 0⟩ : Growth).scope = root from rfl)]
    exact doomed_error eof _
  | @body _ owner enclosing last inner outer ho he henc howner hl hout =>
    have hroot : scope ≠ root := Nat.ne_of_gt (Nat.lt_of_le_of_lt (Nat.zero_le owner) howner)
    have hparent : (tree.parent scope).bind tree.parent = some enclosing := by
      rw [ho, Option.bind_some, he]
    simp only [if_neg hroot, hparent]
    exact ⟨_, rfl, hout⟩

theorem openBody_agrees (h : Tracks g.tree g.scope b) (brace : Token) (rest : List Token) :
    Agrees eof (g.openBody brace rest) (b.open?.map (·, rest)) := by
  have hholds := h.holds
  simp only [openBody, Bodies.open?]
  rw [← hholds.last_eq]
  cases hlast : g.tree.lastChild? g.scope with
  | none => exact doomed_error eof _
  | some owner =>
    obtain ⟨hlt, howner, hparent⟩ := hholds.later owner hlast
    refine ⟨_, rfl, ?_⟩
    have hadd := (PrefixOf.refl g.tree).add .body "body" brace.position
    have hg := (GrowsAt.of_stands hadd owner).attach (Nat.le_refl _)
    refine h.inside hg hparent hlt howner ?_ ?_
    · rw [parent_attach, if_pos ⟨rfl, by rw [size_add]; omega⟩]
    · have hnew : g.tree.size <
          ((g.tree.add .body "body" brace.position).attach owner g.tree.size).size := by
        rw [size_attach, size_add]
        exact Nat.lt_succ_self _
      refine holds_none hnew ?_
      rw [children_attach, if_neg fun k => absurd k.1 (Nat.ne_of_gt howner), children_new]

theorem openBranch?_cases (h : Tracks g.tree g.scope b) :
    (b.inner.ofBranch = false ∧ g.openBranch? = none) ∨
    ∃ (branch enclosing : Nat) (inner : OpenBody) (outer : List OpenBody), g.openBranch? = some branch ∧
      g.tree.parent branch = some enclosing ∧ enclosing < branch ∧ branch < g.tree.size ∧
      isBranch g.tree branch = true ∧ b.inner.ofBranch = true ∧ b.outer = inner :: outer ∧
      Tracks g.tree enclosing ⟨inner, outer⟩ := by
  obtain ⟨tree, scope⟩ := g
  cases h with
  | root hr hl =>
    have hr : tree.parent 0 = none := hr
    exact Or.inl ⟨rfl, by simp only [openBranch?, hr, Option.filter_none]⟩
  | @body _ owner enclosing last inner outer ho he henc howner hl hout =>
    have hopen : (⟨tree, scope⟩ : Growth).openBranch? =
        if isBranch tree owner then some owner else none := by
      simp only [openBranch?, ho, Option.filter_some, isBranch]
      rfl
    cases hbranch : isBranch tree owner with
    | false => exact Or.inl ⟨rfl, by rw [hopen, hbranch]; rfl⟩
    | true =>
      refine Or.inr ⟨owner, enclosing, inner, outer, ?_, he, henc, ?_, hbranch, rfl, rfl, hout⟩
      · rw [hopen, hbranch, if_pos rfl]
      · exact Nat.lt_trans howner hl.scope_lt

theorem further_tracks {t w : Tree} {branch enclosing condition : Nat} {inner : OpenBody}
    {outer : List OpenBody} {text : String} {position : Nat}
    (h : Tracks t enclosing ⟨inner, outer⟩) (he : t.parent branch = some enclosing)
    (henc : enclosing < branch) (hbranch : isBranch t branch = true)
    (hw : (t.add .body text position).PrefixOf w) (hc : t.size ≤ condition) :
    Tracks ((w.attach branch condition).attach branch t.size) t.size
      ⟨⟨true, none⟩, inner :: outer⟩ := by
  have hsize := hw.size_le
  rw [size_add] at hsize
  have hg : GrowsAt branch t ((w.attach branch condition).attach branch t.size) :=
    ((GrowsAt.of_stands (((PrefixOf.refl t).add ..).trans hw) branch).attach hc).attach
      (Nat.le_refl _)
  have hnew : t.size < ((w.attach branch condition).attach branch t.size).size := by
    rw [size_attach, size_attach]
    exact hsize
  have howner := lt_of_parent he
  have hparent : ((w.attach branch condition).attach branch t.size).parent t.size =
      some branch := by
    rw [parent_attach, if_pos ⟨rfl, by rw [size_attach]; exact hsize⟩]
  have hchildren : ((w.attach branch condition).attach branch t.size).children t.size = #[] := by
    have hne : t.size ≠ branch := Nat.ne_of_gt howner
    rw [children_attach, if_neg fun k => hne k.1, children_attach, if_neg fun k => hne k.1,
      hw.children_new]
  rw [← hbranch]
  exact h.inside hg he henc howner hparent (holds_none hnew hchildren)

theorem elseBranch_agrees (h : Tracks g.tree g.scope b) (keyword : Token) (rest : List Token) :
    Agrees eof (g.elseBranch keyword rest)
      (b.otherwise?.bind fun b => (optional? rest).map (b, ·)) := by
  rw [elseBranch_eq]
  rcases openBranch?_cases h with ⟨hof, hopen⟩ |
    ⟨branch, enclosing, inner, outer, hopen, he, henc, hlt, hbranch, hof, hout, htracks⟩
  · have hnone : b.otherwise? = none := by simp [Bodies.otherwise?, hof]
    rw [hopen, hnone]
    exact doomed_error eof _
  · have hsome : b.otherwise? = some ⟨⟨true, none⟩, inner :: outer⟩ := by
      simp [Bodies.otherwise?, hof, hout]
    rw [hopen, hsome, Option.bind_some]
    refine .optional (fun operand => ?_) rest
    have hcondition := graftCondition_grafted (g.tree.add .body "body" keyword.position)
      keyword.position operand
    exact further_tracks htracks he henc hbranch hcondition.stands
      (lt_size_add.le.trans hcondition.new)

theorem parametersFrom_names (list : NodeId) (w : Tree) (ts : List Token) :
    (∀ r, names? ts = some r → ∃ u rest, parametersFrom eof list w ts = .ok (u, rest) ∧
      token? .closing rest = some r) ∧
    (names? ts = none → ∀ u rest, parametersFrom eof list w ts = .ok (u, rest) →
      token? .closing rest = none) := by
  fun_induction parametersFrom eof list w ts with
  | case1 _ p hp _ c more hc ih =>
    have hnames : names? (p :: c :: more) = names? more := by
      rw [names?, if_pos hp, if_pos hc]
    rw [hnames]
    exact ih
  | case2 _ p hp w' c more hc =>
    have hnames : names? (p :: c :: more) = token? .closing (c :: more) := by
      rw [names?, if_pos hp, if_neg hc, token?]
    rw [hnames]
    refine ⟨fun r hr => ⟨_, _, rfl, hr⟩, fun hnone u rest hok => ?_⟩
    obtain ⟨-, rfl⟩ := Prod.mk.inj (Except.ok.inj hok)
    exact hnone
  | case3 _ p hp w' =>
    refine ⟨fun r hr => (by cases hr), fun _ u rest hok => ?_⟩
    obtain ⟨-, rfl⟩ := Prod.mk.inj (Except.ok.inj hok)
    rfl
  | case4 _ p rest hp =>
    have hnames : names? (p :: rest) = none := by
      cases rest with
      | nil => rfl
      | cons c more => rw [names?, if_neg hp]
    rw [hnames]
    exact ⟨fun r hr => (by cases hr), fun _ u rest hok => by cases hok⟩
  | case5 => exact ⟨fun r hr => (by cases hr), fun _ u rest hok => by cases hok⟩

theorem parameters_names (heof : eof.kind ≠ .closing) (list : NodeId) (w : Tree)
    (ts : List Token) :
    (∀ r, parameters? ts = some r → ∃ u rest, parameters eof list w ts = .ok (u, rest) ∧
      token? .closing rest = some r) ∧
    (parameters? ts = none → ∀ u rest, parameters eof list w ts = .ok (u, rest) →
      token? .closing rest = none) := by
  simp only [parameters, parameters?]
  cases hclosing : token? .closing ts with
  | some rest =>
    obtain ⟨t, rfl, hk⟩ := token?_eq_some.mp hclosing
    rw [List.headD_cons, if_pos hk]
    refine ⟨fun r hr => ⟨_, _, rfl, ?_⟩, fun hnone => by cases hnone⟩
    rw [hclosing]
    exact hr
  | none =>
    have hhead : (ts.headD eof).kind ≠ .closing := by
      cases ts with
      | nil => exact heof
      | cons t rest =>
        intro hk
        have hk : t.kind = .closing := hk
        rw [token?, if_pos hk] at hclosing
        cases hclosing
    rw [if_neg hhead]
    exact parametersFrom_names list w ts

theorem function_tracks {u : Tree} {text : String} {position position' : Nat} {eof : Token}
    (h : Tracks g.tree g.scope b)
    (hu : parameters eof (g.tree.size + 1)
      ((g.tree.add .function text position).add .arguments "arg" position') ts = .ok (u, rest)) :
    Tracks ((u.attach g.tree.size (g.tree.size + 1)).attach g.scope g.tree.size) g.scope
      (b.hold false) := by
  have hadd := (PrefixOf.refl g.tree).add .function text position
  have hu := (list_beside hu).stands
  have hsize := hu.size_le
  rw [size_add] at hsize
  have hbranch : isBranch (u.attach g.tree.size (g.tree.size + 1)) g.tree.size = false := by
    rw [isBranch, tag_attach, hu.tag_new]
    rfl
  rw [← hbranch]
  refine h.attach ((hadd.trans hu).attach (Nat.le_refl _) (Nat.le_succ _)) (Nat.le_refl _) ?_
  rw [size_attach]
  exact hsize

theorem function_agrees (heof : eof.kind ≠ .closing) (h : Tracks g.tree g.scope b)
    (rest : List Token) :
    Agrees eof (g.function eof rest) ((declaration? rest).map (b.hold false, ·)) := by
  have hdeclaration : (declaration? rest).map (b.hold false, ·) =
      (token? .name rest).bind fun r₁ => (token? .opening r₁).bind fun r₂ =>
        (parameters? r₂).map (b.hold false, ·) := by
    simp only [declaration?, Option.bind_eq_bind, Option.map_bind, Function.comp_def]
  rw [hdeclaration]
  refine Agrees.expect fun name r₁ _ => Agrees.expect fun bracket r₂ _ => ?_
  have hnames := parameters_names heof (g.tree.size + 1)
    ((g.tree.add .function name.text name.position).add .arguments "arg" bracket.position) r₂
  dsimp only
  cases hp : parameters? r₂ with
  | none =>
    intro g' rest' hok
    obtain ⟨⟨u, after⟩, hu, hok⟩ := bind_eq_ok hok
    obtain ⟨stunted, he⟩ := @expect_none eof after u .closing .noParameterEnd
      (hnames.2 hp u after hu)
    dsimp only at hok
    rw [he] at hok
    cases hok
  | some r =>
    obtain ⟨u, after, hu, hclosing⟩ := hnames.1 r hp
    obtain ⟨close, he⟩ := @expect_some eof after r u .closing .noParameterEnd hclosing
    refine ⟨⟨(u.attach g.tree.size (g.tree.size + 1)).attach g.scope g.tree.size, g.scope⟩, ?_,
      function_tracks h hu⟩
    rw [hu]
    change (expect eof .closing .noParameterEnd u after >>= _) = _
    rw [he]
    rfl

theorem call_not_branch (t : Tree) (name bracket : Token) (arguments : List Expr) :
    isBranch (t.graft (.call name bracket arguments)).1
      (t.graft (.call name bracket arguments)).2 = false := by
  rw [isBranch, graft_call_tag]
  rfl

theorem call_agrees {bracket : Token} {more : List Token} (ht : t.kind = .name)
    (hb : bracket.kind = .opening) (h : Tracks g.tree g.scope b) :
    Agrees eof (g.nameStatement eof t (bracket :: more))
      ((arguments? more).map (b.hold false, ·.1)) := by
  cases ha : arguments? more with
  | none =>
    obtain ⟨stunted, he⟩ := @nameStatement_error eof t g bracket more ht hb ha
    rw [he]
    exact doomed_error eof stunted
  | some r =>
    obtain ⟨arguments, he⟩ := @nameStatement_call eof t g bracket more ht hb r ha
    have hgraft := graft_grafted g.tree (.call t bracket arguments)
    refine ⟨_, he, ?_⟩
    rw [← call_not_branch g.tree t bracket arguments]
    exact h.attach hgraft.stands hgraft.new hgraft.lt

theorem store_agrees (ht : t.kind = .name)
    (hr : ∀ bracket more, rest = bracket :: more → bracket.kind ≠ .opening)
    (h : Tracks g.tree g.scope b) :
    Agrees eof (g.nameStatement eof t rest)
      ((token? .assign rest).bind fun after => (optional? after).map (b.hold false, ·)) := by
  rw [nameStatement_name ht hr]
  refine Agrees.expect fun colon after _ => ?_
  rw [graft_get_size, graft_get_retag]
  exact .optional (appendGuarded_tracks h .store t.text t.position) after

theorem nameStatement_agrees (ht : t.kind = .name) (h : Tracks g.tree g.scope b)
    (rest : List Token) :
    Agrees eof (g.nameStatement eof t rest) (statement? b t rest) := by
  by_cases hcall : ∃ bracket more, rest = bracket :: more ∧ bracket.kind = .opening
  · obtain ⟨bracket, more, rfl, hb⟩ := hcall
    have hs : statement? b t (bracket :: more) = (arguments? more).map (b.hold false, ·.1) := by
      simp only [statement?, ht, if_pos hb]
    rw [hs]
    exact call_agrees ht hb h
  · have hnot : ∀ bracket more, rest = bracket :: more → bracket.kind ≠ .opening :=
      fun bracket more hr hb => hcall ⟨bracket, more, hr, hb⟩
    have hs : statement? b t rest = (token? .assign rest).bind fun after =>
        (optional? after).map (b.hold false, ·) := by
      cases rest with
      | nil => simp only [statement?, ht, token?, Option.bind_none]
      | cons next more =>
        simp only [statement?, ht, token?, if_neg (hnot next more rfl)]
        split <;> rfl
    rw [hs]
    exact store_agrees ht hnot h

theorem keyword_agrees (heof : eof.kind ≠ .closing) (ht : t.kind = .keyword)
    (h : Tracks g.tree g.scope b) (rest : List Token) :
    Agrees eof (g.keyword eof t rest) (statement? b t rest) := by
  unfold keyword statement?
  simp only [ht]
  cases Keyword.ofText? t.text with
  | none => exact doomed_error eof _
  | some k =>
    cases k with
    | branch => exact withOperand_agrees h .branch t rest
    | loop => exact withOperand_agrees h .loop t rest
    | output => exact withOperand_agrees h .output t rest
    | giveBack => exact withOperand_agrees h .giveBack t rest
    | otherwise => exact elseBranch_agrees h t rest
    | remove => exact withName_agrees h (by decide) t rest
    | input => exact withName_agrees h (by decide) t rest
    | function => exact function_agrees heof h rest
    | openBody => exact openBody_agrees h t rest
    | closeBody => exact closeBody_agrees h t rest

theorem statement_agrees (heof : eof.kind ≠ .closing) (h : Tracks g.tree g.scope b) (t : Token)
    (rest : List Token) : Agrees eof (g.statement eof t rest) (statement? b t rest) := by
  by_cases hsemicolon : t.kind = .semicolon
  · simp only [statement, statement?, hsemicolon]
    exact ⟨_, rfl, append_tracks h .pass t.text t.position⟩
  · by_cases hkeyword : t.kind = .keyword
    · simp only [statement, hkeyword]
      exact keyword_agrees heof hkeyword h rest
    · by_cases hname : t.kind = .name
      · rw [statement_name hname]
        exact nameStatement_agrees hname h rest
      · have hnone : statement? b t rest = none := by
          unfold statement?
          split <;> simp_all
        rw [hnone, statement_refused ⟨hsemicolon, hkeyword, hname⟩]
        exact doomed_error eof _

theorem accepts_some (h : statement? b t rest = some (b', rest')) :
    accepts b (t :: rest) = accepts b' rest' := by
  rw [accepts]
  split
  · next hs =>
    rw [h] at hs
    cases hs
    rfl
  · next hs =>
    rw [h] at hs
    cases hs

theorem accepts_none (h : statement? b t rest = none) : accepts b (t :: rest) = false := by
  rw [accepts]
  split
  · next hs =>
    rw [h] at hs
    cases hs
  · rfl

theorem grow_iff_accepts (heof : eof.kind ≠ .closing) (h : Tracks g.tree g.scope b)
    (ts : List Token) : (∃ t, Growth.grow eof g ts = .ok t) ↔ accepts b ts = true := by
  induction hn : ts.length using Nat.strongRecOn generalizing ts g b with
  | ind n ih =>
    cases ts with
    | nil =>
      rw [Growth.grow, accepts]
      exact ⟨fun _ => rfl, fun _ => ⟨_, rfl⟩⟩
    | cons t rest =>
      have hagrees := statement_agrees heof h t rest
      cases hs : statement? b t rest with
      | none =>
        rw [hs] at hagrees
        obtain ⟨stunted, hgrow⟩ := Doomed.grow hagrees
        rw [accepts_none hs, hgrow]
        constructor
        · rintro ⟨u, hu⟩
          cases hu
        · intro hfalse
          cases hfalse
      | some r =>
        obtain ⟨b', rest'⟩ := r
        rw [hs] at hagrees
        obtain ⟨g', hok, htracks⟩ := hagrees
        have hlength := statement?_length hs
        rw [accepts_some hs, grow_ok hok]
        exact ih rest'.length (by simp only [← hn, List.length_cons]; omega) htracks rest' rfl

theorem planted_tracks : Tracks planted root .initial :=
  .root rfl (holds_none Nat.one_pos rfl)

theorem eof_kind (tokens : List Token) :
    ((tokens.find? (·.kind = .eof)).getD (eofAfter tokens)).kind = .eof := by
  cases hfind : tokens.find? (·.kind = .eof) with
  | none => rfl
  | some t => simpa using List.find?_some hfind

/-- A program of its own can be read exactly if the grammar accepts its tokens before the first that
ends it. -/
theorem planted_grow_iff_accepts (tokens : List Token) :
    (∃ t, planted.grow tokens = .ok t) ↔
      accepts .initial (tokens.takeWhile (·.kind ≠ .eof)) = true := by
  refine grow_iff_accepts (g := ⟨planted, root⟩) ?_ planted_tracks _
  rw [eof_kind]
  decide

end Arbor.Grammar
