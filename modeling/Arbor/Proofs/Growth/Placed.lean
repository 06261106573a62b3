import Arbor.Proofs.Growth.Step

/-!
# What a statement places

A statement makes its parts beside the tree and hangs them on one old node at most: the open body,
the statement before, or the `if` around. Litter is what it leaves hanging on nothing; there is none
where every operand that was tried was read, or left no node behind. A token that is refused has
made parts beside the tree too, and hung none of them.
-/
namespace Arbor

namespace Token

def opens (t : Token) : Bool := t.kind == .keyword && t.text == Keyword.openBody.text

def closes (t : Token) : Bool := t.kind == .keyword && t.text == Keyword.closeBody.text

def furthers (t : Token) : Bool := t.kind == .keyword && t.text == Keyword.otherwise.text

structure Stays (t : Token) : Prop where
  opens : t.opens = false
  closes : t.closes = false
  furthers : t.furthers = false

variable {t : Token} {k : Keyword}

theorem opens_of_keyword (hk : t.kind = .keyword) (h : Keyword.ofText? t.text = some k) :
    t.opens = decide (k = .openBody) := by
  have htext := Keyword.text_of_ofText? h
  rw [opens, hk, ← htext]
  cases k <;> decide

theorem closes_of_keyword (hk : t.kind = .keyword) (h : Keyword.ofText? t.text = some k) :
    t.closes = decide (k = .closeBody) := by
  have htext := Keyword.text_of_ofText? h
  rw [closes, hk, ← htext]
  cases k <;> decide

theorem furthers_of_keyword (hk : t.kind = .keyword) (h : Keyword.ofText? t.text = some k) :
    t.furthers = decide (k = .otherwise) := by
  have htext := Keyword.text_of_ofText? h
  rw [furthers, hk, ← htext]
  cases k <;> decide

theorem stays_of_ne_keyword (h : t.kind ≠ .keyword) : t.Stays := by
  constructor
  · simp [opens, h]
  · simp [closes, h]
  · simp [furthers, h]

theorem opens_of_ne_keyword (h : t.kind ≠ .keyword) : t.opens = false := (stays_of_ne_keyword h).opens

theorem closes_of_ne_keyword (h : t.kind ≠ .keyword) : t.closes = false :=
  (stays_of_ne_keyword h).closes

end Token

namespace Tree

open Arbor.Expr (Stuck)

variable {T : Tag → Prop} {t u w : Tree} {n c list statement : NodeId} {tops : List NodeId}

/-- No `if` among the new nodes has more than one child. -/
def Budding (t u : Tree) : Prop := ∀ n, t.size ≤ n → u.tag n = .branch → (u.children n).size ≤ 1

theorem Beside.budding (h : Beside T t u tops) (hT : ¬T .branch) : t.Budding u := by
  intro n hn hbranch
  by_cases hlt : n < u.size
  · have htag := h.tag hn hlt
    rw [hbranch] at htag
    exact absurd htag hT
  · rw [children_of_le (Nat.le_of_not_lt hlt)]
    exact Nat.zero_le _

def Bare (operand : Except Stuck Expr) : Prop :=
  ∀ stuck, operand = .error stuck → ∀ u : Tree, u.litter stuck = u

theorem litter_beside_bare (w : Tree) (stuck : Stuck) : ∃ litter, Pieces w (w.litter stuck) litter ∧
    (Bare (.error stuck) → litter = []) := by
  by_cases hbare : Bare (.error stuck)
  · rw [hbare stuck rfl w]
    exact ⟨[], .refl, fun _ => rfl⟩
  · obtain ⟨litter, h⟩ := litter_beside w stuck
    exact ⟨litter, h, fun hall => absurd hall hbare⟩

theorem hangOperand_beside (h : Beside T t w [statement])
    (hT : ∀ tag : Tag, tag.inExpression = true → T tag) (operand : Except Stuck Expr) :
    ∃ litter, Beside T t (w.hangOperand statement operand) (statement :: litter) ∧
      (Bare operand → litter = []) := by
  cases operand with
  | ok e =>
    have he := h.trans ((graft_beside w e).mono hT)
    exact ⟨[], he.attach List.mem_cons_self, fun _ => rfl⟩
  | error stuck =>
    obtain ⟨litter, hlitter, hbare⟩ := litter_beside_bare w stuck
    exact ⟨litter, (h.trans (hlitter.mono hT)).perm (List.perm_append_singleton _ _), hbare⟩

theorem graftCondition_beside (w : Tree) (position : Nat) (operand : Except Stuck Expr) :
    ∃ litter, Pieces w (w.graftCondition position operand).1
      ((w.graftCondition position operand).2 :: litter) ∧ (Bare operand → litter = []) := by
  cases operand with
  | ok e => exact ⟨[], graft_beside w e, fun _ => rfl⟩
  | error stuck =>
    obtain ⟨litter, hlitter, hbare⟩ := litter_beside_bare w stuck
    exact ⟨litter, hlitter.add .numberLiteral "1" position rfl, hbare⟩

theorem hangOperand_budding (t : Tree) (tag : Tag) (text : String) (position : Nat)
    (operand : Except Stuck Expr) :
    t.Budding ((t.add tag text position).hangOperand t.size operand) := by
  have hempty : ∀ {u tops}, Pieces (t.add tag text position) u tops → t.Budding u ∧
      u.children t.size = #[] := by
    intro u tops h
    refine ⟨?_, h.stands.children_new⟩
    intro n hn hbranch
    by_cases hnew : n = t.size
    · rw [hnew, h.stands.children_new]
      exact Nat.zero_le _
    · exact h.budding (by decide) n (by rw [size_add]; omega) hbranch
  cases operand with
  | ok e =>
    obtain ⟨hbudding, hchildren⟩ := hempty (graft_beside (t.add tag text position) e)
    intro n hn hbranch
    rw [hangOperand, tag_attach] at hbranch
    rw [hangOperand, children_attach]
    split
    · next h =>
      rw [h.1, hchildren]
      exact Nat.le_refl _
    · exact hbudding n hn hbranch
  | error stuck =>
    obtain ⟨litter, hlitter⟩ := litter_beside (t.add tag text position) stuck
    exact (hempty hlitter).1

namespace Growth

variable {g g' : Growth} {eof token : Token} {rest rest' tokens : List Token} {tag : Tag}
  {stunted : Stunted}

theorem parametersFrom_beside (h : Beside T t w tops) (hT : T .store) (hlist : list ∈ tops) :
    Leaves (Beside T t · tops) Prod.fst (parametersFrom eof list w tokens) := by
  have hadd : ∀ {w : Tree} {p : Token}, Beside T t w tops →
      Beside T t (w.addUnder list .store p.text p.position) tops :=
    fun h => (h.add _ _ _ hT).attach hlist
  fun_induction parametersFrom eof list w tokens with
  | case1 _ _ _ _ _ _ _ ih => exact ih (hadd h)
  | case2 => exact hadd h
  | case3 => exact hadd h
  | case4 => exact h
  | case5 => exact h

theorem parameters_beside (h : Beside T t w tops) (hT : T .store) (hlist : list ∈ tops) :
    Leaves (Beside T t · tops) Prod.fst (parameters eof list w tokens) := by
  simp only [parameters]
  split
  · exact h
  · exact parametersFrom_beside h hT hlist

def Declares (tag : Tag) : Prop := tag = .function ∨ tag = .arguments ∨ tag = .store

theorem header_beside (eof : Token) (t : Tree) (name : String) (position position' : Nat)
    (tokens : List Token) :
    Leaves (Beside Declares (t.add .function name position) · [t.size + 1]) Prod.fst
      (parameters eof (t.size + 1)
        ((t.add .function name position).add .arguments "arg" position') tokens) := by
  have hlist : Beside Declares (t.add .function name position) _ _ :=
    Beside.refl.add .arguments "arg" position' (Or.inr (Or.inl rfl))
  rw [size_add] at hlist
  exact parameters_beside hlist (Or.inr (Or.inr rfl)) List.mem_cons_self

section

variable {name : String} {position position' : Nat} (hp : parameters eof (t.size + 1)
  ((t.add .function name position).add .arguments "arg" position') tokens = .ok (u, rest))
include hp

theorem list_beside : Beside Declares (t.add .function name position) u [t.size + 1] := by
  have h := header_beside eof t name position position' tokens
  rw [hp] at h
  exact h

theorem function_beside : Beside Declares t (u.attach t.size (t.size + 1)) [t.size] := by
  have hfunction : Beside Declares t _ _ := Beside.refl.add .function name position (Or.inl rfl)
  exact (hfunction.trans (list_beside hp)).attach List.mem_cons_self

end

/-- What a statement that starts with `token` places, and the `litter` that it leaves. -/
inductive Placed (g : Growth) (token : Token) (litter : List NodeId) : Growth → Prop where
  | hang {u : Tree} {c : NodeId} : token.Stays →
      Beside (fun _ => True) g.tree u (c :: litter) → g.tree.Budding u →
      Placed g token litter ⟨u.attach g.scope c, g.scope⟩
  | enter {owner : NodeId} (position : Nat) : token.opens = true → token.closes = false →
      token.furthers = false → g.tree.lastChild? g.scope = some owner → litter = [] →
      Placed g token litter
        ⟨(g.tree.add .body "body" position).attach owner g.tree.size, g.tree.size⟩
  | further {u : Tree} {branch c : NodeId} : token.opens = false → token.closes = false →
      token.furthers = true → g.tree.parent g.scope = some branch → g.tree.tag branch = .branch →
      Beside (· ≠ .branch) g.tree u (c :: g.tree.size :: litter) → u.tag g.tree.size = .body →
      (u.tag c).inExpression = true →
      Placed g token litter ⟨(u.attach branch c).attach branch g.tree.size, g.tree.size⟩
  | leave {owner enclosing : NodeId} : token.opens = false → token.closes = true →
      token.furthers = false → g.scope ≠ root → g.tree.parent g.scope = some owner →
      g.tree.parent owner = some enclosing → litter = [] →
      Placed g token litter ⟨g.tree, enclosing⟩

inductive Tries (g : Growth) (token : Token) (rest : List Token) : List Token → Prop where
  | operand {k : Keyword} : token.kind = .keyword → Keyword.ofText? token.text = some k →
      k = .branch ∨ k = .loop ∨ k = .output ∨ k = .giveBack → Tries g token rest rest
  | condition {branch : NodeId} : token.kind = .keyword →
      Keyword.ofText? token.text = some .otherwise → g.openBranch? = some branch →
      Tries g token rest rest
  | value {name colon : Token} {after : List Token} : token.kind = .name →
      Expr.read .operand (token :: rest) = .ok (.get name, colon :: after) →
      colon.kind = .assign → Tries g token rest after

def Places (g : Growth) (token : Token) (clean : Prop) (g' : Growth) : Prop :=
  ∃ litter, Placed g token litter g' ∧ (clean → litter = [])

theorem places_operand (hstays : token.Stays) (tag : Tag) (text : String) (position : Nat)
    (operand : Except Stuck Expr) : g.Places token (Bare operand)
      (appendGuarded g.scope (g.tree.add tag text position) g.tree.size operand) := by
  have hadd : Beside (fun _ => True) g.tree _ _ := Beside.refl.add tag text position trivial
  obtain ⟨litter, h, hbare⟩ := hangOperand_beside hadd (fun _ _ => trivial) operand
  rw [appendGuarded_eq]
  exact ⟨litter, .hang hstays h (hangOperand_budding _ _ _ _ _), hbare⟩

theorem append_places (hstays : token.Stays) (clean : Prop) (htag : tag ≠ .branch) (text : String)
    (position : Nat) : g.Places token clean (g.append tag text position) := by
  have hadd : Beside (· ≠ .branch) g.tree _ _ := Beside.refl.add tag text position htag
  exact ⟨[], .hang hstays (hadd.mono fun _ _ => trivial) (hadd.budding fun h => h rfl), fun _ => rfl⟩

theorem withName_places (hstays : token.Stays) (clean : Prop) (htag : tag ≠ .branch)
    (h : g.withName eof tag token rest = .ok (g', rest')) : g.Places token clean g' := by
  obtain ⟨name, -, -, rfl⟩ := withName_cases h
  exact append_places hstays clean htag ..

theorem elseBranch_places (hopens : token.opens = false) (hcloses : token.closes = false)
    (hfurthers : token.furthers = true) (h : g.elseBranch token rest = .ok (g', rest')) :
    g.Places token (Bare (Expr.readOptional rest).1) g' := by
  obtain ⟨branch, hparent, hbranch, -, rfl⟩ := elseBranch_cases h
  have hbody : Beside (· ≠ .branch) g.tree _ _ :=
    Beside.refl.add .body "body" token.position Tag.noConfusion
  obtain ⟨litter, hcondition, hbare⟩ := graftCondition_beside
    (g.tree.add .body "body" token.position) token.position (Expr.readOptional rest).1
  have htag := hcondition.tag (hcondition.top List.mem_cons_self).1
    (hcondition.top List.mem_cons_self).2
  have hall := hbody.trans (hcondition.mono fun tag htag hk => by rw [hk] at htag; cases htag)
  refine ⟨litter, .further hopens hcloses hfurthers hparent hbranch (hall.perm ?_)
    hcondition.stands.tag_new htag, hbare⟩
  exact (List.perm_append_singleton _ _).cons _

theorem function_places (hstays : token.Stays) (clean : Prop)
    (h : g.function eof rest = .ok (g', rest')) : g.Places token clean g' := by
  obtain ⟨name, bracket, close, after, u, -, -, -, -, hp, rfl⟩ := function_cases h
  have hplaced := function_beside hp
  refine ⟨[], .hang hstays (hplaced.mono fun _ _ => trivial) (hplaced.budding ?_), fun _ => rfl⟩
  rintro (h | h | h) <;> cases h

theorem openBody_places (hopens : token.opens = true) (hcloses : token.closes = false)
    (hfurthers : token.furthers = false) (clean : Prop)
    (h : g.openBody token rest = .ok (g', rest')) : g.Places token clean g' := by
  obtain ⟨owner, hlast, -, rfl⟩ := openBody_cases h
  exact ⟨[], .enter token.position hopens hcloses hfurthers hlast rfl, fun _ => rfl⟩

theorem closeBody_places (hopens : token.opens = false) (hcloses : token.closes = true)
    (hfurthers : token.furthers = false) (clean : Prop)
    (h : g.closeBody token rest = .ok (g', rest')) : g.Places token clean g' := by
  obtain ⟨hroot, owner, enclosing, howner, henclosing, -, rfl⟩ := closeBody_cases h
  exact ⟨[], .leave hopens hcloses hfurthers hroot howner henclosing rfl, fun _ => rfl⟩

/-- Every operand that the statement tries was read, or nothing was added for it. -/
def Clean (g : Growth) (token : Token) (rest : List Token) : Prop :=
  ∀ ts, Tries g token rest ts → Bare (Expr.readOptional ts).1

theorem Places.imp {clean clean' : Prop} (h : g.Places token clean g') (hc : clean' → clean) :
    g.Places token clean' g' := by
  obtain ⟨litter, hplaced, hclean⟩ := h
  exact ⟨litter, hplaced, fun h' => hclean (hc h')⟩

theorem withOperand_places (hkind : token.kind = .keyword) {k : Keyword}
    (hk : Keyword.ofText? token.text = some k)
    (hoperand : k = .branch ∨ k = .loop ∨ k = .output ∨ k = .giveBack) (hstays : token.Stays)
    (h : g.withOperand tag token rest = .ok (g', rest')) :
    g.Places token (g.Clean token rest) g' := by
  cases h
  exact (places_operand hstays ..).imp fun hclean => hclean rest (.operand hkind hk hoperand)

theorem keyword_places (hkind : token.kind = .keyword)
    (h : g.keyword eof token rest = .ok (g', rest')) :
    g.Places token (g.Clean token rest) g' := by
  simp only [keyword] at h
  cases hk : Keyword.ofText? token.text with
  | none =>
    rw [hk] at h
    cases h
  | some k =>
    have hopens := Token.opens_of_keyword hkind hk
    have hcloses := Token.closes_of_keyword hkind hk
    have hfurthers := Token.furthers_of_keyword hkind hk
    rw [hk] at h
    cases k with
    | openBody => exact openBody_places hopens hcloses hfurthers _ h
    | closeBody => exact closeBody_places hopens hcloses hfurthers _ h
    | otherwise =>
      obtain ⟨branch, hparent, hbranch, -, -⟩ := elseBranch_cases h
      have hopen : g.openBranch? = some branch := by
        rw [openBranch?, hparent, Option.filter_some, if_pos (decide_eq_true hbranch)]
      exact (elseBranch_places hopens hcloses hfurthers h).imp
        fun hclean => hclean rest (.condition hkind hk hopen)
    | function => exact function_places ⟨hopens, hcloses, hfurthers⟩ _ h
    | remove => exact withName_places ⟨hopens, hcloses, hfurthers⟩ _ Tag.noConfusion h
    | input => exact withName_places ⟨hopens, hcloses, hfurthers⟩ _ Tag.noConfusion h
    | giveBack => exact withOperand_places hkind hk (by decide) ⟨hopens, hcloses, hfurthers⟩ h
    | output => exact withOperand_places hkind hk (by decide) ⟨hopens, hcloses, hfurthers⟩ h
    | loop => exact withOperand_places hkind hk (by decide) ⟨hopens, hcloses, hfurthers⟩ h
    | branch => exact withOperand_places hkind hk (by decide) ⟨hopens, hcloses, hfurthers⟩ h

theorem nameStatement_places (hkind : token.kind = .name)
    (h : g.nameStatement eof token rest = .ok (g', rest')) :
    g.Places token (g.Clean token rest) g' := by
  have hstays : token.Stays := Token.stays_of_ne_keyword (by rw [hkind]; decide)
  rcases nameStatement_cases h with ⟨name, colon, after, hread, hcolon, -, rfl⟩ | ⟨call, -, -, rfl⟩
  · exact (places_operand hstays ..).imp fun hclean => hclean after (.value hkind hread hcolon)
  · have hcall := graft_beside g.tree call
    exact ⟨[], .hang hstays (hcall.mono fun _ _ => trivial) (hcall.budding (by decide)),
      fun _ => rfl⟩

/-- What a statement that goes well has placed. -/
theorem statement_places (h : g.statement eof token rest = .ok (g', rest')) :
    g.Places token (g.Clean token rest) g' := by
  simp only [statement] at h
  split at h
  · next hkind =>
    cases h
    exact append_places (Token.stays_of_ne_keyword (by rw [hkind]; decide)) _ Tag.noConfusion ..
  · next hkind => exact keyword_places hkind h
  · next hkind => exact nameStatement_places hkind h
  · cases h

/-- What was made for a statement that is refused hangs on no old node. -/
def Refuses (t : Tree) (u : Tree) : Prop := ∃ litter, Beside (fun _ => True) t u litter

theorem refuses_self (t : Tree) : Refuses t t := ⟨[], .refl⟩

theorem expect_refuses {kind : Token.Kind} {why : Misplacement}
    (h : expect eof kind why u tokens = .error stunted) : stunted.tree = u := by
  have hleaves := @expect_leaves eof (· = u) u rfl kind why tokens
  rw [h] at hleaves
  exact hleaves

theorem withName_refuses (h : g.withName eof tag token rest = .error stunted) :
    stunted.tree = g.tree := by
  rcases bind_eq_error h with h | ⟨_, _, h⟩
  · exact expect_refuses h
  · cases h

theorem function_refuses (h : g.function eof rest = .error stunted) :
    Refuses g.tree stunted.tree := by
  rcases bind_eq_error h with h | ⟨⟨name, r₁⟩, _, h⟩
  · exact expect_refuses h ▸ refuses_self g.tree
  rcases bind_eq_error h with h | ⟨⟨bracket, r₂⟩, _, h⟩
  · exact expect_refuses h ▸ refuses_self g.tree
  have hfunction : Beside Declares g.tree _ _ :=
    Beside.refl.add .function name.text name.position (Or.inl rfl)
  have hlist := header_beside eof g.tree name.text name.position bracket.position r₂
  have hany : ∀ {u tops}, Beside Declares (g.tree.add .function name.text name.position) u tops →
      Refuses g.tree u := fun h => ⟨_, (hfunction.trans h).mono fun _ _ => trivial⟩
  rcases bind_eq_error h with h | ⟨⟨u, r₃⟩, hu, h⟩
  · rw [h] at hlist
    exact hany hlist
  · rcases bind_eq_error h with h | ⟨_, _, h⟩
    · exact expect_refuses h ▸ hany (list_beside hu)
    · cases h

theorem nameStatement_refuses (h : g.nameStatement eof token rest = .error stunted) :
    Refuses g.tree stunted.tree := by
  have hany : ∀ {u tops}, Pieces g.tree u tops → Refuses g.tree u :=
    fun h => ⟨_, h.mono fun _ _ => trivial⟩
  simp only [nameStatement] at h
  split at h
  · next stuck _ =>
    obtain ⟨litter, hlitter⟩ := litter_beside g.tree stuck
    cases h
    exact hany hlitter
  · next name after _ =>
    rcases bind_eq_error h with h | ⟨_, _, h⟩
    · exact expect_refuses h ▸ hany (graft_beside g.tree (.get name))
    · cases h
  · cases h

theorem keyword_refuses (h : g.keyword eof token rest = .error stunted) :
    Refuses g.tree stunted.tree := by
  have hself : stunted.tree = g.tree → Refuses g.tree stunted.tree :=
    fun heq => heq ▸ refuses_self g.tree
  simp only [keyword] at h
  split at h
  iterate 4 cases h
  iterate 2 exact hself (withName_refuses h)
  · rw [elseBranch_eq] at h
    split at h <;> cases h
    exact refuses_self g.tree
  · exact function_refuses h
  · simp only [openBody] at h
    split at h <;> cases h
    exact refuses_self g.tree
  · simp only [closeBody] at h
    split at h
    · cases h
      exact refuses_self g.tree
    · split at h <;> cases h
      exact refuses_self g.tree
  · cases h
    exact refuses_self g.tree

theorem statement_refuses (h : g.statement eof token rest = .error stunted) :
    Refuses g.tree stunted.tree := by
  simp only [statement] at h
  split at h
  · cases h
  · exact keyword_refuses h
  · exact nameStatement_refuses h
  · cases h
    exact refuses_self g.tree

end Growth

end Tree

end Arbor
