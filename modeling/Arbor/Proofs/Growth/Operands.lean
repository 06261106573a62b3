import Arbor.Proofs.Growth.Shape

/-!
# Operators have two operands

An operator is made together with its operands, and nothing else is ever hung on it, also where the
expression around it could not be read to its end.
-/
namespace Arbor.Tree

open Arbor.Expr (Frame Stuck)

/-- Every operator has two children. -/
structure Paired (t : Tree) : Prop where
  size : ∀ n, t.tag n = .operator → (t.children n).size = 2

variable {t u : Tree} {tag : Tag} {p n list statement : NodeId}

theorem PrefixOf.tag_eq (h : t.PrefixOf u) (hn : t.tag n = tag) (htag : tag ≠ .root) :
    u.tag n = tag := by
  have hlt : n < t.size := lt_of_tag (hn ▸ htag)
  rw [tag_of_label (h.label hlt), hn]

theorem Paired.add (h : t.Paired) (tag : Tag) (htag : tag ≠ .operator) (text : String)
    (position : Nat) :
    (t.add tag text position).Paired := by
  constructor
  intro n hn
  rw [tag_add] at hn
  rw [children_add]
  split at hn
  · exact absurd hn htag
  · exact h.size n hn

theorem Paired.attach (h : t.Paired) (hp : t.tag p ≠ .operator) (c : NodeId) :
    (t.attach p c).Paired := by
  constructor
  intro n hn
  rw [tag_attach] at hn
  have hne : ¬(n = p ∧ p < t.size) := by
    rintro ⟨rfl, -⟩
    exact hp hn
  rw [children_attach, if_neg hne]
  exact h.size n hn

theorem Paired.operator (h : t.Paired) (text : String) (position : Nat) (left right : NodeId) :
    (((t.add .operator text position).attach t.size left).attach t.size right).Paired := by
  have hlt : t.size < (t.add .operator text position).size := lt_size_add
  constructor
  intro n hn
  rw [tag_attach, tag_attach, tag_add] at hn
  rw [children_attach_of_lt (by rw [size_attach]; exact hlt), children_attach_of_lt hlt,
    children_add]
  by_cases hnew : n = t.size
  · rw [if_pos hnew, if_pos hnew, hnew, children_of_le (Nat.le_refl _)]
    rfl
  · rw [if_neg hnew] at hn
    rw [if_neg hnew, if_neg hnew]
    exact h.size n hn

theorem planted_paired : planted.Paired := by
  constructor
  intro n hn
  have hlt : n < planted.size := lt_of_tag (by rw [hn]; decide)
  obtain rfl : n = 0 := Nat.lt_one_iff.mp hlt
  cases hn

theorem literalTag_ne_operator (token : Token) : literalTag token ≠ .operator := by
  unfold literalTag
  split <;> decide

theorem GrowsTo.graftAll (h : t.GrowsTo u) (list : NodeId) (es : List Expr) :
    t.GrowsTo (u.graftAll list es) := by
  induction es generalizing u with
  | nil =>
    rw [Tree.graftAll]
    exact h
  | cons e rest ih =>
    rw [Tree.graftAll]
    exact ih ((h.graft e).attach (h.size_le.trans (graft_grafted u e).new) list)

mutual

theorem Paired.graft {t : Tree} (h : t.Paired) (e : Expr) : (t.graft e).1.Paired := by
  match e with
  | .literal token =>
    rw [Tree.graft]
    exact h.add _ (literalTag_ne_operator token) _ _
  | .get name =>
    rw [Tree.graft]
    exact h.add _ Tag.noConfusion _ _
  | .call name bracket arguments =>
    have hcall := graft_call_tag t name bracket arguments
    rw [Tree.graft, tag_attach] at hcall
    rw [Tree.graft]
    refine (Paired.graftAll ?_ ?_ arguments).attach
      (fun hop => Tag.noConfusion (hcall.symm.trans hop)) _
    · exact (h.add _ Tag.noConfusion _ _).add _ Tag.noConfusion _ _
    · rw [tag_add, if_pos size_add.symm]
  | .operator symbol left right =>
    rw [Tree.graft]
    exact ((h.graft left).graft right).operator _ _ _ _

theorem Paired.graftAll {t : Tree} {list : NodeId} (h : t.Paired)
    (hlist : t.tag list = .arguments) (es : List Expr) : (t.graftAll list es).Paired := by
  match es with
  | [] =>
    rw [Tree.graftAll]
    exact h
  | e :: rest =>
    rw [Tree.graftAll]
    have htag : (t.graft e).1.tag list = .arguments :=
      (graft_grafted t e).stands.tag_eq hlist Tag.noConfusion
    refine Paired.graftAll ?_ ?_ rest
    · exact (h.graft e).attach (htag ▸ Tag.noConfusion) _
    · rw [tag_attach, htag]

end

/-- What waits in frames: operators have their operands, and the list that is open is a list. -/
theorem Paired.strew (h : t.Paired) (frames : List Frame) : (t.strew frames).1.Paired ∧
    ∀ list, (t.strew frames).2 = some list → (t.strew frames).1.tag list = .arguments := by
  induction frames with
  | nil => exact ⟨h, fun list hlist => by cases hlist⟩
  | cons frame below ih =>
    cases frame with
    | operand left symbol => exact ⟨ih.1.graft left, fun list hlist => by cases hlist⟩
    | argument name bracket before =>
      rw [Tree.strew]
      have hlist : (((t.strew below).1.add .call name.text name.position).add .arguments "arg"
          bracket.position).tag ((t.strew below).1.size + 1) = .arguments := by
        rw [tag_add, if_pos size_add.symm]
      constructor
      · refine Paired.graftAll ?_ hlist _
        exact (ih.1.add _ Tag.noConfusion _ _).add _ Tag.noConfusion _ _
      · rintro list ⟨⟩
        rw [((GrowsTo.refl _).graftAll _ _).tag _ (lt_of_tag (by rw [hlist]; decide)), hlist]

theorem Paired.litter (h : t.Paired) (stuck : Stuck) : (t.litter stuck).Paired := by
  rw [Tree.litter]
  split
  · exact (h.strew stuck.frames).1
  · next operand ho =>
    obtain ⟨hstrewn, hlist⟩ := h.strew (Expr.fold Operator.loosest stuck.frames operand).1
    have he := hstrewn.graft (Expr.fold Operator.loosest stuck.frames operand).2
    dsimp only
    split
    · next list hopen =>
      have htag := (graft_grafted _ (Expr.fold Operator.loosest stuck.frames operand).2).stands.tag_eq
        (hlist list hopen) Tag.noConfusion
      exact he.attach (htag ▸ Tag.noConfusion) _
    · exact he

theorem Paired.hangOperand (h : t.Paired) (hs : t.tag statement = tag) (htag : tag ≠ .operator)
    (hroot : tag ≠ .root) (operand : Except Stuck Expr) :
    (t.hangOperand statement operand).Paired := by
  cases operand with
  | ok e =>
    have hstatement := (graft_grafted t e).stands.tag_eq hs hroot
    exact (h.graft e).attach (hstatement ▸ htag) _
  | error stuck => exact h.litter stuck

theorem Paired.graftCondition (h : t.Paired) (position : Nat) (operand : Except Stuck Expr) :
    (t.graftCondition position operand).1.Paired := by
  cases operand with
  | ok e => exact h.graft e
  | error stuck => exact (h.litter stuck).add _ Tag.noConfusion _ _

namespace Growth

variable {P : String → Nat → Prop} {g g' : Growth} {eof token : Token}
  {rest rest' tokens : List Token}

theorem Shaped.scope_ne_operator (hg : g.Shaped P) (hu : g.tree.PrefixOf u) :
    u.tag g.scope ≠ .operator := by
  intro hop
  have hscope := hg.scope
  rw [← tag_of_label (hu.label hg.scope_lt), hop] at hscope
  cases hscope

theorem appendGuarded_paired (hg : g.Shaped P) (h : g.tree.Paired) (htag : tag ≠ .operator)
    (hroot : tag ≠ .root) (text : String) (position : Nat) (operand : Except Stuck Expr) :
    (appendGuarded g.scope (g.tree.add tag text position) g.tree.size operand).tree.Paired := by
  rw [appendGuarded_eq]
  have hstands := (PrefixOf.refl g.tree).add tag text position
  refine ((h.add tag htag text position).hangOperand tag_new htag hroot operand).attach ?_ _
  exact hg.scope_ne_operator (hangOperand_stands hstands (Nat.le_refl _) operand)

theorem append_paired (hg : g.Shaped P) (h : g.tree.Paired) (htag : tag ≠ .operator)
    (text : String) (position : Nat) : (g.append tag text position).tree.Paired :=
  (h.add tag htag text position).attach
    (hg.scope_ne_operator ((PrefixOf.refl g.tree).add tag text position)) _

theorem elseBranch_paired (h : g.tree.Paired)
    (hs : g.elseBranch token rest = .ok (g', rest')) : g'.tree.Paired := by
  obtain ⟨branch, -, hbranch, -, rfl⟩ := elseBranch_cases hs
  have hstands := ((PrefixOf.refl g.tree).add .body "body" token.position).trans
    (graftCondition_grafted (g.tree.add .body "body" token.position) token.position
      (Expr.readOptional rest).1).stands
  have htag := hstands.tag_eq hbranch Tag.noConfusion
  have hcondition := (h.add .body Tag.noConfusion "body" token.position).graftCondition
    token.position (Expr.readOptional rest).1
  refine (hcondition.attach (htag ▸ Tag.noConfusion) _).attach ?_ _
  rw [tag_attach, htag]
  exact Tag.noConfusion

theorem openBody_paired (hg : g.Shaped P) (h : g.tree.Paired)
    (hs : g.openBody token rest = .ok (g', rest')) : g'.tree.Paired := by
  obtain ⟨owner, hlast, -, rfl⟩ := openBody_cases hs
  -- a body hangs on the last statement of the open body
  obtain ⟨i, hi⟩ := child?_of_mem (Array.mem_of_back? hlast)
  have howner : (g.tree.tag owner).isStatement = true :=
    ((hg.formed.hangs _ i owner hi).stated hg.scope).tag
  refine (h.add _ Tag.noConfusion _ _).attach ?_ _
  intro hop
  rw [tag_add, if_neg (Nat.ne_of_lt (hg.formed.child_lt hi))] at hop
  rw [hop] at howner
  cases howner

theorem parametersFrom_paired (h : t.Paired) (hlist : t.tag list = .arguments)
    (hs : parametersFrom eof list t rest = .ok (u, rest')) : u.Paired := by
  have hadd : ∀ {t : Tree} {text position}, t.Paired → t.tag list = .arguments →
      (t.addUnder list .store text position).Paired ∧
        (t.addUnder list .store text position).tag list = .arguments := by
    intro t text position h hlist
    have htag := ((PrefixOf.refl t).add .store text position).tag_eq hlist Tag.noConfusion
    exact ⟨(h.add _ Tag.noConfusion _ _).attach (htag ▸ Tag.noConfusion) _, by
      rw [Tree.addUnder, tag_attach, htag]⟩
  fun_induction parametersFrom eof list t rest with
  | case1 t p hp t' c more hcomma ih => exact ih (hadd h hlist).1 (hadd h hlist).2 hs
  | case2 t p hp t' c more hcomma =>
    obtain ⟨rfl, rfl⟩ := Prod.mk.inj (Except.ok.inj hs)
    exact (hadd h hlist).1
  | case3 t p hp t' =>
    obtain ⟨rfl, rfl⟩ := Prod.mk.inj (Except.ok.inj hs)
    exact (hadd h hlist).1
  | case4 => cases hs
  | case5 => cases hs

theorem function_paired (hg : g.Shaped P) (h : g.tree.Paired)
    (hs : g.function eof rest = .ok (g', rest')) : g'.tree.Paired := by
  obtain ⟨name, bracket, close, after, u, -, -, -, -, hp, rfl⟩ := function_cases hs
  have hlist : ((g.tree.add .function name.text name.position).add .arguments "arg"
      bracket.position).tag (g.tree.size + 1) = .arguments := by
    rw [tag_add, if_pos size_add.symm]
  have hheader := (h.add .function Tag.noConfusion name.text name.position).add
    .arguments Tag.noConfusion "arg" bracket.position
  have hparameters : u.Paired := by
    rcases parameters_cases hp with ⟨rfl, -⟩ | hp
    · exact hheader
    · exact parametersFrom_paired hheader hlist hp
  have hstands := (list_beside hp).stands
  have hfunction : u.tag g.tree.size = .function := hstands.tag_new
  refine (hparameters.attach (hfunction ▸ Tag.noConfusion) _).attach ?_ _
  rw [tag_attach]
  exact hg.scope_ne_operator (((PrefixOf.refl g.tree).add ..).trans hstands)

theorem keyword_paired (hg : g.Shaped P) (h : g.tree.Paired)
    (hs : g.keyword eof token rest = .ok (g', rest')) : g'.tree.Paired := by
  have hoperand : ∀ {tag : Tag}, tag ≠ .operator → tag ≠ .root →
      g.withOperand tag token rest = .ok (g', rest') → g'.tree.Paired := by
    intro tag htag hroot hs
    cases hs
    exact appendGuarded_paired hg h htag hroot _ _ _
  have hname : ∀ {tag : Tag}, tag ≠ .operator →
      g.withName eof tag token rest = .ok (g', rest') → g'.tree.Paired := by
    intro tag htag hs
    obtain ⟨name, -, -, rfl⟩ := withName_cases hs
    exact append_paired hg h htag _ _
  simp only [keyword] at hs
  split at hs
  iterate 4 exact hoperand Tag.noConfusion Tag.noConfusion hs
  iterate 2 exact hname Tag.noConfusion hs
  · exact elseBranch_paired h hs
  · exact function_paired hg h hs
  · exact openBody_paired hg h hs
  · obtain ⟨-, owner, enclosing, -, -, -, rfl⟩ := closeBody_cases hs
    exact h
  · cases hs

theorem nameStatement_paired (hg : g.Shaped P) (h : g.tree.Paired)
    (hs : g.nameStatement eof token rest = .ok (g', rest')) : g'.tree.Paired := by
  rcases nameStatement_cases hs with ⟨name, colon, after, -, -, -, rfl⟩ | ⟨call, -, -, rfl⟩
  · exact appendGuarded_paired hg h Tag.noConfusion Tag.noConfusion _ _ _
  · exact (h.graft call).attach (hg.scope_ne_operator (graft_grafted g.tree call).stands) _

theorem statement_paired (hg : g.Shaped P) (h : g.tree.Paired)
    (hs : g.statement eof token rest = .ok (g', rest')) : g'.tree.Paired := by
  simp only [statement] at hs
  split at hs
  · cases hs
    exact append_paired hg h Tag.noConfusion _ _
  · exact keyword_paired hg h hs
  · exact nameStatement_paired hg h hs
  · cases hs

theorem grow_paired (hg : g.Shaped fun _ _ => True) (h : g.tree.Paired)
    (hs : grow eof g tokens = .ok t) : t.Paired := by
  fun_induction grow eof g tokens with
  | case1 =>
    cases hs
    exact h
  | case2 g token rest g' rest' hstep ih =>
    exact ih (statement_shaped hg trivial (fun _ _ => trivial) hstep) (statement_paired hg h hstep) hs
  | case3 => cases hs

end Growth

end Arbor.Tree
