import Arbor.Proofs.Grammar.Expressions
import Arbor.Proofs.Growth.Rooted
import Arbor.Proofs.Tree.Fitting

/-!
# Growth keeps the shape

Between two statements the tree is well formed and statements can hang on the open body. Where the
tokens are shown where they stand, so are the nodes made of them, apart from what `else` adds.
-/
namespace Arbor

open Arbor.Expr (Stuck)

def Tag.takesOperand : Tag → Bool
  | .branch | .loop | .output | .giveBack | .store => true
  | _ => false

theorem Tag.isStatement_of_takesOperand {tag : Tag} (h : tag.takesOperand = true) :
    tag.isStatement = true ∧ tag ≠ .function ∧ tag ≠ .call := by
  cases tag <;> first | decide | cases h

namespace Label

variable {P : String → Nat → Prop} {l : Label} {parent : Tag} {index : Nat}

theorem Fits.of_operand (hp : parent.takesOperand = true) (h : l.Expression P) :
    Fits P parent 0 l := by
  cases parent <;> first
    | exact Or.inl h.tag
    | exact Or.inl ⟨rfl, h⟩
    | cases hp

theorem Fits.of_statement (hp : parent.isScope = true) (h : l.tag.isStatement = true) :
    Fits P parent index l := by
  cases parent <;> first
    | exact h
    | cases hp

theorem Fits.of_block (hp : parent.isStatement = true)
    (hindex : parent = .function ∨ parent = .call → index ≠ 0) (h : l.Block P) :
    Fits P parent index l := by
  cases parent <;> first
    | exact Or.inr h
    | exact Or.inr h.tag
    | (simp only [Fits]; rw [if_neg (hindex (by simp))]; exact h)
    | cases hp

theorem Fits.isScope (h : Fits P parent index l) (hl : l.tag.isScope = true) : l.tag = .body := by
  cases htag : l.tag
  case body => rfl
  case root => exact absurd htag h.tag_ne_root
  all_goals
    rw [htag] at hl
    cases hl

end Label

namespace Tree

variable {P : String → Nat → Prop} {t u : Tree} {n p c scope statement : NodeId} {i : Nat}
  {loose : List NodeId}

/-- A statement that has its list if it needs one. -/
structure Stated (t : Tree) (n : NodeId) : Prop where
  tag : (t.tag n).isStatement = true
  listed : t.tag n = .function ∨ t.tag n = .call → ∃ l, t.child? n 0 = some l

theorem Stated.lt (h : t.Stated n) : n < t.size := by
  apply lt_of_tag
  intro hroot
  have htag := h.tag
  rw [hroot] at htag
  cases htag

theorem Stated.hangs (h : t.Stated c) (hfits : Label.Fits P (t.tag n) i (t.label c)) :
    t.Hangs P n i c := by
  refine ⟨hfits, h.listed, ?_, ?_⟩
  · intro hk
    have htag := h.tag
    rw [hk] at htag
    cases htag
  · intro hk
    have htag := h.tag
    rw [hk] at htag
    cases htag

theorem Formed.attach_statement (ht : t.Formed P) (hg : t.Grove (statement :: loose))
    (hscope : scope < t.size) (hs : (t.tag scope).isScope = true) (h : t.Stated statement) :
    (t.attach scope statement).Formed P := by
  have hfree := hg.top_free statement (List.mem_cons_of_mem _ List.mem_cons_self)
  apply ht.attach h.lt hscope hfree (h.hangs (.of_statement hs h.tag))
  · intro hk
    rw [hk] at hs
    cases hs
  · intro hk
    rw [hk] at hs
    cases hs

theorem Hangs.stated (h : t.Hangs P n i c) (hn : (t.tag n).isScope = true) : t.Stated c := by
  refine ⟨?_, h.listed⟩
  have hfits := h.fits
  generalize t.tag n = scopeTag at hfits hn
  cases scopeTag <;> first
    | exact hfits
    | cases hn

theorem Formed.attach_block (ht : t.Formed P) (hfree : t.parent c = none)
    (hblock : (t.label c).Block P) (h : t.Stated n) (hp : t.parent n = some p)
    (hscope : (t.tag p).isScope = true) : (t.attach n c).Formed P := by
  have hbody : t.tag c = .body := hblock.tag
  apply ht.attach (lt_of_tag (by rw [hbody]; decide)) h.lt hfree
  · refine .of_body (.of_block h.tag (fun hk => ?_) hblock) hbody ⟨p, hp, hscope⟩
    obtain ⟨l, hl⟩ := h.listed hk
    have hpos := (List.getElem?_eq_some_iff.mp (child?_eq_some.mp hl)).1
    rw [Array.length_toList] at hpos
    exact Nat.ne_of_gt hpos
  · intro hk
    have hstatement := h.tag
    rw [hk] at hstatement
    cases hstatement
  · intro hk
    rw [List.map_append]
    exact (ht.branches n hk).block hblock

theorem Formed.attach_operand (ht : t.Formed P) (hc : t.Complete P c) (hfree : t.parent c = none)
    (hstatement : (t.tag statement).takesOperand = true) (hempty : t.children statement = #[]) :
    (t.attach statement c).Formed P := by
  have hlt : statement < t.size := by
    apply lt_of_tag
    intro hroot
    rw [hroot] at hstatement
    cases hstatement
  have hhangs : t.Hangs P statement (t.children statement).size c := by
    rw [hempty]
    exact hc.hangs fun he => .of_operand hstatement he
  apply ht.attach hc.lt hlt hfree hhangs
  · intro hk
    rw [hk] at hstatement
    cases hstatement
  · intro _
    rw [hempty]
    exact Label.branching_condition hc.expression

/-- The body in which a node of a well formed tree stands, when that node has a body itself. -/
theorem Formed.around (ht : t.Formed P) (hg : t.Grove loose) (hscope : (t.tag scope).isScope = true)
    (hp : t.parent scope = some p) :
    t.tag scope = .body ∧ ∃ q, t.parent p = some q ∧ (t.tag q).isScope = true := by
  obtain ⟨i, hi⟩ := child?_of_mem ((hg.parent_iff p scope).mp hp)
  have hhangs := ht.hangs p i scope hi
  have hbody : t.tag scope = .body := hhangs.fits.isScope hscope
  exact ⟨hbody, hhangs.bodies hbody⟩

theorem Formed.hangOperand (ht : t.Formed P) (hg : t.Grove (statement :: loose))
    (hstatement : (t.tag statement).takesOperand = true) (hempty : t.children statement = #[])
    {operand : Except Stuck Expr} (ho : Expr.OperandMade (Displayed P) operand) :
    (t.hangOperand statement operand).Formed P := by
  cases operand with
  | ok e =>
    obtain ⟨hform, hcomplete⟩ := ht.graft hg e ho
    have hnode := (graft_grafted t e).stands.node statement (hg.top_lt _ (by simp))
    apply hform.attach_operand hcomplete ((hg.graft e).top_free _ (by simp))
    · rw [Tree.tag, hnode]
      exact hstatement
    · rw [children, hnode]
      exact hempty
  | error stuck => exact ht.litter hg stuck ho

theorem Formed.graftCondition (ht : t.Formed P) (hg : t.Grove loose) (position : Nat)
    {operand : Except Stuck Expr} (ho : Expr.OperandMade (Displayed P) operand) :
    (t.graftCondition position operand).1.Formed P ∧
      ((t.graftCondition position operand).1.tag
        (t.graftCondition position operand).2).isExpression = true ∧
      ((t.graftCondition position operand).1.tag (t.graftCondition position operand).2 = .call →
        ∃ l, (t.graftCondition position operand).1.child?
          (t.graftCondition position operand).2 0 = some l) := by
  cases operand with
  | ok e =>
    obtain ⟨hform, hcomplete⟩ := ht.graft hg e ho
    exact ⟨hform, hcomplete.expression.tag, hcomplete.listed⟩
  | error stuck =>
    obtain ⟨extra, hlitter⟩ := hg.litter stuck
    have hform := ht.litter hg stuck ho
    have htag : ((t.litter stuck).add .numberLiteral "1" position).tag (t.litter stuck).size =
        .numberLiteral := tag_new
    refine ⟨hform.add_plain hlitter .numberLiteral "1" position (by decide), ?_, ?_⟩
    · rw [Tree.graftCondition, htag]
      rfl
    · intro hk
      rw [Tree.graftCondition, htag] at hk
      cases hk

namespace Growth

variable {g g' : Growth} {eof token : Token} {rest rest' : List Token} {tag : Tag}

structure Shaped (P : String → Nat → Prop) (g : Growth) : Prop where
  rooted : g.Rooted
  formed : g.tree.Formed P
  scope : (g.tree.tag g.scope).isScope = true

structure Fitted (P : String → Nat → Prop) (g : Growth) : Prop where
  formed : g.tree.Formed P
  scope : (g.tree.tag g.scope).isScope = true

/-- Between two statements the open body is the root, or it hangs on a statement that stands in a
body itself. -/
theorem Shaped.scope_cases (hg : g.Shaped P) : g.scope = root ∨
    ∃ owner enclosing, g.tree.parent g.scope = some owner ∧
      g.tree.parent owner = some enclosing ∧ (g.tree.tag enclosing).isScope = true := by
  obtain ⟨loose, hgrove⟩ := hg.rooted.grove
  cases hp : g.tree.parent g.scope with
  | none => exact Or.inl (hg.rooted.scope_under.eq_of_free hp).symm
  | some owner =>
    obtain ⟨_, enclosing, henclosing, hscope⟩ := hg.formed.around hgrove hg.scope hp
    exact Or.inr ⟨owner, enclosing, rfl, henclosing, hscope⟩

theorem Shaped.scope_lt (hg : g.Shaped P) : g.scope < g.tree.size := by
  obtain ⟨loose, hgrove⟩ := hg.rooted.grove
  exact hg.rooted.scope_under.lt hgrove.size_pos

theorem Shaped.attach_new (hg : g.Shaped P) (htag : tag.isStatement = true)
    (hf : tag ≠ .function) (hc : tag ≠ .call) (hu : u.Formed P) (hgu : u.Grove (n :: loose))
    (hn : u.tag n = tag) (hscope : u.tag g.scope = g.tree.tag g.scope) (hlt : g.scope < u.size) :
    (u.attach g.scope n).Formed P ∧ ((u.attach g.scope n).tag g.scope).isScope = true := by
  have hs : (u.tag g.scope).isScope = true := by
    rw [hscope]
    exact hg.scope
  constructor
  · apply hu.attach_statement hgu hlt hs
    constructor
    · rw [hn]
      exact htag
    · intro hk
      rw [hn] at hk
      rcases hk with hk | hk
      · exact absurd hk hf
      · exact absurd hk hc
  · rw [tag_attach]
    exact hs

theorem append_fitted (hg : g.Shaped P) (htag : tag.isStatement = true) (hf : tag ≠ .function)
    (hc : tag ≠ .call) (text : String) (position : Nat) :
    (g.append tag text position).Fitted P := by
  obtain ⟨loose, hgrove⟩ := hg.rooted.grove
  have hlt := hg.scope_lt
  have hstands := (PrefixOf.refl g.tree).add tag text position
  obtain ⟨hformed, hscope⟩ := hg.attach_new htag hf hc
    (hg.formed.add_plain hgrove tag text position hc) (hgrove.add ..)
    tag_new (tag_of_label (hstands.label hlt)) (hlt.trans_le hstands.size_le)
  exact ⟨hformed, hscope⟩

theorem appendGuarded_fitted (hg : g.Shaped P) (htag : tag.takesOperand = true) (text : String)
    (position : Nat) {operand : Except Stuck Expr}
    (ho : Expr.OperandMade (Displayed P) operand) :
    (appendGuarded g.scope (g.tree.add tag text position) g.tree.size operand).Fitted P := by
  obtain ⟨loose, hgrove⟩ := hg.rooted.grove
  obtain ⟨hstatement, hf, hc⟩ := Tag.isStatement_of_takesOperand htag
  have hstands := (PrefixOf.refl g.tree).add tag text position
  have hadd := hg.formed.add_plain hgrove tag text position hc
  have hgadd := hgrove.add tag text position
  have hlt := hg.scope_lt
  obtain ⟨loose', hgoperand⟩ := hgadd.hangOperand operand
  have hgrows := (GrowsTo.refl (g.tree.add tag text position)).hangOperand g.tree.size operand
  have hform := hadd.hangOperand hgadd (by rw [tag_new]; exact htag) children_new ho
  rw [appendGuarded_eq]
  obtain ⟨hformed, hscope⟩ := hg.attach_new hstatement hf hc hform hgoperand
    (by rw [hgrows.tag _ lt_size_add, tag_new])
    (by rw [hgrows.tag _ (hlt.trans_le hstands.size_le), tag_of_label (hstands.label hlt)])
    (hlt.trans_le (hstands.size_le.trans hgrows.size_le))
  exact ⟨hformed, hscope⟩

theorem withOperand_fitted (hg : g.Shaped P) (htag : tag.takesOperand = true)
    (hr : ∀ t ∈ rest, Displayed P t) (h : g.withOperand tag token rest = .ok (g', rest')) :
    g'.Fitted P := by
  have ho := (Expr.readOptional_reads hr).1
  cases h
  exact appendGuarded_fitted hg htag token.text token.position ho

theorem withName_fitted (hg : g.Shaped P) (htag : tag.isStatement = true) (hf : tag ≠ .function)
    (hc : tag ≠ .call) (h : g.withName eof tag token rest = .ok (g', rest')) : g'.Fitted P := by
  obtain ⟨name, -, -, rfl⟩ := withName_cases h
  exact append_fitted hg htag hf hc name.text name.position

theorem formed_further {branch condition body : NodeId} (ht : t.Formed P)
    (hg : t.Grove (condition :: body :: loose)) (hbranch : t.tag branch = .branch)
    (hopen : ∃ b ∈ t.children branch, t.tag b = .body)
    (hcondition : (t.tag condition).isExpression = true)
    (hlisted : t.tag condition = .call → ∃ l, t.child? condition 0 = some l)
    (hbody : t.tag body = .body)
    (haround : ∃ q, t.parent branch = some q ∧ (t.tag q).isScope = true) :
    ((t.attach branch condition).attach branch body).Formed P := by
  have hne : condition ≠ body := by
    intro heq
    have htops := (List.nodup_cons.mp (List.nodup_cons.mp hg.tops_nodup).2).1
    exact htops (heq ▸ List.mem_cons_self)
  have hcondition' : t.tag condition ≠ .body := by
    intro hk
    rw [hk] at hcondition
    cases hcondition
  have hung : Hung t _ branch [condition, body] :=
    .attach_attach (hg.top_lt _ (by simp)) (hg.top_lt _ (by simp))
      (lt_of_tag (by rw [hbranch]; exact Tag.noConfusion)) hne (hg.top_free _ (by simp))
      (hg.top_free _ (by simp))
  apply ht.hang hung
  · intro j c hc
    rcases List.mem_cons.mp (List.mem_of_getElem? hc) with rfl | hc
    · refine .of_expression ?_ hcondition hlisted
      rw [hbranch]
      exact Or.inl hcondition
    · rw [List.mem_singleton.mp hc]
      refine .of_body ?_ hbody haround
      rw [hbranch]
      exact Or.inr hbody
  · intro hk
    rw [hbranch] at hk
    cases hk
  · intro _
    obtain ⟨b, hb, htag⟩ := hopen
    rw [List.map_append]
    apply (ht.branches branch hbranch).pair
    · exact ⟨t.label b, List.mem_map_of_mem (Array.mem_toList_iff.mpr hb), htag⟩
    · exact hcondition'

theorem Shaped.attach_further {branch condition : NodeId} {position : Nat} (hg : g.Shaped P)
    (hparent : g.tree.parent g.scope = some branch) (hbranch : g.tree.tag branch = .branch)
    (hu : u.Formed P) (hgu : u.Grove (condition :: g.tree.size :: loose))
    (hadd : (g.tree.add .body "body" position).PrefixOf u)
    (hexpression : (u.tag condition).isExpression = true)
    (hlisted : u.tag condition = .call → ∃ l, u.child? condition 0 = some l) :
    ((u.attach branch condition).attach branch g.tree.size).Formed P ∧
      (((u.attach branch condition).attach branch g.tree.size).tag g.tree.size).isScope = true := by
  obtain ⟨loose, hgrove⟩ := hg.rooted.grove
  obtain ⟨hscope, q, hq, haround⟩ := hg.formed.around hgrove hg.scope hparent
  have hlt : branch < g.tree.size := hgrove.parent_lt hparent
  have hall := ((PrefixOf.refl g.tree).add .body "body" position).trans hadd
  have hbody := hadd.tag_new
  -- the open body is the last child of its `if`, so a condition may come next
  constructor
  · apply formed_further hu hgu
    · rw [tag_of_label (hall.label hlt), hbranch]
    · refine ⟨g.scope, ?_, ?_⟩
      · rw [children, hall.node branch hlt]
        exact (hgrove.parent_iff _ _).mp hparent
      · rw [tag_of_label (hall.label hg.scope_lt), hscope]
    · exact hexpression
    · exact hlisted
    · exact hbody
    · refine ⟨q, hall.parent hq, ?_⟩
      rw [tag_of_label (hall.label (hgrove.parent_lt hq))]
      exact haround
  · rw [tag_attach, tag_attach, hbody]
    rfl

theorem elseBranch_fitted (hg : g.Shaped P) (hr : ∀ t ∈ rest, Displayed P t)
    (h : g.elseBranch token rest = .ok (g', rest')) : g'.Fitted P := by
  obtain ⟨loose, hgrove⟩ := hg.rooted.grove
  obtain ⟨branch, hparent, hbranch, -, rfl⟩ := elseBranch_cases h
  have hbody := hg.formed.add_plain hgrove .body "body" token.position (by decide)
  have hgbody := hgrove.add .body "body" token.position
  obtain ⟨hform, hexpression, hlisted⟩ := hbody.graftCondition hgbody token.position
    (Expr.readOptional_reads hr).1
  obtain ⟨loose', hcondition⟩ := hgbody.graftCondition token.position (Expr.readOptional rest).1
  obtain ⟨hformed, hscope⟩ := hg.attach_further hparent hbranch hform hcondition
    (graftCondition_grafted ..).stands hexpression hlisted
  exact ⟨hformed, hscope⟩

theorem openBody_fitted (hg : g.Shaped P) (ht : P "\x7b" token.position)
    (h : g.openBody token rest = .ok (g', rest')) : g'.Fitted P := by
  obtain ⟨loose, hgrove⟩ := hg.rooted.grove
  obtain ⟨owner, hlast, -, rfl⟩ := openBody_cases h
  have hmem : owner ∈ g.tree.children g.scope := Array.mem_of_back? hlast
  have hparent := (hgrove.parent_iff _ _).mpr hmem
  have hlt := lt_of_parent hparent
  obtain ⟨i, hi⟩ := child?_of_mem hmem
  have howner := (hg.formed.hangs g.scope i owner hi).stated hg.scope
  have hstands := (PrefixOf.refl g.tree).add .body "body" token.position
  have htag := tag_of_label (hstands.label hlt)
  have howner' : (g.tree.add .body "body" token.position).Stated owner := by
    refine ⟨htag ▸ howner.tag, fun hk => ?_⟩
    rw [child?, children_add]
    exact howner.listed (htag ▸ hk)
  have hblock : ((g.tree.add .body "body" token.position).label g.tree.size).Block P := by
    rw [label_add, if_pos rfl]
    exact ⟨rfl, ht⟩
  have hbody := hg.formed.add_plain hgrove .body "body" token.position (by decide)
  refine ⟨?_, by rw [tag_attach, tag_new]; rfl⟩
  apply hbody.attach_block parent_new hblock howner' (by rw [parent_add, hparent])
  rw [tag_of_label (hstands.label hg.scope_lt)]
  exact hg.scope

theorem closeBody_fitted (hg : g.Shaped P) (h : g.closeBody token rest = .ok (g', rest')) :
    g'.Fitted P := by
  obtain ⟨loose, hgrove⟩ := hg.rooted.grove
  obtain ⟨-, owner, enclosing, howner, henclosing, -, rfl⟩ := closeBody_cases h
  obtain ⟨_, q, hq, hscope⟩ := hg.formed.around hgrove hg.scope howner
  obtain rfl : q = enclosing := Option.some.inj (hq.symm.trans henclosing)
  exact ⟨hg.formed, hscope⟩

structure Parameters (t : Tree) (list : NodeId) : Prop where
  tag : t.tag list = .arguments
  entries : ∀ d ∈ t.children list, t.tag d = .store

theorem Parameters.addUnder {list : NodeId} (h : Parameters t list) (ht : t.Formed P)
    (hg : t.Grove loose) (hlist : list ∈ loose) (text : String) (position : Nat) :
    (t.addUnder list .store text position).Formed P ∧
      Parameters (t.addUnder list .store text position) list := by
  have hstands := (PrefixOf.refl t).add .store text position
  have hlt := hg.top_lt list (List.mem_cons_of_mem _ hlist)
  have hadd := ht.add_plain hg .store text position (by decide)
  have hnew : (t.add .store text position).tag t.size = .store := tag_new
  have htag := tag_of_label (hstands.label hlt)
  have hlt' := hlt.trans_le hstands.size_le
  constructor
  · have hstated : (t.add .store text position).Stated t.size := by
      refine ⟨by rw [hnew]; rfl, fun hk => ?_⟩
      rw [hnew] at hk
      rcases hk with hk | hk <;> cases hk
    refine hadd.attach lt_size_add hlt' parent_new (hstated.hangs ?_) ?_ ?_
    · rw [htag, h.tag]
      exact Or.inl hnew
    · intro _ n hm
      rw [children_add] at hm
      exact hg.top_not_child (List.mem_cons_of_mem _ hlist) n hm
    · intro hk
      rw [htag, h.tag] at hk
      cases hk
  · constructor
    · rw [Tree.addUnder, tag_attach, htag, h.tag]
    · intro d hd
      rw [Tree.addUnder, children_attach_of_lt hlt', if_pos rfl, children_add] at hd
      rw [Tree.addUnder, tag_attach]
      rcases Array.mem_push.mp hd with hd | rfl
      · rw [tag_of_label (hstands.label (ht.mem_lt hd)), h.entries d hd]
      · exact hnew

theorem parametersFrom_formed {t t' : Tree} {list : NodeId} (h : t.Formed P) (hg : t.Grove loose)
    (hlist : list ∈ loose) (hl : Parameters t list)
    (hp : parametersFrom eof list t rest = .ok (t', rest')) : t'.Formed P ∧ Parameters t' list := by
  fun_induction parametersFrom eof list t rest with
  | case1 t p _ _ _ _ _ ih =>
    obtain ⟨hadd, hl'⟩ := hl.addUnder h hg hlist p.text p.position
    exact ih hadd (hg.addUnder (List.mem_cons_of_mem _ hlist) .refl ..) hl' hp
  | case2 t p =>
    obtain ⟨rfl, -⟩ := Prod.mk.inj (Except.ok.inj hp)
    exact hl.addUnder h hg hlist p.text p.position
  | case3 t p =>
    obtain ⟨rfl, -⟩ := Prod.mk.inj (Except.ok.inj hp)
    exact hl.addUnder h hg hlist p.text p.position
  | case4 => cases hp
  | case5 => cases hp

theorem parameters_formed {t t' : Tree} {list : NodeId} (h : t.Formed P) (hg : t.Grove loose)
    (hlist : list ∈ loose) (hl : Parameters t list)
    (hp : parameters eof list t rest = .ok (t', rest')) : t'.Formed P ∧ Parameters t' list := by
  rcases parameters_cases hp with ⟨rfl, -⟩ | hp
  · exact ⟨h, hl⟩
  · exact parametersFrom_formed h hg hlist hl hp

theorem formed_function {function list : NodeId} (ht : t.Formed P)
    (hg : t.Grove (list :: function :: loose)) (hl : Parameters t list)
    (hfunction : t.tag function = .function) (hempty : t.children function = #[])
    (hscope : scope < t.size) (hs : (t.tag scope).isScope = true) :
    ((t.attach function list).attach scope function).Formed P := by
  have hlt : list < t.size := hg.top_lt list (by simp)
  have hflt : function < t.size := hg.top_lt function (by simp)
  have hlisted : (t.attach function list).Formed P := by
    apply ht.attach hlt hflt (hg.top_free list (by simp))
    · rw [hempty]
      apply Hangs.of_list _ hl.tag
      · intro d hd
        rw [if_pos hfunction]
        exact hl.entries d hd
      · rw [hfunction]
        exact hl.tag
    · intro hk
      rw [hfunction] at hk
      cases hk
    · intro hk
      rw [hfunction] at hk
      cases hk
  apply hlisted.attach_statement (hg.attach (List.mem_cons_of_mem _ List.mem_cons_self) .refl)
  · rw [size_attach]
    exact hscope
  · rw [tag_attach]
    exact hs
  · constructor
    · rw [tag_attach, hfunction]
      rfl
    · intro _
      refine ⟨list, ?_⟩
      rw [child?, children_attach_of_lt hflt, if_pos rfl, hempty]
      rfl

theorem function_fitted (hg : g.Shaped P) (h : g.function eof rest = .ok (g', rest')) :
    g'.Fitted P := by
  obtain ⟨loose, hgrove⟩ := hg.rooted.grove
  obtain ⟨name, bracket, close, after, tree, -, -, -, -, hp, rfl⟩ := function_cases h
  have hfunction := hg.formed.add_plain hgrove .function name.text name.position (by decide)
  have hgf := hgrove.add .function name.text name.position
  have hboth := hfunction.add_plain hgf .arguments "arg" bracket.position (by decide)
  have hgb := hgf.add .arguments "arg" bracket.position
  rw [size_add] at hgb
  have hlist : Parameters ((g.tree.add .function name.text name.position).add .arguments "arg"
      bracket.position) (g.tree.size + 1) := by
    constructor
    · rw [tag_add, if_pos (by rw [size_add])]
    · intro d hd
      rw [children_add, children_of_le (by rw [size_add])] at hd
      simp at hd
  obtain ⟨hform, hparameters⟩ := parameters_formed hboth hgb List.mem_cons_self hlist hp
  have hgt := (list_beside hp).grove hgf
  -- the function has stood unchanged since it was added
  have hone := (PrefixOf.refl g.tree).add .function name.text name.position
  have hstands := (list_beside hp).stands
  have hscope : (tree.tag g.scope).isScope = true := by
    rw [tag_of_label ((hone.trans hstands).label hg.scope_lt)]
    exact hg.scope
  refine ⟨?_, by rw [tag_attach, tag_attach]; exact hscope⟩
  exact formed_function hform hgt hparameters hstands.tag_new hstands.children_new
    (hg.scope_lt.trans_le (hone.trans hstands).size_le) hscope

theorem keyword_fitted (hg : g.Shaped P) (ht : Displayed P token)
    (hr : ∀ t ∈ rest, Displayed P t) (h : g.keyword eof token rest = .ok (g', rest')) :
    g'.Fitted P := by
  simp only [keyword] at h
  split at h
  iterate 4 exact withOperand_fitted hg rfl hr h
  iterate 2 exact withName_fitted hg rfl (by decide) (by decide) h
  · exact elseBranch_fitted hg hr h
  · exact function_fitted hg h
  · next hk =>
    have htext : "\x7b" = token.text := Keyword.text_of_ofText? hk
    exact openBody_fitted hg (htext ▸ ht) h
  · exact closeBody_fitted hg h
  · cases h

/-- What starts with a name and goes no further than its first operand is the name or a call. -/
theorem read_operand_cases {e : Expr} {after : List Token} (hk : token.kind = .name)
    (h : Expr.read .operand (token :: rest) = .ok (e, after)) :
    e = .get token ∨ ∃ bracket arguments, e = .call token bracket arguments := by
  by_cases hcall : ∃ bracket more, rest = bracket :: more ∧ bracket.kind = .opening
  · obtain ⟨bracket, more, rfl, hb⟩ := hcall
    cases ha : Grammar.arguments? more with
    | none =>
      obtain ⟨stuck, hread⟩ := Grammar.read_call_none hk hb ha
      rw [hread] at h
      cases h
    | some r =>
      obtain ⟨arguments, hread⟩ := Grammar.read_call hk hb ha
      rw [hread] at h
      cases h
      exact Or.inr ⟨bracket, arguments, rfl⟩
  · have hread : Expr.read .operand (token :: rest) = .ok (.get token, rest) :=
      Grammar.read_name hk fun bracket more hr hb => hcall ⟨bracket, more, hr, hb⟩
    rw [hread] at h
    cases h
    exact Or.inl rfl

theorem nameStatement_fitted (hg : g.Shaped P) (hk : token.kind = .name) (ht : Displayed P token)
    (hr : ∀ t ∈ rest, Displayed P t) (h : g.nameStatement eof token rest = .ok (g', rest')) :
    g'.Fitted P := by
  obtain ⟨loose, hgrove⟩ := hg.rooted.grove
  have hreads := @Expr.read_reads (Displayed P) _ .operand (List.forall_mem_cons.mpr ⟨ht, hr⟩)
  rcases nameStatement_cases h with
    ⟨name, colon, after, hread, -, -, rfl⟩ | ⟨call, hread, hcall, rfl⟩
  · rw [hread] at hreads
    have hafter : ∀ t ∈ after, Displayed P t := fun u hu =>
      List.forall_mem_cons.mpr ⟨ht, hr⟩ u (hreads.2.mem (List.mem_cons_of_mem _ hu))
    exact appendGuarded_fitted hg rfl name.text name.position (Expr.readOptional_reads hafter).1
  · rw [hread] at hreads
    obtain ⟨hform, hcomplete⟩ := hg.formed.graft hgrove call hreads.1
    have hstands := (graft_grafted g.tree call).stands
    have hscope : ((g.tree.graft call).1.tag g.scope).isScope = true := by
      rw [tag_of_label (hstands.label hg.scope_lt)]
      exact hg.scope
    have htag : (g.tree.graft call).1.tag (g.tree.graft call).2 = .call := by
      rcases read_operand_cases hk hread with rfl | ⟨bracket, arguments, rfl⟩
      · exact absurd rfl (hcall token)
      · exact graft_call_tag g.tree token bracket arguments
    refine ⟨?_, by rw [tag_attach]; exact hscope⟩
    apply hform.attach_statement (hgrove.graft call)
    · exact hg.scope_lt.trans_le hstands.size_le
    · exact hscope
    · constructor
      · rw [htag]
        rfl
      · intro _
        exact hcomplete.listed htag

theorem statement_fitted (hg : g.Shaped P) (ht : Displayed P token)
    (hr : ∀ t ∈ rest, Displayed P t) (h : g.statement eof token rest = .ok (g', rest')) :
    g'.Fitted P := by
  simp only [statement] at h
  split at h
  · cases h
    exact append_fitted hg rfl (by decide) (by decide) token.text token.position
  · exact keyword_fitted hg ht hr h
  · next hk => exact nameStatement_fitted hg hk ht hr h
  · cases h

theorem statement_shaped (hg : g.Shaped P) (ht : Displayed P token)
    (hr : ∀ t ∈ rest, Displayed P t) (h : g.statement eof token rest = .ok (g', rest')) :
    g'.Shaped P := by
  obtain ⟨hformed, hscope⟩ := statement_fitted hg ht hr h
  exact ⟨statement_rooted hg.rooted h, hformed, hscope⟩

end Growth

end Tree

end Arbor
