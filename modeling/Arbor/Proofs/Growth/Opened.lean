import Arbor.Proofs.Expr.Wording
import Arbor.Proofs.Growth.Rooted

/-!
# The words before the open body

The open body hangs as the last child on the last statement of the body around, and so on up to the
root. So the words of a growing program are known up to the place where the next one goes, and a
statement adds its words there, whatever it does to the tree.
-/
namespace Arbor.Tree

open Token (Word)
open Shape (statements upTo)

variable {t u w : Tree} {n p c enclosing owner scope statement : NodeId} {before words : List Word}
  {depth : Nat} {loose loose' : List NodeId}

theorem mem_of_lastChild? (h : t.lastChild? n = some c) : c ∈ t.children n :=
  Array.mem_of_back? h

theorem parts_of_lastChild? (h : t.lastChild? n = some c) :
    t.parts n = (t.parts n).dropLast ++ [t.shape c] := by
  rw [Tree.lastChild?, ← Array.getLast?_toList] at h
  have hlast : (t.parts n).getLast? = some (t.shape c) := by
    rw [parts, List.getLast?_map, h, Option.map_some]
  exact (List.dropLast_append_getLast? _ hlast).symm

theorem Grove.parts_beside (h : t.Grove loose) (hu : u.Grove loose') (hat : t.GrowsAt p u)
    (hto : t.GrowsTo u) (hlast : t.lastChild? n = some c) (hp : t.Under c p) :
    u.lastChild? n = some c ∧ (u.parts n).dropLast = (t.parts n).dropLast := by
  have hc := mem_of_lastChild? hlast
  have hn := lt_of_mem_children hc
  have hchildren : u.children n = t.children n := by
    refine hat.children n hn ?_
    rintro rfl
    exact h.not_under_parent hc hp
  refine ⟨by rw [Tree.lastChild?, hchildren]; exact hlast, ?_⟩
  rw [Tree.lastChild?, ← Array.getLast?_toList] at hlast
  have hsplit := List.dropLast_append_getLast? _ hlast
  have hnodup := h.children_nodup n
  rw [← hsplit] at hnodup
  rw [parts, parts, hchildren, ← List.map_dropLast, ← List.map_dropLast]
  apply List.map_congr_left
  intro m hm
  have hmem : m ∈ t.children n := Array.mem_toList_iff.mp (List.mem_of_mem_dropLast hm)
  have hne : c ≠ m := by
    rintro rfl
    exact List.disjoint_of_nodup_append hnodup hm (List.mem_singleton_self _)
  exact h.shape_of_growsAt hu hat hto (h.child_lt hmem) (h.siblings_apart hc hmem hne hp)

theorem Grove.statement_of_body (h : t.Grove loose) (hscope : t.lastChild? owner = some scope)
    (hbody : t.tag scope = .body) : (t.shape owner).statement =
      upTo (t.tag owner) (t.text owner) (t.parts owner).dropLast ++ statements (t.parts scope) ++
        [.keyword .closeBody] := by
  rw [h.shape_eq owner, parts_of_lastChild? hscope, h.shape_eq scope, hbody,
    Shape.statement_body, List.dropLast_concat]

/-- `scope` is open `depth` bodies below the root, and `before` are the words in front of its first
statement. -/
inductive Opened (t : Tree) : NodeId → List Word → Nat → Prop where
  | outermost : Opened t root [] 0
  | body {enclosing owner scope : NodeId} {before : List Word} {depth : Nat} :
      Opened t enclosing before depth → t.lastChild? enclosing = some owner →
      t.lastChild? owner = some scope → t.tag scope = .body →
      Opened t scope (before ++ statements (t.parts enclosing).dropLast ++
        upTo (t.tag owner) (t.text owner) (t.parts owner).dropLast) (depth + 1)

/-- The words of the whole program: what is before the open body, its statements, and a brace for
each body that is open. -/
theorem Opened.program (h : t.Opened scope before depth) (hg : t.Grove loose) :
    statements (t.parts root) = before ++ statements (t.parts scope) ++
      List.replicate depth (.keyword .closeBody) := by
  induction h with
  | outermost => simp
  | @body enclosing owner scope before depth _ howner hscope hbody ih =>
    rw [ih, parts_of_lastChild? howner, Shape.statements_concat, hg.statement_of_body hscope hbody,
      List.dropLast_concat, List.replicate_succ]
    simp only [List.append_assoc, List.singleton_append]

/-- An open body that hangs on a node is the last child of it, and that node is the last statement
of the body around. -/
theorem Opened.around (h : t.Opened scope before depth) (hg : t.Grove loose)
    (hparent : t.parent scope = some owner) : ∃ enclosing outer depth',
      t.Opened enclosing outer depth' ∧ t.lastChild? enclosing = some owner ∧
      t.lastChild? owner = some scope ∧ t.tag scope = .body ∧
      before = outer ++ statements (t.parts enclosing).dropLast ++
        upTo (t.tag owner) (t.text owner) (t.parts owner).dropLast := by
  cases h with
  | outermost =>
    rw [hg.root_free] at hparent
    cases hparent
  | @body enclosing owner' _ outer depth' hopened howner hscope hbody =>
    have howns := (hg.parent_iff _ _).mpr (mem_of_lastChild? hscope)
    obtain rfl : owner' = owner := Option.some.inj (howns.symm.trans hparent)
    exact ⟨enclosing, outer, depth', hopened, howner, hscope, hbody, rfl⟩

theorem Opened.grows (h : t.Opened scope before depth) (hg : t.Grove loose) (hu : u.Grove loose')
    (hat : t.GrowsAt p u) (hto : t.GrowsTo u) (hp : t.Under scope p) :
    u.Opened scope before depth := by
  induction h with
  | outermost => exact .outermost
  | @body enclosing owner scope before depth _ howner hscope hbody ih =>
    have hscope' := mem_of_lastChild? hscope
    have howner' := mem_of_lastChild? howner
    have hunder : t.Under owner p := (Under.of_parent ((hg.parent_iff _ _).mpr hscope')).trans hp
    have hround : t.Under enclosing p :=
      (Under.of_parent ((hg.parent_iff _ _).mpr howner')).trans hunder
    obtain ⟨howner, hothers⟩ := hg.parts_beside hu hat hto howner hunder
    obtain ⟨hscope, hkids⟩ := hg.parts_beside hu hat hto hscope hp
    have hlt := hg.child_lt howner'
    have hopened := Opened.body (ih hround) howner hscope
      ((hat.tag _ (hg.child_lt hscope')).trans hbody)
    rw [hothers, hkids, hat.tag _ hlt, hto.text _ hlt] at hopened
    exact hopened

namespace Growth

variable {g g' : Growth}

/-- The words of what has grown so far. The last statement of the open body does not wait for the
body of an `else`. -/
structure Worded (g : Growth) (words : List Word) : Prop where
  opened : ∃ before depth, g.tree.Opened g.scope before depth ∧
    words = before ++ statements (g.tree.parts g.scope)
  settled : ∀ s ∈ (g.tree.parts g.scope).getLast?, s.point ≠ .guarded

theorem Worded.stay (h : g.Worded words) (hg : g.tree.Grove loose) (hu : u.Grove loose')
    (hat : g.tree.GrowsAt g.scope u) (hto : g.tree.GrowsTo u) {s : Shape}
    (hparts : u.parts g.scope = g.tree.parts g.scope ++ [s]) (hs : s.point ≠ .guarded) :
    Worded ⟨u, g.scope⟩ (words ++ s.statement) := by
  obtain ⟨before, depth, hopened, rfl⟩ := h.opened
  refine ⟨⟨before, depth, hopened.grows hg hu hat hto .refl, ?_⟩, ?_⟩
  · rw [hparts, Shape.statements_concat, List.append_assoc]
  · intro s' hs'
    dsimp only at hs'
    rw [hparts, List.getLast?_concat] at hs'
    cases hs'
    exact hs

theorem Worded.attach (h : g.Worded words) (hg : g.Rooted) (hw : w.Grove (statement :: loose))
    (hstands : g.tree.PrefixOf w) (hnew : g.tree.size ≤ statement)
    (hs : (w.shape statement).point ≠ .guarded) :
    Worded ⟨w.attach g.scope statement, g.scope⟩ (words ++ (w.shape statement).statement) := by
  obtain ⟨loose₀, hgrove⟩ := hg.grove
  have hunder := hstands.under hg.scope_under
  have hlt := hg.scope_under.lt hgrove.size_pos
  apply h.stay hgrove (hw.attach List.mem_cons_self hunder)
    ((GrowsAt.of_stands hstands _).attach hnew)
    (((GrowsTo.refl g.tree).prefix_right hstands).attach hnew _) _ hs
  rw [hw.parts_attach List.mem_cons_self hunder, hgrove.parts_of_stands hw hstands hlt]

theorem Worded.attach_bare {tag : Tag} {text : String} (h : g.Worded words) (hg : g.Rooted)
    (hw : w.Grove (statement :: loose)) (hstands : g.tree.PrefixOf w)
    (hnew : g.tree.size ≤ statement) (hshape : w.shape statement = .node tag text []) :
    Worded ⟨w.attach g.scope statement, g.scope⟩ (words ++ tag.head text) := by
  have hworded := h.attach hg hw hstands hnew (by rw [hshape]; exact Point.noConfusion)
  rwa [hshape, Shape.statement_bare] at hworded

theorem Worded.attach_operand {tag : Tag} {text : String} {s : Shape} (h : g.Worded words)
    (hg : g.Rooted) (hw : w.Grove (statement :: loose)) (hstands : g.tree.PrefixOf w)
    (hnew : g.tree.size ≤ statement) (hshape : w.shape statement = .node tag text [s])
    (hs : s.tag ≠ .body) :
    Worded ⟨w.attach g.scope statement, g.scope⟩ (words ++ (tag.head text ++ s.expression)) := by
  have hworded := h.attach hg hw hstands hnew (by
    rw [hshape, Shape.point, Shape.past_operand hs]
    exact Point.noConfusion)
  rwa [hshape, Shape.statement_operand hs] at hworded

/-- A new body that is hung behind the other children of the last statement of `enclosing` is open
behind the words of these children. -/
theorem worded_enter (h : t.Opened enclosing before depth) (hg : t.Grove loose)
    (hu : u.Grove loose') (hat : t.GrowsAt owner u) (hto : t.GrowsTo u)
    (howner : t.lastChild? enclosing = some owner) (hscope : u.lastChild? owner = some scope)
    (hbody : u.tag scope = .body) (hempty : u.children scope = #[]) :
    Worded ⟨u, scope⟩ (before ++ statements (t.parts enclosing).dropLast ++
      upTo (t.tag owner) (t.text owner) (u.parts owner).dropLast) := by
  have hmem := mem_of_lastChild? howner
  have hchild := Under.of_parent ((hg.parent_iff _ _).mpr hmem)
  have hlt := hg.child_lt hmem
  obtain ⟨howner', hothers⟩ := hg.parts_beside hu hat hto howner .refl
  have hopened := Opened.body (h.grows hg hu hat hto hchild) howner' hscope hbody
  rw [hothers, hat.tag _ hlt, hto.text _ hlt] at hopened
  have hnone : u.parts scope = [] := by
    rw [parts, hempty]
    rfl
  refine ⟨⟨_, _, hopened, ?_⟩, ?_⟩
  · dsimp only
    rw [hnone, Shape.statements, List.append_nil]
  · intro s hs
    dsimp only at hs
    rw [hnone] at hs
    cases hs

theorem lastChild?_attach (hn : n < t.size) : (t.attach n c).lastChild? n = some c := by
  rw [Tree.lastChild?, children_attach_of_lt hn, if_pos rfl, Array.back?_push]

theorem openBody_worded (h : g.Worded words) (hg : g.Rooted) {token : Token}
    {rest rest' : List Token} (hopen : g.openBody token rest = .ok (g', rest')) :
    g'.Worded (words ++ [.keyword .openBody]) := by
  obtain ⟨loose, hgrove⟩ := hg.grove
  obtain ⟨before, depth, hopened, rfl⟩ := h.opened
  obtain ⟨owner, hlast, -, rfl⟩ := openBody_cases hopen
  have hmem := mem_of_lastChild? hlast
  have hlt := hgrove.child_lt hmem
  have hchild := Under.of_parent ((hgrove.parent_iff _ _).mpr hmem)
  have hstands := (PrefixOf.refl g.tree).add .body "body" token.position
  have hbody := hgrove.add .body "body" token.position
  have hunder := hstands.under (hg.scope_under.trans hchild)
  have hu := hbody.attach List.mem_cons_self hunder
  have hat := (GrowsAt.of_stands hstands owner).attach (Nat.le_refl _)
  have hto := ((GrowsTo.refl g.tree).add .body "body" token.position).attach (Nat.le_refl _) owner
  have hlt' := hlt.trans_le hstands.size_le
  have hsettled : (Shape.node (g.tree.tag owner) (g.tree.text owner)
      (g.tree.parts owner)).point ≠ .guarded := by
    rw [← hgrove.shape_eq]
    apply h.settled
    rw [parts_of_lastChild? hlast, List.getLast?_concat]
    rfl
  have hkids : (((g.tree.add .body "body" token.position).attach owner g.tree.size).parts
      owner).dropLast = g.tree.parts owner := by
    rw [hbody.parts_attach List.mem_cons_self hunder, List.dropLast_concat,
      hgrove.parts_of_stands hbody hstands hlt]
  have hworded := worded_enter hopened hgrove hu hat hto hlast (lastChild?_attach hlt')
    (by rw [tag_attach, tag_new])
    (by rw [children_attach_of_lt hlt', if_neg (Nat.ne_of_gt hlt), children_new])
  rw [hkids, Shape.upTo_eq hsettled, ← hgrove.shape_eq, ← List.append_assoc,
    List.append_assoc before, ← Shape.statements_concat, ← parts_of_lastChild? hlast] at hworded
  exact hworded

theorem Worded.further (h : g.Worded words) (hg : g.Rooted) {branch condition : NodeId}
    {position : Nat} (hparent : g.tree.parent g.scope = some branch)
    (hw : w.Grove (condition :: g.tree.size :: loose))
    (hadd : (g.tree.add .body "body" position).PrefixOf w) (hcondition : g.tree.size ≤ condition)
    (hs : (w.shape condition).tag ≠ .body) :
    Worded ⟨(w.attach branch condition).attach branch g.tree.size, g.tree.size⟩
      (words ++ (w.shape condition).guard) := by
  obtain ⟨loose₀, hgrove⟩ := hg.grove
  obtain ⟨before, depth, hopened, rfl⟩ := h.opened
  have hstands := ((PrefixOf.refl g.tree).add .body "body" position).trans hadd
  have hroot := hg.scope_under.parent hgrove.root_free hparent
  obtain ⟨enclosing, outer, depth', houter, howner, hscope, htag, rfl⟩ :=
    hopened.around hgrove hparent
  have hlt := hgrove.child_lt (mem_of_lastChild? howner)
  have hunder := hstands.under hroot
  have hx := hw.attach List.mem_cons_self hunder
  have hunder' := hunder.attach (p := branch)
    (hw.top_free condition (List.mem_cons_of_mem _ List.mem_cons_self))
  have hu := hx.attach List.mem_cons_self hunder'
  have hat := ((GrowsAt.of_stands hstands branch).attach hcondition).attach (Nat.le_refl _)
  have hto := (((GrowsTo.refl g.tree).prefix_right hstands).attach hcondition branch).attach
    (Nat.le_refl _) branch
  have hlt' : branch < (w.attach branch condition).size := by
    rw [size_attach]
    exact hlt.trans_le hstands.size_le
  have hkids : (((w.attach branch condition).attach branch g.tree.size).parts branch).dropLast =
      (g.tree.parts branch).dropLast ++
        [.node .body (g.tree.text g.scope) (g.tree.parts g.scope)] ++ [w.shape condition] := by
    rw [hx.parts_attach List.mem_cons_self hunder', List.dropLast_concat,
      hw.parts_attach List.mem_cons_self hunder, hgrove.parts_of_stands hw hstands hlt, ← htag,
      ← hgrove.shape_eq, ← parts_of_lastChild? hscope]
  have hworded := worded_enter houter hgrove hu hat hto howner (lastChild?_attach hlt')
    (by rw [tag_attach, tag_attach, hadd.tag_new]) (by
      have hne : g.tree.size ≠ branch := Nat.ne_of_gt hlt
      rw [children_attach, if_neg fun k => hne k.1, children_attach, if_neg fun k => hne k.1,
        hadd.children_new])
  rw [hkids, Shape.upTo_guard _ _ _ hs] at hworded
  simpa only [List.append_assoc] using hworded

theorem closeBody_worded (h : g.Worded words) (hg : g.Rooted) {token : Token}
    {rest rest' : List Token} (hclose : g.closeBody token rest = .ok (g', rest')) :
    g'.Worded (words ++ [.keyword .closeBody]) := by
  obtain ⟨loose, hgrove⟩ := hg.grove
  obtain ⟨before, depth, hopened, rfl⟩ := h.opened
  obtain ⟨-, owner, around, hparent, hround, -, rfl⟩ := closeBody_cases hclose
  obtain ⟨enclosing, outer, depth', houter, howner, hscope, htag, rfl⟩ :=
    hopened.around hgrove hparent
  have hholds := (hgrove.parent_iff _ _).mpr (mem_of_lastChild? howner)
  obtain rfl : enclosing = around := Option.some.inj (hholds.symm.trans hround)
  have hparts := parts_of_lastChild? howner
  refine ⟨⟨outer, depth', houter, ?_⟩, ?_⟩
  · dsimp only
    rw [hparts, Shape.statements_concat, hgrove.statement_of_body hscope htag,
      List.dropLast_concat]
    simp only [List.append_assoc]
  · intro s hs
    dsimp only at hs
    rw [hparts, List.getLast?_concat] at hs
    cases hs
    rw [hgrove.shape_eq, parts_of_lastChild? hscope, hgrove.shape_eq g.scope, htag,
      Shape.point, Shape.past_body]
    exact Point.noConfusion

end Growth

end Arbor.Tree
