import Arbor.Proofs.Tree.Shape

/-!
# Grafting keeps the shape

An expression made of shown tokens gives nodes that fit, and so does what is left of an expression
that could not be read to its end.
-/
namespace Arbor.Tree

open Arbor.Expr (Frame Stuck)

variable {P : String → Nat → Prop} {t u : Tree} {n p c d list : NodeId} {i : Nat}
  {loose : List NodeId}

def Displayed (P : String → Nat → Prop) (t : Token) : Prop := P t.text t.position

structure Complete (P : String → Nat → Prop) (t : Tree) (n : NodeId) : Prop where
  expression : (t.label n).Expression P
  listed : t.tag n = .call → ∃ l, t.child? n 0 = some l

theorem Complete.lt (h : t.Complete P n) : n < t.size := by
  apply lt_of_tag
  intro hroot
  have htag := h.expression.tag
  rw [show (t.label n).tag = .root from hroot] at htag
  cases htag

theorem Complete.mono (h : t.Complete P n) (hu : t.PrefixOf u) : u.Complete P n := by
  have hlabel := hu.label h.lt
  constructor
  · rw [hlabel]
    exact h.expression
  · intro hk
    rw [child?, children, hu.node n h.lt]
    exact h.listed (tag_of_label hlabel ▸ hk)

theorem Complete.hung {new : List NodeId} (h : t.Complete P n) (hu : Hung t u p new) :
    u.Complete P n := by
  constructor
  · rw [hu.label]
    exact h.expression
  · intro hk
    obtain ⟨l, hl⟩ := h.listed (hu.tag n ▸ hk)
    exact ⟨l, hu.child? hl⟩

theorem Hangs.of_expression (hfits : Label.Fits P (t.tag n) i (t.label c))
    (htag : (t.tag c).isExpression = true)
    (hlisted : t.tag c = .call → ∃ l, t.child? c 0 = some l) : t.Hangs P n i c := by
  refine ⟨hfits, ?_, ?_, ?_⟩
  · rintro (hk | hk)
    · rw [hk] at htag
      cases htag
    · exact hlisted hk
  · intro hk
    rw [hk] at htag
    cases htag
  · intro hk
    rw [hk] at htag
    cases htag

theorem Hangs.of_body (hfits : Label.Fits P (t.tag n) i (t.label c)) (htag : t.tag c = .body)
    (haround : ∃ q, t.parent n = some q ∧ (t.tag q).isScope = true) : t.Hangs P n i c := by
  refine ⟨hfits, ?_, ?_, fun _ => haround⟩
  · intro hk
    rw [htag] at hk
    rcases hk with hk | hk <;> cases hk
  · intro hk
    rw [htag] at hk
    cases hk

theorem Hangs.of_list (hfits : Label.Fits P (t.tag n) i (t.label c)) (htag : t.tag c = .arguments)
    (hentries : ∀ d ∈ t.children c,
      if t.tag n = .function then t.tag d = .store else (t.label d).Expression P) :
    t.Hangs P n i c := by
  refine ⟨hfits, ?_, fun _ => hentries, ?_⟩
  · intro hk
    rw [htag] at hk
    rcases hk with hk | hk <;> cases hk
  · intro hk
    rw [htag] at hk
    cases hk

theorem Complete.hangs (h : t.Complete P c)
    (hfits : (t.label c).Expression P → Label.Fits P (t.tag n) i (t.label c)) :
    t.Hangs P n i c :=
  .of_expression (hfits h.expression) h.expression.tag h.listed

structure Listing (P : String → Nat → Prop) (t : Tree) (list : NodeId) : Prop where
  tag : t.tag list = .arguments
  entries : ∀ d ∈ t.children list, (t.label d).Expression P

theorem Listing.lt (h : t.Listing P list) : list < t.size := by
  apply lt_of_tag
  rw [h.tag]
  exact Tag.noConfusion

theorem Listing.stands (h : t.Listing P list) (hu : t.PrefixOf u) (ht : t.Formed P) :
    u.Listing P list := by
  constructor
  · rw [tag_of_label (hu.label h.lt)]
    exact h.tag
  · intro d hd
    rw [children, hu.node list h.lt] at hd
    rw [hu.label (ht.mem_lt hd)]
    exact h.entries d hd

theorem listing_add (t : Tree) (text : String) (position : Nat) :
    (t.add .arguments text position).Listing P t.size := by
  constructor
  · exact tag_new
  · intro d hd
    rw [children_new] at hd
    simp at hd

theorem Listing.attach (h : t.Listing P list) (ht : t.Formed P) (hg : t.Grove loose)
    (hlist : list ∈ root :: loose) (hc : t.Complete P c) (hfree : t.parent c = none) :
    (t.attach list c).Formed P ∧ (t.attach list c).Listing P list := by
  have hhangs : t.Hangs P list (t.children list).size c := by
    apply hc.hangs
    intro he
    rw [h.tag]
    exact Or.inr he
  constructor
  · apply ht.attach hc.lt h.lt hfree hhangs
    · intro _ n
      exact hg.top_not_child hlist n
    · intro hk
      rw [h.tag] at hk
      cases hk
  · constructor
    · rw [tag_attach]
      exact h.tag
    · intro d hd
      rw [children_attach_of_lt h.lt, if_pos rfl] at hd
      rw [label_attach]
      rcases Array.mem_push.mp hd with hd | rfl
      · exact h.entries d hd
      · exact hc.expression

theorem literal_expression {token : Token} (h : P token.text token.position) :
    Label.Expression P ⟨literalTag token, token.text, token.position⟩ := by
  unfold literalTag
  split
  · exact ⟨rfl, h⟩
  · exact ⟨rfl, h⟩

theorem complete_add {tag : Tag} {text : String} {position : Nat}
    (h : Label.Expression P ⟨tag, text, position⟩) (htag : tag ≠ .call) :
    (t.add tag text position).Complete P t.size := by
  constructor
  · rw [label_add, if_pos rfl]
    exact h
  · intro hk
    rw [tag_new] at hk
    exact absurd hk htag

theorem Formed.operator {left right : NodeId} (h : t.Formed P)
    (hg : t.Grove (right :: left :: loose)) (hl : t.Complete P left) (hr : t.Complete P right)
    {symbol : String} {position : Nat} (hs : P symbol position) :
    (((t.add .operator symbol position).attach t.size left).attach t.size right).Formed P ∧
      (((t.add .operator symbol position).attach t.size left).attach t.size right).Complete P
        t.size := by
  have hstands := (PrefixOf.refl t).add .operator symbol position
  have hg' := hg.add .operator symbol position
  have hl' := hl.mono hstands
  have hr' := hr.mono hstands
  have htag : (t.add .operator symbol position).tag t.size = .operator := tag_new
  have hne : left ≠ right := by
    intro heq
    have htops := (List.nodup_cons.mp (List.nodup_cons.mp hg.tops_nodup).2).1
    exact htops (heq ▸ List.mem_cons_self)
  have hung : Hung (t.add .operator symbol position) _ t.size [left, right] :=
    .attach_attach hl'.lt hr'.lt lt_size_add hne
      (hg'.top_free left (by simp)) (hg'.top_free right (by simp))
  have hself : (t.add .operator symbol position).Complete P t.size :=
    complete_add ⟨rfl, hs⟩ (by decide)
  refine ⟨?_, hself.hung hung⟩
  apply (h.add_plain hg .operator symbol position (by decide)).hang hung
  · intro j c hc
    have hcomplete : (t.add .operator symbol position).Complete P c := by
      rcases List.mem_cons.mp (List.mem_of_getElem? hc) with rfl | hc
      · exact hl'
      · exact List.mem_singleton.mp hc ▸ hr'
    apply hcomplete.hangs
    intro he
    rw [htag]
    exact he
  · intro hk
    rw [htag] at hk
    cases hk
  · intro hk
    rw [htag] at hk
    cases hk

theorem Formed.call {call : NodeId} (h : t.Formed P) (hg : t.Grove loose) (hlist : list ∈ loose)
    (hl : t.Listing P list) (htag : t.tag call = .call) (hchildren : t.children call = #[]) :
    (t.attach call list).Formed P ∧ (t.attach call list).Complete P call := by
  have hcall : call < t.size := lt_of_tag (by rw [htag]; exact Tag.noConfusion)
  have hfree := hg.top_free list (List.mem_cons_of_mem _ hlist)
  have hhangs : t.Hangs P call (t.children call).size list := by
    rw [hchildren]
    apply Hangs.of_list _ hl.tag
    · intro d hd
      rw [htag]
      exact hl.entries d hd
    · rw [htag]
      exact hl.tag
  constructor
  · apply h.attach hl.lt hcall hfree hhangs
    · intro hk
      rw [htag] at hk
      cases hk
    · intro hk
      rw [htag] at hk
      cases hk
  · constructor
    · rw [label_attach]
      refine ⟨?_, ?_⟩
      · rw [show (t.label call).tag = .call from htag]
        rfl
      · have hbody : (t.label call).tag ≠ .body := by
          rw [show (t.label call).tag = .call from htag]
          decide
        rw [Label.shown, if_neg hbody]
        exact h.calls call htag
    · intro _
      refine ⟨list, ?_⟩
      rw [child?, children_attach_of_lt hcall, if_pos rfl, hchildren]
      rfl

mutual

theorem Formed.graft {t : Tree} {loose : List NodeId} (h : t.Formed P) (hg : t.Grove loose)
    (e : Expr) (he : e.Made (Displayed P)) :
    (t.graft e).1.Formed P ∧ (t.graft e).1.Complete P (t.graft e).2 := by
  match e, he with
  | .literal token, .literal ht =>
    rw [Tree.graft]
    have hexpression : Label.Expression P ⟨literalTag token, token.text, token.position⟩ :=
      literal_expression ht.2
    have htag : literalTag token ≠ .call := by
      unfold literalTag
      split <;> exact Tag.noConfusion
    exact ⟨h.add_plain hg _ _ _ htag, complete_add hexpression htag⟩
  | .get name, .get hname =>
    rw [Tree.graft]
    exact ⟨h.add_plain hg _ _ _ (by decide), complete_add ⟨rfl, hname.2⟩ (by decide)⟩
  | .call name bracket arguments, .call hname hmade =>
    rw [Tree.graft]
    have hcall := h.add hg .call name.text name.position fun _ => hname.2
    have hgcall := hg.add .call name.text name.position
    have hboth := hcall.add_plain hgcall .arguments "arg" bracket.position (by decide)
    have hgboth := hgcall.add .arguments "arg" bracket.position
    have hlisting := @listing_add P (t.add .call name.text name.position) "arg" bracket.position
    rw [size_add] at hgboth hlisting
    obtain ⟨hall, hentries⟩ := hboth.graftAll hgboth List.mem_cons_self hlisting arguments hmade
    have hgall := hgboth.graftAll (List.mem_cons_of_mem _ List.mem_cons_self) .refl arguments
    -- the call has stood unchanged since it was added
    have hstands := graftAll_stands (t.size + 1) arguments
      ((PrefixOf.refl (t.add .call name.text name.position)).add .arguments "arg" bracket.position)
      (by rw [size_add])
    exact hall.call hgall List.mem_cons_self hentries hstands.tag_new hstands.children_new
  | .operator symbol left right, .operator hs hleft hright =>
    rw [Tree.graft]
    obtain ⟨hl, hlc⟩ := h.graft hg left hleft
    have hgl := hg.graft left
    obtain ⟨hr, hrc⟩ := hl.graft hgl right hright
    have hgr := hgl.graft right
    exact hr.operator hgr (hlc.mono (graft_grafted _ right).stands) hrc hs

theorem Formed.graftAll {t : Tree} {loose : List NodeId} {list : NodeId} (h : t.Formed P)
    (hg : t.Grove loose) (hlist : list ∈ loose) (hl : t.Listing P list) (es : List Expr)
    (hes : ∀ e ∈ es, e.Made (Displayed P)) :
    (t.graftAll list es).Formed P ∧ (t.graftAll list es).Listing P list := by
  match es with
  | [] =>
    rw [Tree.graftAll]
    exact ⟨h, hl⟩
  | e :: rest =>
    rw [Tree.graftAll]
    obtain ⟨he, hc⟩ := h.graft hg e (hes e List.mem_cons_self)
    have hge := hg.graft e
    have hle := hl.stands (graft_grafted t e).stands h
    have hfree := hge.top_free _ (List.mem_cons_of_mem _ List.mem_cons_self)
    obtain ⟨ha, hla⟩ := hle.attach he hge
      (List.mem_cons_of_mem _ (List.mem_cons_of_mem _ hlist)) hc hfree
    have hga := hge.attach (List.mem_cons_of_mem _ hlist) .refl
    exact ha.graftAll hga hlist hla rest fun e hm => hes e (List.mem_cons_of_mem _ hm)

end

theorem Formed.strew (h : t.Formed P) (hg : t.Grove loose) (frames : List Frame)
    (hf : ∀ f ∈ frames, f.Made (Displayed P)) : ∃ extra : List NodeId,
      (t.strew frames).1.Formed P ∧ (t.strew frames).1.Grove (extra ++ loose) ∧
      ∀ list, (t.strew frames).2 = some list →
        list ∈ extra ∧ (t.strew frames).1.Listing P list := by
  induction frames with
  | nil => exact ⟨[], h, hg, fun _ hl => by cases hl⟩
  | cons frame below ih =>
    obtain ⟨hframe, hbelow⟩ := List.forall_mem_cons.mp hf
    obtain ⟨extra, hform, hgrove, _⟩ := ih hbelow
    cases frame with
    | operand left symbol =>
      obtain ⟨he, _⟩ := hform.graft hgrove left hframe.1
      exact ⟨_ :: extra, he, hgrove.graft left, fun _ hl => by cases hl⟩
    | argument name bracket before =>
      have hcall := hform.add hgrove .call name.text name.position fun _ => hframe.1.2
      have hgcall := hgrove.add .call name.text name.position
      have hboth := hcall.add_plain hgcall .arguments "arg" bracket.position (by decide)
      have hgboth := hgcall.add .arguments "arg" bracket.position
      have hlisting := @listing_add P ((t.strew below).1.add .call name.text name.position) "arg" bracket.position
      rw [size_add] at hgboth hlisting
      obtain ⟨hall, hentries⟩ := hboth.graftAll hgboth List.mem_cons_self hlisting before.reverse
        fun e he => hframe.2 e (List.mem_reverse.mp he)
      refine ⟨_ :: _ :: extra, hall,
        hgboth.graftAll (List.mem_cons_of_mem _ List.mem_cons_self) .refl _, ?_⟩
      intro list hl
      cases hl
      exact ⟨List.mem_cons_self, hentries⟩

theorem Formed.litter (h : t.Formed P) (hg : t.Grove loose) (stuck : Stuck)
    (hs : stuck.Made (Displayed P)) : (t.litter stuck).Formed P := by
  rw [Tree.litter]
  split
  · obtain ⟨extra, hform, _⟩ := h.strew hg stuck.frames hs.frames
    exact hform
  · next operand ho =>
    obtain ⟨hframes, hmade⟩ := Expr.fold_made Operator.loosest hs.frames (hs.operand operand ho)
    obtain ⟨extra, hform, hgrove, hlist⟩ := h.strew hg _ hframes
    obtain ⟨he, hc⟩ := hform.graft hgrove _ hmade
    have hge := hgrove.graft (Expr.fold Operator.loosest stuck.frames operand).2
    dsimp only
    split
    · next list hl =>
      obtain ⟨hmem, hlisting⟩ := hlist list hl
      have hstands := (graft_grafted (t.strew (Expr.fold Operator.loosest stuck.frames operand).1).1
        (Expr.fold Operator.loosest stuck.frames operand).2).stands
      have hle := hlisting.stands hstands hform
      have hfree := hge.top_free _ (List.mem_cons_of_mem _ List.mem_cons_self)
      exact (hle.attach he hge
        (List.mem_cons_of_mem _ (List.mem_cons_of_mem _ (List.mem_append_left _ hmem))) hc hfree).1
    · exact he

end Arbor.Tree
