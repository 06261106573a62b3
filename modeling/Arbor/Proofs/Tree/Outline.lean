import Arbor.Proofs.Text.Quoted
import Arbor.Proofs.Tree.Forest

/-!
# Outlines read back

An outline says everything of a subtree but indices and positions. A line says its depth, its tag and
its text: the label of a tag has no blank in it, and the text is quoted, so that no character of it
can be taken for the end of the line. The lines of a subtree are its own and the deeper ones behind
it, so that depths say which node each line belongs to.
-/
namespace Arbor

namespace Entry

variable {e e' : Entry} {es es' : List Entry} {p q r s : List Char} {a b : Nat}

theorem blanks_append_inj (hr : r.head? ≠ some ' ') (hs : s.head? ≠ some ' ')
    (h : List.replicate a ' ' ++ r = List.replicate b ' ' ++ s) : a = b ∧ r = s := by
  induction a generalizing b with
  | zero =>
    cases b with
    | zero => exact ⟨rfl, h⟩
    | succ b => exact absurd (congrArg List.head? h) hr
  | succ a ih =>
    cases b with
    | zero => exact absurd (congrArg List.head? h).symm hs
    | succ b =>
      obtain ⟨rfl, hrest⟩ := ih (List.tail_eq_of_cons_eq h)
      exact ⟨rfl, hrest⟩

theorem upTo_blank_inj (hp : ' ' ∉ p) (hq : ' ' ∉ q) (h : p ++ ' ' :: r = q ++ ' ' :: s) :
    p = q ∧ r = s := by
  rcases List.append_eq_append_iff.mp h with ⟨m, rfl, hm⟩ | ⟨m, rfl, hm⟩ <;> cases m <;> simp_all

theorem blank_not_mem_label (tag : Tag) : ' ' ∉ tag.label.toList := by
  cases tag <;> decide

theorem label_ne_nil (tag : Tag) : tag.label.toList ≠ [] := by
  cases tag <;> decide

theorem head_label (tag : Tag) (r : List Char) : (tag.label.toList ++ r).head? ≠ some ' ' := by
  rw [List.head?_append_of_ne_nil _ (label_ne_nil tag)]
  exact fun hblank => blank_not_mem_label tag (List.mem_of_head? hblank)

theorem label_injective (a b : Tag) (h : a.label.toList = b.label.toList) : a = b := by
  revert h
  cases a <;> cases b <;> decide

theorem line_append_inj (h : e.line ++ r = e'.line ++ s) : e = e' ∧ r = s := by
  obtain ⟨depth, tag, text⟩ := e
  obtain ⟨depth', tag', text'⟩ := e'
  simp only [line, List.append_assoc, List.cons_append, List.nil_append] at h
  obtain ⟨hdepth, hlabel⟩ := blanks_append_inj (head_label _ _) (head_label _ _) h
  obtain ⟨htag, hquoted⟩ :=
    upTo_blank_inj (blank_not_mem_label _) (blank_not_mem_label _) hlabel
  obtain ⟨htext, hend⟩ := Text.quoted_append_inj hquoted
  obtain rfl : depth = depth' := by omega
  obtain rfl := label_injective tag tag' htag
  obtain rfl := String.toList_inj.mp htext
  exact ⟨rfl, List.tail_eq_of_cons_eq hend⟩

theorem line_append_ne_nil (e : Entry) (r : List Char) : e.line ++ r ≠ [] := by
  simp [line]

theorem flatMap_line_inj (h : es.flatMap line = es'.flatMap line) : es = es' := by
  induction es generalizing es' with
  | nil =>
    cases es' with
    | nil => rfl
    | cons e' es' => exact False.elim (line_append_ne_nil _ _ h.symm)
  | cons e es ih =>
    cases es' with
    | nil => exact False.elim (line_append_ne_nil _ _ h)
    | cons e' es' =>
      obtain ⟨rfl, hrest⟩ := line_append_inj h
      rw [ih hrest]

end Entry

namespace Shape

mutual

def preorder (depth : Nat) : Shape → List Entry
  | .node tag text children => ⟨depth, tag, text⟩ :: preorderAll (depth + 1) children

def preorderAll (depth : Nat) : List Shape → List Entry
  | [] => []
  | shape :: shapes => shape.preorder depth ++ preorderAll depth shapes

end

mutual

theorem entries_toList (depth : Nat) (done : Array Entry) (shape : Shape) :
    (shape.entries depth done).toList = done.toList ++ shape.preorder depth := by
  match shape with
  | .node tag text children =>
    rw [entries, entriesAll_toList, preorder, Array.toList_push, List.append_assoc]
    rfl

theorem entriesAll_toList (depth : Nat) (done : Array Entry) (shapes : List Shape) :
    (entriesAll depth done shapes).toList = done.toList ++ preorderAll depth shapes := by
  match shapes with
  | [] => rw [entriesAll, preorderAll, List.append_nil]
  | shape :: shapes =>
    rw [entriesAll, entriesAll_toList, entries_toList, preorderAll, List.append_assoc]

end

theorem toList_outline (s : Shape) : s.outline.toList = (s.preorder 0).flatMap Entry.line := by
  have hfold : ∀ (es : List Entry) (text : String),
      (es.foldl (fun text e => text ++ String.ofList e.line) text).toList =
        text.toList ++ es.flatMap Entry.line := by
    intro es
    induction es with
    | nil => simp
    | cons e es ih => simp [ih]
  rw [outline, ← Array.foldl_toList, hfold, entries_toList]
  rfl

/-- `es` go on above `depth`, if they go on at all. -/
def Leaves (depth : Nat) (es : List Entry) : Prop := ∀ e ∈ es.head?, e.depth < depth

variable {depth : Nat} {s s' : Shape} {ss ss' : List Shape} {r r' : List Entry}

theorem Leaves.mono (h : Leaves depth r) : Leaves (depth + 1) r := fun e he =>
  Nat.lt_succ_of_lt (h e he)

theorem Leaves.preorderAll (h : Leaves depth r) (ss : List Shape) :
    Leaves (depth + 1) (preorderAll depth ss ++ r) := by
  cases ss with
  | nil => exact h.mono
  | cons s ss =>
    obtain ⟨tag, text, children⟩ := s
    intro e he
    obtain rfl := Option.some.inj he
    exact Nat.lt_succ_self depth

theorem Leaves.ne_preorderAll (h : Leaves depth r) (s : Shape) (ss : List Shape) :
    r ≠ Shape.preorderAll depth (s :: ss) ++ r' := by
  obtain ⟨tag, text, children⟩ := s
  rintro rfl
  exact absurd (h _ rfl) (Nat.lt_irrefl depth)

mutual

/-- The entries of a shape say the shape and where they end, if what stands behind is no deeper. -/
theorem preorder_append_inj {depth : Nat} {s s' : Shape} {r r' : List Entry}
    (hr : Leaves (depth + 1) r) (hr' : Leaves (depth + 1) r')
    (h : s.preorder depth ++ r = s'.preorder depth ++ r') : s = s' ∧ r = r' := by
  match s, s' with
  | .node tag text children, .node tag' text' children' =>
    rw [preorder, preorder, List.cons_append, List.cons_append] at h
    obtain ⟨hentry, hrest⟩ := List.cons.inj h
    obtain ⟨-, rfl, rfl⟩ := Entry.mk.inj hentry
    obtain ⟨rfl, rfl⟩ := preorderAll_append_inj hr hr' hrest
    exact ⟨rfl, rfl⟩

theorem preorderAll_append_inj {depth : Nat} {ss ss' : List Shape} {r r' : List Entry}
    (hr : Leaves depth r) (hr' : Leaves depth r')
    (h : preorderAll depth ss ++ r = preorderAll depth ss' ++ r') : ss = ss' ∧ r = r' := by
  match ss, ss' with
  | [], [] => exact ⟨rfl, h⟩
  | [], s' :: ss' => exact False.elim (hr.ne_preorderAll s' ss' h)
  | s :: ss, [] => exact False.elim (hr'.ne_preorderAll s ss h.symm)
  | s :: ss, s' :: ss' =>
    rw [preorderAll, preorderAll, List.append_assoc, List.append_assoc] at h
    obtain ⟨rfl, hrest⟩ := preorder_append_inj (hr.preorderAll ss) (hr'.preorderAll ss') h
    obtain ⟨rfl, rfl⟩ := preorderAll_append_inj hr hr' hrest
    exact ⟨rfl, rfl⟩

end

theorem outline_injective (h : s.outline = s'.outline) : s = s' := by
  -- lines are told apart first, then the nodes that they stand for
  have htext := congrArg String.toList h
  rw [toList_outline, toList_outline] at htext
  have hnil : Leaves 1 [] := by simp [Leaves]
  have hentries : s.preorder 0 ++ [] = s'.preorder 0 ++ [] := by
    rw [Entry.flatMap_line_inj htext]
  exact (preorder_append_inj hnil hnil hentries).1

end Shape

namespace Tree

/-- The subtrees at `n` and at `m` are equal but for indices and positions: the nodes have one tag and
one text, and as many children, which are equal in their order. -/
inductive Alike (t u : Tree) : NodeId → NodeId → Prop where
  | node {n m : NodeId} (tag : t.tag n = u.tag m) (text : t.text n = u.text m)
      (size : (t.children n).size = (u.children m).size)
      (children : ∀ i a b, t.child? n i = some a → u.child? m i = some b → Alike t u a b) :
      Alike t u n m

variable {t u : Tree} {n m : NodeId}

theorem Acyclic.shape_eq_shape_iff (ht : t.Acyclic) (hu : u.Acyclic) :
    t.shape n = u.shape m ↔ t.tag n = u.tag m ∧ t.text n = u.text m ∧
      (t.children n).size = (u.children m).size ∧
      ∀ i a b, t.child? n i = some a → u.child? m i = some b → t.shape a = u.shape b := by
  rw [ht.shape_eq, hu.shape_eq, Shape.node.injEq]
  refine and_congr_right fun _ => and_congr_right fun _ => ?_
  constructor
  · intro h
    refine ⟨by simpa [parts] using congrArg List.length h, fun i a b ha hb => ?_⟩
    have hat : (t.parts n)[i]? = (u.parts m)[i]? := by rw [h]
    unfold child? at ha hb
    simpa [parts, ha, hb] using hat
  · rintro ⟨hsize, hchildren⟩
    refine List.ext_getElem (by simpa [parts] using hsize) fun i hi hi' => ?_
    simp only [parts, List.length_map, Array.length_toList] at hi hi'
    simpa [parts] using hchildren i _ _ (Array.getElem?_eq_getElem hi)
      (Array.getElem?_eq_getElem hi')

theorem shape_eq_iff_alike (ht : t.Acyclic) (hu : u.Acyclic) :
    t.shape n = u.shape m ↔ Alike t u n m := by
  constructor
  · intro h
    induction n using ht.induction generalizing m with
    | h n ih =>
      obtain ⟨htag, htext, hsize, hchildren⟩ := (ht.shape_eq_shape_iff hu).mp h
      refine .node htag htext hsize fun i a b ha hb => ?_
      exact ih a (Array.mem_of_getElem? ha) (hchildren i a b ha hb)
  · intro h
    induction h with
    | node htag htext hsize _ ih => exact (ht.shape_eq_shape_iff hu).mpr ⟨htag, htext, hsize, ih⟩

/-- Subtrees of two trees have one outline just if they are alike: nothing in a text can be taken for
the end of a line, an indentation or the end of the text. -/
theorem outline_eq_iff_alike (ht : t.Acyclic) (hu : u.Acyclic) (n m : NodeId) :
    t.outline n = u.outline m ↔ Alike t u n m := by
  rw [← shape_eq_iff_alike ht hu]
  exact ⟨Shape.outline_injective, congrArg Shape.outline⟩

/-- A text with a quote and a line break is not taken for two nodes. A loose node in between and
another position leave the outline as it is. -/
theorem two_lines_in_text_outlined :
    let t := planted.addUnder root .textLiteral "a\"\n  Get \"b" 0
    let u := (planted.addUnder root .textLiteral "a" 0).addUnder root .get "b" 4
    let w := (planted.add .pass "pass" 0).addUnder root .textLiteral "a\"\n  Get \"b" 8
    t.Acyclic ∧ u.Acyclic ∧ w.Acyclic ∧
    t.outline root = "Root \"root\"\n  StringLit \"a\\\"\\n  Get \\\"b\"\n" ∧
    u.outline root = "Root \"root\"\n  StringLit \"a\"\n  Get \"b\"\n" ∧
    ¬Alike t u root root ∧ Alike t w root root := by
  intro t u w
  have ht := planted_grove.addUnder List.mem_cons_self .refl .textLiteral "a\"\n  Get \"b" 0
  have hu := (planted_grove.addUnder List.mem_cons_self .refl .textLiteral "a" 0).addUnder
    List.mem_cons_self .refl .get "b" 4
  have hw := (planted_grove.add .pass "pass" 0).addUnder List.mem_cons_self .refl .textLiteral
    "a\"\n  Get \"b" 8
  have htext : t.outline root = "Root \"root\"\n  StringLit \"a\\\"\\n  Get \\\"b\"\n" := by
    decide
  have hlines : u.outline root = "Root \"root\"\n  StringLit \"a\"\n  Get \"b\"\n" := by decide
  refine ⟨ht.acyclic, hu.acyclic, hw.acyclic, htext, hlines, ?_, ?_⟩
  · rw [← outline_eq_iff_alike ht.acyclic hu.acyclic, htext, hlines]
    decide
  · rw [← outline_eq_iff_alike ht.acyclic hw.acyclic]
    decide

end Tree

end Arbor
