import Arbor.Proofs.Growth.Step
import Arbor.Proofs.Tree.Shape

/-!
# Where nodes come from

Each node that a growth adds is made from a token and keeps its text, but for the nodes that no token
stands for: bodies, lists, and the condition behind an `else` without one. So a tag or a name that no
token gives does not come into the tree.
-/
namespace Arbor

def Keyword.tag? : Keyword → Option Tag
  | .branch => some .branch
  | .loop => some .loop
  | .output => some .output
  | .giveBack => some .giveBack
  | _ => none

namespace Tree

open Arbor.Expr (Frame Stuck OperandMade)

/-- The tag and the text of a node that is added while `tokens` are read. -/
inductive Origin (tokens : List Token) : Tag → String → Prop where
  | body : Origin tokens .body "body"
  | list : Origin tokens .arguments "arg"
  | one : Origin tokens .numberLiteral "1"
  | literal {t : Token} : t ∈ tokens → t.kind = .string ∨ t.kind = .number →
      Origin tokens (literalTag t) t.text
  | operator {t : Token} : t ∈ tokens → Origin tokens .operator t.text
  | pass {t : Token} : t ∈ tokens → Origin tokens .pass t.text
  | name {t : Token} {tag : Tag} : t ∈ tokens → t.kind = .name → tag.isNaming = true →
      Origin tokens tag t.text
  | keyword {t : Token} {k : Keyword} {tag : Tag} : t ∈ tokens → t.kind = .keyword →
      t.text = k.text → k.tag? = some tag → Origin tokens tag t.text

def Traced (base : Nat) (tokens : List Token) (t : Tree) : Prop :=
  ∀ n, base ≤ n → n < t.size → Origin tokens (t.tag n) (t.text n)

variable {base : Nat} {tokens : List Token} {t : Tree} {tag : Tag} {text : String}

theorem Origin.of_naming (h : Origin tokens tag text) (htag : tag.isNaming = true) :
    ∃ t ∈ tokens, t.kind = .name ∧ t.text = text := by
  cases h with
  | name ht hk _ => exact ⟨_, ht, hk, rfl⟩
  | @literal t ht hk =>
    unfold literalTag at htag
    split at htag <;> cases htag
  | @keyword t k _ ht hk hkeyword hk' =>
    cases k <;> cases hk' <;> cases htag
  | _ => cases htag

theorem Origin.of_loop (h : Origin tokens .loop text) :
    ∃ t ∈ tokens, t.kind = .keyword ∧ t.text = Keyword.loop.text := by
  generalize htag : Tag.loop = tag at h
  cases h with
  | @literal t ht hk =>
    unfold literalTag at htag
    split at htag <;> cases htag
  | name ht hk hnaming =>
    subst htag
    cases hnaming
  | @keyword t k _ ht hk htext hk' =>
    subst htag
    cases k <;> cases hk'
    exact ⟨t, ht, hk, htext⟩
  | _ => cases htag

/-- A number in the tree is spelled by a token, or is the condition that stands for a missing one. -/
theorem Origin.of_number (h : Origin tokens .numberLiteral text) :
    text = "1" ∨ ∃ t ∈ tokens, t.kind = .number ∧ t.text = text := by
  generalize htag : Tag.numberLiteral = tag at h
  cases h with
  | one => exact Or.inl rfl
  | @literal t ht hk =>
    unfold literalTag at htag
    split at htag
    · cases htag
    · next hstring => exact Or.inr ⟨t, ht, hk.resolve_left hstring, rfl⟩
  | name ht hk hnaming =>
    subst htag
    cases hnaming
  | @keyword t k _ ht hk htext hk' =>
    subst htag
    cases k <;> cases hk'
  | _ => cases htag

theorem Traced.add (h : t.Traced base tokens) (ho : Origin tokens tag text) (position : Nat) :
    (t.add tag text position).Traced base tokens := by
  intro n hbase hn
  have hlabel := @label_add t n tag text position
  by_cases hnew : n = t.size
  · rw [if_pos hnew] at hlabel
    have htag : (t.add tag text position).tag n = tag := congrArg Label.tag hlabel
    have htext : (t.add tag text position).text n = text := congrArg Label.text hlabel
    rw [htag, htext]
    exact ho
  · rw [if_neg hnew] at hlabel
    have htag : (t.add tag text position).tag n = t.tag n := congrArg Label.tag hlabel
    have htext : (t.add tag text position).text n = t.text n := congrArg Label.text hlabel
    rw [htag, htext]
    simp only [size_add] at hn
    exact h n hbase (by omega)

theorem Traced.attach (h : t.Traced base tokens) (p c : NodeId) :
    (t.attach p c).Traced base tokens := by
  intro n hbase hn
  simp only [tag_attach, text_attach, size_attach] at hn ⊢
  exact h n hbase hn

theorem Traced.addUnder (h : t.Traced base tokens) (ho : Origin tokens tag text) (p : NodeId)
    (position : Nat) : (t.addUnder p tag text position).Traced base tokens :=
  (h.add ho position).attach p t.size

mutual

theorem Traced.graft {t : Tree} (h : t.Traced base tokens) (e : Expr) (he : e.Made (· ∈ tokens)) :
    (t.graft e).1.Traced base tokens := by
  match e, he with
  | .literal token, .literal ht =>
    rw [Tree.graft]
    exact h.add (.literal ht.2 ht.1) _
  | .get name, .get hname =>
    rw [Tree.graft]
    exact h.add (.name hname.2 hname.1 rfl) _
  | .call name bracket arguments, .call hname hmade =>
    rw [Tree.graft]
    have hcall : (t.add .call name.text name.position).Traced base tokens :=
      h.add (.name hname.2 hname.1 rfl) _
    have hlist := hcall.add .list bracket.position
    exact (hlist.graftAll (t.size + 1) arguments hmade).attach _ _
  | .operator symbol left right, .operator hs hleft hright =>
    rw [Tree.graft]
    have hoperands := (h.graft left hleft).graft right hright
    exact ((hoperands.add (.operator hs) _).attach _ _).attach _ _

theorem Traced.graftAll {t : Tree} (h : t.Traced base tokens) (list : NodeId) (es : List Expr)
    (hes : ∀ e ∈ es, e.Made (· ∈ tokens)) : (t.graftAll list es).Traced base tokens := by
  match es with
  | [] =>
    rw [Tree.graftAll]
    exact h
  | e :: rest =>
    rw [Tree.graftAll]
    have he := h.graft e (hes e List.mem_cons_self)
    exact (he.attach list _).graftAll list rest fun e hm => hes e (List.mem_cons_of_mem _ hm)

end

theorem Traced.strew (h : t.Traced base tokens) (frames : List Frame)
    (hf : ∀ f ∈ frames, f.Made (· ∈ tokens)) : (t.strew frames).1.Traced base tokens := by
  induction frames with
  | nil => exact h
  | cons frame below ih =>
    obtain ⟨hframe, hbelow⟩ := List.forall_mem_cons.mp hf
    cases frame with
    | operand left symbol => exact (ih hbelow).graft left hframe.1
    | argument name bracket before =>
      have hcall : ((t.strew below).1.add .call name.text name.position).Traced base tokens :=
        (ih hbelow).add (.name hframe.1.2 hframe.1.1 rfl) _
      exact (hcall.add .list bracket.position).graftAll _ _
        fun e he => hframe.2 e (List.mem_reverse.mp he)

theorem Traced.litter (h : t.Traced base tokens) (stuck : Stuck)
    (hs : stuck.Made (· ∈ tokens)) : (t.litter stuck).Traced base tokens := by
  rw [Tree.litter]
  split
  · exact h.strew _ hs.frames
  · next operand ho =>
    obtain ⟨hframes, hmade⟩ := Expr.fold_made Operator.loosest hs.frames (hs.operand operand ho)
    have he := (h.strew _ hframes).graft _ hmade
    dsimp only
    split
    · exact he.attach _ _
    · exact he

theorem Traced.hangOperand (h : t.Traced base tokens) (statement : NodeId)
    {operand : Except Stuck Expr} (ho : OperandMade (· ∈ tokens) operand) :
    (t.hangOperand statement operand).Traced base tokens := by
  cases operand with
  | ok e => exact (h.graft e ho).attach _ _
  | error stuck => exact h.litter stuck ho

theorem Traced.graftCondition (h : t.Traced base tokens) (position : Nat)
    {operand : Except Stuck Expr} (ho : OperandMade (· ∈ tokens) operand) :
    (t.graftCondition position operand).1.Traced base tokens := by
  cases operand with
  | ok e => exact h.graft e ho
  | error stuck => exact (h.litter stuck ho).add .one position

namespace Growth

variable {g g' : Growth} {eof token : Token} {rest rest' : List Token}

structure Traces (base : Nat) (tokens : List Token) (t : Tree) (rest : List Token) : Prop where
  tree : t.Traced base tokens
  rest : ∀ u ∈ rest, u ∈ tokens

theorem readOptional_traced (hr : ∀ u ∈ rest, u ∈ tokens) :
    OperandMade (· ∈ tokens) (Expr.readOptional rest).1 ∧
      ∀ u ∈ (Expr.readOptional rest).2, u ∈ tokens := by
  obtain ⟨hmade, htaken⟩ := Expr.readOptional_reads hr
  exact ⟨hmade, fun u hu => hr u (htaken.mem hu)⟩

theorem appendGuarded_traced (h : t.Traced base tokens) (scope statement : NodeId)
    {operand : Except Stuck Expr} (ho : OperandMade (· ∈ tokens) operand) :
    (appendGuarded scope t statement operand).tree.Traced base tokens := by
  rw [appendGuarded_eq]
  exact (h.hangOperand statement ho).attach _ _

theorem withOperand_traces (h : g.tree.Traced base tokens) (ho : Origin tokens tag token.text)
    (hr : ∀ u ∈ rest, u ∈ tokens) (hs : g.withOperand tag token rest = .ok (g', rest')) :
    Traces base tokens g'.tree rest' := by
  obtain ⟨hmade, hrest⟩ := readOptional_traced hr
  cases hs
  exact ⟨appendGuarded_traced (h.add ho _) _ _ hmade, hrest⟩

theorem withName_traces (h : g.tree.Traced base tokens) (htag : tag.isNaming = true)
    (hr : ∀ u ∈ rest, u ∈ tokens) (hs : g.withName eof tag token rest = .ok (g', rest')) :
    Traces base tokens g'.tree rest' := by
  obtain ⟨name, rfl, hkind, rfl⟩ := withName_cases hs
  obtain ⟨hname, hrest⟩ := List.forall_mem_cons.mp hr
  exact ⟨h.addUnder (.name hname hkind htag) _ _, hrest⟩

theorem elseBranch_traces (h : g.tree.Traced base tokens) (hr : ∀ u ∈ rest, u ∈ tokens)
    (hs : g.elseBranch token rest = .ok (g', rest')) : Traces base tokens g'.tree rest' := by
  obtain ⟨branch, -, -, rfl, rfl⟩ := elseBranch_cases hs
  obtain ⟨hmade, hrest⟩ := readOptional_traced hr
  have hcondition := (h.add .body token.position).graftCondition token.position hmade
  exact ⟨(hcondition.attach _ _).attach _ _, hrest⟩

theorem openBody_traces (h : g.tree.Traced base tokens) (hr : ∀ u ∈ rest, u ∈ tokens)
    (hs : g.openBody token rest = .ok (g', rest')) : Traces base tokens g'.tree rest' := by
  obtain ⟨owner, -, rfl, rfl⟩ := openBody_cases hs
  exact ⟨(h.add .body _).attach _ _, hr⟩

theorem closeBody_traces (h : g.tree.Traced base tokens) (hr : ∀ u ∈ rest, u ∈ tokens)
    (hs : g.closeBody token rest = .ok (g', rest')) : Traces base tokens g'.tree rest' := by
  obtain ⟨-, owner, enclosing, -, -, rfl, rfl⟩ := closeBody_cases hs
  exact ⟨h, hr⟩

theorem parametersFrom_traces {u : Tree} {list : NodeId} (h : t.Traced base tokens)
    (hr : ∀ u ∈ rest, u ∈ tokens) (hs : parametersFrom eof list t rest = .ok (u, rest')) :
    Traces base tokens u rest' := by
  fun_induction parametersFrom eof list t rest with
  | case1 t p hp t' c more hcomma ih =>
    obtain ⟨hname, hmore⟩ := List.forall_mem_cons.mp hr
    exact ih (h.addUnder (.name hname hp rfl) _ _)
      (fun u hu => hmore u (List.mem_cons_of_mem _ hu)) hs
  | case2 t p hp t' c more hcomma =>
    obtain ⟨hname, hmore⟩ := List.forall_mem_cons.mp hr
    obtain ⟨rfl, rfl⟩ := Prod.mk.inj (Except.ok.inj hs)
    exact ⟨h.addUnder (.name hname hp rfl) _ _, hmore⟩
  | case3 t p hp t' =>
    obtain ⟨hname, hmore⟩ := List.forall_mem_cons.mp hr
    obtain ⟨rfl, rfl⟩ := Prod.mk.inj (Except.ok.inj hs)
    exact ⟨h.addUnder (.name hname hp rfl) _ _, hmore⟩
  | case4 => cases hs
  | case5 => cases hs

theorem function_traces (h : g.tree.Traced base tokens) (hr : ∀ u ∈ rest, u ∈ tokens)
    (hs : g.function eof rest = .ok (g', rest')) : Traces base tokens g'.tree rest' := by
  obtain ⟨name, bracket, close, after, u, rfl, hname, -, -, hp, rfl⟩ := function_cases hs
  obtain ⟨hmem, hmore⟩ := List.forall_mem_cons.mp hr
  obtain ⟨-, hafter⟩ := List.forall_mem_cons.mp hmore
  have hfunction : (g.tree.add .function name.text name.position).Traced base tokens :=
    h.add (.name hmem hname rfl) _
  have hlist := hfunction.add .list bracket.position
  have hparameters : Traces base tokens u (close :: rest') := by
    rcases parameters_cases hp with ⟨rfl, rfl⟩ | hp
    · exact ⟨hlist, hafter⟩
    · exact parametersFrom_traces hlist hafter hp
  exact ⟨(hparameters.tree.attach _ _).attach _ _,
    (List.forall_mem_cons.mp hparameters.rest).2⟩

theorem keyword_traces (h : g.tree.Traced base tokens) (hk : token.kind = .keyword)
    (ht : token ∈ tokens) (hr : ∀ u ∈ rest, u ∈ tokens)
    (hs : g.keyword eof token rest = .ok (g', rest')) : Traces base tokens g'.tree rest' := by
  have horigin : ∀ k tag, Keyword.ofText? token.text = some k → k.tag? = some tag →
      Origin tokens tag token.text :=
    fun k tag hofText htag => .keyword ht hk (Keyword.text_of_ofText? hofText).symm htag
  simp only [keyword] at hs
  split at hs
  · next hk' => exact withOperand_traces h (horigin _ _ hk' rfl) hr hs
  · next hk' => exact withOperand_traces h (horigin _ _ hk' rfl) hr hs
  · next hk' => exact withOperand_traces h (horigin _ _ hk' rfl) hr hs
  · next hk' => exact withOperand_traces h (horigin _ _ hk' rfl) hr hs
  · exact withName_traces h rfl hr hs
  · exact withName_traces h rfl hr hs
  · exact elseBranch_traces h hr hs
  · exact function_traces h hr hs
  · exact openBody_traces h hr hs
  · exact closeBody_traces h hr hs
  · cases hs

theorem nameStatement_traces (h : g.tree.Traced base tokens) (ht : token ∈ tokens)
    (hr : ∀ u ∈ rest, u ∈ tokens) (hs : g.nameStatement eof token rest = .ok (g', rest')) :
    Traces base tokens g'.tree rest' := by
  have hall := List.forall_mem_cons.mpr ⟨ht, hr⟩
  have hreads := Expr.read_reads .operand hall
  rcases nameStatement_cases hs with
    ⟨name, colon, after, hread, -, rfl, rfl⟩ | ⟨call, hread, -, rfl⟩
  · rw [hread] at hreads
    obtain ⟨hmade, htaken⟩ := hreads
    obtain ⟨hoperand, hrest⟩ := readOptional_traced fun u hu =>
      hall u (htaken.mem (List.mem_cons_of_mem _ hu))
    cases hmade with
    | get hname =>
      exact ⟨appendGuarded_traced (h.add (.name hname.2 hname.1 rfl) _) _ _ hoperand, hrest⟩
  · rw [hread] at hreads
    exact ⟨(h.graft call hreads.1).attach _ _, fun u hu => hall u (hreads.2.mem hu)⟩

theorem statement_traces (h : g.tree.Traced base tokens) (ht : token ∈ tokens)
    (hr : ∀ u ∈ rest, u ∈ tokens) (hs : g.statement eof token rest = .ok (g', rest')) :
    Traces base tokens g'.tree rest' := by
  simp only [statement] at hs
  split at hs
  · cases hs
    exact ⟨h.addUnder (.pass ht) _ _, hr⟩
  · next hk => exact keyword_traces h hk ht hr hs
  · exact nameStatement_traces h ht hr hs
  · cases hs

theorem grow_traced (h : g.tree.Traced base tokens) (hr : ∀ u ∈ rest, u ∈ tokens)
    (hs : grow eof g rest = .ok t) : t.Traced base tokens := by
  fun_induction grow eof g rest with
  | case1 =>
    cases hs
    exact h
  | case2 g token rest g' rest' hstep ih =>
    obtain ⟨htoken, hrest⟩ := List.forall_mem_cons.mp hr
    have htraces := statement_traces h htoken hrest hstep
    exact ih htraces.tree htraces.rest hs
  | case3 => cases hs

end Growth

/-- All that a program adds to a tree has its origin in the tokens of the program. -/
theorem grow_traced {u : Tree} (h : t.grow tokens = .ok u) : u.Traced t.size tokens := by
  refine Growth.grow_traced (g := ⟨t, root⟩) ?_ ?_ h
  · intro n hbase hn
    exact absurd hn (Nat.not_lt.mpr hbase)
  · exact fun u hu => (List.takeWhile_prefix _).subset hu

theorem GrowsTo.of_traced {Q : Tag → String → Prop} {u : Tree} (h : t.GrowsTo u)
    (hu : u.Traced t.size tokens) (ht : ∀ n < t.size, Q (t.tag n) (t.text n))
    (hnew : ∀ tag text, Origin tokens tag text → Q tag text) (n : NodeId) (hn : n < u.size) :
    Q (u.tag n) (u.text n) := by
  by_cases hold : n < t.size
  · rw [h.tag n hold, h.text n hold]
    exact ht n hold
  · exact hnew _ _ (hu n (Nat.le_of_not_lt hold) hn)

end Tree

end Arbor
