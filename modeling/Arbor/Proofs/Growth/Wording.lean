import Arbor.Proofs.Growth.Opened
import Arbor.Proofs.Growth.Shape
import Arbor.Proofs.Token.RoundTrip

/-!
# Growth keeps the words

Each statement adds the words that it takes, but for a condition `1` behind `else`. So a program is
known from the shape of its tree: two programs with the same shape have the same words up to such
conditions and to the braces right before the end.
-/
namespace Arbor.Tree

open Arbor.Expr (Stuck optionalWords)
open Token (Word withoutOnes)
open Shape (statements)

variable {t : Tree} {p r : NodeId} {words : List Word} {loose : List NodeId}

theorem Grove.hangOperand_shape {statement : NodeId} {tag : Tag} {text : String}
    (h : t.Grove (statement :: loose)) (hshape : t.shape statement = .node tag text [])
    (operand : Except Stuck Expr) : (t.hangOperand statement operand).shape statement =
      .node tag text (Expr.optionalShapes operand) := by
  have hlt : statement < t.size := h.top_lt _ (List.mem_cons_of_mem _ List.mem_cons_self)
  cases operand with
  | ok e =>
    have he := h.graft e
    have hmem : statement ∈ root :: statement :: loose :=
      List.mem_cons_of_mem _ List.mem_cons_self
    have hold := h.shape_of_stands he (graft_grafted t e).stands hlt
    have hhung := he.shape_hung hmem .refl (hold.trans hshape)
    rw [h.graft_shape e] at hhung
    exact hhung
  | error stuck =>
    obtain ⟨extra, hlitter⟩ := h.litter stuck
    exact (h.shape_of_stands hlitter (litter_stands t stuck) hlt).trans hshape

theorem Grove.graftCondition_shape (h : t.Grove loose) (position : Nat)
    (operand : Except Stuck Expr) : (t.graftCondition position operand).1.shape
      (t.graftCondition position operand).2 = Expr.conditionShape operand := by
  cases operand with
  | ok e => exact h.graft_shape e
  | error stuck =>
    obtain ⟨extra, hlitter⟩ := h.litter stuck
    exact (hlitter.add ..).shape_new

namespace Growth

variable {g g' : Growth} {eof token : Token} {rest rest' tokens : List Token} {tag : Tag}
  {text : String} {position : Nat}

/-- A statement adds the word of `token` and those of the tokens that it takes behind it, none of
which is a keyword. -/
def Adds (words : List Word) (token : Token) (rest : List Token) (g' : Growth)
    (rest' : List Token) : Prop :=
  ∃ taken, rest = taken ++ rest' ∧ (∀ t ∈ taken, t.kind ≠ .keyword) ∧
    g'.Worded (words ++ token.word :: taken.map Token.word)

theorem append_worded (h : g.Worded words) (hg : g.Rooted) (tag : Tag) (text : String)
    (position : Nat) : (g.append tag text position).Worded (words ++ tag.head text) := by
  obtain ⟨loose, hgrove⟩ := hg.grove
  have hadd := hgrove.add tag text position
  exact h.attach_bare hg hadd ((PrefixOf.refl g.tree).add ..) (Nat.le_refl _) hadd.shape_new

theorem appendGuarded_worded (h : g.Worded words) (hg : g.Rooted) (tag : Tag) (text : String)
    (position : Nat) (operand : Except Stuck Expr) :
    (appendGuarded g.scope (g.tree.add tag text position) g.tree.size operand).Worded
      (words ++ (tag.head text ++ optionalWords operand)) := by
  obtain ⟨loose, hgrove⟩ := hg.grove
  have hadd := hgrove.add tag text position
  obtain ⟨loose', hoperand⟩ := hadd.hangOperand operand
  have hstands := hangOperand_stands ((PrefixOf.refl g.tree).add tag text position)
    (Nat.le_refl _) operand
  have hshape := hadd.hangOperand_shape hadd.shape_new operand
  have hworded := h.attach hg hoperand hstands (Nat.le_refl _) (by
    rw [hshape, Expr.point_optional]
    exact Point.noConfusion)
  rw [hshape, Expr.statement_optional] at hworded
  rw [appendGuarded_eq]
  exact hworded

theorem withOperand_adds (h : g.Worded words) (hg : g.Rooted) (ht : ∀ t ∈ rest, t.Regular)
    (htag : tag.head token.text = [token.word])
    (hs : g.withOperand tag token rest = .ok (g', rest')) : Adds words token rest g' rest' := by
  obtain ⟨taken, htaken, hwords, hkinds, -⟩ := Expr.readOptional_words ht
  have hworded := appendGuarded_worded h hg tag token.text token.position
    (Expr.readOptional rest).1
  rw [htag, hwords] at hworded
  cases hs
  exact ⟨taken, htaken, hkinds, hworded⟩

theorem withName_adds (h : g.Worded words) (hg : g.Rooted)
    (htag : ∀ text, tag.head text = [token.word, (.name, text)])
    (hs : g.withName eof tag token rest = .ok (g', rest')) : Adds words token rest g' rest' := by
  obtain ⟨name, rfl, hkind, rfl⟩ := withName_cases hs
  have hword := Token.word_eq hkind
  have hworded := append_worded h hg tag name.text name.position
  rw [htag] at hworded
  refine ⟨[name], rfl, ?_, ?_⟩
  · intro t ht
    rw [List.mem_singleton.mp ht, hkind]
    decide
  · rw [List.map_singleton, hword]
    exact hworded

theorem addUnder_shape {children : List Shape} {tag' : Tag} {text' : String} (h : t.Grove loose)
    (hr : r ∈ root :: loose) (hp : t.Under r p) (hshape : t.shape p = .node tag text children) :
    (t.addUnder p tag' text' position).shape p =
      .node tag text (children ++ [.node tag' text' []]) := by
  have hadd := h.add tag' text' position
  have hstands := (PrefixOf.refl t).add tag' text' position
  have hlt : p < t.size := hp.lt (h.top_lt r hr)
  have hold := h.shape_of_stands hadd hstands hlt
  rw [hshape] at hold
  have hhung := hadd.shape_hung hr (hstands.under hp) hold
  rw [hadd.shape_new] at hhung
  exact hhung

def parameter (name : String) : Shape := .node .store name []

theorem parameter_expression (name : String) : (parameter name).expression = [(.name, name)] := by
  simp [parameter, Shape.expression, Shape.expressions]

inductive Listed : List Token → List String → Prop where
  | last {p : Token} : p.kind = .name → Listed [p] [p.text]
  | more {p c : Token} {taken : List Token} {names : List String} : p.kind = .name →
      c.kind = .comma → Listed taken names → Listed (p :: c :: taken) (p.text :: names)

theorem Listed.kinds {taken : List Token} {names : List String} (h : Listed taken names) :
    ∀ t ∈ taken, t.kind ≠ .keyword := by
  induction h with
  | last hp => exact List.forall_mem_singleton.mpr (by rw [hp]; decide)
  | more hp hc _ ih =>
    refine List.forall_mem_cons.mpr ⟨by rw [hp]; decide, ?_⟩
    exact List.forall_mem_cons.mpr ⟨by rw [hc]; decide, ih⟩

theorem Listed.words_eq {taken : List Token} {names : List String} (h : Listed taken names)
    (ht : ∀ t ∈ taken, t.Regular) : taken.map Token.word =
      [Word.comma].intercalate ((names.map parameter).map Shape.expression) := by
  induction h with
  | last hp =>
    rw [List.map_singleton, List.map_singleton, List.map_singleton, Token.word_eq hp,
      parameter_expression]
    rfl
  | @more p c taken names hp hc hmore ih =>
    obtain ⟨-, hbehind⟩ := List.forall_mem_cons.mp ht
    obtain ⟨hcomma, hrest⟩ := List.forall_mem_cons.mp hbehind
    have hne : names ≠ [] := by
      rintro rfl
      cases hmore
    obtain ⟨name, names, rfl⟩ := List.exists_cons_of_ne_nil hne
    rw [List.map_cons, List.map_cons, ih hrest, Token.word_eq hp, hcomma.comma hc, List.map_cons,
      List.map_cons, List.map_cons, List.map_cons, parameter_expression]
    rfl

theorem parametersFrom_shape {t' : Tree} {list : NodeId} {children : List Shape}
    (h : t.Grove loose) (hr : r ∈ root :: loose) (hlist : t.Under r list)
    (hshape : t.shape list = .node tag text children)
    (hp : parametersFrom eof list t tokens = .ok (t', rest)) :
    ∃ taken names, tokens = taken ++ rest ∧ Listed taken names ∧
      t'.shape list = .node tag text (children ++ names.map parameter) := by
  fun_induction parametersFrom eof list t tokens generalizing children with
  | case1 t p hk tree c more hc =>
    rename_i ih
    have hfree : (t.add .store p.text p.position).parent t.size = none := parent_new
    have hunder := (((PrefixOf.refl t).add .store p.text p.position).under hlist).attach
      (p := list) hfree
    obtain ⟨taken, names, rfl, hnames, hshape'⟩ := ih (h.addUnder hr hlist ..) hunder
      (addUnder_shape h hr hlist hshape) hp
    refine ⟨p :: c :: taken, p.text :: names, rfl, .more hk hc hnames, ?_⟩
    rw [hshape', List.append_assoc]
    rfl
  | case2 t p hk tree c more =>
    obtain ⟨rfl, rfl⟩ := Prod.mk.inj (Except.ok.inj hp)
    exact ⟨[p], [p.text], rfl, .last hk, addUnder_shape h hr hlist hshape⟩
  | case3 t p hk =>
    obtain ⟨rfl, rfl⟩ := Prod.mk.inj (Except.ok.inj hp)
    exact ⟨[p], [p.text], rfl, .last hk, addUnder_shape h hr hlist hshape⟩
  | case4 => cases hp
  | case5 => cases hp

theorem function_shape {name : String} {position position' : Nat} {u : Tree} (h : t.Grove loose)
    (ht : ∀ t ∈ tokens, t.Regular) (hp : parameters eof (t.size + 1)
      ((t.add .function name position).add .arguments "arg" position') tokens = .ok (u, rest)) :
    ∃ taken, ∃ names : List String, tokens = taken ++ rest ∧ (∀ t ∈ taken, t.kind ≠ .keyword) ∧
      taken.map Token.word =
        [Word.comma].intercalate ((names.map parameter).map Shape.expression) ∧
      (u.attach t.size (t.size + 1)).shape t.size =
        .node .function name [.node .arguments "arg" (names.map parameter)] := by
  have hfunction := h.add .function name position
  have hlist := hfunction.add .arguments "arg" position'
  have hbare := hlist.shape_new
  rw [size_add] at hlist hbare
  have hmem : t.size + 1 ∈ root :: (t.size + 1) :: t.size :: loose :=
    List.mem_cons_of_mem _ List.mem_cons_self
  have hall := (list_beside hp).grove hfunction
  have hold := hfunction.shape_of_stands hall (list_beside hp).stands lt_size_add
  rw [hfunction.shape_new] at hold
  have hhung := hall.shape_hung (List.mem_cons_of_mem _ List.mem_cons_self) .refl hold
  rcases parameters_cases hp with ⟨rfl, rfl⟩ | hp
  · refine ⟨[], [], rfl, List.forall_mem_nil _, rfl, ?_⟩
    rw [hhung, hbare]
    rfl
  · obtain ⟨taken, names, rfl, hnames, hshape⟩ :=
      parametersFrom_shape hlist hmem .refl hbare hp
    refine ⟨taken, names, rfl, hnames.kinds, hnames.words_eq fun t hm => ht t ?_, ?_⟩
    · exact List.mem_append_left _ hm
    · rw [hhung, hshape]
      rfl

theorem function_adds (h : g.Worded words) (hg : g.Rooted) (ht : ∀ t ∈ rest, t.Regular)
    (htoken : token.word = .keyword .function) (hs : g.function eof rest = .ok (g', rest')) :
    Adds words token rest g' rest' := by
  obtain ⟨loose, hgrove⟩ := hg.grove
  obtain ⟨name, bracket, close, after, u, rfl, hname, hbracket, hclose, hp, rfl⟩ :=
    function_cases hs
  obtain ⟨-, hbehind⟩ := List.forall_mem_cons.mp ht
  obtain ⟨hopening, hafter⟩ := List.forall_mem_cons.mp hbehind
  obtain ⟨taken, names, rfl, hkinds, hwords, hshape⟩ := function_shape hgrove hafter hp
  have hclosing : close.Regular := hafter close (List.mem_append_right _ List.mem_cons_self)
  have hworded := h.attach_operand hg ((function_beside hp).grove hgrove)
    (function_beside hp).stands (Nat.le_refl _) hshape (by rw [Shape.tag_node]; decide)
  refine ⟨name :: bracket :: (taken ++ [close]), by simp, ?_, ?_⟩
  · refine List.forall_mem_cons.mpr ⟨by rw [hname]; decide, ?_⟩
    refine List.forall_mem_cons.mpr ⟨by rw [hbracket]; decide, ?_⟩
    refine List.forall_mem_append.mpr ⟨hkinds, ?_⟩
    exact List.forall_mem_singleton.mpr (by rw [hclose]; decide)
  · rw [Shape.expression, Shape.expressions_eq_map, ← hwords] at hworded
    rw [htoken, List.map_cons, List.map_cons, List.map_append, List.map_singleton,
      Token.word_eq hname, hopening.opening hbracket, hclosing.closing hclose]
    exact hworded

theorem name_taken {name : Token} {taken after : List Token} (htaken : token :: rest =
    taken ++ after) (hwords : (Expr.get name).words = taken.map Token.word) :
    rest = after ∧ token.word = (.name, name.text) := by
  rw [Expr.words_get] at hwords
  match taken with
  | [] => cases hwords
  | [t] =>
    obtain ⟨rfl, rfl⟩ := List.cons.inj htaken
    exact ⟨rfl, (List.cons.inj hwords).1.symm⟩
  | _ :: _ :: _ =>
    have hlength := congrArg List.length hwords
    simp at hlength

theorem call_worded (h : g.Worded words) (hg : g.Rooted) (name bracket : Token)
    (arguments : List Expr) :
    Worded ⟨(g.tree.graft (.call name bracket arguments)).1.attach g.scope
      (g.tree.graft (.call name bracket arguments)).2, g.scope⟩
      (words ++ (Expr.call name bracket arguments).words) := by
  obtain ⟨loose, hgrove⟩ := hg.grove
  have hgrafted := graft_grafted g.tree (.call name bracket arguments)
  have hshape := hgrove.graft_shape (.call name bracket arguments)
  rw [Expr.shape] at hshape
  have hlisted : (Shape.node .arguments "arg" (Expr.shapes arguments)).tag ≠ .body := by
    rw [Shape.tag_node]
    decide
  have hworded := h.attach_operand hg (hgrove.graft _) hgrafted.stands hgrafted.new hshape hlisted
  rw [← Shape.statement_operand hlisted, Shape.statement_call hlisted] at hworded
  exact hworded

theorem nameStatement_adds (h : g.Worded words) (hg : g.Rooted) (hk : token.kind = .name)
    (ht : ∀ t ∈ token :: rest, t.Regular) (hs : g.nameStatement eof token rest = .ok (g', rest')) :
    Adds words token rest g' rest' := by
  rcases nameStatement_cases hs with
    ⟨name, colon, after, hread, hassign, rfl, rfl⟩ | ⟨call, hread, hcall, rfl⟩
  · obtain ⟨taken, htaken, hwords, -⟩ := Expr.read_words ht hread
    obtain ⟨rfl, hname⟩ := name_taken htaken hwords
    obtain ⟨-, hrest⟩ := List.forall_mem_cons.mp ht
    obtain ⟨hcolon, hafter⟩ := List.forall_mem_cons.mp hrest
    obtain ⟨taken', htaken', hwords', hkinds', -⟩ := Expr.readOptional_words hafter
    have hworded := appendGuarded_worded h hg .store name.text name.position
      (Expr.readOptional after).1
    refine ⟨colon :: taken', congrArg (colon :: ·) htaken', ?_, ?_⟩
    · exact List.forall_mem_cons.mpr ⟨by rw [hassign]; decide, hkinds'⟩
    · rw [hname, List.map_cons, hcolon.assign hassign, ← hwords']
      exact hworded
  · obtain ⟨taken, htaken, hwords, hkinds, -⟩ := Expr.read_words ht hread
    obtain ⟨bracket, arguments, rfl⟩ := (read_operand_cases hk hread).resolve_left (hcall token)
    have hworded := call_worded h hg token bracket arguments
    rw [hwords] at hworded
    cases taken with
    | nil => exact absurd hwords (Expr.words_ne_nil _)
    | cons t taken =>
      obtain ⟨rfl, rfl⟩ := List.cons.inj htaken
      exact ⟨taken, rfl, (List.forall_mem_cons.mp hkinds).2, hworded⟩

/-- The words that are taken of `tokens` are added, but for a condition `1` behind `else`. -/
def Keeps (words : List Word) (tokens : List Token) (g' : Growth) (rest' : List Token) : Prop :=
  rest' <:+ tokens ∧ ∃ new, g'.Worded (words ++ new) ∧
    withoutOnes (tokens.map Token.word) = new ++ withoutOnes (rest'.map Token.word)

theorem Adds.keeps (h : Adds words token rest g' rest')
    (htoken : token.word ≠ .keyword .otherwise) : Keeps words (token :: rest) g' rest' := by
  obtain ⟨taken, rfl, hkinds, hworded⟩ := h
  refine ⟨⟨token :: taken, rfl⟩, _, hworded, ?_⟩
  have hplain : ∀ w ∈ taken.map Token.word, w ≠ .keyword .otherwise := by
    rintro w hw rfl
    obtain ⟨t, ht, hword⟩ := List.mem_map.mp hw
    exact hkinds t ht (congrArg Prod.fst hword)
  rw [List.map_cons, Token.withoutOnes_cons htoken, List.map_append,
    Token.withoutOnes_append hplain, List.cons_append]

theorem head_map_word {kind : Token.Kind} (h : ∀ t ∈ tokens.head?, t.kind ≠ kind) :
    ∀ w ∈ (tokens.map Token.word).head?, w.1 ≠ kind := by
  intro w hw
  rw [List.head?_map] at hw
  obtain ⟨t, ht, rfl⟩ := Option.map_eq_some_iff.mp hw
  exact h t ht

theorem further_worded (h : g.Worded words) (hg : g.Rooted) {branch : NodeId}
    (hparent : g.tree.parent g.scope = some branch) (position : Nat)
    (operand : Except Stuck Expr) : (g.further branch position operand).Worded
      (words ++ (Expr.conditionShape operand).guard) := by
  obtain ⟨loose, hgrove⟩ := hg.grove
  have hbody := hgrove.add .body "body" position
  obtain ⟨loose', hcondition⟩ := hbody.graftCondition position operand
  have hgrafted := graftCondition_grafted (g.tree.add .body "body" position) position operand
  have hshape := hbody.graftCondition_shape position operand
  have hworded := h.further hg hparent hcondition hgrafted.stands
    (lt_size_add.le.trans hgrafted.new) (by rw [hshape]; exact Expr.conditionShape_tag operand)
  rw [hshape] at hworded
  exact hworded

theorem elseBranch_keeps (h : g.Worded words) (hg : g.Rooted) (ht : ∀ t ∈ rest, t.Regular)
    (htoken : token.word = .keyword .otherwise) (hs : g.elseBranch token rest = .ok (g', rest'))
    (hnext : ∀ t ∈ rest'.head?, t.kind ≠ .number) : Keeps words (token :: rest) g' rest' := by
  obtain ⟨branch, hparent, -, rfl, rfl⟩ := elseBranch_cases hs
  obtain ⟨taken, htaken, hwords, hkinds, hend⟩ := Expr.readOptional_words ht
  have hworded := further_worded h hg hparent token.position (Expr.readOptional rest).1
  refine ⟨⟨token :: taken, congrArg (token :: ·) htaken.symm⟩, _, hworded, ?_⟩
  rw [List.map_cons, htoken]
  nth_rewrite 1 [htaken]
  rw [List.map_append, ← hwords]
  cases hread : (Expr.readOptional rest).1 with
  | ok e =>
    rw [hread] at hwords
    have hwords : e.words = taken.map Token.word := hwords
    have hplain : ∀ w ∈ e.words, w.1 ≠ .keyword := by
      intro w hw
      rw [hwords] at hw
      obtain ⟨t, ht, rfl⟩ := List.mem_map.mp hw
      exact hkinds t ht
    exact Token.withoutOnes_condition hplain e.words_ne_nil (fun _ => e.words_number)
      (head_map_word (hend e hread))
  | error stuck => exact Token.withoutOnes_bare (head_map_word hnext)

theorem keyword_keeps (h : g.Worded words) (hg : g.Rooted) (hk : token.kind = .keyword)
    (ht : ∀ t ∈ rest, t.Regular) (hs : g.keyword eof token rest = .ok (g', rest'))
    (hnext : ∀ t ∈ rest'.head?, t.kind ≠ .number) : Keeps words (token :: rest) g' rest' := by
  simp only [keyword] at hs
  cases hkeyword : Keyword.ofText? token.text with
  | none =>
    rw [hkeyword] at hs
    cases hs
  | some k =>
    have hword : token.word = .keyword k := by
      rw [Token.word_eq hk, ← Keyword.text_of_ofText? hkeyword]
      rfl
    have hplain : k ≠ .otherwise → token.word ≠ .keyword .otherwise := by
      rintro hne hotherwise
      have htext := congrArg (Keyword.ofText? ·.2) (hword.symm.trans hotherwise)
      simp only [Word.keyword, Keyword.ofText?_text] at htext
      exact hne (Option.some.inj htext)
    have hoperand : ∀ {tag : Tag}, tag.head token.text = [(.keyword, token.text)] →
        g.withOperand tag token rest = .ok (g', rest') → k ≠ .otherwise →
        Keeps words (token :: rest) g' rest' := by
      intro tag htag hs hne
      refine (withOperand_adds h hg ht ?_ hs).keeps (hplain hne)
      rw [htag, Token.word_eq hk]
    rw [hkeyword] at hs
    cases k with
    | otherwise => exact elseBranch_keeps h hg ht hword hs hnext
    | openBody =>
      obtain rfl := openBody_rest hs
      refine ⟨List.suffix_cons _ _, _, openBody_worded h hg hs, ?_⟩
      rw [List.map_cons, hword, Token.withoutOnes_cons (by decide)]
      rfl
    | closeBody =>
      obtain rfl := closeBody_rest hs
      refine ⟨List.suffix_cons _ _, _, closeBody_worded h hg hs, ?_⟩
      rw [List.map_cons, hword, Token.withoutOnes_cons (by decide)]
      rfl
    | function => exact (function_adds h hg ht hword hs).keeps (hplain (by decide))
    | remove =>
      refine (withName_adds h hg (fun text => ?_) hs).keeps (hplain (by decide))
      rw [hword]
      rfl
    | input =>
      refine (withName_adds h hg (fun text => ?_) hs).keeps (hplain (by decide))
      rw [hword]
      rfl
    | branch => exact hoperand rfl hs (by decide)
    | loop => exact hoperand rfl hs (by decide)
    | output => exact hoperand rfl hs (by decide)
    | giveBack => exact hoperand rfl hs (by decide)

theorem statement_keeps (h : g.Worded words) (hg : g.Rooted) (ht : ∀ t ∈ token :: rest, t.Regular)
    (hs : g.statement eof token rest = .ok (g', rest'))
    (hnext : ∀ t ∈ rest'.head?, t.kind ≠ .number) : Keeps words (token :: rest) g' rest' := by
  have hrest := (List.forall_mem_cons.mp ht).2
  have hplain : token.kind ≠ .keyword → token.word ≠ .keyword .otherwise :=
    fun hk hword => hk (congrArg Prod.fst hword)
  simp only [statement] at hs
  split at hs
  · next hk =>
    cases hs
    refine ⟨List.suffix_cons _ _, _, append_worded h hg .pass token.text token.position, ?_⟩
    rw [List.map_cons, Token.withoutOnes_cons (hplain (by rw [hk]; decide)), Token.word_eq hk]
    rfl
  · next hk => exact keyword_keeps h hg hk hrest hs hnext
  · next hk =>
    exact (nameStatement_adds h hg hk ht hs).keeps (hplain (by rw [hk]; decide))
  · cases hs

theorem statement_kind (hs : g.statement eof token rest = .ok (g', rest')) :
    token.kind ≠ .number := by
  intro hk
  rw [statement, hk] at hs
  cases hs

theorem grow_head_kind (h : grow eof g tokens = .ok t) : ∀ u ∈ tokens.head?, u.kind ≠ .number := by
  intro u hu
  cases tokens with
  | nil => cases hu
  | cons token rest =>
    cases hu
    rw [grow] at h
    split at h
    · next hs => exact statement_kind hs
    · cases h

/-- A program adds its words, but for conditions `1` behind `else`. -/
theorem grow_worded (h : g.Worded words) (hg : g.Rooted) (ht : ∀ t ∈ tokens, t.Regular)
    (hgrow : grow eof g tokens = .ok t) :
    ∃ scope, Worded ⟨t, scope⟩ (words ++ withoutOnes (tokens.map Token.word)) := by
  fun_induction grow eof g tokens generalizing words with
  | case1 g =>
    cases hgrow
    refine ⟨g.scope, ?_⟩
    have hnone : withoutOnes [] = [] := rfl
    rw [List.map_nil, hnone, List.append_nil]
    exact h
  | case2 g token rest g' rest' hs ih =>
    obtain ⟨hsuffix, new, hworded, hwords⟩ := statement_keeps h hg ht hs (grow_head_kind hgrow)
    rw [hwords, ← List.append_assoc]
    exact ih hworded (statement_rooted hg hs) (fun t hm => ht t (hsuffix.mem hm)) hgrow
  | case3 => cases hgrow

end Growth

end Arbor.Tree
