import Arbor.Proofs.Growth.Shape
import Arbor.Proofs.Token.Located

/-!
# What growth refuses

A step takes no keyword but its own. Where it fails it blames one of the tokens that were offered,
and neither a keyword that it does not know nor a body that hangs nowhere: the scan gives known
keywords only, and between two statements the open body always hangs on a statement in a body.
-/
namespace Arbor

def Fault.Blames (offered : List Token) (f : Fault) : Prop :=
  ∃ why found, f = .misplaced why found ∧ f.kind = .grammar ∧ found ∈ offered

theorem Fault.Blames.mono {offered more : List Token} {f : Fault} (h : f.Blames offered)
    (hsub : ∀ t ∈ offered, t ∈ more) : f.Blames more := by
  obtain ⟨why, found, hf, hkind, hfound⟩ := h
  exact ⟨why, found, hf, hkind, hsub found hfound⟩

namespace Tree

namespace Growth

variable {P : String → Nat → Prop} {g g' : Growth} {eof token : Token}
  {offered tokens rest rest' : List Token} {tree : Tree} {tag : Tag} {list : NodeId}

/-- What ends well has taken no keyword from `tokens`, and `left` reads off what it left; what ends
early blames an offered token. -/
def Orderly {α : Type} (offered tokens : List Token) (left : α → List Token) :
    Except Stunted α → Prop
  | .ok a => Taken tokens (left a)
  | .error stunted => stunted.fault.Blames offered

theorem Orderly.after {α : Type} {left : α → List Token} {x : Except Stunted α}
    (h : Taken tokens rest) (hx : Orderly offered rest left x) : Orderly offered tokens left x := by
  cases x with
  | error stunted => exact hx
  | ok a => exact h.trans hx

theorem Orderly.bind {α β : Type} {left : α → List Token} {left' : β → List Token}
    {x : Except Stunted α} {f : α → Except Stunted β} (hx : Orderly offered tokens left x)
    (hf : ∀ a, Taken tokens (left a) → Orderly offered (left a) left' (f a)) :
    Orderly offered tokens left' (x >>= f) := by
  cases x with
  | error stunted => exact hx
  | ok a =>
    have htaken : Taken tokens (left a) := hx
    exact (hf a htaken).after htaken

theorem refuse_orderly {why : Misplacement} (hwhy : (Fault.misplaced why token).kind = .grammar)
    (ht : token ∈ offered) (g : Growth) : Orderly offered tokens Prod.snd (g.refuse why token) :=
  ⟨why, token, rfl, hwhy, ht⟩

theorem expect_orderly {kind : Token.Kind} {why : Misplacement} (hkind : kind ≠ .keyword)
    (hwhy : ∀ t, (Fault.misplaced why t).kind = .grammar) (heof : eof ∈ offered)
    (htokens : ∀ t ∈ tokens, t ∈ offered) (tree : Tree) :
    Orderly offered tokens Prod.snd (expect eof kind why tree tokens) := by
  cases tokens with
  | nil => exact ⟨why, eof, rfl, hwhy eof, heof⟩
  | cons t rest =>
    rw [expect]
    split
    · next hk => exact (Taken.refl rest).cons (hk ▸ hkind)
    · exact ⟨why, t, rfl, hwhy t, htokens t List.mem_cons_self⟩

theorem parametersFrom_orderly (heof : eof ∈ offered) (htokens : ∀ t ∈ tokens, t ∈ offered) :
    Orderly offered tokens Prod.snd (parametersFrom eof list tree tokens) := by
  fun_induction parametersFrom eof list tree tokens with
  | case1 tree p hp tree' c more hcomma ih =>
    have htaken : Taken (p :: c :: more) more :=
      ((Taken.refl more).cons (by rw [hcomma]; decide)).cons (by rw [hp]; decide)
    exact (ih fun t ht => htokens t (htaken.mem ht)).after htaken
  | case2 tree p hp tree' c more hcomma =>
    exact (Taken.refl (c :: more)).cons (by rw [hp]; decide)
  | case3 tree p hp tree' =>
    exact (Taken.refl []).cons (by rw [hp]; decide)
  | case4 tree p rest hp =>
    exact ⟨.noParameter, p, rfl, rfl, htokens p List.mem_cons_self⟩
  | case5 tree => exact ⟨.noParameter, eof, rfl, rfl, heof⟩

theorem parameters_orderly (heof : eof ∈ offered) (htokens : ∀ t ∈ tokens, t ∈ offered) :
    Orderly offered tokens Prod.snd (parameters eof list tree tokens) := by
  simp only [parameters]
  split
  · exact Taken.refl tokens
  · exact parametersFrom_orderly heof htokens

theorem function_orderly (heof : eof ∈ offered) (htokens : ∀ t ∈ tokens, t ∈ offered)
    (g : Growth) : Orderly offered tokens Prod.snd (g.function eof tokens) := by
  simp only [function]
  apply (expect_orderly (by decide) (fun _ => rfl) heof htokens _).bind
  intro name hname
  have hname' := fun t ht => htokens t (hname.mem ht)
  apply (expect_orderly (by decide) (fun _ => rfl) heof hname' _).bind
  intro bracket hbracket
  have hbracket' := fun t ht => hname' t (hbracket.mem ht)
  apply (parameters_orderly heof hbracket').bind
  intro after hafter
  have hafter' := fun t ht => hbracket' t (hafter.mem ht)
  apply (expect_orderly (by decide) (fun _ => rfl) heof hafter' _).bind
  intro close _
  exact Taken.refl close.2

theorem withOperand_orderly (g : Growth) (tag : Tag) (token : Token) (tokens : List Token) :
    Orderly offered tokens Prod.snd (g.withOperand tag token tokens) :=
  (@Expr.readOptional_reads (fun _ => True) tokens fun _ _ => trivial).2

theorem withName_orderly (heof : eof ∈ offered) (htokens : ∀ t ∈ tokens, t ∈ offered)
    (g : Growth) (tag : Tag) (token : Token) :
    Orderly offered tokens Prod.snd (g.withName eof tag token tokens) := by
  simp only [withName]
  apply (expect_orderly (by decide) (fun _ => rfl) heof htokens _).bind
  intro name _
  exact Taken.refl name.2

theorem elseBranch_orderly (ht : token ∈ offered) (g : Growth) (tokens : List Token) :
    Orderly offered tokens Prod.snd (g.elseBranch token tokens) := by
  rw [elseBranch]
  split
  · exact refuse_orderly rfl ht g
  · exact (@Expr.readOptional_reads (fun _ => True) tokens fun _ _ => trivial).2

theorem openBody_orderly (ht : token ∈ offered) (g : Growth) (tokens : List Token) :
    Orderly offered tokens Prod.snd (g.openBody token tokens) := by
  rw [openBody]
  split
  · exact refuse_orderly rfl ht g
  · exact Taken.refl tokens

theorem closeBody_orderly (ht : token ∈ offered) (hg : g.Shaped P) (tokens : List Token) :
    Orderly offered tokens Prod.snd (g.closeBody token tokens) := by
  rw [closeBody]
  split
  · exact refuse_orderly rfl ht g
  · next hroot =>
    -- an open body other than the root has a body around it
    rcases hg.scope_cases with hscope | ⟨owner, enclosing, howner, henclosing, _⟩
    · exact absurd hscope hroot
    · rw [howner, Option.bind_some, henclosing]
      exact Taken.refl tokens

theorem keyword_orderly (hk : (Keyword.ofText? token.text).isSome = true) (ht : token ∈ offered)
    (heof : eof ∈ offered) (htokens : ∀ t ∈ tokens, t ∈ offered) (hg : g.Shaped P) :
    Orderly offered tokens Prod.snd (g.keyword eof token tokens) := by
  rw [keyword]
  split
  iterate 4 exact withOperand_orderly ..
  iterate 2 exact withName_orderly heof htokens ..
  · exact elseBranch_orderly ht ..
  · exact function_orderly heof htokens g
  · exact openBody_orderly ht ..
  · exact closeBody_orderly ht hg tokens
  · next hnone =>
    rw [hnone] at hk
    cases hk

theorem nameStatement_orderly (ht : token ∈ offered) (heof : eof ∈ offered)
    (htokens : ∀ t ∈ tokens, t ∈ offered) (g : Growth) :
    Orderly offered tokens Prod.snd (g.nameStatement eof token tokens) := by
  have hreads := @Expr.read_reads (fun _ => True) (token :: tokens) .operand fun _ _ => trivial
  have hoffered : ∀ t ∈ token :: tokens, t ∈ offered := List.forall_mem_cons.mpr ⟨ht, htokens⟩
  -- a reading that goes on takes the name itself first
  have hrest : ∀ {e after}, Expr.read .operand (token :: tokens) = .ok (e, after) →
      Taken tokens after := by
    intro e after hread
    rw [hread] at hreads
    obtain ⟨taken, hsplit, hkinds⟩ := hreads.2
    have hlength := Expr.read_length hread
    cases taken with
    | nil =>
      rw [List.nil_append] at hsplit
      rw [← hsplit] at hlength
      exact absurd hlength (Nat.lt_irrefl _)
    | cons first taken =>
      rw [List.cons_append] at hsplit
      exact ⟨taken, List.tail_eq_of_cons_eq hsplit, fun t hm => hkinds t (List.mem_cons_of_mem _ hm)⟩
  simp only [nameStatement]
  split
  · next stuck hread =>
    rw [hread] at hreads
    refine ⟨.noCall, _, rfl, rfl, ?_⟩
    cases hstuck : stuck.tokens with
    | nil => exact heof
    | cons t more =>
      apply hoffered
      apply hreads.2.mem
      rw [hstuck]
      exact List.mem_cons_self
  · next name after hread =>
    have hafter := hrest hread
    have hafter' := fun t ht => htokens t (hafter.mem ht)
    apply Orderly.after hafter
    apply (expect_orderly (by decide) (fun _ => rfl) heof hafter' _).bind
    intro colon _
    exact (@Expr.readOptional_reads (fun _ => True) colon.2 fun _ _ => trivial).2
  · next hread => exact hrest hread

theorem statement_orderly (hkeyword : token.kind = .keyword →
      (Keyword.ofText? token.text).isSome = true)
    (hg : g.Shaped P) (eof : Token) (rest : List Token) :
    Orderly (eof :: token :: rest) rest Prod.snd (g.statement eof token rest) := by
  have heof : eof ∈ eof :: token :: rest := List.mem_cons_self
  have ht : token ∈ eof :: token :: rest := List.mem_cons_of_mem _ List.mem_cons_self
  have hrest : ∀ t ∈ rest, t ∈ eof :: token :: rest := fun t hm =>
    List.mem_cons_of_mem _ (List.mem_cons_of_mem _ hm)
  simp only [statement]
  split
  · exact Taken.refl rest
  · next hk => exact keyword_orderly (hkeyword hk) ht heof hrest hg
  · exact nameStatement_orderly ht heof hrest g
  · exact refuse_orderly rfl ht g

def Comes (P : String → Nat → Prop) (offered : List Token) : Except Stunted Tree → Prop
  | .ok t => t.Formed P
  | .error stunted => stunted.fault.Blames offered

theorem Comes.mono {more : List Token} {x : Except Stunted Tree} (h : Comes P offered x)
    (hsub : ∀ t ∈ offered, t ∈ more) : Comes P more x := by
  cases x with
  | ok t => exact h
  | error stunted => exact Fault.Blames.mono h hsub

theorem grow_comes (hg : g.Shaped P) (ht : ∀ t ∈ tokens, Displayed P t)
    (hkeyword : ∀ t ∈ tokens, t.kind = .keyword → (Keyword.ofText? t.text).isSome = true) :
    Comes P (eof :: tokens) (grow eof g tokens) := by
  fun_induction grow eof g tokens with
  | case1 => exact hg.formed
  | case2 g token rest g' rest' hs ih =>
    obtain ⟨hdisplayed, hrest⟩ := List.forall_mem_cons.mp ht
    obtain ⟨hk, hkrest⟩ := List.forall_mem_cons.mp hkeyword
    have hstep := statement_orderly hk hg eof rest
    rw [hs] at hstep
    have htaken : Taken rest rest' := hstep
    have hcomes := ih (statement_shaped hg hdisplayed hrest hs)
      (fun t hm => hrest t (htaken.mem hm)) (fun t hm => hkrest t (htaken.mem hm))
    refine hcomes.mono fun t hm => ?_
    rcases List.mem_cons.mp hm with rfl | hm
    · exact List.mem_cons_self
    · exact List.mem_cons_of_mem _ (List.mem_cons_of_mem _ (htaken.mem hm))
  | case3 g token rest stunted hs =>
    obtain ⟨hk, _⟩ := List.forall_mem_cons.mp hkeyword
    have hstep := statement_orderly hk hg eof rest
    rw [hs] at hstep
    exact hstep

/-- What ends early blames a token for where it stands, whatever tree it was given. -/
def Misplaces {α : Type} : Except Stunted α → Prop
  | .ok _ => True
  | .error stunted => ∃ why found, stunted.fault = .misplaced why found

theorem Misplaces.bind {α β : Type} {x : Except Stunted α} {f : α → Except Stunted β}
    (hx : Misplaces x) (hf : ∀ a, Misplaces (f a)) : Misplaces (x >>= f) := by
  cases x with
  | error stunted => exact hx
  | ok a => exact hf a

theorem refuse_misplaces (g : Growth) (why : Misplacement) (found : Token) :
    Misplaces (g.refuse why found) :=
  ⟨why, found, rfl⟩

theorem expect_misplaces (eof : Token) (kind : Token.Kind) (why : Misplacement) (tree : Tree)
    (tokens : List Token) : Misplaces (expect eof kind why tree tokens) := by
  cases tokens with
  | nil => exact ⟨why, eof, rfl⟩
  | cons t rest =>
    rw [expect]
    split
    · trivial
    · exact ⟨why, t, rfl⟩

theorem parameters_misplaces (eof : Token) (list : NodeId) (tree : Tree) (tokens : List Token) :
    Misplaces (parameters eof list tree tokens) := by
  have hfrom : Misplaces (parametersFrom eof list tree tokens) := by
    fun_induction parametersFrom eof list tree tokens with
    | case1 tree p more hname tree' c hcomma ih => exact ih
    | case2 => trivial
    | case3 => trivial
    | case4 tree p rest => exact ⟨_, p, rfl⟩
    | case5 => exact ⟨_, eof, rfl⟩
  unfold parameters
  split
  · trivial
  · exact hfrom

theorem function_misplaces (g : Growth) (eof : Token) (rest : List Token) :
    Misplaces (g.function eof rest) := by
  refine .bind (expect_misplaces ..) fun _ => .bind (expect_misplaces ..) fun _ => ?_
  exact .bind (parameters_misplaces ..) fun _ => .bind (expect_misplaces ..) fun _ => trivial

theorem keyword_misplaces (g : Growth) (eof t : Token) (rest : List Token) :
    Misplaces (g.keyword eof t rest) := by
  unfold keyword
  split
  iterate 4 exact trivial
  iterate 2 exact .bind (expect_misplaces ..) fun _ => trivial
  · unfold elseBranch
    split
    · exact refuse_misplaces ..
    · trivial
  · exact function_misplaces ..
  · unfold openBody
    split
    · exact refuse_misplaces ..
    · trivial
  · unfold closeBody
    split
    · exact refuse_misplaces ..
    split
    · trivial
    · exact refuse_misplaces ..
  · exact refuse_misplaces ..

theorem statement_misplaces (g : Growth) (eof t : Token) (rest : List Token) :
    Misplaces (g.statement eof t rest) := by
  unfold statement
  split
  · trivial
  · exact keyword_misplaces ..
  · unfold nameStatement
    split
    · exact ⟨_, _, rfl⟩
    · exact .bind (expect_misplaces ..) fun _ => trivial
    · trivial
  · exact refuse_misplaces ..

theorem grow_misplaces (g : Growth) (eof : Token) (tokens : List Token) :
    Misplaces (grow eof g tokens) := by
  fun_induction grow eof g tokens with
  | case1 => trivial
  | case2 g token rest g' rest' hs ih => exact ih
  | case3 g token rest stunted hs =>
    have hmisplaces := statement_misplaces g eof token rest
    rw [hs] at hmisplaces
    exact hmisplaces

end Growth

/-- A scanned program that is read onto a well formed tree gives a well formed tree, or a fault that
blames one of its tokens. -/
theorem grow_comes {P : String → Nat → Prop} {t : Tree} {loose : List NodeId} {source : String}
    {tokens : List Token} (ht : t.Formed P) (hg : t.Grove loose) (hroot : t.tag root = .root)
    (hscan : Token.scan source = .ok tokens)
    (hP : ∀ start text, Located source start text → P text start) :
    Growth.Comes P tokens (t.grow tokens) := by
  have hfrom := Token.scan_scanned source
  rw [hscan] at hfrom
  have hfrom : ∀ u ∈ tokens, Token.From source u := hfrom
  obtain ⟨lexemes, htokens, _⟩ := Token.scan_ends hscan
  have hshaped : Growth.Shaped P ⟨t, root⟩ := ⟨⟨⟨loose, hg⟩, .refl⟩, ht, by rw [hroot]; rfl⟩
  -- the end of the program is one of its tokens
  have heof : (tokens.find? (·.kind = .eof)).getD (eofAfter tokens) ∈ tokens := by
    cases hfind : tokens.find? (·.kind = .eof) with
    | some u => exact List.mem_of_find?_eq_some hfind
    | none =>
      have hend : Token.ending source.length ∈ tokens := by
        rw [htokens]
        exact List.mem_append_right _ List.mem_cons_self
      exact absurd (decide_eq_true rfl) (List.find?_eq_none.mp hfind _ hend)
  have hsub : ∀ u ∈ tokens.takeWhile (·.kind ≠ .eof), u ∈ tokens := fun u hu =>
    (List.takeWhile_prefix _).subset hu
  have hcomes := @Growth.grow_comes P ⟨t, root⟩
    ((tokens.find? (·.kind = .eof)).getD (eofAfter tokens)) (tokens.takeWhile (·.kind ≠ .eof))
    hshaped (fun u hu => hP _ _ (hfrom u (hsub u hu)).located)
    (fun u hu => (hfrom u (hsub u hu)).keyword)
  refine hcomes.mono fun u hu => ?_
  rcases List.mem_cons.mp hu with rfl | hu
  · exact heof
  · exact hsub u hu

theorem planted_formed (P : String → Nat → Prop) : planted.Formed P := by
  have hchildren : ∀ n, planted.children n = #[] := by
    intro n
    rw [planted, children_add, children_of_le (Nat.zero_le n)]
  have htag : ∀ n, planted.tag n = .root := by
    intro n
    rw [planted, tag_add]
    split
    · rfl
    · exact tag_of_le (Nat.zero_le n)
  constructor
  · intro n i c hc
    have hmem := mem_of_child? hc
    rw [hchildren] at hmem
    simp at hmem
  · intro n hn
    rw [htag] at hn
    cases hn
  · intro n hn
    rw [htag] at hn
    cases hn

end Tree

end Arbor
