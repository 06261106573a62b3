import Arbor.Proofs.Growth.Extension
import Arbor.Proofs.Tree.Later

/-!
# Growth further on in a text

Tokens that stand later, with other tokens behind the ones that a statement takes, make the same
statement of nodes that stand later. A statement ends before a semicolon as it ends at the end of
the program.
-/
namespace Arbor.Tree

open Arbor.Expr (Stuck)

namespace Growth

/-- Both end well, and `f` turns the first answer into the second, or both end early. -/
def Parallel {α β : Type} (f : α → β) : Except Stunted α → Except Stunted β → Prop
  | .ok a, .ok b => b = f a
  | .error _, .error _ => True
  | _, _ => False

section Parallel

variable {α β γ δ : Type} {f : α → β} {f' : γ → δ} {x : Except Stunted α} {y : Except Stunted β}
  {a : α} {stunted : Stunted}

theorem Parallel.of_ok (h : Parallel f (.ok a) y) : y = .ok (f a) := by
  cases y with
  | error stunted => exact h.elim
  | ok b => exact congrArg Except.ok h

theorem Parallel.of_error (h : Parallel f (.error stunted) y) : ∃ stunted', y = .error stunted' := by
  cases y with
  | error stunted' => exact ⟨stunted', rfl⟩
  | ok b => exact h.elim

theorem Parallel.ends (h : Parallel f x y) : (∃ a, x = .ok a ∧ y = .ok (f a)) ∨
    ∃ stunted stunted', x = .error stunted ∧ y = .error stunted' := by
  cases x with
  | error stunted =>
    obtain ⟨stunted', hy⟩ := h.of_error
    exact Or.inr ⟨stunted, stunted', rfl, hy⟩
  | ok a => exact Or.inl ⟨a, rfl, h.of_ok⟩

theorem Parallel.bind {k : α → Except Stunted γ} {k' : β → Except Stunted δ}
    (h : Parallel f x y) (hk : ∀ a, x = .ok a → Parallel f' (k a) (k' (f a))) :
    Parallel f' (x >>= k) (y >>= k') := by
  obtain ⟨a, rfl, rfl⟩ | ⟨stunted, stunted', rfl, rfl⟩ := h.ends
  · exact hk a rfl
  · trivial

end Parallel

def later (base d : Nat) (g : Growth) : Growth := ⟨g.tree.later base d, g.scope⟩

variable {g g' : Growth} {eof eof' token : Token} {tokens rest more : List Token} {tree : Tree}
  {base d : Nat} {tag : Tag}

abbrev tokensLater (d : Nat) (more tokens : List Token) : List Token :=
  tokens.map (Token.later d) ++ more

abbrev stepLater (base d : Nat) (more : List Token) (r : Growth × List Token) :
    Growth × List Token :=
  (r.1.later base d, tokensLater d more r.2)

theorem expect_later {kind : Token.Kind} {why why' : Misplacement} {tree tree' : Tree}
    (hkind : kind ≠ .semicolon) (hmore : Token.Stops more) :
    Parallel (fun r => (r.1.later d, tokensLater d more r.2)) (expect eof kind why tree tokens)
      (expect eof' kind why' tree' (tokensLater d more tokens)) := by
  cases tokens with
  | nil =>
    cases hmore with
    | nil => trivial
    | semicolon ht =>
      have hne : ¬Token.Kind.semicolon = kind := fun h => hkind h.symm
      rw [tokensLater, List.map_nil, List.nil_append, expect, expect, ht, if_neg hne]
      trivial
  | cons t rest =>
    have hsame : (t.later d).kind = t.kind := rfl
    rw [tokensLater, List.map_cons, List.cons_append, expect, expect, hsame]
    by_cases hk : t.kind = kind
    · rw [if_pos hk, if_pos hk]
      rfl
    · rw [if_neg hk, if_neg hk]
      trivial

theorem parametersFrom_later (hmore : Token.Stops more) (list : NodeId) (tokens : List Token)
    (h : base ≤ tree.size) :
    Parallel (fun r => (r.1.later base d, tokensLater d more r.2))
      (parametersFrom eof list tree tokens)
      (parametersFrom eof' list (tree.later base d) (tokensLater d more tokens)) := by
  have hadd : ∀ {tree : Tree} {p : Token}, base ≤ tree.size →
      (tree.later base d).addUnder list .store (p.later d).text (p.later d).position =
        (tree.addUnder list .store p.text p.position).later base d :=
    fun h => later_addUnder h
  fun_induction parametersFrom eof list tree tokens with
  | case1 tree p hp tree' c rest hcomma ih =>
    have hp' : (p.later d).kind = .name := hp
    have hcomma' : (c.later d).kind = .comma := hcomma
    have hsize : base ≤ tree'.size := h.trans ((GrowsTo.refl tree).addUnder ..).size_le
    rw [tokensLater, List.map_cons, List.map_cons, List.cons_append, List.cons_append,
      parametersFrom, if_pos hp']
    dsimp only
    rw [if_pos hcomma', hadd h]
    exact ih hsize
  | case2 tree p hp tree' c rest hcomma =>
    have hp' : (p.later d).kind = .name := hp
    have hcomma' : ¬(c.later d).kind = .comma := hcomma
    rw [tokensLater, List.map_cons, List.map_cons, List.cons_append, List.cons_append,
      parametersFrom, if_pos hp']
    dsimp only
    rw [if_neg hcomma', hadd h]
    rfl
  | case3 tree p hp tree' =>
    have hp' : (p.later d).kind = .name := hp
    rw [tokensLater, List.map_cons, List.map_nil, List.cons_append, List.nil_append,
      parametersFrom, if_pos hp', hadd h]
    cases hmore with
    | nil => rfl
    | semicolon ht =>
      dsimp only
      rw [ht, if_neg (by decide)]
      rfl
  | case4 tree p rest hp =>
    have hp' : ¬(p.later d).kind = .name := hp
    rw [tokensLater, List.map_cons, List.cons_append, parametersFrom, if_neg hp']
    trivial
  | case5 tree =>
    cases hmore with
    | nil => trivial
    | semicolon ht =>
      rw [tokensLater, List.map_nil, List.nil_append, parametersFrom, ht, if_neg (by decide)]
      trivial

theorem parameters_later (heof : eof.kind ≠ .closing) (heof' : eof'.kind ≠ .closing)
    (hmore : Token.Stops more) (list : NodeId) (tokens : List Token) (h : base ≤ tree.size) :
    Parallel (fun r => (r.1.later base d, tokensLater d more r.2))
      (parameters eof list tree tokens)
      (parameters eof' list (tree.later base d) (tokensLater d more tokens)) := by
  have hhead : ((tokensLater d more tokens).headD eof').kind = .closing ↔
      (tokens.headD eof).kind = .closing := by
    cases tokens with
    | cons t rest => exact Iff.rfl
    | nil =>
      cases hmore with
      | nil => exact iff_of_false heof' heof
      | semicolon ht =>
        apply iff_of_false _ heof
        intro hk
        have hsemicolon := ht.symm.trans hk
        cases hsemicolon
  simp only [parameters]
  by_cases hclosing : (tokens.headD eof).kind = .closing
  · rw [if_pos hclosing, if_pos (hhead.mpr hclosing)]
    rfl
  · rw [if_neg hclosing, if_neg fun hk => hclosing (hhead.mp hk)]
    exact parametersFrom_later hmore list tokens h

theorem function_later (heof : eof.kind ≠ .closing) (heof' : eof'.kind ≠ .closing)
    (hmore : Token.Stops more) (h : base ≤ g.tree.size) :
    Parallel (stepLater base d more) (g.function eof tokens)
      ((g.later base d).function eof' (tokensLater d more tokens)) := by
  simp only [function]
  apply (expect_later (by decide) hmore).bind
  intro name _
  apply (expect_later (by decide) hmore).bind
  intro bracket _
  obtain ⟨hsize, hlisted⟩ := @later_addListed g.tree base d h .function name.1 bracket.1
  dsimp only [later]
  rw [hlisted, size_later]
  apply (parameters_later heof heof' hmore _ _ hsize).bind
  intro after _
  apply (expect_later (by decide) hmore).bind
  intro close _
  dsimp only
  rw [later_attach, later_attach]
  rfl

theorem append_later (h : base ≤ g.tree.size) (tag : Tag) (text : String) (position : Nat) :
    (g.later base d).append tag text (position + d) = (g.append tag text position).later base d :=
  congrArg (Growth.mk · g.scope) (later_addUnder h)

theorem appendGuarded_later (h : base ≤ tree.size) (scope statement : NodeId)
    (operand : Except Stuck Expr) :
    appendGuarded scope (tree.later base d) statement (Expr.optionalLater d more operand) =
      (appendGuarded scope tree statement operand).later base d := by
  unfold appendGuarded
  cases operand with
  | ok e =>
    dsimp only [Expr.optionalLater, later]
    rw [later_graft tree h e]
    dsimp only
    rw [later_attach, later_attach]
  | error stuck =>
    dsimp only [Expr.optionalLater, later]
    rw [later_litter h, later_attach]

theorem withOperand_later (hmore : Token.Stops more) (h : base ≤ g.tree.size) (tag : Tag)
    (token : Token) (tokens : List Token) :
    Parallel (stepLater base d more) (g.withOperand tag token tokens)
      ((g.later base d).withOperand tag (token.later d) (tokensLater d more tokens)) := by
  have hadd : (g.tree.later base d).add tag (token.later d).text (token.later d).position =
      (g.tree.add tag token.text token.position).later base d := later_add h
  have hsize : base ≤ (g.tree.add tag token.text token.position).size := by
    rw [size_add]
    exact h.trans (Nat.le_succ _)
  simp only [withOperand, later]
  rw [Expr.readOptional_later d tokens hmore, hadd, size_later, appendGuarded_later hsize]
  rfl

theorem withName_later (hmore : Token.Stops more) (h : base ≤ g.tree.size) (tag : Tag)
    (token : Token) (tokens : List Token) :
    Parallel (stepLater base d more) (g.withName eof tag token tokens)
      ((g.later base d).withName eof' tag (token.later d) (tokensLater d more tokens)) := by
  simp only [withName]
  apply (expect_later (by decide) hmore).bind
  intro name _
  exact congrArg (fun g => (g, tokensLater d more name.2)) (append_later h ..)

theorem elseBranch_later (hmore : Token.Stops more) (h : base ≤ g.tree.size) (token : Token)
    (tokens : List Token) :
    Parallel (stepLater base d more) (g.elseBranch token tokens)
      ((g.later base d).elseBranch (token.later d) (tokensLater d more tokens)) := by
  have hbranch : (g.later base d).openBranch? = g.openBranch? := by
    simp only [openBranch?, later, parent_later, tag_later]
  have hbody : (g.tree.later base d).add .body "body" (token.later d).position =
      (g.tree.add .body "body" token.position).later base d := later_add h
  have hsize : base ≤ (g.tree.add .body "body" token.position).size := by
    rw [size_add]
    exact h.trans (Nat.le_succ _)
  simp only [elseBranch]
  rw [hbranch]
  cases g.openBranch? with
  | none => trivial
  | some branch =>
    dsimp only [later]
    rw [Expr.readOptional_later d tokens hmore, hbody, size_later]
    cases (Expr.readOptional tokens).1 with
    | ok e =>
      dsimp only [Expr.optionalLater]
      rw [later_graft _ hsize e]
      dsimp only
      rw [later_attach, later_attach]
      rfl
    | error stuck =>
      have hlitter := hsize.trans (litter_stands _ stuck).size_le
      have hone : (((g.tree.add .body "body" token.position).litter stuck).later base d).add
          .numberLiteral "1" (token.later d).position =
          (((g.tree.add .body "body" token.position).litter stuck).add .numberLiteral "1"
            token.position).later base d := later_add hlitter
      dsimp only [Expr.optionalLater]
      rw [later_litter hsize, hone, size_later, later_attach, later_attach]
      rfl

theorem openBody_later (h : base ≤ g.tree.size) (token : Token) (tokens : List Token) :
    Parallel (stepLater base d more) (g.openBody token tokens)
      ((g.later base d).openBody (token.later d) (tokensLater d more tokens)) := by
  have hlast : (g.tree.later base d).lastChild? g.scope = g.tree.lastChild? g.scope := by
    rw [lastChild?, children_later, lastChild?]
  have hbody : (g.tree.later base d).add .body "body" (token.later d).position =
      (g.tree.add .body "body" token.position).later base d := later_add h
  simp only [openBody, later]
  rw [hlast]
  cases g.tree.lastChild? g.scope with
  | none => trivial
  | some owner =>
    dsimp only
    rw [hbody, size_later, later_attach]
    rfl

theorem closeBody_later (token : Token) (tokens : List Token) :
    Parallel (stepLater base d more) (g.closeBody token tokens)
      ((g.later base d).closeBody (token.later d) (tokensLater d more tokens)) := by
  have hparent : (g.later base d).tree.parent = g.tree.parent := funext fun _ => parent_later
  rw [closeBody, closeBody, hparent]
  by_cases hroot : g.scope = root
  · have hroot' : (g.later base d).scope = root := hroot
    rw [if_pos hroot, if_pos hroot']
    trivial
  · have hroot' : ¬(g.later base d).scope = root := hroot
    have hscope : (g.later base d).scope = g.scope := rfl
    rw [if_neg hroot, if_neg hroot', hscope]
    cases (g.tree.parent g.scope).bind g.tree.parent with
    | none => trivial
    | some enclosing => rfl

theorem keyword_later (heof : eof.kind ≠ .closing) (heof' : eof'.kind ≠ .closing)
    (hmore : Token.Stops more) (h : base ≤ g.tree.size) (token : Token) (tokens : List Token) :
    Parallel (stepLater base d more) (g.keyword eof token tokens)
      ((g.later base d).keyword eof' (token.later d) (tokensLater d more tokens)) := by
  have htext : (token.later d).text = token.text := rfl
  simp only [keyword]
  rw [htext]
  cases Keyword.ofText? token.text with
  | none => trivial
  | some k =>
    cases k with
    | function => exact function_later heof heof' hmore h
    | giveBack => exact withOperand_later hmore h ..
    | output => exact withOperand_later hmore h ..
    | loop => exact withOperand_later hmore h ..
    | branch => exact withOperand_later hmore h ..
    | otherwise => exact elseBranch_later hmore h ..
    | remove => exact withName_later hmore h ..
    | input => exact withName_later hmore h ..
    | openBody => exact openBody_later h ..
    | closeBody => exact closeBody_later ..

theorem nameStatement_later (hmore : Token.Stops more) (h : base ≤ g.tree.size) (token : Token)
    (tokens : List Token) :
    Parallel (stepLater base d more) (g.nameStatement eof token tokens)
      ((g.later base d).nameStatement eof' (token.later d) (tokensLater d more tokens)) := by
  have hread : Expr.read .operand (token.later d :: tokensLater d more tokens) =
      Expr.readingLater d more (Expr.read .operand (token :: tokens)) :=
    Expr.read_later d .operand (token :: tokens) hmore
  simp only [nameStatement]
  rw [hread]
  cases Expr.read .operand (token :: tokens) with
  | error stuck => trivial
  | ok r =>
    obtain ⟨e, after⟩ := r
    -- an expression other than a name is a call
    have hcall : Parallel (stepLater base d more)
        (.ok ({ g with tree := (g.tree.graft e).1.attach g.scope (g.tree.graft e).2 }, after))
        (.ok ({ g.later base d with
          tree := ((g.later base d).tree.graft (e.later d)).1.attach (g.later base d).scope
            ((g.later base d).tree.graft (e.later d)).2 }, tokensLater d more after)) := by
      dsimp only [later]
      rw [later_graft g.tree h e]
      dsimp only
      rw [later_attach]
      rfl
    cases e with
    | get name =>
      have hget := @later_graft base d g.tree h (.get name)
      have hsize := h.trans (graft_grafted g.tree (.get name)).stands.size_le
      dsimp only [Expr.readingLater, Expr.later] at hget ⊢
      dsimp only [later]
      rw [hget]
      apply (expect_later (by decide) hmore).bind
      intro colon _
      have hretag : base ≤ ((g.tree.graft (.get name)).1.retag (g.tree.graft (.get name)).2
          .store).size := by
        rw [size_retag]
        exact hsize
      dsimp only
      rw [Expr.readOptional_later d colon.2 hmore, later_retag, appendGuarded_later hretag]
      rfl
    | literal => exact hcall
    | call => exact hcall
    | operator => exact hcall

theorem statement_later (heof : eof.kind ≠ .closing) (heof' : eof'.kind ≠ .closing)
    (hmore : Token.Stops more) (h : base ≤ g.tree.size) (token : Token) (tokens : List Token) :
    Parallel (stepLater base d more) (g.statement eof token tokens)
      ((g.later base d).statement eof' (token.later d) (tokensLater d more tokens)) := by
  have hkind : (token.later d).kind = token.kind := rfl
  simp only [statement]
  rw [hkind]
  cases token.kind with
  | semicolon => exact congrArg (fun g => (g, tokensLater d more tokens)) (append_later h ..)
  | keyword => exact keyword_later heof heof' hmore h ..
  | name => exact nameStatement_later hmore h ..
  | _ => trivial

theorem grow_later (heof : eof.kind ≠ .closing) (heof' : eof'.kind ≠ .closing)
    (h : base ≤ g.tree.size) (tokens : List Token) :
    Parallel (Tree.later · base d) (grow eof g tokens)
      (grow eof' (g.later base d) (tokens.map (Token.later d))) := by
  fun_induction grow eof g tokens with
  | case1 =>
    rw [List.map_nil, Growth.grow]
    rfl
  | case2 g token rest g' rest' hs ih =>
    have hstep := @statement_later g eof eof' [] base d heof heof' .nil h token rest
    have hgrows : StepGrows g.tree (g.statement eof token rest) :=
      statement_growsTo (.refl _) token rest
    rw [hs] at hstep hgrows
    rw [tokensLater, List.append_nil] at hstep
    have hs' := hstep.of_ok
    rw [stepLater, tokensLater, List.append_nil] at hs'
    rw [List.map_cons, grow_ok hs']
    exact ih (h.trans hgrows.size_le)
  | case3 g token rest stunted hs =>
    have hstep := @statement_later g eof eof' [] base d heof heof' .nil h token rest
    rw [hs] at hstep
    rw [tokensLater, List.append_nil] at hstep
    obtain ⟨stunted', hs'⟩ := hstep.of_error
    rw [List.map_cons, grow_error hs']
    trivial

end Growth

end Arbor.Tree
