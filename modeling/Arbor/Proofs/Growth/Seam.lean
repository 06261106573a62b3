import Arbor.Proofs.Growth.Later
import Arbor.Proofs.Growth.Refusal
import Arbor.Proofs.Growth.Turn

/-!
# Growth over a seam

A program whose braces match leaves the root as its open body, so a semicolon and what follows it go
on under the root as they would in a text of their own. They leave alone all that was there before,
except that further statements hang on the root.
-/
namespace Arbor.Tree

variable {t u m : Tree} {n p c : NodeId} {d : Nat} {loose : List NodeId}

inductive Depth (t : Tree) : NodeId → Nat → Prop where
  | outermost : Depth t root 0
  | body {n owner enclosing : NodeId} {d : Nat} : t.parent n = some owner →
      t.parent owner = some enclosing → Depth t enclosing d → Depth t n (d + 1)

theorem Depth.grows (h : t.Depth n d) (hu : t.GrowsTo u) : u.Depth n d := by
  induction h with
  | outermost => exact .outermost
  | body hn howner _ ih => exact .body (hu.parent_some hn) (hu.parent_some howner) ih

theorem Depth.eq_root (h : t.Depth n 0) : n = root := by
  cases h with
  | outermost => rfl

theorem later_zero (t : Tree) (base : Nat) : t.later base 0 = t := by
  apply eq_of_node size_later
  intro n hn
  rw [node_later hn]
  split <;> rfl

theorem GrowsTo.lastChild? (h : t.GrowsTo u) (hn : n < t.size) {b : Nat} (hb : b ≤ t.size)
    (hlast : ∃ c, t.lastChild? n = some c ∧ b ≤ c) : ∃ c, u.lastChild? n = some c ∧ b ≤ c := by
  obtain ⟨new, hnew, hle⟩ := h.children n hn
  obtain ⟨c, hc, hbc⟩ := hlast
  rw [Tree.lastChild?, ← Array.getLast?_toList] at hc ⊢
  rw [hnew, List.getLast?_append]
  cases hlast : new.getLast? with
  | none => exact ⟨c, hc, hbc⟩
  | some c' => exact ⟨c', rfl, hb.trans (hle c' (List.mem_of_getLast? hlast))⟩

namespace Growth

variable {P : String → Nat → Prop} {g g' : Growth} {eof eof' token : Token}
  {tokens rest rest' more : List Token}

theorem statement_append (heof : eof.kind ≠ .closing) (heof' : eof'.kind ≠ .closing)
    (hmore : Token.Stops more) (h : g.statement eof token rest = .ok (g', rest')) :
    g.statement eof' token (rest ++ more) = .ok (g', rest' ++ more) := by
  have hstep := @statement_later g eof eof' more 0 0 heof heof' hmore (Nat.zero_le _) token rest
  have htoken : token.later 0 = token := rfl
  have htokens : ∀ l : List Token, l.map (Token.later 0) = l := List.map_id
  have hg : ∀ g : Growth, g.later 0 0 = g := fun g =>
    congrArg (Growth.mk · g.scope) (later_zero g.tree 0)
  rw [h, hg, htoken, tokensLater, htokens] at hstep
  have hs := hstep.of_ok
  rw [stepLater, hg, tokensLater, htokens] at hs
  exact hs

theorem Turn.depth (h : Turn g token g') (hgrows : g.tree.GrowsTo g'.tree)
    (hg : g.tree.Grove loose) (hd : g.tree.Depth g.scope d) :
    ∃ d', g'.tree.Depth g'.scope d' ∧ d' + token.closes.toNat = d + token.opens.toNat := by
  cases h with
  | stay hopens hcloses hkept =>
    refine ⟨d, hd.grows hgrows, ?_⟩
    rw [hopens, hcloses]
  | enter hopens hcloses hlast hkept hparent =>
    have howner := (hg.parent_iff _ _).mpr (Array.mem_of_back? hlast)
    refine ⟨d + 1, .body hparent (hgrows.parent_some howner) (hd.grows hgrows), ?_⟩
    rw [hopens, hcloses]
    rfl
  | further hopens hcloses hparent hbranch hkept hnew =>
    refine ⟨d, ?_, by rw [hopens, hcloses]⟩
    generalize hscope : g.scope = scope at hd hparent
    cases hd with
    | outermost =>
      rw [hg.root_free] at hparent
      cases hparent
    | body howner henclosing hd =>
      cases Option.some.inj (hparent.symm.trans howner)
      exact .body hnew (hgrows.parent_some henclosing) (hd.grows hgrows)
  | leave hopens hcloses howner henclosing =>
    generalize hscope : g.scope = scope at hd howner
    cases hd with
    | outermost =>
      rw [hg.root_free] at howner
      cases howner
    | body howner' henclosing' hd =>
      cases Option.some.inj (howner.symm.trans howner')
      cases Option.some.inj (henclosing.symm.trans henclosing')
      refine ⟨_, hd, ?_⟩
      rw [hopens, hcloses]
      rfl

/-- After some tokens the growth goes on with others as if it started with them, at a depth that
counts the braces. -/
theorem grow_append (hg : g.Shaped fun _ _ => True) (hd : g.tree.Depth g.scope d)
    (hkeyword : ∀ t ∈ tokens, t.kind = .keyword → (Keyword.ofText? t.text).isSome = true)
    (heof : eof.kind ≠ .closing) (heof' : eof'.kind ≠ .closing)
    (h : grow eof g tokens = .ok t) : ∃ scope d', t.Depth scope d' ∧
      d' + tokens.countP Token.closes = d + tokens.countP Token.opens ∧
      ∀ more, Token.Stops more → grow eof' g (tokens ++ more) = grow eof' ⟨t, scope⟩ more := by
  fun_induction grow eof g tokens generalizing d with
  | case1 g =>
    cases h
    exact ⟨g.scope, d, hd, rfl, fun more _ => rfl⟩
  | case2 g token rest g' rest' hs ih =>
    obtain ⟨hk, hkrest⟩ := List.forall_mem_cons.mp hkeyword
    have hstep := statement_orderly hk hg eof rest
    rw [hs] at hstep
    have htaken : Taken rest rest' := hstep
    obtain ⟨loose, hgrove⟩ := hg.rooted.grove
    have hgrows : StepGrows g.tree (g.statement eof token rest) :=
      statement_growsTo (.refl _) token rest
    rw [hs] at hgrows
    obtain ⟨d₁, hd₁, hcount⟩ := (statement_turn hs).depth hgrows hgrove hd
    have hshaped := statement_shaped hg trivial (fun _ _ => trivial) hs
    obtain ⟨scope, d', hd', hrest, happend⟩ := ih hshaped hd₁ (fun t ht => hkrest t (htaken.mem ht)) h
    refine ⟨scope, d', hd', ?_, ?_⟩
    · have hopens := htaken.countP_eq fun _ => Token.opens_of_ne_keyword
      have hcloses := htaken.countP_eq fun _ => Token.closes_of_ne_keyword
      rw [List.countP_cons, List.countP_cons, hopens, hcloses]
      have hone : ∀ b : Bool, (if b = true then 1 else 0) = b.toNat := by decide
      rw [hone, hone]
      omega
    · intro more hmore
      rw [List.cons_append, grow_ok (statement_append heof heof' hmore hs)]
      exact happend more hmore
  | case3 => cases h

/-- The growth has left the nodes of `m` alone, except that the root has got new children. -/
structure Apart (m : Tree) (g : Growth) : Prop where
  grows : m.GrowsTo g.tree
  node : ∀ n < m.size, n ≠ root → g.tree.node n = m.node n
  last : ∃ c, g.tree.lastChild? root = some c ∧ m.size ≤ c
  scope : g.scope = root ∨ m.size ≤ g.scope

theorem Apart.parent_new (h : Apart m g) (hm : m.Grove loose) (hg : ∃ loose, g.tree.Grove loose)
    (hn : m.size ≤ n) (hp : g.tree.parent n = some p) : p = root ∨ m.size ≤ p := by
  obtain ⟨loose', hgrove⟩ := hg
  by_cases hroot : p = root
  · exact Or.inl hroot
  · refine Or.inr (Nat.le_of_not_lt fun hlt => ?_)
    have hmem := (hgrove.parent_iff p n).mp hp
    rw [children, h.node p hlt hroot, ← children] at hmem
    exact Nat.not_lt.mpr hn (hm.child_lt hmem)

theorem Apart.child_new (h : Apart m g) (hm : m.Grove loose) (hg : ∃ loose, g.tree.Grove loose)
    (hn : m.size ≤ n) (hc : c ∈ g.tree.children n) : m.size ≤ c := by
  obtain ⟨loose', hgrove⟩ := hg
  refine Nat.le_of_not_lt fun hlt => ?_
  have hparent := (hgrove.parent_iff n c).mpr hc
  have hroot : c ≠ root := by
    intro heq
    rw [heq, hgrove.root_free] at hparent
    cases hparent
  rw [parent, h.node c hlt hroot, ← parent] at hparent
  exact Nat.not_lt.mpr hn (hm.parent_lt hparent)

theorem Turn.apart (h : Turn g token g') (hgrows : g.tree.GrowsTo g'.tree)
    (hall : m.GrowsTo g'.tree) (hm : m.Grove loose) (hg : ∃ loose, g.tree.Grove loose)
    (ha : Apart m g) : Apart m g' := by
  obtain ⟨loose', hgrove⟩ := hg
  have hsize := ha.grows.size_le
  have hlast := hgrows.lastChild? hgrove.size_pos hsize ha.last
  -- the node that the statement hangs on is the root or a new one
  have hkeeps : ∀ {hook : NodeId}, g.tree.GrowsAt hook g'.tree → hook = root ∨ m.size ≤ hook →
      ∀ n < m.size, n ≠ root → g'.tree.node n = m.node n := by
    intro hook hkept hhook n hn hne
    have hnh : n ≠ hook := by
      rintro rfl
      rcases hhook with hhook | hhook
      · exact hne hhook
      · exact Nat.not_lt.mpr hhook hn
    rw [hkept.node hgrows (hn.trans_le hsize) hnh, ha.node n hn hne]
  cases h with
  | stay _ _ hkept => exact ⟨hall, hkeeps hkept ha.scope, hlast, ha.scope⟩
  | enter _ _ hchild hkept _ =>
    refine ⟨hall, hkeeps hkept (Or.inr ?_), hlast, Or.inr hsize⟩
    rcases ha.scope with hscope | hscope
    · obtain ⟨c, hc, hle⟩ := ha.last
      rw [hscope, hc] at hchild
      cases hchild
      exact hle
    · exact ha.child_new hm ⟨loose', hgrove⟩ hscope (Array.mem_of_back? hchild)
  | further _ _ hparent _ hkept _ =>
    refine ⟨hall, hkeeps hkept ?_, hlast, Or.inr hsize⟩
    rcases ha.scope with hscope | hscope
    · rw [hscope, hgrove.root_free] at hparent
      cases hparent
    · exact ha.parent_new hm ⟨loose', hgrove⟩ hscope hparent
  | leave _ _ howner henclosing =>
    refine ⟨ha.grows, ha.node, ha.last, ?_⟩
    rcases ha.scope with hscope | hscope
    · rw [hscope, hgrove.root_free] at howner
      cases howner
    · rcases ha.parent_new hm ⟨loose', hgrove⟩ hscope howner with hroot | hnew
      · rw [hroot, hgrove.root_free] at henclosing
        cases henclosing
      · exact ha.parent_new hm ⟨loose', hgrove⟩ hnew henclosing

theorem grow_apart (hm : m.Grove loose) (hg : g.Rooted) (ha : Apart m g)
    (h : grow eof g tokens = .ok t) (hn : n < m.size) (hne : n ≠ root) :
    t.node n = m.node n := by
  fun_induction grow eof g tokens with
  | case1 =>
    cases h
    exact ha.node n hn hne
  | case2 g token rest g' rest' hs ih =>
    have hgrows : StepGrows g.tree (g.statement eof token rest) :=
      statement_growsTo (.refl _) token rest
    have hall : StepGrows m (g.statement eof token rest) := statement_growsTo ha.grows token rest
    rw [hs] at hgrows hall
    exact ih (statement_rooted hg hs) ((statement_turn hs).apart hgrows hall hm hg.grove ha) h
  | case3 => cases h

theorem first_apart (hm : m.Grove loose) (hopens : token.opens = false)
    (h : statement ⟨m, root⟩ eof token rest = .ok (g', rest')) : Apart m g' := by
  obtain ⟨litter, hplaced, -⟩ := statement_places h
  cases hplaced with
  | @hang u c _ hu _ =>
    have hc := hu.top List.mem_cons_self
    have hgrows : m.GrowsTo (u.attach root c) :=
      ((GrowsTo.refl m).prefix_right hu.stands).attach hc.1 root
    have hat : m.GrowsAt root (u.attach root c) := (GrowsAt.of_stands hu.stands _).attach hc.1
    have hroot : root < u.size := hm.size_pos.trans_le hu.size_le
    have hlast : (u.attach root c).lastChild? root = some c := by
      rw [lastChild?, children_attach_of_lt hroot, if_pos rfl, Array.back?_push]
    exact ⟨hgrows, fun n hn hne => hat.node hgrows hn hne, ⟨c, hlast, hc.1⟩, Or.inl rfl⟩
  -- only a body hangs on a statement from before
  | enter position hopens' =>
    rw [hopens] at hopens'
    cases hopens'
  | further _ _ _ hparent =>
    rw [hm.root_free] at hparent
    cases hparent
  | leave _ _ _ hroot => exact absurd rfl hroot

theorem grow_statement_apart (hm : m.Grove loose) (hopens : token.opens = false)
    (h : grow eof ⟨m, root⟩ (token :: rest) = .ok t) (hn : n < m.size) (hne : n ≠ root) :
    t.node n = m.node n := by
  have hrooted : Rooted ⟨m, root⟩ := ⟨⟨loose, hm⟩, .refl⟩
  cases hs : statement ⟨m, root⟩ eof token rest with
  | error stunted =>
    rw [grow_error hs] at h
    cases h
  | ok r =>
    rw [grow_ok hs] at h
    exact grow_apart hm (statement_rooted hrooted hs) (first_apart hm hopens hs) h hn hne

end Growth

variable {lexemes second : List Token} {e e' token : Token}

theorem grow_ended (he : e.kind = .eof) (hkinds : ∀ u ∈ lexemes, u.kind ≠ .eof) (t : Tree) :
    t.grow (lexemes ++ [e]) = Growth.grow e ⟨t, root⟩ lexemes := by
  have hnone : lexemes.find? (·.kind = .eof) = none := by
    apply List.find?_eq_none.mpr
    intro u hu
    simpa using hkinds u hu
  have hfind : (lexemes ++ [e]).find? (·.kind = .eof) = some e := by
    rw [List.find?_append, hnone]
    simp [he]
  have htake : (lexemes ++ [e]).takeWhile (·.kind ≠ .eof) = lexemes := by
    rw [List.takeWhile_append_of_pos fun u hu => by simpa using hkinds u hu]
    simp [he]
  unfold Tree.grow
  rw [hfind, htake, Option.getD_some]

/-- Behind a program whose braces match, a semicolon and what follows it grow as in a text of their
own, but stand later. -/
theorem grow_seam (hg : Growth.Shaped (fun _ _ => True) ⟨t, root⟩)
    (hkeyword : ∀ u ∈ lexemes, u.kind = .keyword → (Keyword.ofText? u.text).isSome = true)
    (hkinds : ∀ u ∈ lexemes, u.kind ≠ .eof) (he : e.kind = .eof)
    (hbraces : lexemes.countP Token.opens = lexemes.countP Token.closes)
    (hm : t.grow (lexemes ++ [e]) = .ok m) (htoken : token.kind = .semicolon)
    (hsecond : ∀ u ∈ token :: second, u.kind ≠ .eof) (he' : e'.kind = .eof) (d : Nat) :
    Growth.Parallel (later · m.size d) (m.grow (token :: second ++ [e']))
      (t.grow (lexemes ++ (token :: second ++ [e']).map (Token.later d))) := by
  have hend : ∀ {e : Token}, e.kind = .eof → e.kind ≠ .closing := by
    intro e he hclosing
    rw [he] at hclosing
    cases hclosing
  have hlater : (e'.later d).kind = .eof := he'
  have hall : lexemes ++ (token :: second ++ [e']).map (Token.later d) =
      lexemes ++ (token :: second).map (Token.later d) ++ [e'.later d] := by
    rw [List.map_append, List.append_assoc]
    rfl
  have hkinds' : ∀ u ∈ lexemes ++ (token :: second).map (Token.later d), u.kind ≠ .eof := by
    intro u hu
    rcases List.mem_append.mp hu with hu | hu
    · exact hkinds u hu
    · obtain ⟨v, hv, rfl⟩ := List.mem_map.mp hu
      exact hsecond v hv
  rw [grow_ended he hkinds] at hm
  obtain ⟨scope, depth, hdepth, hcount, happend⟩ := Growth.grow_append hg .outermost hkeyword
    (hend he) (hend hlater) hm
  -- the braces match, so the open body is the root again
  have hzero : depth = 0 := by omega
  rw [hzero] at hdepth
  have hscope : scope = root := hdepth.eq_root
  have hstops : Token.Stops ((token :: second).map (Token.later d)) := .semicolon htoken
  rw [hall, grow_ended hlater hkinds', happend _ hstops, hscope, grow_ended he' hsecond]
  have hmoved := @Growth.grow_later ⟨m, root⟩ e' (e'.later d) m.size d (hend he') (hend hlater)
    (Nat.le_refl _) (token :: second)
  rw [Growth.later, later_of_size_le (Nat.le_refl m.size)] at hmoved
  exact hmoved

end Arbor.Tree
