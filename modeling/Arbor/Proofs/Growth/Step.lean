import Arbor.Proofs.Tree.Beside
import Arbor.Tree.Growth

/-!
# What a step can do

Each step that goes well is taken apart here once: what it needs, what it takes of the tokens and
what it leaves of the tree. What such a step preserves is proved from these cases.
-/
namespace Arbor.Tree

open Arbor.Expr (Stuck)

variable {t u w : Tree} {statement : NodeId}

def hangOperand (w : Tree) (statement : NodeId) : Except Stuck Expr → Tree
  | .ok e => (w.graft e).1.attach statement (w.graft e).2
  | .error stuck => w.litter stuck

theorem hangOperand_stands (hw : t.PrefixOf w) (hnew : t.size ≤ statement)
    (operand : Except Stuck Expr) : t.PrefixOf (w.hangOperand statement operand) := by
  cases operand with
  | ok e =>
    have he := graft_grafted w e
    exact (hw.trans he.stands).attach hnew (hw.size_le.trans he.new)
  | error stuck => exact hw.trans (litter_stands w stuck)

theorem GrowsTo.hangOperand (h : t.GrowsTo u) (statement : NodeId)
    (operand : Except Stuck Expr) : t.GrowsTo (u.hangOperand statement operand) := by
  cases operand with
  | ok e => exact (h.graft e).attach (h.size_le.trans (graft_grafted u e).new) _
  | error stuck => exact h.litter stuck

/-- Adds the condition in front of a further body: the one that was read, or else the literal 1. -/
def graftCondition (w : Tree) (position : Nat) : Except Stuck Expr → Tree × NodeId
  | .ok e => w.graft e
  | .error stuck => ((w.litter stuck).add .numberLiteral "1" position, (w.litter stuck).size)

theorem graftCondition_grafted (w : Tree) (position : Nat) (operand : Except Stuck Expr) :
    w.Grafted (w.graftCondition position operand) := by
  cases operand with
  | ok e => exact graft_grafted w e
  | error stuck =>
    have hlitter := litter_stands w stuck
    exact ⟨hlitter.add .., hlitter.size_le, lt_size_add⟩

namespace Growth

variable {g g' : Growth} {eof token : Token} {rest rest' tokens : List Token} {tag : Tag}

theorem appendGuarded_eq (scope : NodeId) (w : Tree) (statement : NodeId)
    (operand : Except Stuck Expr) : appendGuarded scope w statement operand =
      ⟨(w.hangOperand statement operand).attach scope statement, scope⟩ := by
  cases operand <;> rfl

def further (g : Growth) (branch : NodeId) (position : Nat) (operand : Except Stuck Expr) :
    Growth where
  tree := (((g.tree.add .body "body" position).graftCondition position operand).1.attach branch
    ((g.tree.add .body "body" position).graftCondition position operand).2).attach branch
      g.tree.size
  scope := g.tree.size

theorem elseBranch_eq (g : Growth) (token : Token) (rest : List Token) :
    g.elseBranch token rest = match g.openBranch? with
      | none => g.refuse .elseOutsideIf token
      | some branch => .ok (g.further branch token.position (Expr.readOptional rest).1,
          (Expr.readOptional rest).2) := by
  rw [elseBranch]
  cases g.openBranch? with
  | none => rfl
  | some branch =>
    cases Expr.readOptional rest with
    | mk operand after => cases operand <;> rfl

/-- What `x` ends in satisfies `P`, whether it ends early or not; `tree` reads the tree off an
answer. -/
def Leaves {α : Type} (P : Tree → Prop) (tree : α → Tree) : Except Stunted α → Prop
  | .ok a => P (tree a)
  | .error stunted => P stunted.tree

theorem Leaves.imp {α : Type} {P Q : Tree → Prop} {tree : α → Tree} {x : Except Stunted α}
    (hx : Leaves P tree x) (hPQ : ∀ u, P u → Q u) : Leaves Q tree x := by
  cases x with
  | error stunted => exact hPQ _ hx
  | ok a => exact hPQ _ hx

theorem bind_eq_error {α β : Type} {x : Except Stunted α} {f : α → Except Stunted β}
    {stunted : Stunted} (h : (x >>= f) = .error stunted) :
    x = .error stunted ∨ ∃ a, x = .ok a ∧ f a = .error stunted := by
  cases x with
  | error e =>
    cases h
    exact Or.inl rfl
  | ok a => exact Or.inr ⟨a, rfl, h⟩

theorem expect_leaves {P : Tree → Prop} {u : Tree} (h : P u) (kind : Token.Kind)
    (why : Misplacement) (tokens : List Token) :
    Leaves P (fun _ => u) (expect eof kind why u tokens) := by
  cases tokens with
  | nil => exact h
  | cons t rest =>
    rw [expect]
    split <;> exact h

theorem expect_kind {kind : Token.Kind} {why : Misplacement} {tree : Tree}
    (h : expect eof kind why tree tokens = .ok (token, rest)) : token.kind = kind := by
  cases tokens with
  | nil => cases h
  | cons t more =>
    rw [expect] at h
    split at h
    · next hk =>
      cases h
      exact hk
    · cases h

theorem withName_cases (h : g.withName eof tag token rest = .ok (g', rest')) :
    ∃ name : Token, rest = name :: rest' ∧ name.kind = .name ∧
      g' = g.append tag name.text name.position := by
  obtain ⟨⟨name, after⟩, hname, h⟩ := bind_eq_ok h
  obtain ⟨rfl, rfl⟩ := Prod.mk.inj (Except.ok.inj h)
  exact ⟨name, expect_eq_ok hname, expect_kind hname, rfl⟩

theorem elseBranch_cases (h : g.elseBranch token rest = .ok (g', rest')) :
    ∃ branch, g.tree.parent g.scope = some branch ∧ g.tree.tag branch = .branch ∧
      rest' = (Expr.readOptional rest).2 ∧
      g' = g.further branch token.position (Expr.readOptional rest).1 := by
  rw [elseBranch_eq] at h
  split at h
  · cases h
  · next branch hopen =>
    obtain ⟨hparent, hbranch⟩ := Option.filter_eq_some_iff.mp hopen
    obtain ⟨rfl, rfl⟩ := Prod.mk.inj (Except.ok.inj h)
    exact ⟨branch, hparent, of_decide_eq_true hbranch, rfl, rfl⟩

theorem openBody_cases (h : g.openBody token rest = .ok (g', rest')) :
    ∃ owner, g.tree.lastChild? g.scope = some owner ∧ rest' = rest ∧
      g' = ⟨(g.tree.add .body "body" token.position).attach owner g.tree.size, g.tree.size⟩ := by
  simp only [openBody] at h
  split at h
  · cases h
  · next owner hlast =>
    obtain ⟨rfl, rfl⟩ := Prod.mk.inj (Except.ok.inj h)
    exact ⟨owner, hlast, rfl, rfl⟩

theorem closeBody_cases (h : g.closeBody token rest = .ok (g', rest')) :
    g.scope ≠ root ∧ ∃ owner enclosing, g.tree.parent g.scope = some owner ∧
      g.tree.parent owner = some enclosing ∧ rest' = rest ∧ g' = ⟨g.tree, enclosing⟩ := by
  simp only [closeBody] at h
  split at h
  · cases h
  · next hroot =>
    split at h
    · next enclosing hparent =>
      obtain ⟨owner, howner, henclosing⟩ := Option.bind_eq_some_iff.mp hparent
      obtain ⟨rfl, rfl⟩ := Prod.mk.inj (Except.ok.inj h)
      exact ⟨hroot, owner, enclosing, howner, henclosing, rfl, rfl⟩
    · cases h

theorem parameters_cases {list : NodeId} (h : parameters eof list t tokens = .ok (u, rest)) :
    u = t ∧ rest = tokens ∨ parametersFrom eof list t tokens = .ok (u, rest) := by
  simp only [parameters] at h
  split at h
  · obtain ⟨rfl, rfl⟩ := Prod.mk.inj (Except.ok.inj h)
    exact Or.inl ⟨rfl, rfl⟩
  · exact Or.inr h

theorem function_cases (h : g.function eof rest = .ok (g', rest')) :
    ∃ (name bracket close : Token) (after : List Token) (u : Tree),
      rest = name :: bracket :: after ∧ name.kind = .name ∧ bracket.kind = .opening ∧
      close.kind = .closing ∧ parameters eof (g.tree.size + 1)
        ((g.tree.add .function name.text name.position).add .arguments "arg" bracket.position)
        after = .ok (u, close :: rest') ∧
      g' = ⟨(u.attach g.tree.size (g.tree.size + 1)).attach g.scope g.tree.size, g.scope⟩ := by
  obtain ⟨⟨name, r₁⟩, h₁, h⟩ := bind_eq_ok h
  obtain ⟨⟨bracket, after⟩, h₂, h⟩ := bind_eq_ok h
  obtain ⟨⟨u, r₃⟩, h₃, h⟩ := bind_eq_ok h
  obtain ⟨⟨close, r₄⟩, h₄, h⟩ := bind_eq_ok h
  obtain ⟨rfl, rfl⟩ := Prod.mk.inj (Except.ok.inj h)
  obtain rfl := expect_eq_ok h₂
  obtain rfl := expect_eq_ok h₄
  exact ⟨name, bracket, close, after, u, expect_eq_ok h₁, expect_kind h₁, expect_kind h₂,
    expect_kind h₄, h₃, rfl⟩

theorem nameStatement_cases (h : g.nameStatement eof token rest = .ok (g', rest')) :
    (∃ name colon after, Expr.read .operand (token :: rest) = .ok (.get name, colon :: after) ∧
      colon.kind = .assign ∧ rest' = (Expr.readOptional after).2 ∧
      g' = appendGuarded g.scope (g.tree.add .store name.text name.position) g.tree.size
        (Expr.readOptional after).1) ∨
    ∃ call, Expr.read .operand (token :: rest) = .ok (call, rest') ∧ (∀ name, call ≠ .get name) ∧
      g' = ⟨(g.tree.graft call).1.attach g.scope (g.tree.graft call).2, g.scope⟩ := by
  simp only [nameStatement] at h
  split at h
  · cases h
  · next name after hread =>
    obtain ⟨⟨colon, after'⟩, hcolon, h⟩ := bind_eq_ok h
    obtain ⟨rfl, rfl⟩ := Prod.mk.inj (Except.ok.inj h)
    have hassign := expect_kind hcolon
    obtain rfl := expect_eq_ok hcolon
    refine Or.inl ⟨name, colon, after', hread, hassign, rfl, ?_⟩
    rw [graft_get_size, graft_get_retag]
  · next call after hcall hread =>
    obtain ⟨rfl, rfl⟩ := Prod.mk.inj (Except.ok.inj h)
    exact Or.inr ⟨call, hread, hcall, rfl⟩

end Growth

end Arbor.Tree
