import Arbor.Expr
import Mathlib

/-!
# Chains of operators

An expression is a chain of primaries with operators between them, where a call with its arguments
is one primary. A chain has one tree in which no operator stands over a looser one on its left, or
over one as loose on its right. It is the tree that is cut at the loosest operator, at the last one
where there are several, and on both sides of it again.
-/
namespace Arbor.Expr

structure Chain where
  first : Expr
  rest : List (Token × Expr)

namespace Chain

def symbols (c : Chain) : List Token := c.rest.map Prod.fst

def join (left : Chain) (symbol : Token) (right : Chain) : Chain :=
  ⟨left.first, left.rest ++ (symbol, right.first) :: right.rest⟩

/-- What stands before and behind the last of the loosest operators of a chain. -/
def cutFrom (first : Expr) : List (Token × Expr) → Option (Chain × Token × Chain)
  | [] => none
  | (symbol, next) :: rest =>
    match cutFrom next rest with
    | none => some (⟨first, []⟩, symbol, ⟨next, rest⟩)
    | some (left, loosest, right) =>
      if Operator.group symbol.text ≤ Operator.group loosest.text then
        some (⟨first, (symbol, left.first) :: left.rest⟩, loosest, right)
      else some (⟨first, []⟩, symbol, ⟨next, rest⟩)

def cut (c : Chain) : Option (Chain × Token × Chain) := cutFrom c.first c.rest

end Chain

/-- The chain of an expression. Calls are leaves, with all of their arguments. -/
def chain : Expr → Chain
  | .operator symbol left right => left.chain.join symbol right.chain
  | .literal t => ⟨.literal t, []⟩
  | .get name => ⟨.get name, []⟩
  | .call name bracket arguments => ⟨.call name bracket arguments, []⟩

def Tops (p : Nat → Prop) : Expr → Prop
  | .operator symbol _ _ => p (Operator.group symbol.text)
  | _ => True

/-- On the left of each operator stands none that is looser, and on its right only tighter ones. -/
def Graded : Expr → Prop
  | .operator symbol left right =>
    left.Tops (· ≤ Operator.group symbol.text) ∧ right.Tops (· < Operator.group symbol.text) ∧
      left.Graded ∧ right.Graded
  | _ => True

namespace Chain

variable {c left right : Chain} {symbol : Token}

theorem symbols_join :
    (left.join symbol right).symbols = left.symbols ++ symbol :: right.symbols := by
  simp [symbols, join]

theorem cutFrom_none {first : Expr} {rest : List (Token × Expr)} (h : cutFrom first rest = none) :
    rest = [] := by
  cases rest with
  | nil => rfl
  | cons link rest =>
    rw [cutFrom] at h
    split at h
    · cases h
    · split at h <;> cases h

theorem cutFrom_some {first : Expr} {rest : List (Token × Expr)}
    (h : cutFrom first rest = some (left, symbol, right)) :
    ⟨first, rest⟩ = left.join symbol right ∧
      (∀ s ∈ left.symbols, Operator.group s.text ≤ Operator.group symbol.text) ∧
      ∀ s ∈ right.symbols, Operator.group s.text < Operator.group symbol.text := by
  induction rest generalizing first left symbol right with
  | nil => cases h
  | cons link rest ih =>
    obtain ⟨s, next⟩ := link
    rw [cutFrom] at h
    split at h
    · next hnone =>
      cases h
      obtain rfl := cutFrom_none hnone
      exact ⟨rfl, by simp [symbols], by simp [symbols]⟩
    · next left' loosest right' hsome =>
      obtain ⟨hjoin, hleft, hright⟩ := ih hsome
      obtain ⟨hnext, hrest⟩ := Chain.mk.inj hjoin
      by_cases hle : Operator.group s.text ≤ Operator.group loosest.text
      · rw [if_pos hle] at h
        cases h
        refine ⟨?_, ?_, hright⟩
        · rw [join, hrest]
          simp [hnext]
        · intro u hu
          rcases List.mem_cons.mp hu with rfl | hu
          · exact hle
          · exact hleft u hu
      · rw [if_neg hle] at h
        cases h
        refine ⟨rfl, by simp [symbols], ?_⟩
        intro u hu
        have hsymbols : (⟨next, rest⟩ : Chain).symbols =
            left'.symbols ++ loosest :: right'.symbols := by rw [hjoin, symbols_join]
        rw [hsymbols] at hu
        rcases List.mem_append.mp hu with hu | hu
        · have := hleft u hu
          omega
        · rcases List.mem_cons.mp hu with rfl | hu
          · omega
          · have := hright u hu
            omega

theorem cutFrom_join
    (hleft : ∀ s ∈ left.symbols, Operator.group s.text ≤ Operator.group symbol.text)
    (hright : ∀ s ∈ right.symbols, Operator.group s.text < Operator.group symbol.text) :
    (left.join symbol right).cut = some (left, symbol, right) := by
  obtain ⟨first, rest⟩ := left
  induction rest generalizing first with
  | nil =>
    rw [cut, join, List.nil_append, cutFrom]
    split
    · rfl
    · next left' loosest right' hsome =>
      obtain ⟨hjoin, -, -⟩ := cutFrom_some hsome
      have hmem : loosest ∈ right.symbols := by
        have hsymbols := congrArg symbols hjoin
        rw [symbols_join] at hsymbols
        exact hsymbols ▸ List.mem_append_right _ List.mem_cons_self
      have hlt := hright loosest hmem
      rw [if_neg (by omega)]
  | cons link rest ih =>
    obtain ⟨s, next⟩ := link
    obtain ⟨hs, hrest⟩ := List.forall_mem_cons.mp hleft
    have hcut := ih next hrest
    rw [cut, join] at hcut ⊢
    rw [List.cons_append, cutFrom, hcut]
    exact if_pos hs

/-- A chain is cut at the loosest of its operators, and of those at the last. -/
theorem cut_iff : c.cut = some (left, symbol, right) ↔ c = left.join symbol right ∧
    (∀ s ∈ left.symbols, Operator.group s.text ≤ Operator.group symbol.text) ∧
    ∀ s ∈ right.symbols, Operator.group s.text < Operator.group symbol.text := by
  refine ⟨cutFrom_some, ?_⟩
  rintro ⟨rfl, hleft, hright⟩
  exact cutFrom_join hleft hright

theorem cut_length (h : c.cut = some (left, symbol, right)) :
    left.rest.length < c.rest.length ∧ right.rest.length < c.rest.length := by
  rw [(cut_iff.mp h).1, join, List.length_append, List.length_cons]
  omega

/-- The tree of a chain: it is cut in two, and so is each side of the cut. -/
def build (c : Chain) : Expr :=
  match h : c.cut with
  | none => c.first
  | some (left, symbol, right) =>
    have := cut_length h
    .operator symbol left.build right.build
termination_by c.rest.length
decreasing_by all_goals omega

theorem build_single (e : Expr) : build ⟨e, []⟩ = e := by
  rw [build]
  split
  · rfl
  · next h => cases h

theorem build_join (hleft : ∀ s ∈ left.symbols, Operator.group s.text ≤ Operator.group symbol.text)
    (hright : ∀ s ∈ right.symbols, Operator.group s.text < Operator.group symbol.text) :
    (left.join symbol right).build = .operator symbol left.build right.build := by
  have hcut := cutFrom_join hleft hright
  rw [build]
  split
  · next h =>
    rw [hcut] at h
    cases h
  · next h =>
    rw [hcut] at h
    cases h
    rfl

end Chain

theorem Tops.imp {e : Expr} {p q : Nat → Prop} (hpq : ∀ g, p g → q g) (h : e.Tops p) :
    e.Tops q := by
  cases e with
  | operator symbol left right => exact hpq _ h
  | _ => trivial

theorem Graded.symbols_lt {e : Expr} {group : Nat} (h : e.Graded) (htop : e.Tops (· < group)) :
    ∀ s ∈ e.chain.symbols, Operator.group s.text < group := by
  match e with
  | .literal _ => exact fun s hs => (List.not_mem_nil hs).elim
  | .get _ => exact fun s hs => (List.not_mem_nil hs).elim
  | .call .. => exact fun s hs => (List.not_mem_nil hs).elim
  | .operator symbol left right =>
    obtain ⟨hleft, hright, hgleft, hgright⟩ := h
    have hsymbol : Operator.group symbol.text < group := htop
    -- on the left no operator is looser than this one, and on the right all are tighter
    have hls := hgleft.symbols_lt (hleft.imp fun g hg => Nat.lt_of_le_of_lt hg hsymbol)
    have hrs := hgright.symbols_lt (hright.imp fun g hg => Nat.lt_trans hg hsymbol)
    intro s hs
    rw [chain, Chain.symbols_join] at hs
    rcases List.mem_append.mp hs with hs | hs
    · exact hls s hs
    · rcases List.mem_cons.mp hs with rfl | hs
      · exact hsymbol
      · exact hrs s hs

theorem Graded.build {e : Expr} (h : e.Graded) : e.chain.build = e := by
  match e with
  | .literal _ => exact Chain.build_single _
  | .get _ => exact Chain.build_single _
  | .call .. => exact Chain.build_single _
  | .operator symbol left right =>
    obtain ⟨hleft, hright, hgleft, hgright⟩ := h
    have hls := hgleft.symbols_lt (hleft.imp fun g hg => Nat.lt_succ_of_le hg)
    have hrs := hgright.symbols_lt hright
    rw [chain, Chain.build_join (fun s hs => Nat.le_of_lt_succ (hls s hs)) hrs, hgleft.build,
      hgright.build]

/-- No two graded expressions have one chain. -/
theorem Graded.unique {e other : Expr} (h : e.Graded) (h' : other.Graded)
    (hchain : other.chain = e.chain) : other = e := by
  rw [← h'.build, hchain, h.build]

end Arbor.Expr
