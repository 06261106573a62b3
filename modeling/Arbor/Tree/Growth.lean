import Arbor.Fault
import Arbor.Token.Scan
import Arbor.Tree.Graft
/-!
# Growing a tree from tokens

Statements are added one after the other to the body that is open. A body hangs on the statement
before it; `else` opens a further body of the same `if`. A token that has no place ends the growth
with a fault, and what was added before stays in the tree: dropping it is up to the caller.
-/
namespace Arbor.Tree

structure Growth where
  tree : Tree
  /-- The body that receives the next statement. -/
  scope : NodeId

/-- Where growth ended early. -/
structure Stunted where
  fault : Fault
  tree : Tree

namespace Growth

variable (g : Growth) (eof : Token)

abbrev Step := Except Stunted (Growth × List Token)

def refuse (why : Misplacement) (found : Token) : Step := .error ⟨.misplaced why found, g.tree⟩

def append (tag : Tag) (text : String) (position : Nat) : Growth :=
  { g with tree := g.tree.addUnder g.scope tag text position }

/-- Makes `statement` the last statement of the body `scope`, after its operand was hung on it if
one could be read. -/
def appendGuarded (scope : NodeId) (tree : Tree) (statement : NodeId)
    (operand : Except Expr.Stuck Expr) : Growth :=
  let tree := match operand with
    | .ok e =>
      let (tree, operand) := tree.graft e
      tree.attach statement operand
    | .error stuck => tree.litter stuck
  ⟨tree.attach scope statement, scope⟩

def openBranch? : Option NodeId :=
  (g.tree.parent g.scope).filter fun parent => g.tree.tag parent = .branch

/-- Opens a further body of an `if`, guarded by a condition or else by the literal 1. -/
def elseBranch (keyword : Token) (rest : List Token) : Step :=
  match g.openBranch? with
  | none => g.refuse .elseOutsideIf keyword
  | some branch =>
    let body := g.tree.size
    let tree := g.tree.add .body "body" keyword.position
    let (operand, rest) := Expr.readOptional rest
    let (tree, condition) := match operand with
      | .ok e => tree.graft e
      | .error stuck =>
        let tree := tree.litter stuck
        let one := tree.size
        (tree.add .numberLiteral "1" keyword.position, one)
    .ok (⟨(tree.attach branch condition).attach branch body, body⟩, rest)

def expect (kind : Token.Kind) (why : Misplacement) (tree : Tree) :
    List Token → Except Stunted (Token × List Token)
  | t :: rest => if t.kind = kind then .ok (t, rest) else .error ⟨.misplaced why t, tree⟩
  | [] => .error ⟨.misplaced why eof, tree⟩

/-- Adds a parameter to `list`, and further ones as long as commas follow. The answer has the
tokens after the last of them. -/
def parametersFrom (list : NodeId) (tree : Tree) : List Token → Except Stunted (Tree × List Token)
  | p :: rest =>
    if p.kind = .name then
      let tree := tree.addUnder list .store p.text p.position
      match rest with
      | c :: more =>
        if c.kind = .comma then parametersFrom list tree more else .ok (tree, c :: more)
      | [] => .ok (tree, [])
    else .error ⟨.misplaced .noParameter p, tree⟩
  | [] => .error ⟨.misplaced .noParameter eof, tree⟩

def parameters (list : NodeId) (tree : Tree) (rest : List Token) :
    Except Stunted (Tree × List Token) :=
  if (rest.headD eof).kind = .closing then .ok (tree, rest)
  else parametersFrom eof list tree rest

/-- Adds a function without a body, which hangs on it as on any other statement. -/
def function (rest : List Token) : Step := do
  let (name, rest) ← expect eof .name .noFunctionName g.tree rest
  let (bracket, rest) ← expect eof .opening .noParameterList g.tree rest
  let function := g.tree.size
  let list := function + 1
  let tree := (g.tree.add .function name.text name.position).add .arguments "arg" bracket.position
  let (tree, rest) ← parameters eof list tree rest
  let (_, rest) ← expect eof .closing .noParameterEnd tree rest
  return ({ g with tree := (tree.attach function list).attach g.scope function }, rest)

def openBody (brace : Token) (rest : List Token) : Step :=
  match g.tree.lastChild? g.scope with
  | none => g.refuse .bodyWithoutOwner brace
  | some owner =>
    let body := g.tree.size
    .ok (⟨(g.tree.add .body "body" brace.position).attach owner body, body⟩, rest)

/-- Closes the open body. The body around it is the parent of the statement that it hangs on. -/
def closeBody (brace : Token) (rest : List Token) : Step :=
  if g.scope = root then g.refuse .bodyNotOpen brace
  else match (g.tree.parent g.scope).bind g.tree.parent with
  | some enclosing => .ok ({ g with scope := enclosing }, rest)
  | none => g.refuse .detachedBody brace

def withOperand (tag : Tag) (t : Token) (rest : List Token) : Step :=
  let (operand, rest) := Expr.readOptional rest
  let statement := g.tree.size
  .ok (appendGuarded g.scope (g.tree.add tag t.text t.position) statement operand, rest)

def withName (tag : Tag) (t : Token) (rest : List Token) : Step := do
  let (name, rest) ← expect eof .name (.noNameAfter t.text) g.tree rest
  return (g.append tag name.text name.position, rest)

def keyword (t : Token) (rest : List Token) : Step :=
  match Keyword.ofText? t.text with
  | some .branch => g.withOperand .branch t rest
  | some .loop => g.withOperand .loop t rest
  | some .output => g.withOperand .output t rest
  | some .giveBack => g.withOperand .giveBack t rest
  | some .remove => g.withName eof .remove t rest
  | some .input => g.withName eof .input t rest
  | some .otherwise => g.elseBranch t rest
  | some .function => g.function eof rest
  | some .openBody => g.openBody t rest
  | some .closeBody => g.closeBody t rest
  | none => g.refuse .unknownKeyword t

/-- A statement that starts with a name is a call or a store. The name is read as one that stands
for its value, and turned into the target of a store when a colon follows. -/
def nameStatement (t : Token) (rest : List Token) : Step :=
  match Expr.read .operand (t :: rest) with
  | .error stuck =>
    .error ⟨.misplaced .noCall (stuck.tokens.headD eof), g.tree.litter stuck⟩
  | .ok (.get name, after) => do
    let (tree, statement) := g.tree.graft (.get name)
    let (_, after) ← expect eof .assign (.noColonAfter name.text) tree after
    let (operand, after) := Expr.readOptional after
    return (appendGuarded g.scope (tree.retag statement .store) statement operand, after)
  | .ok (call, after) =>
    let (tree, call) := g.tree.graft call
    .ok ({ g with tree := tree.attach g.scope call }, after)

def statement (t : Token) (rest : List Token) : Step :=
  match t.kind with
  | .semicolon => .ok (g.append .pass t.text t.position, rest)
  | .keyword => g.keyword eof t rest
  | .name => g.nameStatement eof t rest
  | _ => g.refuse .noStatement t

variable {eof}

theorem expect_eq_ok {kind : Token.Kind} {why : Misplacement} {tree : Tree}
    {tokens rest : List Token} {t : Token} (h : expect eof kind why tree tokens = .ok (t, rest)) :
    tokens = t :: rest := by
  cases tokens with
  | nil => simp [expect] at h
  | cons u tail =>
    rw [expect] at h
    split at h
    · cases h; rfl
    · cases h

theorem parametersFrom_length {list : NodeId} {tree tree' : Tree} {tokens rest : List Token}
    (h : parametersFrom eof list tree tokens = .ok (tree', rest)) :
    rest.length ≤ tokens.length := by
  fun_induction parametersFrom eof list tree tokens with
  | case1 _ _ _ _ _ _ _ ih => have := ih h; simp; omega
  | case2 => simp at h; simp [← h.2]
  | case3 => simp at h; simp [← h.2]
  | case4 => cases h
  | case5 => cases h

theorem parameters_length {list : NodeId} {tree tree' : Tree} {tokens rest : List Token}
    (h : parameters eof list tree tokens = .ok (tree', rest)) : rest.length ≤ tokens.length := by
  simp only [parameters] at h
  split at h
  · cases h; exact Nat.le_refl _
  · exact parametersFrom_length h

theorem bind_eq_ok {α β : Type} {x : Except Stunted α} {f : α → Except Stunted β} {b : β}
    (h : (x >>= f) = .ok b) : ∃ a, x = .ok a ∧ f a = .ok b := by
  cases x with
  | error => cases h
  | ok a => exact ⟨a, rfl, h⟩

theorem function_length {g g' : Growth} {tokens rest : List Token}
    (h : g.function eof tokens = .ok (g', rest)) : rest.length ≤ tokens.length := by
  obtain ⟨⟨name, r₁⟩, h₁, h⟩ := bind_eq_ok h
  obtain ⟨⟨bracket, r₂⟩, h₂, h⟩ := bind_eq_ok h
  obtain ⟨⟨tree, r₃⟩, h₃, h⟩ := bind_eq_ok h
  obtain ⟨⟨close, r₄⟩, h₄, h⟩ := bind_eq_ok h
  have hp := parameters_length h₃
  have hr : r₄ = rest := congrArg Prod.snd (Except.ok.inj h)
  subst hr
  rw [expect_eq_ok h₄] at hp
  rw [expect_eq_ok h₁, expect_eq_ok h₂]
  simp only [List.length_cons] at hp ⊢
  omega

theorem withOperand_length {g g' : Growth} {tag : Tag} {t : Token} {tokens rest : List Token}
    (h : g.withOperand tag t tokens = .ok (g', rest)) : rest.length ≤ tokens.length := by
  have hr : (Expr.readOptional tokens).2 = rest := congrArg Prod.snd (Except.ok.inj h)
  exact hr ▸ Expr.readOptional_length tokens

theorem withName_length {g g' : Growth} {tag : Tag} {t : Token} {tokens rest : List Token}
    (h : g.withName eof tag t tokens = .ok (g', rest)) : rest.length ≤ tokens.length := by
  obtain ⟨⟨name, r⟩, h₁, h⟩ := bind_eq_ok h
  cases h
  simp [expect_eq_ok h₁]

theorem elseBranch_length {g g' : Growth} {t : Token} {tokens rest : List Token}
    (h : g.elseBranch t tokens = .ok (g', rest)) : rest.length ≤ tokens.length := by
  simp only [elseBranch] at h
  split at h
  · cases h
  · have hr : (Expr.readOptional tokens).2 = rest := congrArg Prod.snd (Except.ok.inj h)
    exact hr ▸ Expr.readOptional_length tokens

theorem openBody_rest {g g' : Growth} {t : Token} {tokens rest : List Token}
    (h : g.openBody t tokens = .ok (g', rest)) : rest = tokens := by
  simp only [openBody] at h
  split at h <;> cases h
  rfl

theorem closeBody_rest {g g' : Growth} {t : Token} {tokens rest : List Token}
    (h : g.closeBody t tokens = .ok (g', rest)) : rest = tokens := by
  simp only [closeBody] at h
  split at h
  · cases h
  · split at h <;> cases h
    rfl

theorem keyword_length {g g' : Growth} {t : Token} {tokens rest : List Token}
    (h : g.keyword eof t tokens = .ok (g', rest)) : rest.length ≤ tokens.length := by
  simp only [keyword] at h
  split at h
  iterate 4 exact withOperand_length h
  iterate 2 exact withName_length h
  · exact elseBranch_length h
  · exact function_length h
  · exact (openBody_rest h).symm ▸ Nat.le_refl _
  · exact (closeBody_rest h).symm ▸ Nat.le_refl _
  · cases h

theorem nameStatement_length {g g' : Growth} {t : Token} {tokens rest : List Token}
    (h : g.nameStatement eof t tokens = .ok (g', rest)) : rest.length ≤ tokens.length := by
  simp only [nameStatement] at h
  split at h
  · cases h
  · next hr =>
    have hl := Expr.read_length hr
    obtain ⟨⟨colon, r⟩, h₁, h⟩ := bind_eq_ok h
    have ho := Expr.readOptional_length r
    have he : (Expr.readOptional r).2 = rest := congrArg Prod.snd (Except.ok.inj h)
    rw [expect_eq_ok h₁] at hl
    rw [he] at ho
    simp only [List.length_cons] at hl
    omega
  · next after _ hr =>
    have ha : after = rest := congrArg Prod.snd (Except.ok.inj h)
    exact Nat.le_of_lt_succ (ha ▸ Expr.read_length hr)

theorem statement_length {g g' : Growth} {t : Token} {tokens rest : List Token}
    (h : g.statement eof t tokens = .ok (g', rest)) : rest.length ≤ tokens.length := by
  simp only [statement] at h
  split at h
  · cases h; exact Nat.le_refl _
  · exact keyword_length h
  · exact nameStatement_length h
  · cases h

def grow (eof : Token) (g : Growth) : List Token → Except Stunted Tree
  | [] => .ok g.tree
  | t :: rest =>
    match _h : g.statement eof t rest with
    | .ok (g, rest) => grow eof g rest
    | .error stunted => .error stunted
termination_by tokens => tokens.length
decreasing_by exact Nat.lt_succ_of_le (statement_length _h)

end Growth

def eofAfter (tokens : List Token) : Token :=
  ⟨.eof, "", match tokens.getLast? with
    | some t => t.position + t.text.length
    | none => 0⟩

def grow (t : Tree) (tokens : List Token) : Except Stunted Tree :=
  Growth.grow ((tokens.find? (·.kind = .eof)).getD (eofAfter tokens)) ⟨t, root⟩
    (tokens.takeWhile (·.kind ≠ .eof))

def ofSource (source : String) : Except Fault Tree :=
  match Token.scan source with
  | .error fault => .error fault
  | .ok tokens => (planted.grow tokens).mapError Stunted.fault

end Arbor.Tree
