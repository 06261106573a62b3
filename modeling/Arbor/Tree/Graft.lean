import Arbor.Expr
import Arbor.Tree
/-!
# Expressions in the tree

Grafting adds the nodes of an expression. Operands come before their operator, and a call comes
before its arguments, so nodes are numbered in the order in which their tokens complete them. An
expression that could not be read to its end leaves litter: the nodes of its finished parts, which
hang on nothing.
-/
namespace Arbor.Tree

def literalTag (t : Token) : Tag :=
  if t.kind = .string then .textLiteral else .numberLiteral

mutual

def graft (t : Tree) : Expr → Tree × NodeId
  | .literal token =>
    let literal := t.size
    (t.add (literalTag token) token.text token.position, literal)
  | .get name =>
    let get := t.size
    (t.add .get name.text name.position, get)
  | .call name bracket arguments =>
    let call := t.size
    let list := call + 1
    let t := (t.add .call name.text name.position).add .arguments "arg" bracket.position
    let t := graftAll t list arguments
    (t.attach call list, call)
  | .operator symbol left right =>
    let (t, left) := graft t left
    let (t, right) := graft t right
    let operator := t.size
    let t := t.add .operator symbol.text symbol.position
    ((t.attach operator left).attach operator right, operator)

def graftAll (t : Tree) (list : NodeId) : List Expr → Tree
  | [] => t
  | e :: rest =>
    let (t, argument) := graft t e
    graftAll (t.attach list argument) list rest

end

/-- Adds what waits in `frames`, outermost first. The answer has the list of the innermost call, if
that is where reading stands. -/
def strew (t : Tree) : List Expr.Frame → Tree × Option NodeId
  | [] => (t, none)
  | .operand left _ :: below => (((t.strew below).1.graft left).1, none)
  | .argument name bracket before :: below =>
    let t := (t.strew below).1
    let list := t.size + 1
    let t := (t.add .call name.text name.position).add .arguments "arg" bracket.position
    (t.graftAll list before.reverse, some list)

/-- Adds the finished parts of an expression that could not be read to its end. A last argument
hangs on its list also where neither a comma nor a bracket follows it. -/
def litter (t : Tree) (stuck : Expr.Stuck) : Tree :=
  match stuck.operand with
  | none => (t.strew stuck.frames).1
  | some operand =>
    let (frames, e) := Expr.fold Operator.loosest stuck.frames operand
    let (t, list) := t.strew frames
    let (t, operand) := t.graft e
    match list with
    | some list => t.attach list operand
    | none => t

end Arbor.Tree
