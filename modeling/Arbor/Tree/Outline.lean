import Arbor.Text.Quoted
import Arbor.Tree
/-!
# Outlines

A shape is what is left of a subtree without indices and positions: tags, texts and the order of
children. An outline writes a shape with one line for each node, indented by its depth.
-/
namespace Arbor

inductive Shape where
  | node (tag : Tag) (text : String) (children : List Shape)
  deriving Repr

def Tag.label : Tag → String
  | .root => "Root"
  | .body => "Body"
  | .call => "Call"
  | .branch => "If"
  | .get => "Get"
  | .loop => "While"
  | .store => "Store"
  | .arguments => "ArgList"
  | .textLiteral => "StringLit"
  | .numberLiteral => "NumberLit"
  | .giveBack => "Return"
  | .output => "Output"
  | .input => "Input"
  | .remove => "Remove"
  | .function => "Function"
  | .operator => "Operator"
  | .pass => "Pass"

structure Entry where
  depth : Nat
  tag : Tag
  text : String
  deriving DecidableEq, Repr

def Entry.line (e : Entry) : List Char :=
  List.replicate (2 * e.depth) ' ' ++ e.tag.label.toList ++
    ' ' :: Text.quoted e.text.toList ++ ['\n']

mutual

def Shape.entries (depth : Nat) (done : Array Entry) : Shape → Array Entry
  | .node tag text children => Shape.entriesAll (depth + 1) (done.push ⟨depth, tag, text⟩) children

def Shape.entriesAll (depth : Nat) (done : Array Entry) : List Shape → Array Entry
  | [] => done
  | shape :: shapes => Shape.entriesAll depth (shape.entries depth done) shapes

end

def Shape.outline (s : Shape) : String :=
  (s.entries 0 #[]).foldl (fun text e => text ++ String.ofList e.line) ""

namespace Tree

/-- The shape of the subtree at `id`, cut off below `height` levels. -/
def shapeWithin (t : Tree) : Nat → NodeId → Shape
  | 0, id => .node (t.tag id) (t.text id) []
  | height + 1, id =>
    .node (t.tag id) (t.text id) ((t.children id).toList.map (t.shapeWithin height))

/-- The shape of the subtree at `id`. No path down a tree is longer than its size. -/
def shape (t : Tree) (id : NodeId) : Shape := t.shapeWithin t.size id

def outline (t : Tree) (id : NodeId) : String := (t.shape id).outline

end Tree

end Arbor
