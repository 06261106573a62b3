/-!
# The program tree

The nodes of a program live in one arena and refer to each other by index. A node is added without
links and attached to a parent at most once; its children keep the order in which they were
attached. The parent links say which nodes enclose a node, and so where a name is visible.
-/
namespace Arbor

abbrev NodeId := Nat

inductive Tag where
  | root
  | body
  | call
  | branch
  | get
  | loop
  | store
  | arguments
  | textLiteral
  | numberLiteral
  | giveBack
  | output
  | input
  | remove
  | function
  | operator
  | pass
  deriving DecidableEq, Repr, Inhabited

structure Node where
  tag : Tag
  text : String
  /-- The offset of the token that the node was made from. -/
  position : Nat
  parent : Option NodeId
  children : Array NodeId
  deriving DecidableEq, Repr, Inhabited

structure Tree where
  nodes : Array Node
  deriving DecidableEq, Repr

namespace Tree

def empty : Tree := ⟨#[]⟩

def size (t : Tree) : Nat := t.nodes.size

/-- The node at `id`; past the end of the arena there are blank nodes. -/
def node (t : Tree) (id : NodeId) : Node := t.nodes.getD id default

def tag (t : Tree) (id : NodeId) : Tag := (t.node id).tag

def text (t : Tree) (id : NodeId) : String := (t.node id).text

def position (t : Tree) (id : NodeId) : Nat := (t.node id).position

def parent (t : Tree) (id : NodeId) : Option NodeId := (t.node id).parent

def children (t : Tree) (id : NodeId) : Array NodeId := (t.node id).children

def child? (t : Tree) (id : NodeId) (index : Nat) : Option NodeId := (t.children id)[index]?

def lastChild? (t : Tree) (id : NodeId) : Option NodeId := (t.children id).back?

/-- Adds a node without links. Its index is the size of the tree before. -/
def add (t : Tree) (tag : Tag) (text : String) (position : Nat) : Tree :=
  ⟨t.nodes.push ⟨tag, text, position, none, #[]⟩⟩

def root : NodeId := 0

def planted : Tree := empty.add .root "root" 0

def attach (t : Tree) (parent child : NodeId) : Tree :=
  ⟨(t.nodes.modify child fun n => { n with parent := some parent }).modify parent
    fun n => { n with children := n.children.push child }⟩

def addUnder (t : Tree) (parent : NodeId) (tag : Tag) (text : String) (position : Nat) : Tree :=
  let child := t.size
  (t.add tag text position).attach parent child

def retag (t : Tree) (id : NodeId) (tag : Tag) : Tree :=
  ⟨t.nodes.modify id fun n => { n with tag := tag }⟩

def climbs (t : Tree) (target : NodeId) : Nat → NodeId → Bool
  | 0, _ => false
  | steps + 1, node =>
    if node = target then true
    else match t.parent node with
      | some parent => t.climbs target steps parent
      | none => false

/-- Whether `anchor` encloses `node`. An absent anchor encloses everything. A climb that meets no
node twice ends within the size of the tree. -/
def encloses (t : Tree) (anchor : Option NodeId) (node : NodeId) : Bool :=
  match anchor with
  | none => true
  | some anchor => t.climbs anchor t.size node

/-- Drops the nodes from `size` on, and the links of older nodes to them. -/
def truncate (t : Tree) (size : Nat) : Tree :=
  ⟨(t.nodes.take size).map fun n => { n with children := n.children.filter (· < size) }⟩

def follow? (t : Tree) (path : List Nat) : Option NodeId :=
  path.foldlM (fun id index => t.child? id index) root

end Tree

end Arbor
