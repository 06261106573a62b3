import Arbor.Value
/-!
# Memory

Memory is one table of bindings. A binding is visible at the nodes that its anchor encloses, and of
several visible bindings of a name the newest counts. Storing writes over the visible binding and
makes a new one only where there is none. Removing leaves an empty slot, so that the index of a
slot never changes.
-/
namespace Arbor

structure Binding where
  name : String
  value : Value
  /-- The parameter list, when the value can be called. -/
  params : Option NodeId
  /-- The node whose subtree sees the binding; an absent one makes it global. -/
  anchor : Option NodeId
  deriving DecidableEq, Repr

structure Memory where
  slots : Array (Option Binding)
  deriving DecidableEq, Repr

namespace Memory

def empty : Memory := ⟨#[]⟩

def size (m : Memory) : Nat := m.slots.size

def get? (m : Memory) (slot : Nat) : Option Binding := m.slots.getD slot none

/-- Adds a global binding, whether or not its name is bound already. -/
def seed (m : Memory) (name : String) (value : Value) : Memory :=
  ⟨m.slots.push (some ⟨name, value, none, none⟩)⟩

def sees (m : Memory) (t : Tree) (name : String) (access : NodeId) (slot : Nat) : Bool :=
  match m.get? slot with
  | some b => b.name == name && t.encloses b.anchor access
  | none => false

/-- The newest slot below `bound` that binds `name` where `access` stands. -/
def lookupBelow (m : Memory) (t : Tree) (name : String) (access : NodeId) : Nat → Option Nat
  | 0 => none
  | slot + 1 =>
    if m.sees t name access slot then some slot else m.lookupBelow t name access slot

def lookup (m : Memory) (t : Tree) (name : String) (access : NodeId) : Option Nat :=
  m.lookupBelow t name access m.size

def resolve (m : Memory) (t : Tree) (name : String) (access : NodeId) : Option Binding :=
  (m.lookup t name access).bind m.get?

def target (m : Memory) (t : Tree) (name : String) (access : NodeId) : Nat :=
  (m.lookup t name access).getD m.size

def store (m : Memory) (t : Tree) (name : String) (value : Value) (params : Option NodeId)
    (access : NodeId) : Memory :=
  match m.lookup t name access with
  | some slot =>
    ⟨m.slots.modify slot (·.map fun b => { b with value := value, params := params })⟩
  | none => ⟨m.slots.push (some ⟨name, value, params, some access⟩)⟩

/-- Empties the slot that binds `name` at `access`, if there is one. -/
def remove (m : Memory) (t : Tree) (name : String) (access : NodeId) : Memory :=
  match m.lookup t name access with
  | some slot => ⟨m.slots.modify slot fun _ => none⟩
  | none => m

def bindings (m : Memory) : List Binding := m.slots.toList.reverse.filterMap id

end Memory

end Arbor
