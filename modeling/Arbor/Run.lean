import Arbor.Fault
import Arbor.Memory
/-!
# Runs

A run reads a program and changes a state. It ends with a value or with a fault, and the state is
kept in both cases; or its fuel does not reach, and then there is neither. Two counters measure how
deep a run stands: `depth` counts calls and `nesting` counts steps inside steps. Each step puts the
counters back as it found them, whether it ends well or not.
-/
namespace Arbor

structure Settings where
  maxDepth : Nat := 10000
  maxNesting : Nat := 40000
  /-- Whether a line ends after each printed text. -/
  printNewline : Bool := false
  deriving DecidableEq, Repr

structure Program where
  tree : Tree
  settings : Settings

inductive Emission where
  | printed (text : String)
  | lineBreak
  | diagnostic (line : String)
  /-- A text of the conversation around the program. -/
  | notice (text : String)
  deriving DecidableEq, Repr

structure State where
  memory : Memory
  /-- Everything sent, oldest first. -/
  output : Array Emission
  /-- The lines that are still to be read. -/
  input : List String
  depth : Nat
  nesting : Nat
  deriving DecidableEq, Repr

inductive Outcome (σ α : Type) where
  | done (value : α) (state : σ)
  | failed (fault : Fault) (state : σ)
  | outOfFuel
  deriving DecidableEq, Repr

def Run (α : Type) := State → Outcome State α

namespace Run

@[always_inline] instance : Monad Run where
  pure a s := .done a s
  bind x f s :=
    match x s with
    | .done a s => f a s
    | .failed fault s => .failed fault s
    | .outOfFuel => .outOfFuel

@[inline] def outOfFuel : Run α := fun _ => .outOfFuel

@[inline] def memory : Run Memory := fun s => .done s.memory s

def emit (e : Emission) : Run Unit := fun s => .done () { s with output := s.output.push e }

def store (p : Program) (name : String) (value : Value) (params : Option NodeId)
    (scope : NodeId) : Run Unit := fun s =>
  .done () { s with memory := s.memory.store p.tree name value params scope }

def remove (p : Program) (name : String) (scope : NodeId) : Run Unit := fun s =>
  .done () { s with memory := s.memory.remove p.tree name scope }

/-- Takes the next line. After the last line every further one is empty. -/
def readLine : Run String := fun s =>
  match s.input with
  | [] => .done "" s
  | line :: rest => .done line { s with input := rest }

def print (p : Program) (text : String) : Run Unit := do
  emit (.printed text)
  if p.settings.printNewline then emit .lineBreak

/-- A body is shown by the brace that opens it. -/
def nestingFault (p : Program) (node : NodeId) : Fault :=
  .nestsTooDeep (if p.tree.tag node = .body then "\x7b" else p.tree.text node)
    (p.tree.position node) p.settings.maxNesting

/-- Runs a step one level deeper, unless the nesting is at its limit. -/
@[inline] def nested (p : Program) (node : NodeId) (step : Run α) : Run α := fun s =>
  if s.nesting < p.settings.maxNesting then
    match step { s with nesting := s.nesting + 1 } with
    | .done a s => .done a { s with nesting := s.nesting - 1 }
    | .failed fault s => .failed fault { s with nesting := s.nesting - 1 }
    | .outOfFuel => .outOfFuel
  else .failed (nestingFault p node) s

def checkDepth (p : Program) (name : String) (access : NodeId) : Run Unit := fun s =>
  if s.depth < p.settings.maxDepth then .done () s
  else .failed (.callsTooDeep name (p.tree.position access) p.settings.maxDepth) s

@[inline] def called (body : Run α) : Run α := fun s =>
  match body { s with depth := s.depth + 1 } with
  | .done a s => .done a { s with depth := s.depth - 1 }
  | .failed fault s => .failed fault { s with depth := s.depth - 1 }
  | .outOfFuel => .outOfFuel

end Run

end Arbor
