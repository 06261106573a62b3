import Arbor.Evaluate
import Mathlib.Logic.Function.Iterate

/-!
# Returning as an exit

A reference for runs in which `return` is an exit. The machine keeps what is still to be done on a
stack, so it needs no fuel, and nothing passes a returned value on: an exit drops everything up to
the nearest boundary at once. The boundaries are the body of a call, a body that is the operand of
an expression, and the run itself. A fault drops everything.
-/
namespace Arbor.Machine

structure Counters where
  depth : Nat
  nesting : Nat
  deriving DecidableEq, Repr

def counters (s : State) : Counters := ⟨s.depth, s.nesting⟩

def recount (s : State) (c : Counters) : State := { s with depth := c.depth, nesting := c.nesting }

/-- What is left to do in the bodies up to a boundary, once the statement at hand has ended. -/
inductive Pending where
  /-- A step inside a step is over. -/
  | leave
  | statements (rest : List NodeId)
  | loop (condition body : Option NodeId)
  deriving DecidableEq, Repr

mutual

/-- What becomes of the value of an expression. -/
inductive Await where
  | leave (k : Await)
  | left (symbol : String) (right : Option NodeId) (k : Await)
  | right (symbol : String) (left : Value) (k : Await)
  | argument (name : String) (names : List String) (arguments : List NodeId) (body : NodeId)
      (k : Await)
  | store (name : String) (scope : NodeId) (inside : List Pending) (b : Boundary)
  | print (inside : List Pending) (b : Boundary)
  | giveBack (inside : List Pending) (b : Boundary)
  | discard (inside : List Pending) (b : Boundary)
  | branches (rest : List NodeId) (inside : List Pending) (b : Boundary)
  | loop (condition body : Option NodeId) (inside : List Pending) (b : Boundary)

/-- Where an exit ends, and the counters from before. -/
inductive Boundary where
  | run
  | call (before : Counters) (k : Await)
  | operand (before : Counters) (k : Await)

end

inductive Control where
  | evaluate (node : Option NodeId) (k : Await)
  | node (node : NodeId) (k : Await)
  | call (name : String) (arguments : Option NodeId) (access : NodeId) (k : Await)
  | bind (names : List String) (arguments : List NodeId) (body : NodeId) (k : Await)
  | enter (body : NodeId) (k : Await)
  | value (e : Evaluation) (k : Await)
  | execute (body : NodeId) (start : Nat) (inside : List Pending) (b : Boundary)
  | statements (list : List NodeId) (inside : List Pending) (b : Boundary)
  | statement (node : NodeId) (inside : List Pending) (b : Boundary)
  | branches (nodes : List NodeId) (inside : List Pending) (b : Boundary)
  | loop (condition body : Option NodeId) (inside : List Pending) (b : Boundary)
  | ended (inside : List Pending) (b : Boundary)
  | exit (v : Value) (inside : List Pending) (b : Boundary)

inductive Config where
  | running (control : Control) (s : State)
  | returned (r : Option Value) (s : State)
  | faulted (fault : Fault) (s : State)

section
variable (p : Program) (ground : Counters)

/-- A fault drops everything; `ground` are the counters at the start of the run. -/
def fault (f : Fault) (s : State) : Config := .faulted f (recount s ground)

def Boundary.close (r : Option Value) (s : State) : Boundary → Config
  | .run => .returned r (recount s ground)
  | .call before k | .operand before k =>
    .running (.value ⟨r.getD .null, none⟩ k) (recount s before)

def nested (node : NodeId) (control : Control) (s : State) : Config :=
  if s.nesting < p.settings.maxNesting then .running control { s with nesting := s.nesting + 1 }
  else fault ground (Run.nestingFault p node) s

def stored (name : String) (value : Value) (params : Option NodeId) (scope : NodeId) (s : State) :
    State :=
  { s with memory := s.memory.store p.tree name value params scope }

def removed (name : String) (scope : NodeId) (s : State) : State :=
  { s with memory := s.memory.remove p.tree name scope }

def asked (name : String) (scope : NodeId) (s : State) : State :=
  match s.input with
  | [] => stored p name (.text "") none scope s
  | line :: rest => stored p name (.text line) none scope { s with input := rest }

def printed (text : String) (s : State) : State :=
  let output := s.output.push (.printed text)
  { s with output := if p.settings.printNewline then output.push .lineBreak else output }

def receive (e : Evaluation) (s : State) : Await → Config
  | .leave k => .running (.value e k) { s with nesting := s.nesting - 1 }
  | .left symbol right k => .running (.evaluate right (.right symbol e.value k)) s
  | .right symbol left k => .running (.value ⟨Operator.apply symbol left e.value, none⟩ k) s
  | .argument name names arguments body k =>
    .running (.bind names arguments body k) (stored p name e.value e.params body s)
  | .store name scope inside b =>
    .running (.ended inside b) (stored p name e.value e.params scope s)
  | .print inside b => .running (.ended inside b) (printed p e.value.display s)
  | .giveBack inside b => .running (.exit e.value inside b) s
  | .discard inside b => .running (.ended inside b) s
  | .branches rest inside b =>
    match e.value.truthy, rest with
    | true, body :: _ => .running (.execute body 0 inside b) s
    | false, _ :: rest => .running (.branches rest inside b) s
    | _, [] => .running (.ended inside b) s
  | .loop condition body inside b =>
    match e.value.truthy, body with
    | false, _ => .running (.ended inside b) s
    | true, none => .running (.loop condition none inside b) s
    | true, some id => .running (.execute id 0 (.loop condition body :: inside) b) s

def startNode (node : NodeId) (k : Await) (s : State) : Config :=
  match p.tree.tag node with
  | .textLiteral => .running (.value ⟨.text (p.tree.text node), none⟩ k) s
  | .numberLiteral => .running (.value ⟨.number (literalNumber (p.tree.text node)), none⟩ k) s
  | .get =>
    match s.memory.resolve p.tree (p.tree.text node) node with
    | some b => .running (.value ⟨b.value, b.params⟩ k) s
    | none => .running (.value ⟨.undefined, none⟩ k) s
  | .call => .running (.call (p.tree.text node) (p.tree.child? node 0) node k) s
  | .body => .running (.execute node 0 [] (.operand (counters s) k)) s
  | .operator =>
    .running (.evaluate (p.tree.child? node 0) (.left (p.tree.text node) (p.tree.child? node 1) k)) s
  | _ => .running (.value ⟨.number 0, none⟩ k) s

def startCall (name : String) (arguments : Option NodeId) (access : NodeId) (k : Await)
    (s : State) : Config :=
  match s.memory.resolve p.tree name access with
  | none => .running (.value ⟨.undefined, none⟩ k) s
  | some b =>
    match b.value with
    | .body body =>
      if s.depth < p.settings.maxDepth then
        .running (.bind (paramNames p b.params) (argumentNodes p arguments) body k) s
      else fault ground (.callsTooDeep name (p.tree.position access) p.settings.maxDepth) s
    | _ => .running (.value ⟨.null, none⟩ k) s

def startStatement (node : NodeId) (inside : List Pending) (b : Boundary) (s : State) : Config :=
  let name := p.tree.text node
  let scope := (p.tree.parent node).getD node
  match p.tree.tag node with
  | .store => .running (.evaluate (p.tree.child? node 0) (.store name scope inside b)) s
  | .function =>
    let value := match p.tree.child? node 1 with
      | some body => .body body
      | none => .null
    .running (.ended inside b) (stored p name value (p.tree.child? node 0) scope s)
  | .remove => .running (.ended inside b) (removed p name scope s)
  | .input => .running (.ended inside b) (asked p name scope s)
  | .call => .running (.call name (p.tree.child? node 0) node (.discard inside b)) s
  | .branch => .running (.branches (p.tree.children node).toList inside b) s
  | .loop => .running (.loop (p.tree.child? node 0) (p.tree.child? node 1) inside b) s
  | .output => .running (.evaluate (p.tree.child? node 0) (.print inside b)) s
  | .giveBack => .running (.evaluate (p.tree.child? node 0) (.giveBack inside b)) s
  | _ => .running (.ended inside b) s

def resume (b : Boundary) (s : State) : List Pending → Config
  | [] => b.close ground none s
  | .leave :: inside => .running (.ended inside b) { s with nesting := s.nesting - 1 }
  | .statements rest :: inside => .running (.statements rest inside b) s
  | .loop condition body :: inside => .running (.loop condition body inside b) s

def step (control : Control) (s : State) : Config :=
  match control with
  | .evaluate none k => .running (.value ⟨.null, none⟩ k) s
  | .evaluate (some node) k => nested p ground node (.node node (.leave k)) s
  | .node node k => startNode p node k s
  | .call name arguments access k => startCall p ground name arguments access k s
  | .bind [] _ body k => .running (.enter body k) s
  | .bind (name :: names) [] body k =>
    .running (.bind names [] body k) (stored p name .undefined none body s)
  | .bind (name :: names) (argument :: arguments) body k =>
    .running (.evaluate (some argument) (.argument name names arguments body k)) s
  | .enter body k =>
    .running (.execute body 0 [] (.call (counters s) k)) { s with depth := s.depth + 1 }
  | .value e k => receive p e s k
  | .execute body start inside b =>
    nested p ground body
      (.statements ((p.tree.children body).toList.drop start) (.leave :: inside) b) s
  | .statements [] inside b => .running (.ended inside b) s
  | .statements (statement :: rest) inside b =>
    .running (.statement statement (.statements rest :: inside) b) s
  | .statement node inside b => startStatement p node inside b s
  | .branches [] inside b => .running (.ended inside b) s
  | .branches (condition :: rest) inside b =>
    .running (.evaluate (some condition) (.branches rest inside b)) s
  | .loop condition body inside b => .running (.evaluate condition (.loop condition body inside b)) s
  | .ended inside b => resume ground b s inside
  | .exit v _ b => b.close ground (some v) s

def advance : Config → Config
  | .running control s => step p ground control s
  | halted => halted

def Reaches (c c' : Config) : Prop := ∃ n, (advance p ground)^[n] c = c'

def Lasts (n : Nat) (c : Config) : Prop :=
  ∃ control s, (advance p ground)^[n] c = .running control s

end

/-- The machine starts to execute `body` in `s` and comes to `result`. -/
def Halts (p : Program) (body : NodeId) (start : Nat) (s : State) (result : Config) : Prop :=
  Reaches p (counters s) (.running (.execute body start [] .run) s) result

end Arbor.Machine
