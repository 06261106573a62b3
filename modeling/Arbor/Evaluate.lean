import Arbor.Operator.Apply
import Arbor.Run
/-!
# Evaluation

Expressions are evaluated and statements executed by one recursion. Executing a body gives the
value of the first `return` in it, or nothing when it runs to its end; branches and loops pass a
returned value on, while calls and bodies used as values keep it. The recursion is bounded by fuel:
every step takes one unit and hands what is left to the steps inside it.
-/
namespace Arbor

/-- The value of an expression. It has a parameter list when it can be called. -/
structure Evaluation where
  value : Value
  params : Option NodeId := none
  deriving DecidableEq, Repr

open Run

variable (p : Program)

def paramNames (params : Option NodeId) : List String :=
  match params with
  | some list => (p.tree.children list).toList.map p.tree.text
  | none => []

def argumentNodes (arguments : Option NodeId) : List NodeId :=
  match arguments with
  | some list => (p.tree.children list).toList
  | none => []

def literalNumber (text : String) : Float := (Number.read? text.toList).getD 0

mutual

def evaluate : Nat → Option NodeId → Run Evaluation
  | _, none => return ⟨.null, none⟩
  | 0, some _ => outOfFuel
  | fuel + 1, some node => nested p node (evaluateNode fuel node)

def evaluateNode : Nat → NodeId → Run Evaluation
  | 0, _ => outOfFuel
  | fuel + 1, node => do
    match p.tree.tag node with
    | .textLiteral => return ⟨.text (p.tree.text node), none⟩
    | .numberLiteral => return ⟨.number (literalNumber (p.tree.text node)), none⟩
    | .get =>
      match (← memory).resolve p.tree (p.tree.text node) node with
      | some b => return ⟨b.value, b.params⟩
      | none => return ⟨.undefined, none⟩
    | .call => return ⟨← runCall fuel (p.tree.text node) (p.tree.child? node 0) node, none⟩
    | .body => return ⟨(← execute fuel node 0).getD .null, none⟩
    | .operator =>
      let left ← evaluate fuel (p.tree.child? node 0)
      let right ← evaluate fuel (p.tree.child? node 1)
      return ⟨Operator.apply (p.tree.text node) left.value right.value, none⟩
    | _ => return ⟨.number 0, none⟩

/-- Calls what `name` is bound to at `access`. A name that is not visible gives undefined, and one
that is bound to no body gives null. -/
def runCall : Nat → String → Option NodeId → NodeId → Run Value
  | 0, _, _, _ => outOfFuel
  | fuel + 1, name, arguments, access => do
    match (← memory).resolve p.tree name access with
    | none => return .undefined
    | some b =>
      match b.value with
      | .body body =>
        checkDepth p name access
        bindParams fuel (paramNames p b.params) (argumentNodes p arguments) body
        return (← called (execute fuel body 0)).getD .null
      | _ => return .null

/-- Stores each argument under its parameter's name before the next one is evaluated. The cells
belong to the body, so all calls of a function share them. A missing argument is undefined, and
surplus arguments are not evaluated. -/
def bindParams : Nat → List String → List NodeId → NodeId → Run Unit
  | _, [], _, _ => return ()
  | 0, _ :: _, _, _ => outOfFuel
  | fuel + 1, name :: names, [], body => do
    store p name .undefined none body
    bindParams fuel names [] body
  | fuel + 1, name :: names, argument :: arguments, body => do
    let e ← evaluate fuel (some argument)
    store p name e.value e.params body
    bindParams fuel names arguments body

def execute : Nat → NodeId → Nat → Run (Option Value)
  | 0, _, _ => outOfFuel
  | fuel + 1, body, start =>
    nested p body (runStatements fuel ((p.tree.children body).toList.drop start))

def runStatements : Nat → List NodeId → Run (Option Value)
  | _, [] => return none
  | 0, _ :: _ => outOfFuel
  | fuel + 1, statement :: rest => do
    match ← executeStatement fuel statement with
    | some returned => return some returned
    | none => runStatements fuel rest

/-- A statement stores in the body that it stands in. -/
def executeStatement : Nat → NodeId → Run (Option Value)
  | 0, _ => outOfFuel
  | fuel + 1, node => do
    let name := p.tree.text node
    let scope := (p.tree.parent node).getD node
    match p.tree.tag node with
    | .store =>
      let e ← evaluate fuel (p.tree.child? node 0)
      store p name e.value e.params scope
      return none
    | .function =>
      let value := match p.tree.child? node 1 with
        | some body => .body body
        | none => .null
      store p name value (p.tree.child? node 0) scope
      return none
    | .remove =>
      remove p name scope
      return none
    | .input =>
      let line ← readLine
      store p name (.text line) none scope
      return none
    | .call =>
      let _ ← runCall fuel name (p.tree.child? node 0) node
      return none
    | .branch => runBranches fuel (p.tree.children node).toList
    | .loop => runLoop fuel (p.tree.child? node 0) (p.tree.child? node 1)
    | .output =>
      let e ← evaluate fuel (p.tree.child? node 0)
      print p e.value.display
      return none
    | .giveBack =>
      let e ← evaluate fuel (p.tree.child? node 0)
      return some e.value
    | _ => return none

/-- Conditions and bodies alternate. The body after the first condition that holds is executed, if
there is one. -/
def runBranches : Nat → List NodeId → Run (Option Value)
  | _, [] => return none
  | 0, _ :: _ => outOfFuel
  | fuel + 1, condition :: rest => do
    let e ← evaluate fuel (some condition)
    match e.value.truthy, rest with
    | true, body :: _ => execute fuel body 0
    | true, [] => return none
    | false, _ :: rest => runBranches fuel rest
    | false, [] => return none

/-- A loop without a condition has none that holds, and one without a body only evaluates its
condition. -/
def runLoop : Nat → Option NodeId → Option NodeId → Run (Option Value)
  | 0, _, _ => outOfFuel
  | fuel + 1, condition, body => do
    let e ← evaluate fuel condition
    match e.value.truthy, body with
    | false, _ => return none
    | true, none => runLoop fuel condition none
    | true, some id =>
      match ← execute fuel id 0 with
      | some returned => return some returned
      | none => runLoop fuel condition body

end

end Arbor
