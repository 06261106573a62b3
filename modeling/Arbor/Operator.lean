/-!
# Binary operators

Operators reach the program tree as text, so that a tree may hold a text that names none of them.
`Operator.ofSymbol?` says which operator a text names.
-/
namespace Arbor

inductive Operator where
  | atMost
  | atLeast
  | equal
  | unequal
  | and
  | or
  | power
  | times
  | divide
  | remainder
  | bitXor
  | plus
  | minus
  | bitAnd
  | bitOr
  | less
  | greater
  deriving DecidableEq, Repr

namespace Operator

def all : List Operator :=
  [atMost, atLeast, equal, unequal, and, or, power, times, divide, remainder, bitXor, plus, minus,
    bitAnd, bitOr, less, greater]

def symbol : Operator → String
  | atMost => "<="
  | atLeast => ">="
  | equal => "=="
  | unequal => "!="
  | and => "&&"
  | or => "||"
  | power => "**"
  | times => "*"
  | divide => "/"
  | remainder => "%"
  | bitXor => "^"
  | plus => "+"
  | minus => "-"
  | bitAnd => "&"
  | bitOr => "|"
  | less => "<"
  | greater => ">"

def ofSymbol? (text : String) : Option Operator := all.find? (·.symbol == text)

theorem ofSymbol?_symbol (op : Operator) : ofSymbol? op.symbol = some op := by
  cases op <;> decide

theorem symbol_of_ofSymbol? {text : String} {op : Operator} (h : ofSymbol? text = some op) :
    op.symbol = text := by
  simpa using List.find?_some h

def loosest : Nat := 4

/-- How loosely an operator binds: 0 is tightest. Powers, equations, `>=` and the two logical
operators are in the loosest group, and so is a text that names no operator. -/
def group (text : String) : Nat :=
  match ofSymbol? text with
  | some times | some divide | some remainder | some bitXor => 0
  | some plus | some minus => 1
  | some less | some greater | some atMost => 2
  | some bitAnd | some bitOr => 3
  | _ => loosest

theorem group_le_loosest (text : String) : group text ≤ loosest := by
  simp only [group, loosest]
  split <;> decide

end Operator

end Arbor
