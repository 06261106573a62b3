import Arbor.Operator
import Arbor.Token
/-!
# Expressions

An expression is read from tokens by a machine that takes one token at a time. `move` says what a
token does: it is taken, or the expression ends before it, or the expression is stuck on it. The
frames hold what is unfinished: left operands that wait for their right operand, and calls that
wait for further arguments. An operator is folded as soon as the next one binds no tighter, so
operators of one group fold to the left.
-/
namespace Arbor

inductive Expr where
  | literal (token : Token)
  | get (name : Token)
  | call (name bracket : Token) (arguments : List Expr)
  | operator (symbol : Token) (left right : Expr)
  deriving Repr

namespace Expr

inductive Frame where
  | operand (left : Expr) (symbol : Token)
  /-- The arguments before the one being read, latest first. -/
  | argument (name bracket : Token) (before : List Expr)
  deriving Repr

/-- How far to read: to the end of an expression, or no further than its first operand. -/
inductive Extent where
  | whole
  | operand
  deriving DecidableEq, Repr

inductive Move where
  /-- The token is taken. An operand is complete, or the next token has to start one. -/
  | shift (frames : List Frame) (operand : Option Expr)
  | finish (e : Expr)
  | stuck
  deriving Repr

/-- Folds the waiting operators that bind at least as tight as `group`. -/
def fold (group : Nat) : List Frame → Expr → List Frame × Expr
  | .operand left symbol :: below, right =>
    if Operator.group symbol.text ≤ group then fold group below (.operator symbol left right)
    else (.operand left symbol :: below, right)
  | frames, e => (frames, e)

def conclude (frames : List Frame) : Option Expr → Option Expr
  | none => none
  | some operand =>
    match fold Operator.loosest frames operand with
    | ([], e) => some e
    | _ => none

def afterOperand (frames : List Frame) (operand : Expr) (t : Token) : Move :=
  match t.kind with
  | .operator =>
    let (below, left) := fold (Operator.group t.text) frames operand
    .shift (.operand left t :: below) none
  | .comma =>
    match fold Operator.loosest frames operand with
    | (.argument name bracket before :: below, e) =>
      .shift (.argument name bracket (e :: before) :: below) none
    | ([], e) => .finish e
    | _ => .stuck
  | .closing =>
    match fold Operator.loosest frames operand with
    | (.argument name bracket before :: below, e) =>
      .shift below (some (.call name bracket (e :: before).reverse))
    | ([], e) => .finish e
    | _ => .stuck
  | _ =>
    match conclude frames (some operand) with
    | some e => .finish e
    | none => .stuck

def move (extent : Extent) (frames : List Frame) (t : Token) : Option Expr → Move
  | none =>
    match t.kind, frames with
    | .string, _ | .number, _ => .shift frames (some (.literal t))
    | .name, _ => .shift frames (some (.get t))
    | .closing, .argument name bracket [] :: below => .shift below (some (.call name bracket []))
    | _, _ => .stuck
  | some operand =>
    match operand, t.kind with
    | .get name, .opening => .shift (.argument name t [] :: frames) none
    | _, _ =>
      if extent = .operand ∧ frames.isEmpty then .finish operand
      else afterOperand frames operand t

structure Stuck where
  frames : List Frame
  operand : Option Expr
  tokens : List Token
  deriving Repr

/-- Reads on from `frames` and the operand that is complete, if one is. The answer is the expression
and the tokens after it, or where reading is stuck. -/
def readFrom (extent : Extent) (frames : List Frame) (operand : Option Expr) :
    List Token → Except Stuck (Expr × List Token)
  | [] =>
    match conclude frames operand with
    | some e => .ok (e, [])
    | none => .error ⟨frames, operand, []⟩
  | t :: rest =>
    match move extent frames t operand with
    | .shift frames operand => readFrom extent frames operand rest
    | .finish e => .ok (e, t :: rest)
    | .stuck => .error ⟨frames, operand, t :: rest⟩

def read (extent : Extent) (tokens : List Token) : Except Stuck (Expr × List Token) :=
  readFrom extent [] none tokens

/-- Reads an expression if one can be read. If not, no token is taken. -/
def readOptional (tokens : List Token) : Except Stuck Expr × List Token :=
  match read .whole tokens with
  | .ok (e, rest) => (.ok e, rest)
  | .error stuck => (.error stuck, tokens)

theorem readFrom_length {extent : Extent} {frames : List Frame} {operand : Option Expr}
    {tokens rest : List Token} {e : Expr}
    (h : readFrom extent frames operand tokens = .ok (e, rest)) :
    rest.length ≤ tokens.length := by
  fun_induction readFrom extent frames operand tokens with
  | case1 => cases h; simp
  | case2 => cases h
  | case3 _ _ t tail _ _ _ ih => exact Nat.le_succ_of_le (ih h)
  | case4 => cases h; simp
  | case5 => cases h

theorem move_none_ne_finish {extent : Extent} {frames : List Frame} {t : Token} {e : Expr} :
    move extent frames t none ≠ .finish e := by
  simp only [move]
  split <;> simp

theorem read_length {extent : Extent} {tokens rest : List Token} {e : Expr}
    (h : read extent tokens = .ok (e, rest)) : rest.length < tokens.length := by
  simp only [read] at h
  cases tokens with
  | nil => simp [readFrom, conclude] at h
  | cons t tail =>
    rw [readFrom] at h
    split at h
    · exact Nat.lt_succ_of_le (readFrom_length h)
    · next hm => exact absurd hm move_none_ne_finish
    · cases h

theorem readOptional_length (tokens : List Token) :
    (readOptional tokens).2.length ≤ tokens.length := by
  simp only [readOptional]
  split
  · next h => exact readFrom_length h
  · simp

end Expr

end Arbor
