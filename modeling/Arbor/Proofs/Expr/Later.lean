import Arbor.Proofs.Token.Seam
import Arbor.Expr

/-!
# Reading later

Where the tokens of an expression stand plays no part in how it is read, and neither does what stands
behind it, if that is nothing or starts with a semicolon.
-/
namespace Arbor

inductive Token.Stops : List Token → Prop where
  | nil : Stops []
  | semicolon {t : Token} {rest : List Token} : t.kind = .semicolon → Stops (t :: rest)

namespace Expr

mutual

def later (d : Nat) : Expr → Expr
  | .literal t => .literal (t.later d)
  | .get name => .get (name.later d)
  | .call name bracket arguments => .call (name.later d) (bracket.later d) (allLater d arguments)
  | .operator symbol left right => .operator (symbol.later d) (left.later d) (right.later d)

def allLater (d : Nat) : List Expr → List Expr
  | [] => []
  | e :: rest => e.later d :: allLater d rest

end

def Frame.later (d : Nat) : Frame → Frame
  | .operand left symbol => .operand (left.later d) (symbol.later d)
  | .argument name bracket before => .argument (name.later d) (bracket.later d) (allLater d before)

def Move.later (d : Nat) : Move → Move
  | .shift frames operand => .shift (frames.map (Frame.later d)) (operand.map (Expr.later d))
  | .finish e => .finish (e.later d)
  | .stuck => .stuck

def Stuck.later (d : Nat) (more : List Token) (stuck : Stuck) : Stuck :=
  ⟨stuck.frames.map (Frame.later d), stuck.operand.map (Expr.later d),
    stuck.tokens.map (Token.later d) ++ more⟩

def readingLater (d : Nat) (more : List Token) :
    Except Stuck (Expr × List Token) → Except Stuck (Expr × List Token)
  | .ok (e, rest) => .ok (e.later d, rest.map (Token.later d) ++ more)
  | .error stuck => .error (stuck.later d more)

def optionalLater (d : Nat) (more : List Token) : Except Stuck Expr → Except Stuck Expr
  | .ok e => .ok (e.later d)
  | .error stuck => .error (stuck.later d more)

variable {extent : Extent} {frames : List Frame} {operand : Option Expr} {t : Token} {e : Expr}
  {tokens more : List Token} {d : Nat}

theorem allLater_eq_map (d : Nat) (es : List Expr) : allLater d es = es.map (later d) := by
  induction es with
  | nil => rw [allLater, List.map_nil]
  | cons e rest ih => rw [allLater, List.map_cons, ih]

theorem fold_later (group d : Nat) (frames : List Frame) (e : Expr) :
    fold group (frames.map (Frame.later d)) (e.later d) =
      ((fold group frames e).1.map (Frame.later d), (fold group frames e).2.later d) := by
  induction frames generalizing e with
  | nil => rfl
  | cons frame below ih =>
    cases frame with
    | argument name bracket before => rfl
    | operand left symbol =>
      rw [List.map_cons, Frame.later, fold, fold]
      have htext : (symbol.later d).text = symbol.text := rfl
      rw [htext]
      by_cases hgroup : Operator.group symbol.text ≤ group
      · rw [if_pos hgroup, if_pos hgroup]
        have hih := ih (.operator symbol left e)
        rw [later] at hih
        exact hih
      · rw [if_neg hgroup, if_neg hgroup]
        rfl

theorem conclude_later (d : Nat) (frames : List Frame) (operand : Option Expr) :
    conclude (frames.map (Frame.later d)) (operand.map (later d)) =
      (conclude frames operand).map (later d) := by
  cases operand with
  | none => rfl
  | some e =>
    rw [Option.map_some, conclude, conclude, fold_later]
    generalize fold Operator.loosest frames e = r
    obtain ⟨below, e'⟩ := r
    cases below with
    | nil => rfl
    | cons frame below => rfl

theorem afterOperand_later (d : Nat) (frames : List Frame) (e : Expr) (t : Token) :
    afterOperand (frames.map (Frame.later d)) (e.later d) (t.later d) =
      (afterOperand frames e t).later d := by
  have hkind : (t.later d).kind = t.kind := rfl
  have htext : (t.later d).text = t.text := rfl
  have hconclude := conclude_later d frames (some e)
  rw [Option.map_some] at hconclude
  unfold afterOperand
  rw [hkind, htext, fold_later, fold_later, hconclude]
  generalize fold (Operator.group t.text) frames e = tight
  generalize fold Operator.loosest frames e = loose
  obtain ⟨below, e'⟩ := loose
  cases t.kind with
  | operator => rfl
  | comma =>
    cases below with
    | nil => rfl
    | cons frame below => cases frame <;> rfl
  | closing =>
    cases below with
    | nil => rfl
    | cons frame below =>
      cases frame with
      | operand => rfl
      | argument name bracket before =>
        simp only [List.map_cons, Frame.later, Move.later, Option.map_some, later,
          allLater_eq_map, List.map_reverse]
  | _ =>
    cases conclude frames (some e) with
    | none => rfl
    | some e' => rfl

theorem move_later (d : Nat) (extent : Extent) (frames : List Frame) (t : Token)
    (operand : Option Expr) :
    move extent (frames.map (Frame.later d)) (t.later d) (operand.map (later d)) =
      (move extent frames t operand).later d := by
  have hkind : (t.later d).kind = t.kind := rfl
  cases operand with
  | none =>
    rw [Option.map_none]
    unfold move
    rw [hkind]
    cases t.kind with
    | closing =>
      cases frames with
      | nil => rfl
      | cons frame below =>
        cases frame with
        | operand => rfl
        | argument name bracket before => cases before <;> rfl
    | _ => rfl
  | some e =>
    have hafter := afterOperand_later d frames e t
    have hempty : (frames.map (Frame.later d)).isEmpty = frames.isEmpty := by
      cases frames <;> rfl
    have hother : (if extent = .operand ∧ (frames.map (Frame.later d)).isEmpty = true then
        Move.finish (e.later d)
        else afterOperand (frames.map (Frame.later d)) (e.later d) (t.later d)) =
        (if extent = .operand ∧ frames.isEmpty = true then Move.finish e
          else afterOperand frames e t).later d := by
      rw [hempty, hafter]
      split <;> rfl
    rw [Option.map_some]
    unfold move
    rw [hkind]
    cases e with
    | get name =>
      cases t.kind with
      | opening => rfl
      | _ => exact hother
    | _ => exact hother

/-- An expression ends before a semicolon as it ends at the end of the tokens. -/
theorem move_semicolon (ht : t.kind = .semicolon) : move extent frames t operand =
    ((conclude frames operand).map Move.finish).getD .stuck := by
  cases operand with
  | none =>
    unfold move
    rw [ht]
    rfl
  | some e =>
    have hafter : afterOperand frames e t =
        ((conclude frames (some e)).map Move.finish).getD .stuck := by
      unfold afterOperand
      simp only [ht]
      cases conclude frames (some e) <;> rfl
    have hother : (if extent = .operand ∧ frames.isEmpty = true then Move.finish e
        else afterOperand frames e t) =
        ((conclude frames (some e)).map Move.finish).getD .stuck := by
      by_cases hend : extent = .operand ∧ frames.isEmpty = true
      · rw [if_pos hend, List.isEmpty_iff.mp hend.2]
        rfl
      · rw [if_neg hend, hafter]
    unfold move
    rw [ht]
    cases e <;> exact hother

theorem readFrom_later (d : Nat) (hmore : Token.Stops more) :
    readFrom extent (frames.map (Frame.later d)) (operand.map (later d))
        (tokens.map (Token.later d) ++ more) =
      readingLater d more (readFrom extent frames operand tokens) := by
  induction tokens generalizing frames operand with
  | nil =>
    rw [List.map_nil, List.nil_append]
    cases hmore with
    | nil =>
      rw [readFrom, readFrom, conclude_later]
      cases conclude frames operand with
      | none => rfl
      | some e => rfl
    | semicolon ht =>
      rw [readFrom, readFrom, move_semicolon ht, conclude_later]
      cases conclude frames operand with
      | none => rfl
      | some e => rfl
  | cons t rest ih =>
    rw [List.map_cons, List.cons_append, readFrom, readFrom, move_later]
    cases move extent frames t operand with
    | shift frames' operand' => exact ih
    | finish e => rfl
    | stuck => rfl

theorem read_later (d : Nat) (extent : Extent) (tokens : List Token) (hmore : Token.Stops more) :
    read extent (tokens.map (Token.later d) ++ more) =
      readingLater d more (read extent tokens) :=
  @readFrom_later extent [] none tokens more d hmore

theorem readOptional_later (d : Nat) (tokens : List Token) (hmore : Token.Stops more) :
    readOptional (tokens.map (Token.later d) ++ more) =
      (optionalLater d more (readOptional tokens).1,
        (readOptional tokens).2.map (Token.later d) ++ more) := by
  unfold readOptional
  rw [read_later d .whole tokens hmore]
  cases read .whole tokens with
  | error stuck => rfl
  | ok r => rfl

end Expr

end Arbor
