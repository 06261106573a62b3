import Arbor.Proofs.Token.Spelling
import Arbor.Tree.Outline
import Mathlib.Data.List.DropRight

/-!
# The words of a shape

Brackets, commas, colons and braces leave no node of their own, and neither does `else`. The shape
of a program says where they stood, up to the braces at the end of the program and to a condition
`1` after `else`, which is what a missing condition comes to.
-/
namespace Arbor

namespace Token.Word

def opening : Word := (.opening, "(")

def closing : Word := (.closing, ")")

def comma : Word := (.comma, ",")

def assign : Word := (.assign, ":")

def one : Word := (.number, "1")

def keyword (k : Keyword) : Word := (.keyword, k.text)

end Token.Word

open Token (Word)

/-- How far the words of a statement have come. -/
inductive Point where
  /-- The statement has no body yet. -/
  | bare
  /-- A body is open, or has just ended. -/
  | inside
  /-- `else` and its condition stand before their body. -/
  | guarded
  deriving DecidableEq, Repr

namespace Point

def lead : Point → List Word
  | bare => [.keyword .openBody]
  | inside => [.keyword .closeBody, .keyword .openBody]
  | guarded => []

def close : Point → List Word
  | inside => [.keyword .closeBody]
  | _ => []

def next (p : Point) (tag : Tag) : Point :=
  if tag = .body then inside else if p = bare then bare else guarded

end Point

def Tag.head (text : String) : Tag → List Word
  | .pass => [(.semicolon, text)]
  | .branch | .loop | .output | .giveBack => [(.keyword, text)]
  | .remove => [.keyword .remove, (.name, text)]
  | .input => [.keyword .input, (.name, text)]
  | .function => [.keyword .function, (.name, text)]
  | .store => [(.name, text), .assign]
  | _ => [(.name, text)]

namespace Shape

def tag : Shape → Tag
  | .node tag _ _ => tag

@[simp] theorem tag_node (tag : Tag) (text : String) (children : List Shape) :
    (node tag text children).tag = tag := rfl

mutual

def expression : Shape → List Word
  | .node tag text children =>
    match tag with
    | .textLiteral => [(.string, text)]
    | .numberLiteral => [(.number, text)]
    | .operator => [(.operator, text)].intercalate (expressions children)
    | .arguments => .opening :: [Word.comma].intercalate (expressions children) ++ [.closing]
    | _ => (.name, text) :: (expressions children).flatten

def expressions : List Shape → List (List Word)
  | [] => []
  | s :: rest => s.expression :: expressions rest

end

def guard (s : Shape) : List Word :=
  .keyword .otherwise :: if s.expression = [.one] then [] else s.expression

def past (p : Point) (children : List Shape) : Point :=
  children.foldl (fun p s => p.next s.tag) p

mutual

def statement : Shape → List Word
  | .node tag text children => tag.head text ++ parts .bare children ++ (past .bare children).close

def parts (p : Point) : List Shape → List Word
  | [] => []
  | s :: rest => s.part p ++ parts (p.next s.tag) rest

def part (p : Point) : Shape → List Word
  | .node tag text children =>
    if tag = .body then p.lead ++ statements children
    else if p = .bare then expression (.node tag text children)
    else guard (.node tag text children)

def statements : List Shape → List Word
  | [] => []
  | s :: rest => s.statement ++ statements rest

end

/-- The words of a statement up to the place of a body behind the children `kids`. -/
def upTo (tag : Tag) (text : String) (kids : List Shape) : List Word :=
  tag.head text ++ parts .bare kids ++ (past .bare kids).lead

def program : Shape → List Word
  | .node _ _ children =>
    (statements children).rdropWhile (· = .keyword .closeBody) ++ [(.eof, "")]

def point : Shape → Point
  | .node _ _ children => past .bare children

variable {tag : Tag} {text : String} {p : Point}

theorem expressions_eq_map (children : List Shape) :
    expressions children = children.map expression := by
  induction children with
  | nil => rw [expressions, List.map_nil]
  | cons s rest ih => rw [expressions, List.map_cons, ih]

theorem statements_append (l m : List Shape) :
    statements (l ++ m) = statements l ++ statements m := by
  induction l with
  | nil => rfl
  | cons s rest ih => rw [List.cons_append, statements, statements, ih, List.append_assoc]

theorem statements_concat (l : List Shape) (s : Shape) :
    statements (l ++ [s]) = statements l ++ s.statement := by
  rw [statements_append, statements, statements, List.append_nil]

theorem past_append (p : Point) (l m : List Shape) : past p (l ++ m) = past (past p l) m :=
  List.foldl_append

theorem past_concat (p : Point) (l : List Shape) (s : Shape) :
    past p (l ++ [s]) = (past p l).next s.tag := by
  rw [past_append]
  rfl

theorem parts_append (p : Point) (l m : List Shape) :
    parts p (l ++ m) = parts p l ++ parts (past p l) m := by
  induction l generalizing p with
  | nil => rfl
  | cons s rest ih =>
    rw [List.cons_append, parts, parts, ih, List.append_assoc]
    rfl

theorem parts_concat (p : Point) (l : List Shape) (s : Shape) :
    parts p (l ++ [s]) = parts p l ++ s.part (past p l) := by
  rw [parts_append, parts, parts, List.append_nil]

theorem statement_bare : (node tag text []).statement = tag.head text := by
  rw [statement, parts, List.append_nil]
  exact List.append_nil _

theorem past_operand {s : Shape} (hs : s.tag ≠ .body) : past .bare [s] = .bare := by
  rw [past, List.foldl_cons, Point.next, if_neg hs]
  rfl

theorem statement_operand {s : Shape} (hs : s.tag ≠ .body) :
    (node tag text [s]).statement = tag.head text ++ s.expression := by
  rw [statement, past_operand hs, parts, parts, List.append_nil]
  cases s with
  | node part partText children =>
    have hpart : part ≠ .body := hs
    rw [Shape.part, if_neg hpart, if_pos rfl]
    exact List.append_nil _

theorem statement_call {s : Shape} (hs : s.tag ≠ .body) :
    (node .call text [s]).statement = (node .call text [s]).expression := by
  rw [statement_operand hs]
  simp [expression, expressions, Tag.head]

/-- Behind a statement that does not wait for the body of an `else` a brace opens a further body. -/
theorem upTo_eq {kids : List Shape} (h : (node tag text kids).point ≠ .guarded) :
    upTo tag text kids = (node tag text kids).statement ++ [.keyword .openBody] := by
  rw [point] at h
  rw [upTo, statement]
  cases hp : past .bare kids with
  | bare => simp [Point.lead, Point.close]
  | inside => simp [Point.lead, Point.close]
  | guarded => exact absurd hp h

theorem part_guard {s : Shape} (hp : p ≠ .bare) (hs : s.tag ≠ .body) : s.part p = s.guard := by
  cases s with
  | node tag text children =>
    have htag : tag ≠ .body := hs
    rw [part, if_neg htag, if_neg hp]

theorem past_body (p : Point) (kids children : List Shape) (bodyText : String) :
    past p (kids ++ [.node .body bodyText children]) = .inside := by
  rw [past_concat, tag_node, Point.next, if_pos rfl]

/-- A condition behind a body is that of an `else`, and no brace opens the body behind it. -/
theorem upTo_guard (kids children : List Shape) (bodyText : String) {s : Shape}
    (hs : s.tag ≠ .body) : upTo tag text (kids ++ [.node .body bodyText children] ++ [s]) =
      upTo tag text kids ++ statements children ++ s.guard := by
  have hguarded : past .bare (kids ++ [.node .body bodyText children] ++ [s]) = .guarded := by
    rw [past_concat, past_body, Point.next, if_neg hs]
    rfl
  rw [upTo, upTo, hguarded, parts_concat, past_body, parts_concat, part_guard (by decide) hs, part,
    if_pos rfl]
  have hlead : Point.guarded.lead = [] := rfl
  rw [hlead, List.append_nil]
  simp only [List.append_assoc]

theorem statement_body (kids children : List Shape) (bodyText : String) :
    (node tag text (kids ++ [.node .body bodyText children])).statement =
      upTo tag text kids ++ statements children ++ [.keyword .closeBody] := by
  rw [statement, past_body, parts_concat, part, if_pos rfl, upTo]
  simp only [List.append_assoc]
  rfl

end Shape

theorem intercalate_concat (w : Word) (l : List (List Word)) (last : List Word) :
    [w].intercalate (l ++ [last]) = l.flatMap (· ++ [w]) ++ last := by
  induction l with
  | nil => simp [List.intercalate]
  | cons ws rest ih =>
    cases rest with
    | nil => simp [List.intercalate]
    | cons ws' rest =>
      simp only [List.intercalate, List.cons_append, List.intersperse_cons_cons, List.flatten_cons,
        List.flatMap_cons] at ih ⊢
      rw [ih]
      simp

namespace Token

/-- The words without each number `1` right behind an `else`, unless an operator follows it. -/
def withoutOnes : List Word → List Word
  | w :: one :: rest =>
    if w = .keyword .otherwise ∧ one = .one ∧ rest.head?.map Prod.fst ≠ some .operator then
      w :: withoutOnes rest
    else w :: withoutOnes (one :: rest)
  | words => words

/-- The words of a program without these numbers and without the braces that close bodies right
before the end. -/
def essential (words : List Word) : List Word :=
  (withoutOnes (words.takeWhile (·.1 ≠ .eof))).rdropWhile (· = .keyword .closeBody) ++
    words.dropWhile (·.1 ≠ .eof)

variable {w : Word} {words rest : List Word}

theorem rdropWhile_braces (words : List Word) (depth : Nat) :
    (words ++ List.replicate depth (Word.keyword .closeBody)).rdropWhile
      (· = .keyword .closeBody) = words.rdropWhile (· = .keyword .closeBody) := by
  induction depth with
  | zero => rw [List.replicate_zero, List.append_nil]
  | succ depth ih =>
    rw [List.replicate_succ', ← List.append_assoc, List.rdropWhile_concat_pos _ _ _ (by simp), ih]

theorem withoutOnes_cons (hw : w ≠ .keyword .otherwise) (rest : List Word) :
    withoutOnes (w :: rest) = w :: withoutOnes rest := by
  cases rest with
  | nil => rfl
  | cons one rest => rw [withoutOnes, if_neg fun h => hw h.1]

theorem withoutOnes_append (hwords : ∀ w ∈ words, w ≠ .keyword .otherwise) (rest : List Word) :
    withoutOnes (words ++ rest) = words ++ withoutOnes rest := by
  induction words with
  | nil => rfl
  | cons w words ih =>
    obtain ⟨hw, hwords⟩ := List.forall_mem_cons.mp hwords
    rw [List.cons_append, withoutOnes_cons hw, ih hwords, List.cons_append]

theorem withoutOnes_bare (h : ∀ w ∈ rest.head?, w.1 ≠ .number) :
    withoutOnes (.keyword .otherwise :: rest) = .keyword .otherwise :: withoutOnes rest := by
  cases rest with
  | nil => rfl
  | cons w rest =>
    rw [withoutOnes, if_neg]
    rintro ⟨-, rfl, -⟩
    exact h _ rfl rfl

theorem withoutOnes_condition (hkinds : ∀ w ∈ words, w.1 ≠ .keyword) (hne : words ≠ [])
    (hnumber : ∀ more, words = .one :: more → ∀ w ∈ more.head?, w.1 = .operator)
    (hrest : ∀ w ∈ rest.head?, w.1 ≠ .operator) :
    withoutOnes (.keyword .otherwise :: (words ++ rest)) =
      .keyword .otherwise :: (if words = [.one] then [] else words) ++ withoutOnes rest := by
  have hplain : ∀ w ∈ words, w ≠ .keyword .otherwise := by
    rintro w hw rfl
    exact hkinds _ hw rfl
  by_cases hone : words = [.one]
  · have hend : rest.head?.map Prod.fst ≠ some .operator := by
      intro h
      obtain ⟨w, hw, hk⟩ := Option.map_eq_some_iff.mp h
      exact hrest w hw hk
    rw [if_pos hone, hone, List.singleton_append, withoutOnes, if_pos ⟨rfl, rfl, hend⟩]
    rfl
  · rw [if_neg hone]
    cases words with
    | nil => exact absurd rfl hne
    | cons w more =>
      have hkeep := withoutOnes_append hplain rest
      rw [List.cons_append] at hkeep
      rw [List.cons_append, withoutOnes, if_neg, hkeep]
      · rfl
      · -- a number `1` that goes on has an operator behind it
        rintro ⟨-, rfl, hnone⟩
        cases more with
        | nil => exact hone rfl
        | cons w' more =>
          exact hnone (congrArg some (hnumber _ rfl w' rfl))

theorem essential_ended (hkinds : ∀ w ∈ words, w.1 ≠ .eof) (text : String) :
    essential (words ++ [(.eof, text)]) =
      (withoutOnes words).rdropWhile (· = .keyword .closeBody) ++ [(.eof, text)] := by
  have hall : ∀ w ∈ words, decide (w.1 ≠ .eof) = true := by
    intro w hw
    rw [decide_eq_true_eq]
    exact hkinds w hw
  rw [essential, List.takeWhile_append_of_pos hall, List.dropWhile_append_of_pos hall,
    List.takeWhile_cons_of_neg (by simp), List.dropWhile_cons_of_neg (by simp), List.append_nil]

end Token

end Arbor
