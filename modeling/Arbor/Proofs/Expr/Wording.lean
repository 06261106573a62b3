import Arbor.Proofs.Expr.Made
import Arbor.Proofs.Tree.Subtree
import Arbor.Proofs.Tree.Wording

/-!
# The words of an expression

Reading keeps the words: what waits in the frames has the words that were read, in the order in
which they were read, and folding moves none of them.
-/
namespace Arbor

open Token (Word)

theorem Token.word_eq {t : Token} {kind : Token.Kind} (hk : t.kind = kind) :
    t.word = (kind, t.text) := by
  rw [Token.word, hk]

structure Token.Regular (t : Token) : Prop where
  opening : t.kind = .opening → t.word = .opening
  closing : t.kind = .closing → t.word = .closing
  comma : t.kind = .comma → t.word = .comma
  assign : t.kind = .assign → t.word = .assign

namespace Expr

def words (e : Expr) : List Word := e.shape.expression

def Frame.words : Frame → List Word
  | .operand left symbol => left.words ++ [(.operator, symbol.text)]
  | .argument name _ before =>
    (.name, name.text) :: .opening :: before.reverse.flatMap fun e => e.words ++ [.comma]

/-- The words of what waits in the frames, outermost first. -/
def pending : List Frame → List Word
  | [] => []
  | frame :: below => pending below ++ frame.words

def operandWords : Option Expr → List Word
  | none => []
  | some e => e.words

variable {extent : Extent} {frames below : List Frame} {operand : Option Expr} {e e' : Expr}
  {name bracket symbol t : Token} {before arguments : List Expr} {tokens rest : List Token}

theorem shapes_eq_map (es : List Expr) : shapes es = es.map shape := by
  induction es with
  | nil => rw [shapes, List.map_nil]
  | cons e rest ih => rw [shapes, List.map_cons, ih]

theorem words_literal (hk : t.kind = .string ∨ t.kind = .number) :
    (literal t).words = [t.word] := by
  rcases hk with hk | hk
  · simp [words, shape, Tree.literalTag, Shape.expression, Token.word, hk]
  · simp [words, shape, Tree.literalTag, Shape.expression, Token.word, hk]

theorem words_get : (get name).words = [(.name, name.text)] := by
  simp [words, shape, Shape.expression, Shape.expressions]

theorem words_call : (call name bracket arguments).words =
    (.name, name.text) :: Word.opening :: [Word.comma].intercalate (arguments.map words) ++
      [Word.closing] := by
  have hmap : (arguments.map shape).map Shape.expression = arguments.map words := by
    rw [List.map_map]
    rfl
  simp [words, shape, Shape.expression, Shape.expressions, Shape.expressions_eq_map, shapes_eq_map,
    hmap]

theorem words_operator (left right : Expr) : (operator symbol left right).words =
    left.words ++ (.operator, symbol.text) :: right.words := by
  simp [words, shape, Shape.expression, Shape.expressions, List.intercalate]

theorem words_called : (call name bracket (e :: before).reverse).words =
    (Frame.argument name bracket before).words ++ e.words ++ [Word.closing] := by
  rw [words_call, List.reverse_cons, List.map_append, List.map_singleton, intercalate_concat,
    Frame.words, List.flatMap_map]
  simp

theorem words_called_empty :
    (call name bracket []).words = (Frame.argument name bracket []).words ++ [Word.closing] := by
  rw [words_call, Frame.words]
  simp [List.intercalate]

theorem fold_words (group : Nat) (frames : List Frame) (e : Expr) :
    pending (fold group frames e).1 ++ (fold group frames e).2.words =
      pending frames ++ e.words := by
  fun_induction fold group frames e with
  | case1 e left symbol below hgroup ih =>
    rw [ih, words_operator, pending, Frame.words]
    simp
  | case2 => rfl
  | case3 => rfl

theorem conclude_words (h : conclude frames (some e) = some e') :
    e'.words = pending frames ++ e.words := by
  have hfold := fold_words Operator.loosest frames e
  simp only [conclude] at h
  split at h
  · next hfolded =>
    rw [hfolded] at hfold
    cases h
    exact hfold
  · cases h

def Move.Adds (extent : Extent) (before : List Word) (t : Token) : Move → Prop
  | .shift frames operand => pending frames ++ operandWords operand = before ++ [t.word]
  | .finish e => e.words = before ∧ (extent = .whole → t.kind ≠ .operator)
  | .stuck => True

theorem afterOperand_adds (ht : t.Regular) (frames : List Frame) (e : Expr) :
    (afterOperand frames e t).Adds extent (pending frames ++ e.words) t := by
  have hfold := fun group => fold_words group frames e
  unfold afterOperand
  split
  · next hk =>
    have hword := Token.word_eq hk
    dsimp only [Move.Adds]
    rw [operandWords, pending, Frame.words, ← hfold (Operator.group t.text), hword]
    simp
  · next hk =>
    have hword := ht.comma hk
    have hloose := hfold Operator.loosest
    split
    · next name bracket before below e' hfolded =>
      rw [hfolded] at hloose
      dsimp only [Move.Adds]
      rw [operandWords, pending, ← hloose, pending, Frame.words, Frame.words, hword]
      simp
    · next hfolded =>
      rw [hfolded] at hloose
      exact ⟨hloose, fun _ => by rw [hk]; decide⟩
    · trivial
  · next hk =>
    have hword := ht.closing hk
    have hloose := hfold Operator.loosest
    split
    · next name bracket before below e' hfolded =>
      rw [hfolded] at hloose
      dsimp only [Move.Adds]
      rw [operandWords, words_called, ← hloose, pending, hword]
      simp
    · next hfolded =>
      rw [hfolded] at hloose
      exact ⟨hloose, fun _ => by rw [hk]; decide⟩
    · trivial
  · next hk _ _ =>
    split
    · next hc => exact ⟨conclude_words hc, fun _ => hk⟩
    · trivial

theorem move_adds (ht : t.Regular) (extent : Extent) (frames : List Frame) (operand : Option Expr) :
    (move extent frames t operand).Adds extent (pending frames ++ operandWords operand) t := by
  unfold move
  cases operand with
  | none =>
    dsimp only
    rw [operandWords, List.append_nil]
    split
    · next hk =>
      dsimp only [Move.Adds]
      rw [operandWords, words_literal (Or.inl hk)]
    · next hk =>
      dsimp only [Move.Adds]
      rw [operandWords, words_literal (Or.inr hk)]
    · next hk =>
      have hword := Token.word_eq hk
      dsimp only [Move.Adds]
      rw [operandWords, words_get, hword]
    · next name bracket below hk =>
      have hword := ht.closing hk
      dsimp only [Move.Adds]
      rw [operandWords, words_called_empty, pending, hword]
      simp
    · trivial
  | some operand =>
    dsimp only
    split
    · next name hk =>
      have hword := ht.opening hk
      dsimp only [Move.Adds]
      rw [operandWords, operandWords, pending, words_get, Frame.words, hword]
      simp
    · split
      · next hend =>
        refine ⟨?_, fun hwhole => ?_⟩
        · rw [List.isEmpty_iff.mp hend.2]
          rfl
        · rw [hwhole] at hend
          cases hend.1
      · exact afterOperand_adds ht frames _

/-- An expression has the words of the tokens that were taken for it. An operator goes on with a
whole one. -/
theorem readFrom_words (ht : ∀ t ∈ tokens, t.Regular)
    (h : readFrom extent frames operand tokens = .ok (e, rest)) : ∃ taken, tokens = taken ++ rest ∧
      e.words = pending frames ++ operandWords operand ++ taken.map Token.word ∧
      (extent = .whole → ∀ t ∈ rest.head?, t.kind ≠ .operator) := by
  fun_induction readFrom extent frames operand tokens with
  | case1 frames operand e' hc =>
    cases h
    refine ⟨[], rfl, ?_, fun _ t ht => by cases ht⟩
    cases operand with
    | none => cases hc
    | some operand =>
      rw [conclude_words hc, List.map_nil, List.append_nil]
      rfl
  | case2 => cases h
  | case3 frames operand t rest' frames' operand' hm ih =>
    obtain ⟨hhead, hrest⟩ := List.forall_mem_cons.mp ht
    have hadds := move_adds hhead extent frames operand
    rw [hm] at hadds
    obtain ⟨taken, rfl, hwords, hend⟩ := ih hrest h
    refine ⟨t :: taken, rfl, ?_, hend⟩
    rw [hwords, hadds, List.map_cons, List.append_assoc _ [_], List.singleton_append]
  | case4 frames operand t rest' e' hm =>
    have hadds := move_adds (ht t List.mem_cons_self) extent frames operand
    rw [hm] at hadds
    cases h
    refine ⟨[], rfl, ?_, fun hwhole u hu => ?_⟩
    · rw [hadds.1, List.map_nil, List.append_nil]
    · cases hu
      exact hadds.2 hwhole
  | case5 => cases h

theorem read_words (ht : ∀ t ∈ tokens, t.Regular) (h : read extent tokens = .ok (e, rest)) :
    ∃ taken, tokens = taken ++ rest ∧ e.words = taken.map Token.word ∧
      (∀ t ∈ taken, t.kind ≠ .keyword) ∧
      (extent = .whole → ∀ t ∈ rest.head?, t.kind ≠ .operator) := by
  obtain ⟨taken, htaken, hwords, hend⟩ := readFrom_words ht h
  have hreads := @read_reads (fun _ => True) tokens extent fun _ _ => trivial
  rw [h] at hreads
  obtain ⟨taken', htaken', hkinds⟩ := hreads.2
  have heq : taken = taken' := List.append_cancel_right (htaken.symm.trans htaken')
  exact ⟨taken, htaken, hwords, heq ▸ hkinds, hend⟩

def optionalWords : Except Stuck Expr → List Word
  | .ok e => e.words
  | .error _ => []

theorem readOptional_words (ht : ∀ t ∈ tokens, t.Regular) :
    ∃ taken, tokens = taken ++ (readOptional tokens).2 ∧
      optionalWords (readOptional tokens).1 = taken.map Token.word ∧
      (∀ t ∈ taken, t.kind ≠ .keyword) ∧ ∀ e, (readOptional tokens).1 = .ok e →
        ∀ t ∈ (readOptional tokens).2.head?, t.kind ≠ .operator := by
  simp only [readOptional]
  cases hread : read .whole tokens with
  | ok r =>
    obtain ⟨e, rest⟩ := r
    obtain ⟨taken, htaken, hwords, hkinds, hend⟩ := read_words ht hread
    exact ⟨taken, htaken, hwords, hkinds, fun _ _ => hend rfl⟩
  | error stuck =>
    refine ⟨[], rfl, rfl, ?_, ?_⟩
    · intro t ht
      cases ht
    · intro e he
      cases he

theorem shape_tag_ne_body (e : Expr) : e.shape.tag ≠ .body := by
  cases e with
  | literal t =>
    rw [shape, Shape.tag_node, Tree.literalTag]
    split <;> decide
  | get => exact Tag.noConfusion
  | call => exact Tag.noConfusion
  | operator => exact Tag.noConfusion

def optionalShapes : Except Stuck Expr → List Shape
  | .ok e => [e.shape]
  | .error _ => []

theorem statement_optional (tag : Tag) (text : String) (operand : Except Stuck Expr) :
    (Shape.node tag text (optionalShapes operand)).statement =
      tag.head text ++ optionalWords operand := by
  cases operand with
  | ok e => exact Shape.statement_operand e.shape_tag_ne_body
  | error =>
    rw [optionalWords, List.append_nil]
    exact Shape.statement_bare

theorem point_optional (tag : Tag) (text : String) (operand : Except Stuck Expr) :
    (Shape.node tag text (optionalShapes operand)).point = .bare := by
  cases operand with
  | ok e => exact Shape.past_operand e.shape_tag_ne_body
  | error => rfl

def conditionShape : Except Stuck Expr → Shape
  | .ok e => e.shape
  | .error _ => .node .numberLiteral "1" []

theorem conditionShape_tag (operand : Except Stuck Expr) : (conditionShape operand).tag ≠ .body := by
  cases operand with
  | ok e => exact e.shape_tag_ne_body
  | error => exact Tag.noConfusion

theorem words_ne_nil (e : Expr) : e.words ≠ [] := by
  intro h
  cases e with
  | literal t =>
    rw [words, shape, Tree.literalTag] at h
    split at h <;> cases h
  | get => rw [words_get] at h; cases h
  | call => rw [words_call] at h; cases h
  | operator symbol left right =>
    rw [words_operator] at h
    simp at h

theorem words_number (e : Expr) {text : String} {more : List Word}
    (h : e.words = (.number, text) :: more) : ∀ w ∈ more.head?, w.1 = .operator := by
  match e with
  | .literal t =>
    rw [words, shape, Tree.literalTag] at h
    split at h <;> cases h
    intro w hw
    cases hw
  | .get name =>
    rw [words_get] at h
    cases h
  | .call name bracket arguments =>
    rw [words_call] at h
    cases h
  | .operator symbol left right =>
    rw [words_operator] at h
    cases hleft : left.words with
    | nil => exact absurd hleft left.words_ne_nil
    | cons w ws =>
      rw [hleft, List.cons_append] at h
      obtain ⟨rfl, rfl⟩ := List.cons.inj h
      have ih := words_number left hleft
      cases ws with
      | nil =>
        intro w hw
        cases hw
        rfl
      | cons w' ws => exact ih

end Expr

end Arbor
