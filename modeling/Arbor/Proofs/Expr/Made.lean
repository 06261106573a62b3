import Arbor.Expr

/-!
# What expressions are made of

Reading takes tokens from the front and no keyword among them. What it makes of them, finished or
not, is made of the tokens that it was given.
-/
namespace Arbor

def Taken (tokens rest : List Token) : Prop :=
  ∃ taken, tokens = taken ++ rest ∧ ∀ t ∈ taken, t.kind ≠ .keyword

namespace Taken

variable {tokens rest rest' : List Token} {t : Token}

theorem refl (tokens : List Token) : Taken tokens tokens := ⟨[], rfl, fun t ht => by cases ht⟩

theorem cons (hk : t.kind ≠ .keyword) (h : Taken tokens rest) : Taken (t :: tokens) rest := by
  obtain ⟨taken, rfl, hkinds⟩ := h
  refine ⟨t :: taken, rfl, ?_⟩
  intro u hu
  rcases List.mem_cons.mp hu with rfl | hu
  · exact hk
  · exact hkinds u hu

theorem trans (h : Taken tokens rest) (h' : Taken rest rest') : Taken tokens rest' := by
  obtain ⟨taken, rfl, hkinds⟩ := h
  obtain ⟨taken', rfl, hkinds'⟩ := h'
  refine ⟨taken ++ taken', by rw [List.append_assoc], ?_⟩
  intro u hu
  rcases List.mem_append.mp hu with hu | hu
  · exact hkinds u hu
  · exact hkinds' u hu

theorem mem (h : Taken tokens rest) (ht : t ∈ rest) : t ∈ tokens := by
  obtain ⟨taken, rfl, _⟩ := h
  exact List.mem_append_right _ ht

theorem countP_eq {p : Token → Bool} (h : Taken tokens rest)
    (hp : ∀ t : Token, t.kind ≠ .keyword → p t = false) : tokens.countP p = rest.countP p := by
  obtain ⟨taken, rfl, hkinds⟩ := h
  rw [List.countP_append]
  have hzero : taken.countP p = 0 := by
    apply List.countP_eq_zero.mpr
    intro t ht
    rw [hp t (hkinds t ht)]
    exact Bool.false_ne_true
  rw [hzero, Nat.zero_add]

end Taken

namespace Expr

/-- The literals, names and operators of an expression are as `G` says, its literals are texts or
numbers, and its names are names. -/
inductive Made (G : Token → Prop) : Expr → Prop where
  | literal {t : Token} : (t.kind = .string ∨ t.kind = .number) ∧ G t → Made G (.literal t)
  | get {name : Token} : name.kind = .name ∧ G name → Made G (.get name)
  | call {name bracket : Token} {arguments : List Expr} : name.kind = .name ∧ G name →
      (∀ e ∈ arguments, Made G e) → Made G (.call name bracket arguments)
  | operator {symbol : Token} {left right : Expr} : G symbol → Made G left → Made G right →
      Made G (.operator symbol left right)

def Frame.Made (G : Token → Prop) : Frame → Prop
  | .operand left symbol => Expr.Made G left ∧ G symbol
  | .argument name _ before => (name.kind = .name ∧ G name) ∧ ∀ e ∈ before, Expr.Made G e

structure Stuck.Made (G : Token → Prop) (stuck : Stuck) : Prop where
  frames : ∀ f ∈ stuck.frames, f.Made G
  operand : ∀ e, stuck.operand = some e → Expr.Made G e

variable {G : Token → Prop} {frames : List Frame} {e : Expr}
  {operand : Option Expr} {t : Token} {tokens : List Token}

theorem fold_made (group : Nat) (hf : ∀ f ∈ frames, f.Made G) (he : Made G e) :
    (∀ f ∈ (fold group frames e).1, f.Made G) ∧ Made G (fold group frames e).2 := by
  fun_induction fold group frames e with
  | case1 e left symbol below hgroup ih =>
    obtain ⟨hleft, hsymbol⟩ := hf _ List.mem_cons_self
    exact ih (fun f hm => hf f (List.mem_cons_of_mem _ hm)) (.operator hsymbol hleft he)
  | case2 => exact ⟨hf, he⟩
  | case3 => exact ⟨hf, he⟩

theorem call_made {name bracket : Token} {arguments : List Expr}
    (hf : Frame.Made G (.argument name bracket arguments)) (he : Made G e) :
    Made G (.call name bracket (e :: arguments).reverse) := by
  refine .call hf.1 fun a ha => ?_
  rcases List.mem_cons.mp (List.mem_reverse.mp ha) with rfl | ha
  · exact he
  · exact hf.2 a ha

def Move.Made (G : Token → Prop) (t : Token) : Move → Prop
  | .shift frames operand =>
    t.kind ≠ .keyword ∧ (∀ f ∈ frames, f.Made G) ∧ ∀ e, operand = some e → Expr.Made G e
  | .finish e => Expr.Made G e
  | .stuck => True

theorem conclude_made (hf : ∀ f ∈ frames, f.Made G) (he : Made G e) {e' : Expr}
    (h : conclude frames (some e) = some e') : Made G e' := by
  have hfold := fold_made Operator.loosest hf he
  simp only [conclude] at h
  split at h
  · next hfold' =>
    rw [hfold'] at hfold
    cases h
    exact hfold.2
  · cases h

theorem afterOperand_made (hf : ∀ f ∈ frames, f.Made G) (he : Made G e) (ht : G t) :
    (afterOperand frames e t).Made G t := by
  have hfold := fun group => fold_made group hf he
  unfold afterOperand
  split
  · next hk =>
    refine ⟨by rw [hk]; decide, ?_, fun e h => by cases h⟩
    intro f hm
    rcases List.mem_cons.mp hm with rfl | hm
    · exact ⟨(hfold _).2, ht⟩
    · exact (hfold _).1 f hm
  · next hk =>
    have hloose := hfold Operator.loosest
    split
    · next name bracket before below e' hfold' =>
      rw [hfold'] at hloose
      obtain ⟨hframe, hbelow⟩ := List.forall_mem_cons.mp hloose.1
      refine ⟨by rw [hk]; decide, ?_, fun e h => by cases h⟩
      intro f hm
      rcases List.mem_cons.mp hm with rfl | hm
      · exact ⟨hframe.1, List.forall_mem_cons.mpr ⟨hloose.2, hframe.2⟩⟩
      · exact hbelow f hm
    · next hfold' =>
      rw [hfold'] at hloose
      exact hloose.2
    · trivial
  · next hk =>
    have hloose := hfold Operator.loosest
    split
    · next name bracket before below e' hfold' =>
      rw [hfold'] at hloose
      obtain ⟨hframe, hbelow⟩ := List.forall_mem_cons.mp hloose.1
      refine ⟨by rw [hk]; decide, hbelow, ?_⟩
      intro a ha
      cases ha
      exact call_made hframe hloose.2
    · next hfold' =>
      rw [hfold'] at hloose
      exact hloose.2
    · trivial
  · split
    · next hc => exact conclude_made hf he hc
    · trivial

theorem move_made (extent : Extent) (hf : ∀ f ∈ frames, f.Made G) (ho : ∀ e, operand = some e → Made G e)
    (ht : G t) : (move extent frames t operand).Made G t := by
  unfold move
  split
  · split
    · next hk =>
      refine ⟨by rw [hk]; decide, hf, fun e h => ?_⟩
      cases h
      exact .literal ⟨Or.inl hk, ht⟩
    · next hk =>
      refine ⟨by rw [hk]; decide, hf, fun e h => ?_⟩
      cases h
      exact .literal ⟨Or.inr hk, ht⟩
    · next hk =>
      refine ⟨by rw [hk]; decide, hf, fun e h => ?_⟩
      cases h
      exact .get ⟨hk, ht⟩
    · next name bracket below hk =>
      obtain ⟨hframe, hbelow⟩ := List.forall_mem_cons.mp hf
      refine ⟨by rw [hk]; decide, hbelow, fun e h => ?_⟩
      cases h
      exact .call hframe.1 fun a ha => by cases ha
    · trivial
  · next operand =>
    have he := ho operand rfl
    split
    · next name hk =>
      cases he with
      | get hname =>
        refine ⟨by rw [hk]; decide, ?_, fun e h => by cases h⟩
        exact List.forall_mem_cons.mpr ⟨⟨hname, fun a ha => by cases ha⟩, hf⟩
    · split
      · exact he
      · exact afterOperand_made hf he ht

/-- What a reading ends with is made of the tokens that it took, and it took no keyword. -/
def Reads (G : Token → Prop) (tokens : List Token) : Except Stuck (Expr × List Token) → Prop
  | .ok (e, rest) => Made G e ∧ Taken tokens rest
  | .error stuck => stuck.Made G ∧ Taken tokens stuck.tokens

theorem readFrom_reads (extent : Extent) (hf : ∀ f ∈ frames, f.Made G) (ho : ∀ e, operand = some e → Made G e)
    (ht : ∀ t ∈ tokens, G t) : Reads G tokens (readFrom extent frames operand tokens) := by
  fun_induction readFrom extent frames operand tokens with
  | case1 frames operand e hc =>
    cases operand with
    | none => cases hc
    | some operand => exact ⟨conclude_made hf (ho operand rfl) hc, .refl _⟩
  | case2 => exact ⟨⟨hf, ho⟩, .refl _⟩
  | case3 frames operand t rest frames' operand' hm ih =>
    obtain ⟨hhead, hrest⟩ := List.forall_mem_cons.mp ht
    have hmove := move_made extent hf ho hhead
    rw [hm] at hmove
    obtain ⟨hk, hf', ho'⟩ := hmove
    have hreads := ih hf' ho' hrest
    cases hread : readFrom extent frames' operand' rest with
    | ok r =>
      rw [hread] at hreads
      exact ⟨hreads.1, hreads.2.cons hk⟩
    | error stuck =>
      rw [hread] at hreads
      exact ⟨hreads.1, hreads.2.cons hk⟩
  | case4 frames operand t rest e hm =>
    have hmove := move_made extent hf ho (ht t List.mem_cons_self)
    rw [hm] at hmove
    exact ⟨hmove, .refl _⟩
  | case5 => exact ⟨⟨hf, ho⟩, .refl _⟩

theorem read_reads (extent : Extent) (ht : ∀ t ∈ tokens, G t) :
    Reads G tokens (read extent tokens) :=
  readFrom_reads extent (fun f hf => by cases hf) (fun e he => by cases he) ht

def OperandMade (G : Token → Prop) : Except Stuck Expr → Prop
  | .ok e => Made G e
  | .error stuck => stuck.Made G

theorem readOptional_reads (ht : ∀ t ∈ tokens, G t) :
    OperandMade G (readOptional tokens).1 ∧ Taken tokens (readOptional tokens).2 := by
  have hreads := read_reads .whole ht
  simp only [readOptional]
  cases hread : read .whole tokens with
  | ok r =>
    rw [hread] at hreads
    exact hreads
  | error stuck =>
    rw [hread] at hreads
    exact ⟨hreads.1, .refl _⟩

end Expr

end Arbor
