import Arbor.Evaluate
import Arbor.Proofs.Run.Effect
import Arbor.Proofs.Tree.Shape

/-!
# Two runs side by side

Two runs of one tree may differ in their settings or in their memories. A pairing says how: the
limits of the second run are no tighter than those of the first, and the memories resolve alike the
names that the tree mentions. Then the runs do the same, step by step, and print the same texts. Only
where the settings differ may the first run come to a limit at which the second one goes on; what has
been printed until then stays in front of what the second run prints.
-/
namespace Arbor

open Run

def Settings.spoken (S : Settings) (texts : List String) : List Emission :=
  texts.flatMap fun text => if S.printNewline then [.printed text, .lineBreak] else [.printed text]

@[simp] theorem Settings.spoken_nil (S : Settings) : S.spoken [] = [] := List.flatMap_nil

@[simp] theorem Settings.spoken_append (S : Settings) (l r : List String) :
    S.spoken (l ++ r) = S.spoken l ++ S.spoken r := List.flatMap_append

theorem Run.print_eq (p : Program) (text : String) (s : State) : ∃ output,
    Run.print p text s = .done () { s with output } ∧
      output.toList = s.output.toList ++ p.settings.spoken [text] := by
  cases hline : p.settings.printNewline with
  | false =>
    refine ⟨s.output.push (.printed text), ?_, by simp [Settings.spoken, hline]⟩
    simp [Run.print, Run.emit, Bind.bind, Pure.pure, hline]
  | true =>
    refine ⟨(s.output.push (.printed text)).push .lineBreak, ?_, by simp [Settings.spoken, hline]⟩
    simp [Run.print, Run.emit, Bind.bind, hline]

def Run.Speaks (S : Settings) (x : Run α) : Prop :=
  ∀ s s', (x s).state? = some s' → ∃ texts, s'.output.toList = s.output.toList ++ S.spoken texts

namespace Run.Speaks

variable {S : Settings} {x : Run α} {t : Tree}

theorem silent (h : ∀ s s', (x s).state? = some s' → s'.output = s.output) : Speaks S x :=
  fun s s' hs => ⟨[], by simp [h s s' hs]⟩

theorem pure (a : α) : Speaks S (Pure.pure a) := by
  apply silent
  intro s s' hs
  cases hs
  rfl

theorem outOfFuel : Speaks S (Run.outOfFuel : Run α) := by
  intro s s' hs
  cases hs

theorem bind {f : α → Run β} (hx : Speaks S x) (hf : ∀ a, Speaks S (f a)) :
    Speaks S (x >>= f) := by
  intro s s' hs
  cases hxs : x s with
  | outOfFuel =>
    rw [bind_of_outOfFuel f hxs] at hs
    cases hs
  | failed fault t =>
    rw [bind_of_failed f hxs] at hs
    exact hx s s' (by rw [hxs]; exact hs)
  | done a t =>
    rw [bind_of_done f hxs] at hs
    obtain ⟨texts, htexts⟩ := hx s t (by rw [hxs]; rfl)
    obtain ⟨more, hmore⟩ := hf a t s' hs
    exact ⟨texts ++ more, by simp [hmore, htexts]⟩

theorem print (text : String) : Speaks S (Run.print ⟨t, S⟩ text) := by
  intro s s' hs
  obtain ⟨output, hprint, houtput⟩ := Run.print_eq ⟨t, S⟩ text s
  rw [hprint] at hs
  cases hs
  exact ⟨[text], houtput⟩

theorem readLine : Speaks S Run.readLine := by
  apply silent
  intro s s' hs
  unfold Run.readLine at hs
  cases hin : s.input <;>
    · rw [hin] at hs
      cases hs
      rfl

theorem checkDepth (p : Program) (name : String) (access : NodeId) :
    Speaks S (Run.checkDepth p name access) := by
  apply silent
  intro s s' hs
  unfold Run.checkDepth at hs
  by_cases h : s.depth < p.settings.maxDepth
  · rw [if_pos h] at hs
    cases hs
    rfl
  · rw [if_neg h] at hs
    cases hs
    rfl

theorem nested (p : Program) (node : NodeId) (hx : Speaks S x) :
    Speaks S (Run.nested p node x) := by
  intro s s' hs
  by_cases hlt : s.nesting < p.settings.maxNesting
  · rw [nested_of_lt node x hlt, Outcome.state?_update] at hs
    obtain ⟨u, hu, rfl⟩ := Option.map_eq_some_iff.mp hs
    exact hx { s with nesting := s.nesting + 1 } u hu
  · rw [nested_of_not_lt node x hlt] at hs
    cases hs
    exact ⟨[], by simp⟩

theorem called (hx : Speaks S x) : Speaks S (Run.called x) := by
  intro s s' hs
  rw [called_eq, Outcome.state?_update] at hs
  obtain ⟨u, hu, rfl⟩ := Option.map_eq_some_iff.mp hs
  exact hx { s with depth := s.depth + 1 } u hu

end Run.Speaks

def Tree.Lists (t : Tree) (N : String → Prop) (list : Option NodeId) : Prop :=
  ∀ l, list = some l → ∀ c ∈ t.children l, N (t.text c)

/-- Two ways of running one tree. -/
structure Pairing where
  tree : Tree
  first : Settings
  second : Settings
  /-- The names that are read and bound. -/
  name : String → Prop
  /-- How the memories of the two runs are alike. -/
  alike : Memory → Memory → Prop
  depth : first.maxDepth ≤ second.maxDepth
  nesting : first.maxNesting ≤ second.maxNesting
  /-- Where the settings differ, all names may be bound and the memories can be the same. -/
  apart : first ≠ second → (∀ n, name n) ∧ ∀ m, alike m m
  naming : ∀ n, (tree.tag n).isNaming = true → name (tree.text n)
  parameters : ∀ n, tree.tag n = .function → tree.Lists name (tree.child? n 0)
  resolve : ∀ {m m' n} access, alike m m' → name n →
    m'.resolve tree n access = m.resolve tree n access
  bound : ∀ {m m' n access b}, alike m m' → name n → m.resolve tree n access = some b →
    tree.Lists name b.params
  store : ∀ {m m' n params} value access, alike m m' → name n → tree.Lists name params →
    alike (m.store tree n value params access) (m'.store tree n value params access)
  remove : ∀ {m m' n} access, alike m m' → name n →
    alike (m.remove tree n access) (m'.remove tree n access)

namespace Pairing

variable (P : Pairing)

def left : Program := ⟨P.tree, P.first⟩

def right : Program := ⟨P.tree, P.second⟩

@[simp] theorem left_tree : P.left.tree = P.tree := rfl

@[simp] theorem right_tree : P.right.tree = P.tree := rfl

@[simp] theorem left_settings : P.left.settings = P.first := rfl

@[simp] theorem right_settings : P.right.settings = P.second := rfl

/-- What the two runs have in common on their way: since they had sent `base`, they have printed the
same texts. -/
structure Beside (base : List Emission) (s s' : State) : Prop where
  memory : P.alike s.memory s'.memory
  output : ∃ texts, s.output.toList = base ++ P.first.spoken texts ∧
    s'.output.toList = base ++ P.second.spoken texts
  input : s'.input = s.input
  depth : s'.depth = s.depth
  nesting : s'.nesting = s.nesting

/-- How the two runs end. The first one may be left behind at a limit; what it has printed by then is
what the second one printed first. -/
inductive Ends (base : List Emission) (good : α → Prop) :
    Outcome State α → Outcome State α → Prop where
  | done {a : α} {s s' : State} : good a → P.Beside base s s' →
      Ends base good (.done a s) (.done a s')
  | failed {f : Fault} {s s' : State} : P.Beside base s s' →
      Ends base good (.failed f s) (.failed f s')
  | outOfFuel : Ends base good .outOfFuel .outOfFuel
  | behind {f : Fault} {s : State} {y : Outcome State α} {texts : List String} :
      P.first ≠ P.second → s.output.toList = base ++ P.first.spoken texts →
      (∀ s', y.state? = some s' →
        ∃ more, s'.output.toList = base ++ P.second.spoken (texts ++ more)) →
      Ends base good (.failed f s) y

/-- From states that are alike the two runs end alike, and if they give a value, it is as `good`
says. Where the settings differ every value is, and the second run sends only what it prints. -/
structure InPace (x y : Run α) (good : α → Prop) : Prop where
  ends : ∀ base s s', P.Beside base s s' → P.Ends base good (x s) (y s')
  apart : P.first ≠ P.second → (∀ a, good a) ∧ Speaks P.second y

variable {P} {base : List Emission} {s s' : State}

theorem Ends.update {good : α → Prop} {x y : Outcome State α} (h : P.Ends base good x y)
    {change : State → State} (houtput : ∀ s, (change s).output = s.output)
    (hbeside : ∀ s s', P.Beside base s s' → P.Beside base (change s) (change s')) :
    P.Ends base good (x.update change) (y.update change) := by
  cases h with
  | done ha hs => exact .done ha (hbeside _ _ hs)
  | failed hs => exact .failed (hbeside _ _ hs)
  | outOfFuel => exact .outOfFuel
  | behind hne hfirst hsecond =>
    refine .behind hne (by rw [houtput, hfirst]) fun t ht => ?_
    rw [Outcome.state?_update] at ht
    obtain ⟨u, hu, rfl⟩ := Option.map_eq_some_iff.mp ht
    rw [houtput]
    exact hsecond u hu

namespace InPace

variable {x y : Run α} {good : α → Prop}

theorem pure {a : α} (h : good a) (hall : P.first ≠ P.second → ∀ a, good a) :
    P.InPace (Pure.pure a) (Pure.pure a) good where
  ends _ _ _ hs := .done h hs
  apart hne := ⟨hall hne, .pure a⟩

theorem give (a : α) : P.InPace (Pure.pure a) (Pure.pure a) fun _ => True :=
  pure trivial fun _ _ => trivial

theorem outOfFuel (hall : P.first ≠ P.second → ∀ a, good a) :
    P.InPace Run.outOfFuel Run.outOfFuel good where
  ends _ _ _ _ := .outOfFuel
  apart hne := ⟨hall hne, .outOfFuel⟩

theorem bind {f g : α → Run β} {good' : β → Prop} (hx : P.InPace x y good)
    (hf : ∀ a, good a → P.InPace (f a) (g a) good') (hall : P.first ≠ P.second → ∀ b, good' b) :
    P.InPace (x >>= f) (y >>= g) good' where
  apart hne := by
    obtain ⟨hgood, hspeaks⟩ := hx.apart hne
    exact ⟨hall hne, hspeaks.bind fun a => ((hf a (hgood a)).apart hne).2⟩
  ends base s s' hs := by
    have hxy := hx.ends base s s' hs
    generalize hox : x s = ox, hoy : y s' = oy at hxy
    cases hxy with
    | done ha hs' =>
      rw [bind_of_done f hox, bind_of_done g hoy]
      exact (hf _ ha).ends base _ _ hs'
    | failed hs' =>
      rw [bind_of_failed f hox, bind_of_failed g hoy]
      exact .failed hs'
    | outOfFuel =>
      rw [bind_of_outOfFuel f hox, bind_of_outOfFuel g hoy]
      exact .outOfFuel
    | behind hne hfirst hsecond =>
      rw [bind_of_failed f hox]
      refine .behind hne hfirst fun t ht => ?_
      cases oy with
      | outOfFuel =>
        rw [bind_of_outOfFuel g hoy] at ht
        cases ht
      | failed fault u =>
        rw [bind_of_failed g hoy] at ht
        exact hsecond t ht
      | done a u =>
        rw [bind_of_done g hoy] at ht
        obtain ⟨more, hmore⟩ := hsecond u rfl
        have hspeaks := ((hf a ((hx.apart hne).1 a)).apart hne).2
        obtain ⟨rest, hrest⟩ := hspeaks u t ht
        exact ⟨more ++ rest, by simp [hrest, hmore]⟩

theorem memory {f g : Memory → Run α} (hf : ∀ m m', P.alike m m' → P.InPace (f m) (g m') good) :
    P.InPace (Run.memory >>= f) (Run.memory >>= g) good where
  ends base s s' hs := (hf _ _ hs.memory).ends base s s' hs
  apart hne := by
    have hsame := fun m => (hf m m ((P.apart hne).2 m)).apart hne
    exact ⟨(hsame Memory.empty).1, fun s s' hs => (hsame s.memory).2 s s' hs⟩

theorem store {name : String} (hname : P.name name) (value : Value) {params : Option NodeId}
    (hparams : P.tree.Lists P.name params) (scope : NodeId) :
    P.InPace (Run.store P.left name value params scope) (Run.store P.right name value params scope)
      fun _ => True where
  ends _ _ _ hs := .done trivial
    ⟨P.store value scope hs.memory hname hparams, hs.output, hs.input, hs.depth, hs.nesting⟩
  apart _ := by
    refine ⟨fun _ => trivial, .silent fun s s' hs => ?_⟩
    cases hs
    rfl

theorem remove {name : String} (hname : P.name name) (scope : NodeId) :
    P.InPace (Run.remove P.left name scope) (Run.remove P.right name scope) fun _ => True where
  ends _ _ _ hs := .done trivial
    ⟨P.remove scope hs.memory hname, hs.output, hs.input, hs.depth, hs.nesting⟩
  apart _ := by
    refine ⟨fun _ => trivial, .silent fun s s' hs => ?_⟩
    cases hs
    rfl

theorem print (text : String) :
    P.InPace (Run.print P.left text) (Run.print P.right text) fun _ => True where
  ends base s s' hs := by
    obtain ⟨output, hleft, houtput⟩ := Run.print_eq P.left text s
    obtain ⟨output', hright, houtput'⟩ := Run.print_eq P.right text s'
    obtain ⟨texts, hfirst, hsecond⟩ := hs.output
    rw [hleft, hright]
    exact .done trivial ⟨hs.memory, ⟨texts ++ [text], by simp [houtput, hfirst],
      by simp [houtput', hsecond]⟩, hs.input, hs.depth, hs.nesting⟩
  apart _ := ⟨fun _ => trivial, .print text⟩

theorem readLine : P.InPace Run.readLine Run.readLine fun _ => True where
  ends base s s' hs := by
    unfold Run.readLine
    rw [hs.input]
    cases hin : s.input with
    | nil => exact .done trivial hs
    | cons line rest =>
      exact .done trivial ⟨hs.memory, hs.output, rfl, hs.depth, hs.nesting⟩
  apart _ := ⟨fun _ => trivial, .readLine⟩

/-- Where only the first run fails, the second one stands where it can go on. -/
theorem left_behind {f : Fault} (hs : P.Beside base s s') (hne : P.first ≠ P.second)
    (hy : Speaks P.second y) : P.Ends base good (.failed f s) (y s') := by
  obtain ⟨texts, hfirst, hsecond⟩ := hs.output
  refine .behind hne hfirst fun t ht => ?_
  obtain ⟨more, hmore⟩ := hy s' t ht
  exact ⟨more, by simp [hmore, hsecond]⟩

theorem checkDepth (name : String) (access : NodeId) :
    P.InPace (Run.checkDepth P.left name access) (Run.checkDepth P.right name access)
      fun _ => True where
  apart _ := ⟨fun _ => trivial, .checkDepth _ name access⟩
  ends base s s' hs := by
    have hspeaks : Speaks P.second (Run.checkDepth P.right name access) := .checkDepth _ name access
    have hle := P.depth
    by_cases hlt : s.depth < P.first.maxDepth
    · have hlt' : s'.depth < P.second.maxDepth := by
        rw [hs.depth]
        omega
      rw [Run.checkDepth, Run.checkDepth, left_settings, right_settings, if_pos hlt, if_pos hlt']
      exact .done trivial hs
    · by_cases hsame : P.first = P.second
      · have hlt' : ¬s'.depth < P.second.maxDepth := by rwa [hs.depth, ← hsame]
        rw [Run.checkDepth, Run.checkDepth, left_settings, right_settings, if_neg hlt, if_neg hlt',
          left_tree, right_tree, hsame]
        exact .failed hs
      · have hfail : ∃ f, Run.checkDepth P.left name access s = .failed f s :=
          ⟨_, by rw [Run.checkDepth, left_settings, if_neg hlt]⟩
        obtain ⟨f, hfail⟩ := hfail
        rw [hfail]
        exact left_behind hs hsame hspeaks

theorem nested (node : NodeId) (hx : P.InPace x y good) :
    P.InPace (Run.nested P.left node x) (Run.nested P.right node y) good where
  apart hne := ⟨(hx.apart hne).1, (hx.apart hne).2.nested _ node⟩
  ends base s s' hs := by
    have hle := P.nesting
    by_cases hlt : s.nesting < P.first.maxNesting
    · have hlt' : s'.nesting < P.second.maxNesting := by
        rw [hs.nesting]
        omega
      have hinner : P.Beside base { s with nesting := s.nesting + 1 }
          { s' with nesting := s'.nesting + 1 } := by
        refine ⟨hs.memory, hs.output, hs.input, hs.depth, ?_⟩
        simp [hs.nesting]
      rw [nested_of_lt node x hlt, nested_of_lt node y hlt']
      refine (hx.ends base _ _ hinner).update (fun _ => rfl) ?_
      intro u u' hu
      exact ⟨hu.memory, hu.output, hu.input, hu.depth, by simp [hu.nesting]⟩
    · by_cases hsame : P.first = P.second
      · have hlt' : ¬s'.nesting < P.second.maxNesting := by rwa [hs.nesting, ← hsame]
        rw [nested_of_not_lt node x hlt, nested_of_not_lt node y hlt', left, right, hsame]
        exact .failed hs
      · rw [nested_of_not_lt node x hlt]
        exact left_behind hs hsame ((hx.apart hsame).2.nested _ node)

theorem called (hx : P.InPace x y good) : P.InPace (Run.called x) (Run.called y) good where
  apart hne := ⟨(hx.apart hne).1, (hx.apart hne).2.called⟩
  ends base s s' hs := by
    have hinner : P.Beside base { s with depth := s.depth + 1 }
        { s' with depth := s'.depth + 1 } := by
      refine ⟨hs.memory, hs.output, hs.input, ?_, hs.nesting⟩
      simp [hs.depth]
    rw [called_eq, called_eq]
    refine (hx.ends base _ _ hinner).update (fun _ => rfl) ?_
    intro u u' hu
    exact ⟨hu.memory, hu.output, hu.input, by simp [hu.depth], hu.nesting⟩

end InPace

end Pairing

end Arbor
