import Arbor.Proofs.Session.Standing
import Arbor.Proofs.Token.LineBreak
import Arbor.Proofs.Token.Spelling
import Arbor.Prompt

/-!
# Faults at the prompt

A line that is only an expression is run as a `print` statement with a semicolon behind it, and the
offset of its fault is counted in that statement: it is later than the place in the line by the length
of what stands before. Every other line is run as it is typed, and its fault points into it.
-/
namespace Arbor

namespace Token

variable {line : String} {lexemes : List Token}

def print : Token := ⟨.keyword, "print", 0⟩

theorem front_blank (cs : List Char) : front ' ' cs = .gap 0 := by
  have hblank : Text.isBlank ' ' = true := by
    unfold Text.isBlank
    decide
  rw [front, if_pos hblank]

theorem front_print (cs : List Char) :
    front 'p' ("rint".toList ++ ' ' :: cs) = .lexeme .keyword "print".toList 0 4 := by
  have htake : ("rint".toList ++ ' ' :: cs).takeWhile isNameChar = "rint".toList :=
    takeWhile_before (by decide) _ _
  rw [front_word (by decide), htake]
  decide

theorem scanFrom_print (cs : List Char) : scanFrom 0 ("print ".toList ++ cs) [] =
    (scanLater 6 (scanFrom 0 cs [])).map (print :: ·) := by
  have hlater := scanFrom_later 6 0 cs []
  rw [List.map_nil, Nat.zero_add] at hlater
  calc
    scanFrom 0 ("print ".toList ++ cs) [] = scanFrom 5 (' ' :: cs) [print] :=
      scanFrom_lexeme (front_print cs)
    _ = scanFrom 6 cs [print] := scanFrom_gap (front_blank cs)
    _ = (scanLater 6 (scanFrom 0 cs [])).map (print :: ·) := by
      rw [scanFrom_done, hlater]
      rfl

/-- What stands behind the tokens of a line when a semicolon is put behind the line: the semicolon,
unless a comment has taken it, and the end. -/
inductive Closed (line : String) : List Token → Prop where
  | semicolon : Closed line [⟨.semicolon, ";", line.length⟩, ending (line.length + 1)]
  | comment : Closed line [ending (line.length + 1)]

theorem Closed.ending_mem {closed : List Token} (h : Closed line closed) :
    ending (line.length + 1) ∈ closed := by
  cases h <;> simp

/-- What closes a line stands at its end or behind the semicolon; its tokens stand in it. -/
theorem Closed.located {closed : List Token} (h : Closed line closed)
    (hscan : scan line = .ok (lexemes ++ [ending line.length])) {u : Token}
    (hu : u ∈ lexemes ++ closed) : Located line u.position u.text ∨
      u.text = ";" ∧ u.position = line.length ∨ u.text = "" ∧ u.position = line.length + 1 := by
  have hscanned := scan_scanned line
  rw [hscan] at hscanned
  rcases List.mem_append.mp hu with hu | hu
  · exact Or.inl (hscanned u (List.mem_append_left _ hu)).located
  · cases h with
    | semicolon =>
      rcases List.mem_cons.mp hu with rfl | hu
      · exact Or.inr (Or.inl ⟨rfl, rfl⟩)
      · rw [List.mem_singleton.mp hu]
        exact Or.inr (Or.inr ⟨rfl, rfl⟩)
    | comment =>
      rw [List.mem_singleton.mp hu]
      exact Or.inr (Or.inr ⟨rfl, rfl⟩)

theorem scanFrom_closed (h : scan line = .ok (lexemes ++ [ending line.length])) :
    ∃ closed, Closed line closed ∧ scanFrom 0 (line.toList ++ [';']) [] = .ok (lexemes ++ closed) := by
  obtain ⟨before, k, htokens, hk, hscan⟩ := scanFrom_separator separates_semicolon [] h
  rw [Nat.zero_add, String.length_toList] at htokens hscan
  obtain rfl : before.reverse = lexemes := (List.append_cancel_right htokens).symm
  rw [hscan]
  rcases hk with rfl | rfl
  · refine ⟨_, .semicolon, ?_⟩
    rw [List.drop_zero, scanFrom_lexeme (front_semicolon []), List.drop_nil, scanFrom]
    simp [ending]
  · refine ⟨_, .comment, ?_⟩
    have hone : commentLength [';'] = 1 := by decide
    rw [hone, List.drop_one, List.tail_cons, scanFrom]
    simp [ending]

theorem scan_printed (h : scan line = .ok (lexemes ++ [ending line.length])) :
    ∃ closed, Closed line closed ∧
      scan ("print " ++ line ++ ";") = .ok (print :: (lexemes ++ closed).map (later 6)) := by
  obtain ⟨closed, hclosed, hscan⟩ := scanFrom_closed h
  have hall : ("print " ++ line ++ ";").toList = "print ".toList ++ (line.toList ++ [';']) := by
    simp
  refine ⟨closed, hclosed, ?_⟩
  rw [scan, hall, scanFrom_print, hscan]
  rfl

end Token

namespace Tree

open Growth

variable {P : String → Nat → Prop} {t : Tree} {loose : List NodeId} {tokens : List Token}

theorem Growth.grow_print_comes {g : Growth} {eof : Token} (hg : g.Shaped fun _ _ => True)
    (hkeyword : ∀ u ∈ tokens, u.kind = .keyword → (Keyword.ofText? u.text).isSome = true) :
    Comes (fun _ _ => True) (eof :: tokens) (grow eof g (Token.print :: tokens)) := by
  have hs : g.statement eof Token.print tokens = g.withOperand .output Token.print tokens := rfl
  have htaken := @withOperand_orderly (eof :: tokens) g .output Token.print tokens
  cases hstep : g.statement eof Token.print tokens with
  | error stunted =>
    rw [hs] at hstep
    cases hstep
  | ok r =>
    obtain ⟨g', rest⟩ := r
    rw [← hs, hstep] at htaken
    have htaken : Taken tokens rest := htaken
    rw [grow_ok hstep]
    have hcomes := @Growth.grow_comes _ g' eof rest
      (statement_shaped hg trivial (fun _ _ => trivial) hstep) (fun _ _ => trivial)
      (fun u hu => hkeyword u (htaken.mem hu))
    refine hcomes.mono fun u hu => ?_
    rcases List.mem_cons.mp hu with rfl | hu
    · exact List.mem_cons_self
    · exact List.mem_cons_of_mem _ (htaken.mem hu)

theorem grow_print_blames (hg : t.Grove loose) (hformed : t.Formed fun _ _ => True)
    (hroot : t.tag root = .root) {eof : Token} (heof : eof.kind = .eof) (hmem : eof ∈ tokens)
    (hkeyword : ∀ u ∈ tokens, u.kind = .keyword → (Keyword.ofText? u.text).isSome = true)
    {stunted : Stunted} (h : t.grow (Token.print :: tokens) = .error stunted) :
    stunted.fault.Blames tokens := by
  have hshaped : Growth.Shaped (fun _ _ => True) ⟨t, root⟩ :=
    ⟨⟨⟨loose, hg⟩, .refl⟩, hformed, by rw [hroot]; rfl⟩
  have hprint : ¬(Token.print.kind = .eof) := by decide
  have hsome : (tokens.find? (·.kind = .eof)).isSome = true :=
    List.find?_isSome.mpr ⟨eof, hmem, decide_eq_true heof⟩
  obtain ⟨e, he⟩ := Option.isSome_iff_exists.mp hsome
  unfold Tree.grow at h
  rw [List.find?_cons_of_neg (by simpa using hprint), he,
    List.takeWhile_cons_of_pos (by simpa using hprint)] at h
  have hsub : ∀ u ∈ tokens.takeWhile (·.kind ≠ .eof), u ∈ tokens := fun u hu =>
    (List.takeWhile_prefix _).subset hu
  have hcomes := @grow_print_comes (tokens.takeWhile (·.kind ≠ .eof)) _ e hshaped
    fun u hu => hkeyword u (hsub u hu)
  rw [Option.getD_some] at h
  rw [h] at hcomes
  apply Fault.Blames.mono hcomes
  intro u hu
  rcases List.mem_cons.mp hu with rfl | hu
  · exact List.mem_of_find?_eq_some he
  · exact hsub u hu

end Tree

open Prompt

namespace Session

/-- A session at the prompt: one that was reached before, under the settings of the prompt, and what
the lines have made of it. -/
inductive Prompted : Session → Prop where
  | reached {s : Session} (settings : Settings) : s.Reachable → Prompted { s with settings }
  | emit {s : Session} (e : Emission) : Prompted s → Prompted (s.emit e)
  | offer {s : Session} (lines : List Line) : Prompted s → Prompted (s.offer lines)
  | obey {s s' : Session} (fuel : Nat) (source : String) : Prompted s →
      s.obey fuel source = some s' → Prompted s'

variable {s s' t : Session} {line source : String} {fuel : Nat} {f : Fault}

theorem start_prompted (clock : Clock) (settings : Settings) (input : List String) :
    (Session.start clock settings input).Prompted :=
  .reached settings (.start clock settings input)

theorem obey_cases (h : s.obey fuel source = some s') :
    ∃ t, (s.runSource fuel source).state? = some t ∧
      (s' = t ∨ ∃ e, s' = t.emit e) := by
  unfold obey report at h
  cases hrun : s.runSource fuel source with
  | outOfFuel =>
    rw [hrun] at h
    cases h
  | done r u =>
    rw [hrun] at h
    exact ⟨u, rfl, Or.inl (Option.some.inj h).symm⟩
  | failed g u =>
    rw [hrun] at h
    exact ⟨u, rfl, Or.inr ⟨_, (Option.some.inj h).symm⟩⟩

theorem Standing.emit {P : String → Nat → Prop} (h : s.Standing P) (e : Emission) :
    (s.emit e).Standing P :=
  ⟨h.grove, h.formed, h.root, h.counters⟩

theorem Prompted.standing (h : s.Prompted) : s.Standing fun _ _ => True := by
  induction h with
  | reached settings hreached =>
    have hstanding := hreached.standing
    exact ⟨hstanding.grove, hstanding.formed, hstanding.root, hstanding.counters⟩
  | emit e _ ih => exact ih.emit e
  | offer lines _ ih => exact ⟨ih.grove, ih.formed, ih.root, ih.counters⟩
  | obey fuel source _ h ih =>
    obtain ⟨t, hrun, rfl | ⟨e, rfl⟩⟩ := obey_cases h
    · exact ih.ran (fun _ _ _ => trivial) hrun
    · exact (ih.ran (fun _ _ _ => trivial) hrun).emit e

/-- Every session in a conversation is one at the prompt. -/
theorem converse_prompted {lines : List Line} {ending : Ending} (h : s.Prompted)
    (hs : s.converse fuel lines = some (s', ending)) : s'.Prompted := by
  fun_induction converse fuel s lines with
  | case1 s =>
    cases hs
    exact (h.emit _).emit _
  | case2 s rest =>
    cases hs
    exact h.emit _
  | case3 s line rest t hc ih => exact ih (h.emit _) hs
  | case4 s line rest t hc =>
    cases hs
    exact (h.emit _).emit _
  | case5 s line rest t source hc u hobey ih =>
    exact ih (.obey fuel source ((h.emit _).offer rest) hobey) hs
  | case6 => cases hs

theorem obey_refused (hl : s.load source = .failed f s) (fuel : Nat) :
    s.obey fuel source = some { s with state := { s.state with
      output := s.state.output.push (.diagnostic (f.diagnostic sourceName)) } } := by
  rw [obey, report_failed (runSource_of_load hl fuel)]

/-- The fault of an expression blames a token of the line or of what closes it, later by the length of
what is put before the line. -/
theorem Prompted.printed_blames (h : s.Prompted) (hexpression : isExpression line = true)
    (hl : s.load (sourceOf line) = .failed f t) : ∃ lexemes closed u,
      Token.scan line = .ok (lexemes ++ [Token.ending line.length]) ∧ Token.Closed line closed ∧
      u ∈ lexemes ++ closed ∧ f.text = u.text ∧ f.start = u.position + "print ".length := by
  have hsource : sourceOf line = "print " ++ line ++ ";" := if_pos hexpression
  have hloads := h.standing.loads (sourceOf line) fun _ _ _ => trivial
  rw [hl, hsource] at hloads
  cases hscan : Token.scan line with
  | error fault =>
    rw [isExpression, hscan] at hexpression
    cases hexpression
  | ok tokens =>
    obtain ⟨lexemes, rfl, -⟩ := Token.scan_ends hscan
    obtain ⟨closed, hclosed, hprinted⟩ := Token.scan_printed hscan
    obtain ⟨-, ⟨hfails, -⟩ | ⟨tokens, stunted, hok, hgrow, rfl, -⟩, -⟩ := hloads.failed
    · rw [hprinted] at hfails
      cases hfails
    · rw [hprinted] at hok
      cases hok
      have hscanned := Token.scan_scanned ("print " ++ line ++ ";")
      rw [hprinted] at hscanned
      have hend := List.mem_map_of_mem (f := Token.later 6)
        (List.mem_append_right lexemes hclosed.ending_mem)
      obtain ⟨loose, hg⟩ := h.standing.grove
      obtain ⟨why, found, hfault, -, hfound⟩ :=
        Tree.grow_print_blames hg h.standing.formed h.standing.root rfl hend
          (fun u hu => (hscanned u (List.mem_cons_of_mem _ hu)).keyword) hgrow
      obtain ⟨u, hu, rfl⟩ := List.mem_map.mp hfound
      rw [hfault]
      exact ⟨lexemes, closed, u, rfl, hclosed, hu, rfl, rfl⟩

/-- A fault at the prompt is reported with its offset in the text that is run. That is the line as it
was typed, and the offending text stands there in the line, unless the line is only an expression.
Then the offset is later, by the length of what is put before the line, than the place of the
offending text in the line, or of the semicolon or the end behind it. -/
theorem prompt_fault_located (h : s.Prompted) (hl : s.load (sourceOf line) = .failed f t)
    (fuel : Nat) :
    s.obey fuel (sourceOf line) = some { s with state := { s.state with
      output := s.state.output.push (.diagnostic (f.diagnostic sourceName)) } } ∧
    (isExpression line = false → Located line f.start f.text) ∧
    (isExpression line = true → ∃ place, f.start = place + "print ".length ∧
      (Located line place f.text ∨ f.text = ";" ∧ place = line.length ∨
        f.text = "" ∧ place = line.length + 1)) := by
  have hloads := h.standing.loads (sourceOf line) fun _ _ _ => trivial
  rw [hl] at hloads
  obtain ⟨rfl, -, hlocated⟩ := hloads.failed
  refine ⟨obey_refused hl fuel, ?_, ?_⟩
  · intro hexpression
    rw [sourceOf, hexpression] at hlocated
    exact hlocated
  · intro hexpression
    obtain ⟨lexemes, closed, u, hscan, hclosed, hu, htext, hstart⟩ :=
      h.printed_blames hexpression hl
    refine ⟨u.position, hstart, ?_⟩
    rw [htext]
    exact hclosed.located hscan hu

/-- In a conversation after a first line, the fault of a statement points into it, and that of an
expression stands 6 characters late. -/
theorem statement_and_sum_refused : ∃ (s : Session) (ending : Ending) (f g : Fault),
    (Session.start ⟨"", 0⟩ {} []).converse 9 [.text "x: 'a'"] = some (s, ending) ∧
    s.Prompted ∧ isExpression "print 1)" = false ∧ isExpression "1 +" = true ∧
    s.load (sourceOf "print 1)") = .failed f s ∧ f.start = 7 ∧ Located "print 1)" 7 f.text ∧
    s.load (sourceOf "1 +") = .failed g s ∧ g.start = 6 ∧ ∃ place, 6 = place + "print ".length ∧
      (Located "1 +" place g.text ∨ g.text = ";" ∧ place = "1 +".length ∨
        g.text = "" ∧ place = "1 +".length + 1) := by
  have hrun : ∃ s t : Session, (((Session.start ⟨"", 0⟩ {} []).emit (.notice "> ")).offer []).obey 9
        "x: 'a'" = some s ∧ s.unread [] = [] ∧
      t = (s.emit (.notice "> ")).emit (.notice "\n") ∧
      (∃ f, t.load (sourceOf "print 1)") = .failed f t ∧ f.start = 7) ∧
      ∃ g, t.load (sourceOf "1 +") = .failed g t ∧ g.start = 6 :=
    ⟨_, _, by cbv, by cbv, rfl, ⟨_, by cbv, by cbv⟩, _, by cbv, by cbv⟩
  obtain ⟨s, t, hs, hunread, ht, ⟨f, hf, hfstart⟩, g, hg, hgstart⟩ := hrun
  have hcommand : command "x: 'a'" = .run "x: 'a'" := by decide +kernel
  have hconverse : (Session.start ⟨"", 0⟩ {} []).converse 9 [.text "x: 'a'"] =
      some (t, .endOfInput) := by
    simp only [converse, hcommand, hs, hunread, ht]
  have hprompted := converse_prompted (start_prompted ..) hconverse
  obtain ⟨-, hstands, -⟩ := prompt_fault_located hprompted hf 0
  obtain ⟨-, -, hlate⟩ := prompt_fault_located hprompted hg 0
  have hbracket : isExpression "print 1)" = false := by decide +kernel
  have hexpression : isExpression "1 +" = true := by decide +kernel
  refine ⟨t, _, f, g, hconverse, hprompted, hbracket, hexpression, hf, hfstart, ?_, hg, hgstart, ?_⟩
  · exact hfstart ▸ hstands hbracket
  · exact hgstart ▸ hlate hexpression

/-- The report of an unfinished sum points behind the end of the line. -/
theorem sum_reported_past_line : ∃ (s : Session) (f : Fault),
    s.Prompted ∧ command "1 +" = .run (sourceOf "1 +") ∧ s.load (sourceOf "1 +") = .failed f s ∧
    f.diagnostic sourceName = "ERROR [Invalid syntax] At '1' At <repl><ldrx-run>char:6" ∧
    f.text = "1" ∧ Located "1 +" 0 f.text ∧ ¬Located "1 +" f.start f.text ∧
    f.start ≠ "1 +".length := by
  have hload : ∃ f, (Session.start ⟨"", 0⟩ {} []).load (sourceOf "1 +") =
      .failed f (Session.start ⟨"", 0⟩ {} []) ∧
      f.diagnostic sourceName = "ERROR [Invalid syntax] At '1' At <repl><ldrx-run>char:6" ∧
      f.text = "1" ∧ f.start = 6 := ⟨_, by cbv, by cbv, by cbv, by cbv⟩
  obtain ⟨f, hl, hdiagnostic, htext, hstart⟩ := hload
  have hcommand : command "1 +" = .run (sourceOf "1 +") := by decide +kernel
  refine ⟨_, f, start_prompted .., hcommand, hl, hdiagnostic, htext, ?_, ?_, ?_⟩
  · rw [htext]
    exact ⟨[], " +".toList, by decide, rfl, fun h => absurd h (by decide)⟩
  · rw [htext, hstart]
    rintro ⟨before, after, hsource, hbefore, -⟩
    have hlength := congrArg List.length hsource
    simp [hbefore] at hlength
    omega
  · rw [hstart]
    decide

end Session

end Arbor
