import Arbor.Proofs.Token.Seam
import Mathlib

/-!
# Scanning line by line

No lexeme and no comment goes on over a line break, and nothing but the place is carried over it. So
texts on lines of their own can be scanned one by one.
-/
namespace Arbor.Token

variable {a : String} {tokens : List Token}

/-- Two texts with a line break between them are scanned each on its own: the tokens of the second
stand behind those of the first, and its fault is the fault of both, each later by the length of what
stands before. -/
theorem scan_lineBreak (b : String) (ha : scan a = .ok tokens) :
    ∃ lexemes, tokens = lexemes ++ [ending a.length] ∧ (∀ t ∈ lexemes, t.kind ≠ .eof) ∧
      (∀ more, scan b = .ok more →
        scan (a ++ "\n" ++ b) = .ok (lexemes ++ more.map (later (a.length + 1)))) ∧
      ∀ f, scan b = .error f → ∃ g, scan (a ++ "\n" ++ b) = .error g ∧ g.kind = f.kind ∧
        g.text = f.text ∧ g.message = f.message ∧ g.help = f.help ∧
        g.start = f.start + (a.length + 1) ∧ g.stop = f.stop + (a.length + 1) := by
  obtain ⟨lexemes, rfl, hkinds⟩ := scan_ends ha
  have hall : (a ++ "\n" ++ b).toList = a.toList ++ '\n' :: b.toList := by simp
  have hlater := scanFrom_later (a.length + 1) 0 b.toList []
  rw [List.map_nil, Nat.zero_add] at hlater
  have hboth : scan (a ++ "\n" ++ b) =
      (scanLater (a.length + 1) (scan b)).map (lexemes ++ ·) := by
    unfold scan
    rw [hall, scan_behind _ ha, scanFrom_newline, hlater]
  refine ⟨lexemes, rfl, hkinds, ?_, ?_⟩
  · intro more hb
    rw [hboth, hb]
    rfl
  · intro f hb
    refine ⟨f.later (a.length + 1), by rw [hboth, hb]; rfl, ?_⟩
    simp [Fault.stop_later]

/-- Neither the comment nor the quote in it goes on over the line break; the quote behind the break
is the one that nothing closes. -/
theorem comment_before_lineBreak : ∃ tokens f, scan "x: 1. \\ it's" = .ok tokens ∧
    scan "print 'y" = .error f ∧ f.start = 6 ∧
    ∃ g, scan ("x: 1. \\ it's" ++ "\n" ++ "print 'y") = .error g ∧ g.message = f.message ∧
      g.start = 19 := by
  have ha : ∃ tokens, scan "x: 1. \\ it's" = .ok tokens := ⟨_, by cbv⟩
  have hb : ∃ f, scan "print 'y" = .error f ∧ f.start = 6 := ⟨_, by cbv, by cbv⟩
  obtain ⟨tokens, ha⟩ := ha
  obtain ⟨f, hb, hf⟩ := hb
  obtain ⟨lexemes, -, -, -, hfails⟩ := scan_lineBreak "print 'y" ha
  obtain ⟨g, hg, -, -, hmessage, -, hstart, -⟩ := hfails f hb
  have hlength : "x: 1. \\ it's".length = 12 := by decide
  refine ⟨tokens, f, ha, hb, hf, g, hg, hmessage, ?_⟩
  rw [hstart, hf, hlength]

end Arbor.Token
