import Arbor.Proofs.Session.Reachable
import Mathlib

/-!
# Refused texts

A text that is refused may already have hung bodies on statements of earlier texts and left litter.
All of that is dropped, and what is left is the session before.
-/
namespace Arbor.Session

variable {s s' : Session} {source : String} {fault : Fault}

/-- After a refused text the session is the one before it, node by node and slot by slot. Running
the text executes nothing. Reporting it puts one diagnostic behind the output and changes nothing
else. -/
theorem refused_load_restores (h : s.Reachable) (hl : s.load source = .failed fault s') :
    s' = s ∧ ∀ fuel name, s.runSource fuel source = .failed fault s ∧
      s.report fuel source name = .failed fault { s with state := { s.state with
        output := s.state.output.push (.diagnostic (fault.diagnostic name)) } } := by
  obtain ⟨loose, hg⟩ := h.grove
  obtain ⟨tree, hs, _⟩ := load_grows hg (congrArg Outcome.state? hl)
  have hsame : s' = s := by
    rcases load_cases hg source with ⟨fault', hf⟩ | ⟨_, _, _, _, hd⟩
    · rw [hf] at hl
      cases hl
      rfl
    · rw [hd] at hl
      cases hl
  subst hsame
  have hrun := runSource_of_load hl
  exact ⟨rfl, fun fuel name => ⟨hrun fuel, report_failed (hrun fuel) name⟩⟩

/-- The body that opens here would hang on the old `if`, and its `else` would make it a second
branch; the unfinished call leaves litter. The report is all that is left of the text. -/
theorem refused_else_restores : ∃ (s t : Session) (fault : Fault), s.Reachable ∧ s.tree.size = 3 ∧
    s.load "\x7b;else f(a" = .failed fault s ∧
    s.report 9 "\x7b;else f(a" "<stdin>" = .failed fault t ∧ t.tree = s.tree ∧
    t.state.memory = s.state.memory ∧ t.state.output =
      #[.diagnostic "ERROR [Invalid syntax] At '' At <stdin><ldrx-run>char:10"] := by
  have hrun : ∃ s, (Session.start ⟨"", 0⟩ {} []).runSource 9 "if a" = .done () s ∧
      s.tree.size = 3 ∧ s.state.output = #[] ∧
      ∃ fault s', s.load "\x7b;else f(a" = .failed fault s' ∧ fault.diagnostic "<stdin>" =
        "ERROR [Invalid syntax] At '' At <stdin><ldrx-run>char:10" :=
    ⟨_, by cbv, by cbv, by cbv, _, _, by cbv, by cbv⟩
  obtain ⟨s, hs, hsize, hsilent, fault, s', hl, hline⟩ := hrun
  have hreach : s.Reachable := .run 9 "if a" (.start ..) (congrArg Outcome.state? hs)
  obtain ⟨hsame, hreports⟩ := refused_load_restores hreach hl
  refine ⟨s, _, fault, hreach, hsize, hsame ▸ hl, (hreports 9 "<stdin>").2, rfl, rfl, ?_⟩
  rw [hsilent, hline]
  rfl

end Arbor.Session
