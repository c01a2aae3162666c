import Braced.Proofs.Grammar.Sound
import Braced.Proofs.Grammar.Statement
import Braced.Proofs.Token.Fits

/-!
# Braced.Proofs.Grammar.Exact

Nothing is wrong with the grammar of a source exactly if its tokens are a program, as long
as no expression nests too deep.
-/

namespace Braced.Tree

open Builder

/-- Where the tokens are those of a program, no fault is found in them. -/
theorem clean_of_derives {tokens : List Token} (hfits : ∀ t ∈ tokens, t.Fits)
    (hshallow : (build tokens).Shallow)
    (h : Rule.program.Derives ((tokens.takeWhile (·.kind ≠ .eof)).map Token.kind)) :
    ¬(build tokens).Faulty := by
  obtain ⟨fuel, hread⟩ := build_spec tokens
  obtain ⟨parts, hparts, hkinds⟩ := derives_program_iff.mp h
  have htakes := (Parse.takesStatements_reach fuel).declarations (Builder.ofTokens tokens) hparts
    _ _ hread
  have hstart : (Builder.ofTokens tokens).Ready parts.flatten := by
    refine ⟨proper_ofTokens hfits, ?_, ?_⟩
    · rintro ⟨d, hd, -⟩
      exact List.not_mem_nil hd
    · rw [kinds, upcoming_ofTokens, hkinds]
  exact (htakes.ready hshallow hstart).1.clean

/-- **The parser accepts exactly the grammar.**  When no expression is refused
because it nests too deep, nothing is wrong with the grammar of a source if and
only if the kinds of its tokens, up to the end, are derived as a program. -/
theorem clean_iff_derives {source : List UInt8} {tokens : List Token}
    (htokens : Token.ofSource .standard source = .ok tokens)
    (hshallow : ∀ d ∈ (ofTokens tokens).2, ∀ limit, d.fault ≠ .expressionTooDeep limit) :
    (∀ d ∈ (ofTokens tokens).2, d.fault.faultClass ≠ .syntactic) ↔
      Rule.program.Derives ((tokens.takeWhile (·.kind ≠ .eof)).map Token.kind) := by
  have hfits := Token.fits_ofSource Lexicon.bare_standard htokens
  have hclean : (∀ d ∈ (ofTokens tokens).2, d.fault.faultClass ≠ .syntactic)
      ↔ ¬(build tokens).Faulty := by
    rw [faulty_build_iff]
    simp
  rw [hclean]
  exact ⟨derives_of_clean hfits, clean_of_derives hfits hshallow⟩

/-- In the source `x=1` a semicolon is missing, and its kinds are no program. -/
theorem clean_iff_derives_unfinished :
    ∃ tokens, Token.ofSource .standard [120, 61, 49] = .ok tokens ∧
      (∀ d ∈ (ofTokens tokens).2, ∀ limit, d.fault ≠ .expressionTooDeep limit) ∧
      ¬Rule.program.Derives ((tokens.takeWhile (·.kind ≠ .eof)).map Token.kind) := by
  have htokens : Token.ofSource .standard [120, 61, 49]
      = .ok [⟨.identifier, .identifier "x", ⟨1, 1⟩⟩, ⟨.assignment, .none, ⟨1, 2⟩⟩,
        ⟨.intConst, .int 1, ⟨1, 3⟩⟩, ⟨.eof, .none, ⟨1, 4⟩⟩] := by
    decide +kernel
  have hfound : (ofTokens [⟨.identifier, .identifier "x", ⟨1, 1⟩⟩, ⟨.assignment, .none, ⟨1, 2⟩⟩,
      ⟨.intConst, .int 1, ⟨1, 3⟩⟩, ⟨.eof, .none, ⟨1, 4⟩⟩]).2
      = [⟨.undeclaredIdentifier "x", ⟨1, 1⟩⟩, ⟨.unexpectedToken .semicolon .eof, ⟨1, 4⟩⟩] := by
    decide +kernel
  refine ⟨_, htokens, ?_, ?_⟩
  · rw [hfound]
    simp
  · rw [← clean_iff_derives htokens (by rw [hfound]; simp), hfound]
    decide

end Braced.Tree
