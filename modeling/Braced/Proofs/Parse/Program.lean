import Braced.Proofs.Parse.Statement

/-!
# Braced.Proofs.Parse.Program

What is known of the tree of any list of tokens.

All tokens in front of the end are passed, and the tree is written as pieces that
match them unless something is wrong with the grammar
(`Tree.ofTokens_writes`).
-/

namespace Braced

namespace Builder

/-! ## The start -/

theorem takeWhile_terminated (tokens : List Token) :
    (terminated tokens).takeWhile (·.kind ≠ .eof) = tokens.takeWhile (·.kind ≠ .eof) := by
  unfold terminated
  split
  · split
    · rfl
    · rw [List.takeWhile_append]
      split
      · next hlength =>
        rw [(List.takeWhile_prefix _).eq_of_length hlength]
        exact List.append_nil _
      · rfl
  · next hlast =>
    rw [List.getLast?_eq_none_iff.mp hlast]
    rfl

/-- The tokens that come are those in front of the end. -/
theorem upcoming_ofTokens (tokens : List Token) :
    (ofTokens tokens).upcoming = tokens.takeWhile (·.kind ≠ .eof) := by
  rw [upcoming, rest_ofTokens, takeWhile_terminated]

theorem inScope_ofTokens (tokens : List Token) : (ofTokens tokens).InScope :=
  Nat.zero_lt_one

/-- The token that is added at the end carries nothing. -/
theorem proper_ofTokens {tokens : List Token} (h : ∀ t ∈ tokens, t.Fits) :
    (ofTokens tokens).Proper := by
  refine ⟨terminated_ofTokens tokens, fun t ht => ?_⟩
  rw [rest_ofTokens] at ht
  unfold terminated at ht
  split at ht
  · split at ht
    · exact h t ht
    · rcases List.mem_append.mp ht with ht | ht
      · exact h t ht
      · rw [List.mem_singleton.mp ht]
        rfl
  · rw [List.mem_singleton.mp ht]
    rfl

/-- Where no token is left, all that were to come have been passed. -/
theorem Spells.passed_eq {s s' : Builder} {ps : List Piece} (h : s.Spells s' ps)
    (hextends : s.Extends s') (hend : s'.hasTokens = false) :
    List.Forall₂ Piece.Matches ps s.upcoming := by
  obtain ⟨passed, hrest, hmatch, -⟩ := h
  obtain ⟨passed', hrest', hpassed'⟩ := hextends.tokens
  have hsame : passed' = passed := List.append_cancel_right (hrest'.symm.trans hrest)
  subst hsame
  have hnone : s'.upcoming = [] := by
    rw [upcoming_eq_nil_iff]
    simpa [hasTokens] using hend
  have hupcoming : s.upcoming = passed' ++ s'.upcoming := by
    rw [upcoming, hrest', List.takeWhile_append_of_pos (by simpa using hpassed'), upcoming]
  rw [hupcoming, hnone, List.append_nil]
  exact hmatch

end Builder

/-! ## The end -/

/-- Reading declarations only ends where the tokens do. -/
theorem Goal.reach_declarations_end (book : RuleBook) (fuel : Nat) (s : Builder) :
    (Goal.reach book fuel .declarations).Ensures s fun _ s' => s'.hasTokens = false := by
  induction fuel generalizing s with
  | zero =>
    intro a s' ha
    cases ha
  | succ fuel ih =>
    rw [Goal.reach, Goal.step, Tree.Statement.declarations, Parse.ensures_bind,
      Parse.ensures_look]
    split
    · rw [Parse.ensures_bind]
      intro found s₁ _
      rw [Parse.ensures_bind]
      exact fun _ s₂ _ => ih s₂
    · next hend => exact (Parse.ensures_pure _).mpr (by simpa using hend)

namespace Tree

open Builder

/-- The nodes and scopes of a tree are those of the builder that made it. -/
theorem ofTokens_fst (tokens : List Token) : (ofTokens tokens).1 = (build tokens).tree := rfl

/-- **What was read** of a list of tokens is the list of the top-level
statements of its tree. -/
theorem build_reads (tokens : List Token) :
    ∃ ps ns, (Builder.ofTokens tokens).Reads (build tokens) ps ns
        (ofTokens tokens).1.rootStatements ∧
      (build tokens).hasTokens = false ∧
      (ofTokens tokens).1.WritesBlock (build tokens).Faulty 0
        (.items (ofTokens tokens).1.rootStatements) ps ns := by
  obtain ⟨fuel, hread⟩ := build_spec tokens
  obtain ⟨ps, ns, ids, hreads, hwrites⟩ := (Parse.findsStatements_reach fuel).declarations
    (Builder.ofTokens tokens) (inScope_ofTokens tokens) rfl _ _ hread
  have hend := Goal.reach_declarations_end _ fuel _ _ _ hread
  have hempty : (Builder.ofTokens tokens).tree.HasStatements .root [] := ⟨_, rfl, rfl⟩
  have hroot : (ofTokens tokens).1.rootStatements = ids := by
    obtain ⟨scope, hscope, hids⟩ := hreads.statements _ _ hempty
    rw [rootStatements, statements, ofTokens_fst, hscope]
    exact hids
  rw [hroot]
  exact ⟨ps, ns, hreads, hend, hwrites.of_le (Nat.zero_le _)⟩

/-- Something is wrong with the grammar exactly if the builder says so. -/
theorem faulty_build_iff (tokens : List Token) :
    (build tokens).Faulty ↔ ∃ d ∈ (ofTokens tokens).2, d.fault.faultClass = .syntactic :=
  Iff.rfl

end Tree

end Braced
