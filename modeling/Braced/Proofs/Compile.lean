import Braced.Proofs.Parse.Resolves
import Braced.Proofs.Target.Emits
import Braced.Proofs.Target.Occurrences

/-!
# Braced.Proofs.Compile

What every source that is accepted comes with: its tokens, a root whose table has exactly
the bindings of its statements, each name once, and a program of the target language.
-/

namespace Braced

/-- What a result is, where it can be evaluated as far as `f` tells. -/
theorem exists_ok_of_toOption {ε α β : Type} {r : Except ε α} {P : α → Prop} (f : α → β) (b : β)
    (hread : r.toOption.map f = some b) (h : ∀ a, r = .ok a → f a = b → P a) :
    ∃ a, r = .ok a ∧ P a := by
  cases r with
  | error e => cases hread
  | ok a => exact ⟨a, rfl, h a rfl (Option.some.inj hread)⟩

namespace Tree

variable {lx : Lexicon} {source : List UInt8} {t : Tree}

/-- The root binds what its statements bind. -/
theorem bound_root (h : ofSource lx source = .ok t) : t.scopes.bound .root = t.rootBindings := by
  obtain ⟨tokens, -, rfl, hclean⟩ := tokens_of_ofSource h
  exact (ofTokens_resolves hclean).2

/-- The root binds no name twice. -/
theorem nodup_rootBindings (h : ofSource lx source = .ok t) :
    (t.rootBindings.map Entry.name).Nodup := by
  rw [← bound_root h]
  obtain ⟨tokens, -, rfl, -⟩ := tokens_of_ofSource h
  exact (Builder.leads_build tokens).distinct .root

/-- A tree that is handed on has a program. -/
theorem exists_program (h : ofSource lx source = .ok t) :
    ∃ p, Target.Program.ofTree t = .ok p := by
  obtain ⟨tokens, -, rfl, hclean⟩ := tokens_of_ofSource h
  have hemits := failsAt_find?_ofTokens "" tokens
  rw [hclean] at hemits
  obtain ⟨text, htext⟩ := hemits
  rw [emit] at htext
  cases hp : Target.Program.ofTree (ofTokens tokens).1 with
  | error e =>
    rw [hp] at htext
    cases htext
  | ok p => exact ⟨p, rfl⟩

end Tree

end Braced
