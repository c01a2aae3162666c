import Braced.Proofs.Parse.Progress

/-!
# Braced.Proofs.Parse.Named

Calls are read at names.

A call begins with its name, and so does what a statement is read as that begins with one.
Both are chosen by the kind of the next token, so reading does without them wherever that is
not a name (`Goal.step_atNames`).  Since a part that is read uses the answers of all parts
that it refers to, none of these is read anywhere else (`Goal.ReadIn.kind_eq_identifier`).
-/

namespace Braced

/-! ## Reading at names -/

/-- Whether the part begins with a name. -/
def Goal.isNamed : Goal α → Bool
  | call _ | production .identifierStatement => true
  | _ => false

/-- Reading without the parts that begin with a name, where there is none. -/
def Reach.atNames (reach : Reach) : Reach :=
  fun goal s => if goal.isNamed ∧ s.current.kind ≠ .identifier then none else reach goal s

namespace Parse

open Tree.Expression Tree.Statement

variable (reach : Reach)

/-- Where a part may be read, it is. -/
theorem atNames_eq {goal : Goal α} {s : Builder}
    (h : goal.isNamed → s.current.kind = .identifier) : reach.atNames goal s = reach goal s :=
  if_neg fun hnot => hnot.2 (h hnot.1)

/-- What is looked at is there at once. -/
theorem look_bind (f : Builder → α) (k : α → Parse β) (s : Builder) :
    (look f >>= k) s = k (f s) s :=
  rfl

theorem bind_apply (m : Parse α) (k : α → Parse β) (s : Builder) :
    (m >>= k) s = (m s).bind fun (a, s') => k a s' :=
  rfl

/-! ### Parts that the next token leads into -/

section Dispatch

variable {reach reach' : Reach} {s : Builder}

/-- Only the part that the next token leads into matters to an operand. -/
theorem operand_congr (h : ∀ production,
    RuleBook.standard.operand? s.current.kind = some production →
      reach (.production production) s = reach' (.production production) s) :
    operand .standard reach s = operand .standard reach' s := by
  rw [operand, operand, currentKind, look_bind, look_bind]
  cases hproduction : RuleBook.standard.operand? s.current.kind with
  | none => rfl
  | some production => exact h production hproduction

theorem declaration_congr (h : ∀ production,
    RuleBook.standard.declaration? s.current.kind = some production →
      reach (.production production) s = reach' (.production production) s) :
    declaration .standard reach s = declaration .standard reach' s := by
  rw [declaration, declaration, currentKind, look_bind, look_bind]
  cases hproduction : RuleBook.standard.declaration? s.current.kind with
  | none => rfl
  | some production => exact h production hproduction

theorem statement_congr (h : ∀ production,
    RuleBook.standard.statement? s.current.kind = some production →
      reach (.production production) s = reach' (.production production) s) :
    statement .standard reach s = statement .standard reach' s := by
  rw [statement, statement, currentKind, look_bind, look_bind]
  cases hproduction : RuleBook.standard.statement? s.current.kind with
  | none => rfl
  | some production => exact h production hproduction

end Dispatch

/-! ### Parts that refer to names -/

theorem operand_atNames : operand .standard reach.atNames = operand .standard reach := by
  funext s
  refine operand_congr fun production hproduction => ?_
  rcases production_of_operand hproduction with rfl | rfl | ⟨rfl, -⟩ <;> rfl

theorem primaryValue_atNames : primaryValue reach.atNames = primaryValue reach := by
  funext s
  rw [primaryValue, primaryValue, currentKind, look_bind, look_bind]
  split
  · next hkind =>
    rw [look_bind, look_bind]
    split
    · rw [bind_apply, bind_apply, atNames_eq reach fun _ => hkind]
    · rfl
  · rfl

theorem identifierStatement_atNames {s : Builder} (hkind : s.current.kind = .identifier) :
    identifierStatement reach.atNames s = identifierStatement reach s := by
  rw [identifierStatement, identifierStatement, look_bind, look_bind, look_bind, look_bind]
  split
  · rw [bind_apply, bind_apply, atNames_eq reach fun _ => hkind]
  · rfl

theorem declaration_atNames :
    declaration .standard reach.atNames = declaration .standard reach := by
  funext s
  refine declaration_congr fun production hproduction => ?_
  rcases production_of_declaration hproduction with ⟨rfl, hkind⟩ | ⟨rfl, -⟩
  · exact atNames_eq reach fun _ => hkind
  · rfl

theorem statement_atNames : statement .standard reach.atNames = statement .standard reach := by
  funext s
  refine statement_congr fun production hproduction => ?_
  rcases production_of_statement hproduction with
    ⟨rfl, hkind⟩ | ⟨rfl, -⟩ | ⟨rfl, -⟩ | ⟨rfl, -⟩ | ⟨rfl, -⟩
  · exact atNames_eq reach fun _ => hkind
  all_goals rfl

theorem unary_atNames : unary .standard reach.atNames = unary .standard reach := by
  unfold unary
  rw [operand_atNames]

theorem primary_atNames : primary reach.atNames = primary reach := by
  unfold primary
  rw [primaryValue_atNames]

end Parse

/-! ## Where parts are read that begin with a name -/

namespace Goal

open Parse

variable {s : Builder}

/-- A part that is read at a name, if it begins with one, refers to such parts at names
only. -/
theorem step_atNames (reach : Reach) : ∀ {α : Type} (goal : Goal α),
    (goal.isNamed → s.current.kind = .identifier) →
    goal.step .standard reach.atNames s = goal.step .standard reach s
  | _, .production .unary, _ => congrFun (unary_atNames reach) s
  | _, .production .primary, _ => congrFun (primary_atNames reach) s
  | _, .production .declaration, _ => congrFun (declaration_atNames reach) s
  | _, .production .statement, _ => congrFun (statement_atNames reach) s
  | _, .production .identifierStatement, hkind => identifierStatement_atNames reach (hkind rfl)
  | _, .production .prefixed, _ => rfl
  | _, .production .grouping, _ => rfl
  | _, .production .variableStatement, _ => rfl
  | _, .production .function, _ => rfl
  | _, .production .foreignImport, _ => rfl
  | _, .production .returnStatement, _ => rfl
  | _, .production .loopControl, _ => rfl
  | _, .production .ifStatement, _ => rfl
  | _, .production .whileStatement, _ => rfl
  | _, .production .type, _ => rfl
  | _, .expression _, _ => rfl
  | _, .operators _ _, _ => rfl
  | _, .binary _ _, _ => rfl
  | _, .call _, _ => rfl
  | _, .arguments, _ => rfl
  | _, .values, _ => rfl
  | _, .parameters, _ => rfl
  | _, .elseClause, _ => rfl
  | _, .block, _ => rfl
  | _, .statements, _ => rfl
  | _, .declarations, _ => rfl

/-- A declaration is read by what its first token leads into. -/
theorem refers_production {p : Production}
    (h : RuleBook.standard.declaration? s.current.kind = some p) :
    (production .declaration).Refers s (.production p) s := by
  intro reach _ hnone
  have hstep : (production .declaration).step .standard reach s =
      Tree.Statement.declaration .standard reach s := rfl
  rw [hstep]
  simp [Tree.Statement.declaration, Bind.bind, StateT.bind, currentKind, look, h, hnone]

/-- Tokens that begin with a name are read as what begins with one. -/
theorem readIn_identifierStatement (tokens : List Token)
    (hkind : (Builder.ofTokens tokens).current.kind = .identifier) :
    ReadIn tokens (.production .identifierStatement) (Builder.ofTokens tokens) := by
  have htokens : (Builder.ofTokens tokens).hasTokens := by simp [Builder.hasTokens, hkind]
  have hproduction : RuleBook.standard.declaration? (Builder.ofTokens tokens).current.kind
      = some .identifierStatement := by
    rw [hkind]
    rfl
  exact (ReadIn.start.refer (refers_declaration htokens)).refer (refers_production hproduction)

/-- **A part that begins with a name is read at one.** -/
theorem ReadIn.kind_eq_identifier {tokens : List Token} {goal : Goal α}
    (h : ReadIn tokens goal s) (hnamed : goal.isNamed) : s.current.kind = .identifier := by
  induction h with
  | start => cases hnamed
  | @refer _ _ goal s goal' s' hread hrefers ih =>
    refine Classical.byContradiction fun hkind => ?_
    -- with no answer there, there would be no result
    have hanswers : Answers (Reach.atNames fun goal => goal.run .standard) := by
      intro β goal t
      by_cases hread : goal.isNamed ∧ t.current.kind ≠ .identifier
      · exact .inl (if_pos hread)
      · exact .inr (if_neg hread)
    have hblocked := hrefers _ hanswers (if_pos ⟨hnamed, hkind⟩)
    rw [step_atNames _ goal ih, ← run_eq_step hread.fits.2] at hblocked
    obtain ⟨a, t, hrun, -⟩ := run_gives hread.fits.2
    rw [hblocked] at hrun
    cases hrun

end Goal

end Braced
