import Braced.Proofs.Parse.Places
import Braced.Proofs.Scope.Resolve

/-!
# Braced.Proofs.Parse.Owns

Reading leaves all nodes and scopes in their places.

Each part of the grammar leaves what it gives loose, and what was loose before as it
is; what the part uses up is said where it is read.  Nothing is given up unless
something has been reported.  So at the end of the tokens nothing is loose but the
root (`Tree.exists_accounted`), and the tree is owned.
-/

namespace Braced

namespace Builder

variable {c : ScopeId} {P : Multiset Loose} {s s' : Builder}

/-- What was read is a node without a scope. Where there is none, this has been
reported. -/
def GivesPlain (c : ScopeId) (P : Multiset Loose) (found : Option NodeId) (s' : Builder) : Prop :=
  match found with
  | none => s'.Noted ∧ s'.Leaves c P
  | some id => s'.Leaves c ({.plain id} + P)

/-- What was read are nodes without scopes. Where there are none, this has been
reported. -/
def GivesPlains (c : ScopeId) (P : Multiset Loose) (found : Option (List NodeId))
    (s' : Builder) : Prop :=
  match found with
  | none => s'.Noted ∧ s'.Leaves c P
  | some ids => s'.Leaves c (Loose.plains ids + P)

/-- What was read is a statement of the scope that is open, or nothing. -/
def GivesStatement (c : ScopeId) (P : Multiset Loose) (found : Option NodeId)
    (s' : Builder) : Prop :=
  match found with
  | none => s'.Leaves c P
  | some id => s'.Leaves c ({.statement c id} + P)

theorem GivesPlain.leaves {found : Option NodeId} (h : GivesPlain c P found s) :
    s.Leaves c (Loose.plains found.toList + P) := by
  cases found with
  | none => simpa using h.2
  | some id => simpa [GivesPlain] using h

theorem GivesPlain.asStatement {found : Option NodeId} (h : GivesPlain c P found s) :
    GivesStatement c P found s := by
  cases found with
  | none => exact h.2
  | some id => exact Leaves.asStatement h c

theorem GivesPlain.of_same {found : Option NodeId} (h : GivesPlain c P found s)
    (hs : s.SamePlaces s') : GivesPlain c P found s' := by
  cases found with
  | none => exact ⟨hs.extends_.noted h.1, h.2.of_same hs⟩
  | some id => exact Leaves.of_same h hs

theorem GivesStatement.of_same {found : Option NodeId} (h : GivesStatement c P found s)
    (hs : s.SamePlaces s') : GivesStatement c P found s' := by
  cases found with
  | none => exact Leaves.of_same h hs
  | some id => exact Leaves.of_same h hs

theorem samePlaces_depth (s : Builder) (depth : Nat) : s.SamePlaces (s.atDepth depth) :=
  .of_eq (.of_eq rfl rfl rfl rfl) rfl rfl rfl

theorem samePlaces_exitExpression (s : Builder) (levels : Nat) :
    s.SamePlaces (s.exitExpression levels) :=
  .of_eq (.of_eq rfl rfl rfl rfl) rfl rfl rfl

theorem samePlaces_setLoopDepth (s : Builder) (depth : Nat) :
    s.SamePlaces (s.setLoopDepth depth) :=
  .of_eq (.of_eq rfl rfl rfl rfl) rfl rfl rfl

end Builder

namespace Parse

open Builder

variable {c : ScopeId} {P : Multiset Loose} {s : Builder}

/-- An action that makes nothing leaves what is loose. -/
theorem Keeps.leaves {m : Parse α} (hm : Keeps SamePlaces m) (h : s.Leaves c P) :
    m.Ensures s fun _ s' => s'.Leaves c P :=
  (hm s).imp fun _ _ hs => h.of_same hs

/-! ## Expressions -/

/-- What the parts of expressions are known to leave. -/
structure OwnsExpressions (reach : Reach) : Prop where
  keeps : ∀ {α : Type} (goal : Goal α), Keeps Stays (reach goal)
  unary : ∀ s c P, s.Leaves c P → (reach (.production .unary)).Ensures s (GivesPlain c P)
  primary : ∀ s c P, s.Leaves c P → (reach (.production .primary)).Ensures s (GivesPlain c P)
  prefixed : ∀ s c P, s.Leaves c P → (reach (.production .prefixed)).Ensures s (GivesPlain c P)
  grouping : ∀ s c P, s.Leaves c P → (reach (.production .grouping)).Ensures s (GivesPlain c P)
  expression : ∀ power s c P, s.Leaves c P → (reach (.expression power)).Ensures s (GivesPlain c P)
  operators : ∀ left power (s : Builder) c P, s.Leaves c ({.plain left} + P) →
    (reach (.operators left power)).Ensures s (GivesPlain c P)
  binary : ∀ left power (s : Builder) c P, s.Leaves c ({.plain left} + P) →
    RuleBook.standard.power? s.current.kind = some power →
    (reach (.binary left power)).Ensures s (GivesPlain c P)
  call : ∀ isStatement s c P, s.Leaves c P → (reach (.call isStatement)).Ensures s (GivesPlain c P)
  arguments : ∀ s c P, s.Leaves c P → (reach .arguments).Ensures s (GivesPlains c P)

section Expressions

open Tree.Expression

variable {reach : Reach} (hr : OwnsExpressions reach)

include hr

theorem owns_expression (power : Power) (h : s.Leaves c P) :
    (expression reach power).Ensures s (GivesPlain c P) := by
  rw [expression, ensures_bind]
  refine (hr.unary s c P h).imp fun found s₁ h₁ => ?_
  cases found with
  | none => exact (ensures_pure _).mpr h₁
  | some left => exact hr.operators left power s₁ c P h₁

theorem owns_binary (left : NodeId) (power : Power) (h : s.Leaves c ({.plain left} + P))
    (hpower : RuleBook.standard.power? s.current.kind = some power) :
    (binary reach left power).Ensures s (GivesPlain c P) := by
  obtain ⟨op, hop⟩ := exists_binaryOp_of_power hpower
  rw [binary, ensures_bind, advance, ensures_act, advance_fst, hop, ensures_bind]
  refine (hr.expression power _ c _ (h.of_same (Still.advance s))).imp fun found s₂ h₂ => ?_
  cases found with
  | none => exact (ensures_pure _).mpr ⟨h₂.1, h₂.2.drop h₂.1⟩
  | some right =>
    simp only [ensures_bind, ensures_look, Parse.alloc, ensures_act, ensures_pure]
    refine Leaves.allocPlain _ (Leaves.congr h₂ ?_) _ rfl
    simp only [NodeKind.inner, Loose.plains_cons, Loose.plains_nil]
    abel

theorem owns_operators (left : NodeId) (power : Power) (h : s.Leaves c ({.plain left} + P)) :
    (operators .standard reach left power).Ensures s (GivesPlain c P) := by
  have hnoted := s.noted_tooDeep
  refine ensures_operators (fun _ => h) ⟨hnoted, (h.of_same (Still.tooDeep s)).drop hnoted⟩
    fun next hnext _ => ?_
  have h₁ := h.of_same (s.samePlaces_depth (s.expressionDepth + 1))
  refine (hr.binary left next _ c P h₁ hnext).imp fun found s₂ h₂ => ?_
  cases found with
  | none => exact GivesPlain.of_same h₂ (s₂.samePlaces_exitExpression 1)
  | some folded =>
    exact (hr.operators folded power s₂ c P h₂).imp fun found s₃ h₃ =>
      h₃.of_same (s₃.samePlaces_exitExpression 1)

theorem owns_operand (h : s.Leaves c P) : (operand .standard reach).Ensures s (GivesPlain c P) := by
  rw [operand, ensures_bind, currentKind, ensures_look]
  split
  · next production hproduction =>
    rcases production_of_operand hproduction with rfl | rfl | ⟨rfl, -⟩
    · exact hr.primary s c P h
    · exact hr.prefixed s c P h
    · exact hr.grouping s c P h
  · simp only [currentPosition, report, ensures_bind, ensures_look, ensures_change]
    have hnoted := s.noted_report (.expectedExpression s.current.kind) s.current.position
    have h₁ := h.of_same (Still.report s (.expectedExpression s.current.kind) s.current.position)
    split
    · simp only [advance, ensures_bind, ensures_act, ensures_pure]
      exact ⟨(extends_advance _).noted hnoted, h₁.of_same (Still.advance _)⟩
    · exact (ensures_pure _).mpr ⟨hnoted, h₁⟩

theorem owns_unary (h : s.Leaves c P) : (unary .standard reach).Ensures s (GivesPlain c P) := by
  have h₁ := h.of_same (s.samePlaces_depth (s.expressionDepth + 1))
  exact ensures_unary ⟨s.noted_tooDeep, h.of_same (Still.tooDeep s)⟩ fun _ =>
    (owns_operand hr h₁).imp fun found s₂ h₂ => h₂.of_same (s₂.samePlaces_exitExpression 1)

theorem owns_prefixed (h : s.Leaves c P) : (prefixed reach).Ensures s (GivesPlain c P) := by
  rw [prefixed, ensures_bind, advance, ensures_act, ensures_bind]
  refine (hr.unary _ c P (h.of_same (Still.advance s))).imp fun found s₂ h₂ => ?_
  cases found with
  | none => exact (ensures_pure _).mpr h₂
  | some operand =>
    simp only [ensures_bind, alloc, ensures_act, ensures_pure]
    exact Leaves.allocPlain _ (Leaves.congr h₂ (by simp [NodeKind.inner])) _ rfl

theorem owns_grouping (h : s.Leaves c P) : (grouping reach).Ensures s (GivesPlain c P) := by
  rw [grouping, ensures_bind, advance, ensures_act, ensures_bind]
  refine (hr.expression .lowest _ c P (h.of_same (Still.advance s))).imp fun found s₂ h₂ => ?_
  cases found with
  | none => exact (ensures_pure _).mpr h₂
  | some operand =>
    simp only [ensures_bind, expectClosing, alloc, ensures_act, ensures_pure]
    have h₃ := Leaves.of_same h₂ (Still.expectClosing s₂ .closeParen)
    exact Leaves.allocPlain _ (h₃.congr (by simp [NodeKind.inner])) _ rfl

/-- What an operand node of the value refers to is loose. -/
def GivesPrimary (c : ScopeId) (P : Multiset Loose) (found : Option Primary)
    (s' : Builder) : Prop :=
  match found with
  | none => s'.Noted ∧ s'.Leaves c P
  | some value => s'.Leaves c (Loose.plains (NodeKind.primary value none).inner + P)

omit hr in
theorem inner_of_constant {value : TokenValue} {constant : Primary}
    (h : constant? value = some constant) : (NodeKind.primary constant none).inner = [] := by
  cases value <;> cases h <;> rfl

theorem owns_primaryValue (h : s.Leaves c P) :
    (primaryValue reach).Ensures s (GivesPrimary c P) := by
  have hadvance := h.of_same (Still.advance s)
  refine ensures_primaryValue (fun _ _ => ?_) (fun _ => ?_) fun _ =>
    ensures_constantValue (fun value hvalue => hadvance.congr ?_)
      ⟨noted_report _ _ _, hadvance.of_same (Still.report ..)⟩
  · refine (hr.call false s c P h).imp fun found s₁ h₁ => ?_
    cases found with
    | none => exact h₁
    | some call => exact Leaves.congr h₁ (by simp [NodeKind.inner])
  · simp only [variableValue, ensures_bind, advance, resolveIdentifier, alloc, ensures_act,
      ensures_change, ensures_pure]
    have h₁ := hadvance.of_same
      (Still.resolveIdentifier _ s.advance.1.identifierName s.advance.1.position)
    exact (h₁.allocLeaf _ s.advance.1.position rfl rfl).congr (by simp [NodeKind.inner])
  · rw [inner_of_constant hvalue, Loose.plains_nil, Multiset.zero_add]

theorem owns_primary (h : s.Leaves c P) : (primary reach).Ensures s (GivesPlain c P) := by
  rw [primary, ensures_bind, currentPosition, ensures_look, ensures_bind]
  refine (owns_primaryValue hr h).imp fun found s₁ h₁ => ?_
  cases found with
  | none => exact (ensures_pure _).mpr h₁
  | some value =>
    rw [ensures_bind]
    refine (keeps_postfixStep.leaves h₁).imp fun step s₂ h₂ => ?_
    simp only [ensures_bind, alloc, ensures_act, ensures_pure]
    exact Leaves.allocPlain (.primary value step) h₂ _ rfl

/-! ## Calls -/

theorem owns_arguments (h : s.Leaves c P) : (arguments reach).Ensures s (GivesPlains c P) := by
  rw [arguments, ensures_bind]
  refine (hr.expression .lowest s c P h).imp fun first s₁ h₁ => ?_
  rw [ensures_bind, accept, ensures_act]
  have h₂ : GivesPlain c P first (s₁.accept .comma).2 := h₁.of_same (Still.accept s₁ .comma)
  split
  · rw [ensures_bind]
    refine ((hr.keeps .arguments _).and (hr.arguments _ c _ h₂.leaves)).imp fun others s₃ h₃ =>
      (ensures_pure _).mpr ?_
    obtain ⟨hstays, h₃⟩ := h₃
    cases others with
    | none =>
      cases first with
      | none => exact ⟨h₃.1, h₃.2.drop_plains h₃.1⟩
      | some id => exact ⟨h₃.1, h₃.2.drop_plains h₃.1⟩
    | some ids =>
      cases first with
      | none =>
        have hnoted := hstays.extends_.noted h₂.1
        exact ⟨hnoted, (Leaves.drop_plains h₃ hnoted).drop_plains hnoted⟩
      | some id =>
        refine Leaves.congr h₃ ?_
        simp only [Option.toList_some, Loose.plains_cons, Loose.plains_nil]
        abel
  · refine (ensures_pure _).mpr ?_
    cases first with
    | none => exact h₂
    | some id => exact Leaves.congr h₂ (by simp)

theorem owns_argumentList (h : s.Leaves c P) :
    (argumentList reach).Ensures s (GivesPlains c P) := by
  rw [argumentList, ensures_bind, expect, ensures_act, ensures_bind, currentKind, ensures_look]
  have h₁ := h.of_same (Still.expect s .openParen)
  split
  · rw [ensures_bind]
    refine ((keeps_closeArguments _).leaves h₁).imp fun _ s₂ h₂ => (ensures_pure _).mpr ?_
    exact Leaves.congr h₂ (by simp)
  · rw [ensures_bind]
    refine (hr.arguments _ c P h₁).imp fun found s₂ h₂ => ?_
    rw [ensures_bind]
    refine (keeps_closeArguments (R := SamePlaces) found s₂).imp fun _ s₃ hs₃ => (ensures_pure _).mpr ?_
    cases found with
    | none => exact ⟨hs₃.extends_.noted h₂.1, h₂.2.of_same hs₃⟩
    | some ids => exact Leaves.of_same h₂ hs₃

theorem owns_call (isStatement : Bool) (h : s.Leaves c P) :
    (call reach isStatement).Ensures s (GivesPlain c P) := by
  rw [call, ensures_bind, expect, ensures_act]
  have h₁ := h.of_same (Still.expect s .identifier)
  cases hfound : (s.expect .identifier).1 with
  | none => exact (ensures_pure _).mpr ⟨noted_of_expect hfound, h₁⟩
  | some token =>
    simp only [ensures_bind, resolveFunction, ensures_change, alloc, ensures_act]
    have h₂ := (h₁.of_same (Still.resolveFunction _ token.identifierName token.position)).allocLeaf
      (.ident token.identifierName) token.position rfl rfl
    refine (owns_argumentList hr h₂).imp fun found s₃ h₃ => ?_
    cases found with
    | none => exact (ensures_pure _).mpr ⟨h₃.1, h₃.2.drop h₃.1⟩
    | some ids =>
      simp only [ensures_bind, ensures_look, ensures_act, ensures_pure]
      refine Leaves.allocPlain _ (Leaves.congr h₃ ?_) _ rfl
      simp only [NodeKind.inner, Loose.plains_cons]
      abel

omit hr in
/-- **What expressions leave** with any number of steps. -/
theorem ownsExpressions_reach (fuel : Nat) : OwnsExpressions (Goal.reach .standard fuel) := by
  induction fuel with
  | zero =>
    constructor
    · exact fun goal s => Goal.reach_stays 0 goal s
    all_goals
      intros
      intro a s' ha
      cases ha
  | succ fuel ih =>
    exact {
      keeps := fun goal s => Goal.reach_stays (fuel + 1) goal s
      unary := fun _ _ _ h => owns_unary ih h
      primary := fun _ _ _ h => owns_primary ih h
      prefixed := fun _ _ _ h => owns_prefixed ih h
      grouping := fun _ _ _ h => owns_grouping ih h
      expression := fun power _ _ _ h => owns_expression ih power h
      operators := fun left power _ _ _ h => owns_operators ih left power h
      binary := fun left power _ _ _ h hpower => owns_binary ih left power h hpower
      call := fun isStatement _ _ _ h => owns_call ih isStatement h
      arguments := fun _ _ _ h => owns_arguments ih h }

end Expressions

/-! ## Statements -/

/-- What the parts of statements are known to leave. -/
structure OwnsStatements (reach : Reach) : Prop where
  type : ∀ s c P, s.Leaves c P → (reach (.production .type)).Ensures s (GivesPlain c P)
  declaration : ∀ s c P, s.Leaves c P →
    (reach (.production .declaration)).Ensures s (GivesStatement c P)
  statement : ∀ s c P, s.Leaves c P →
    (reach (.production .statement)).Ensures s (GivesStatement c P)
  identifierStatement : ∀ s c P, s.Leaves c P →
    (reach (.production .identifierStatement)).Ensures s (GivesStatement c P)
  variableStatement : ∀ s c P, s.Leaves c P →
    (reach (.production .variableStatement)).Ensures s (GivesStatement c P)
  function : ∀ s c P, s.Leaves c P →
    (reach (.production .function)).Ensures s (GivesStatement c P)
  foreignImport : ∀ s c P, s.Leaves c P →
    (reach (.production .foreignImport)).Ensures s (GivesStatement c P)
  returnStatement : ∀ s c P, s.Leaves c P →
    (reach (.production .returnStatement)).Ensures s (GivesStatement c P)
  loopControl : ∀ s c P, s.Leaves c P →
    (reach (.production .loopControl)).Ensures s (GivesStatement c P)
  ifStatement : ∀ s c P, s.Leaves c P →
    (reach (.production .ifStatement)).Ensures s (GivesStatement c P)
  whileStatement : ∀ s c P, s.Leaves c P →
    (reach (.production .whileStatement)).Ensures s (GivesStatement c P)
  values : ∀ s c P, s.Leaves c P → (reach .values).Ensures s fun ids s' =>
    s'.Leaves c (Loose.plains ids + P)
  parameters : ∀ s c P, s.Leaves c P → (reach .parameters).Ensures s fun found s' =>
    s'.Leaves c (Loose.plains (found.flatMap fun p => [p.name, p.type]) + P)
  elseClause : ∀ s c P, s.Leaves c P → (reach .elseClause).Ensures s fun next s' =>
    s'.Leaves c (Loose.clauses c next + P)
  block : ∀ s c P, s.Leaves c P → (reach .block).Ensures s fun body s' =>
    s'.Leaves c ({.body c body} + P)
  statements : ∀ s c P, s.Leaves c P → (reach .statements).Ensures s fun _ s' => s'.Leaves c P
  declarations : ∀ s c P, s.Leaves c P → (reach .declarations).Ensures s fun _ s' => s'.Leaves c P

section Statements

open Tree.Statement

variable {reach : Reach}

/-! ## Types and variables -/

theorem owns_type (h : s.Leaves c P) : type.Ensures s (GivesPlain c P) := by
  rw [type, ensures_bind, currentPosition, ensures_look, ensures_bind, accept, ensures_act,
    typeName, ensures_bind, currentKind, ensures_look]
  have h₁ := h.of_same (Still.accept s .kwConst)
  split
  · simp only [ensures_bind, currentPosition, ensures_look, report, ensures_change, advance,
      ensures_act, ensures_pure]
    exact ⟨(extends_advance _).noted (noted_report _ _ _),
      (h₁.of_same (Still.report ..)).of_same (Still.advance _)⟩
  · simp only [ensures_bind, advance, alloc, ensures_act, ensures_pure]
    exact (h₁.of_same (Still.advance _)).allocLeaf _ _ rfl rfl

variable (hr : OwnsStatements reach) (he : OwnsExpressions reach)

/-- A token that nothing begins with is passed. -/
theorem owns_refusal {fault : TokenKind → Fault} (h : s.Leaves c P) :
    Ensures (do
      report (fault s.current.kind) (← currentPosition)
      let _ ← advance
      return none) s (GivesStatement c P) := by
  simp only [ensures_bind, currentPosition, ensures_look, report, ensures_change, advance,
    ensures_act, ensures_pure]
  exact (h.of_same (Still.report ..)).of_same (Still.advance _)

include hr

theorem owns_declaration (h : s.Leaves c P) :
    (declaration .standard reach).Ensures s (GivesStatement c P) := by
  rw [declaration, ensures_bind, currentKind, ensures_look]
  split
  · next production hproduction =>
    rcases production_of_declaration hproduction with ⟨rfl, -⟩ | ⟨rfl, -⟩
    · exact hr.identifierStatement s c P h
    · exact hr.foreignImport s c P h
  · exact owns_refusal h

theorem owns_statement (h : s.Leaves c P) :
    (statement .standard reach).Ensures s (GivesStatement c P) := by
  rw [statement, ensures_bind, currentKind, ensures_look]
  split
  · next production hproduction =>
    rcases production_of_statement hproduction with ⟨rfl, -⟩ | ⟨rfl, -⟩ | ⟨rfl, -⟩ | ⟨rfl, -⟩ | ⟨rfl, -⟩
    · exact hr.identifierStatement s c P h
    · exact hr.returnStatement s c P h
    · exact hr.loopControl s c P h
    · exact hr.ifStatement s c P h
    · exact hr.whileStatement s c P h
  · exact owns_refusal h

include he in
theorem owns_identifierStatement (h : s.Leaves c P) :
    (identifierStatement reach).Ensures s (GivesStatement c P) := by
  rw [identifierStatement, ensures_bind, ensures_look, ensures_bind, ensures_look]
  split
  · rw [ensures_bind]
    refine (he.call true s c P h).imp fun found s₁ h₁ => ?_
    simp only [ensures_bind, expect, ensures_act, ensures_pure]
    exact h₁.asStatement.of_same (Still.expect s₁ .semicolon)
  · split
    · exact hr.function s c P h
    · rw [ensures_bind]
      refine (hr.variableStatement s c P h).imp fun found s₁ h₁ => ?_
      simp only [ensures_bind, expect, ensures_act, ensures_pure]
      exact h₁.of_same (Still.expect s₁ .semicolon)

include he in
theorem owns_values (h : s.Leaves c P) : (values reach).Ensures s fun ids s' =>
    s'.Leaves c (Loose.plains ids + P) := by
  rw [values, ensures_bind, accept, ensures_act]
  have h₁ := h.of_same (Still.accept s .assignment)
  split
  · rw [ensures_bind]
    refine (he.expression .lowest _ c P h₁).imp fun first s₂ h₂ => ?_
    rw [ensures_bind]
    refine (hr.values s₂ c _ h₂.leaves).imp fun others s₃ h₃ => (ensures_pure _).mpr ?_
    refine h₃.congr ?_
    rw [Loose.plains_append]
    abel
  · exact (ensures_pure _).mpr (h₁.congr (by simp))

theorem owns_declaredType (token : Token) (h : s.Leaves c P) :
    (declaredType reach token).Ensures s fun found s' =>
      s'.Leaves c (Loose.plains found.toList + P) := by
  rw [declaredType, ensures_bind, accept, ensures_act]
  have h₁ := h.of_same (Still.accept s .colon)
  split
  · rw [ensures_bind]
    refine (hr.type _ c P h₁).imp fun found s₂ h₂ => ?_
    simp only [ensures_bind, declare, ensures_change, ensures_pure]
    exact h₂.leaves.of_same (s₂.samePlaces_declare ..)
  · simp only [ensures_bind, resolveIdentifier, ensures_change, ensures_pure]
    exact (h₁.of_same (Still.resolveIdentifier ..)).congr (by simp)

theorem owns_variableStatement (h : s.Leaves c P) :
    (variableStatement reach).Ensures s (GivesStatement c P) := by
  rw [variableStatement, ensures_bind, expect, ensures_act]
  have h₁ := h.of_same (Still.expect s .identifier)
  split
  · exact (ensures_pure _).mpr h₁
  · next token _ =>
    rw [ensures_bind]
    refine (owns_declaredType hr token h₁).imp fun atom s₂ h₂ => ?_
    simp only [ensures_bind, alloc, ensures_act]
    have h₃ := h₂.allocLeaf (.ident token.identifierName) token.position rfl rfl
    refine (hr.values _ c _ h₃).imp fun ids s₄ h₄ => (ensures_pure _).mpr ?_
    refine (Leaves.allocPlain _ (h₄.congr ?_) token.position rfl).asStatement c
    simp only [NodeKind.inner, Loose.plains_append, Loose.plains_cons]
    abel

/-! ## Signatures -/

include he in
theorem owns_parameter (h : s.Leaves c P) : (parameter reach).Ensures s fun found s' =>
    s'.Leaves c (Loose.plains (found.toList.flatMap fun p => [p.name, p.type]) + P) := by
  rw [parameter, ensures_bind, expect, ensures_act, ensures_bind, expect, ensures_act, ensures_bind]
  have h₂ := (h.of_same (Still.expect s .identifier)).of_same (Still.expect _ .colon)
  refine ((he.keeps (.production .type) _).and (hr.type _ c P h₂)).imp fun atom s₃ h₃ => ?_
  obtain ⟨hstays, h₃⟩ := h₃
  cases hfound : (s.expect .identifier).1 with
  | none =>
    refine (ensures_pure _).mpr ?_
    cases atom with
    | none => exact h₃.2.congr (by simp)
    | some type =>
      have hnoted := hstays.extends_.noted ((extends_expect _ .colon).noted (noted_of_expect hfound))
      exact (Leaves.drop h₃ hnoted).congr (by simp)
  | some token =>
    cases atom with
    | none => exact (ensures_pure _).mpr (h₃.2.congr (by simp))
    | some type =>
      simp only [ensures_bind, declare, ensures_change, alloc, ensures_act, ensures_pure]
      have h₄ := Leaves.of_same h₃ (s₃.samePlaces_declare token.identifierName .declaration
        token.position)
      refine (h₄.allocLeaf (.ident token.identifierName) token.position rfl rfl).congr ?_
      simp only [Option.toList_some, List.flatMap_singleton, Loose.plains_cons, Loose.plains_nil]
      abel

include he in
theorem owns_parameters (h : s.Leaves c P) : (parameters reach).Ensures s fun found s' =>
    s'.Leaves c (Loose.plains (found.flatMap fun p => [p.name, p.type]) + P) := by
  rw [parameters, ensures_bind]
  refine (owns_parameter hr he h).imp fun first s₁ h₁ => ?_
  rw [ensures_bind, accept, ensures_act]
  have h₂ := h₁.of_same (Still.accept s₁ .comma)
  split
  · rw [ensures_bind]
    refine (hr.parameters _ c _ h₂).imp fun others s₃ h₃ => (ensures_pure _).mpr ?_
    refine h₃.congr ?_
    rw [List.flatMap_append, Loose.plains_append]
    abel
  · exact (ensures_pure _).mpr h₂

theorem owns_parameterList (h : s.Leaves c P) : (parameterList reach).Ensures s fun found s' =>
    s'.Leaves c (Loose.plains (found.flatMap fun p => [p.name, p.type]) + P) := by
  rw [parameterList, ensures_bind, expect, ensures_act, ensures_bind, currentKind, ensures_look]
  have h₁ := h.of_same (Still.expect s .openParen)
  split
  · simp only [ensures_bind, expect, ensures_act, ensures_pure]
    exact (h₁.of_same (Still.expect _ .closeParen)).congr (by simp)
  · rw [ensures_bind]
    refine (hr.parameters _ c P h₁).imp fun found s₂ h₂ => ?_
    simp only [ensures_bind, expect, ensures_act, ensures_pure]
    exact h₂.of_same (Still.expect s₂ .closeParen)

theorem owns_resultType (h : s.Leaves c P) : (resultType reach).Ensures s fun found s' =>
    s'.Leaves c (Loose.plains found.toList + P) := by
  rw [resultType, ensures_bind, accept, ensures_act]
  have h₁ := h.of_same (Still.accept s .arrow)
  split
  · exact (hr.type _ c P h₁).imp fun found s₂ h₂ => h₂.leaves
  · exact (ensures_pure _).mpr (h₁.congr (by simp))

/-- The nodes of a signature. -/
def signatureParts (found : Signature) : List NodeId :=
  found.name :: (found.result.toList ++ found.parameters.flatMap fun p => [p.name, p.type])

/-- Behind a signature the scope of its parameters is open. -/
theorem owns_signature (h : s.Leaves c P) : (signature reach).Ensures s fun found s' =>
    match found with
    | none => s'.Leaves c P
    | some found => s'.Leaves found.scope
        ({.around c found.scope} + (Loose.plains (signatureParts found) + P)) := by
  rw [signature, ensures_bind, expect, ensures_act]
  have h₁ := h.of_same (Still.expect s .identifier)
  split
  · exact (ensures_pure _).mpr h₁
  · next token _ =>
    simp only [signatureOf, ensures_bind, declare, ensures_change, alloc, expect, enterScope,
      ensures_act, ensures_pure]
    have h₂ := (h₁.of_same (samePlaces_declare _ token.identifierName .function
      token.position)).allocLeaf (.ident token.identifierName) token.position rfl rfl
    have h₃ := (h₂.of_same (Still.expect _ .colon)).enterScope token.position
    refine (owns_parameterList hr h₃).imp fun parameters s₄ h₄ => ?_
    refine (owns_resultType hr h₄).imp fun result s₅ h₅ => ?_
    refine h₅.congr ?_
    simp only [signatureParts, Loose.plains_cons, Loose.plains_append]
    abel

theorem owns_closedSignature (h : s.Leaves c P) : (closedSignature reach).Ensures s fun found s' =>
    match found with
    | none => s'.Leaves c P
    | some found => s'.Leaves c
        ({.body c found.scope} + (Loose.plains (signatureParts found) + P)) := by
  rw [closedSignature, ensures_bind]
  refine (owns_signature hr h).imp fun found s₁ h₁ => ?_
  cases found with
  | none => exact (ensures_pure _).mpr h₁
  | some found =>
    simp only [ensures_bind, exitScope, ensures_change, ensures_pure]
    exact Leaves.exitScope h₁

/-! ## Blocks -/

theorem owns_blockBody (h : s.Leaves c P) :
    (blockBody reach).Ensures s fun _ s' => s'.Leaves c P := by
  rw [blockBody, ensures_bind, expect, ensures_act, ensures_bind]
  refine (hr.statements _ c P (h.of_same (Still.expect s .openCurly))).imp fun _ s₂ h₂ => ?_
  simp only [ensures_bind, expect, ensures_act, ensures_pure]
  exact h₂.of_same (Still.expect s₂ .closeCurly)

theorem owns_block (h : s.Leaves c P) : (block reach).Ensures s fun body s' =>
    s'.Leaves c ({.body c body} + P) := by
  rw [block, ensures_bind, currentPosition, ensures_look, ensures_bind, enterScope, ensures_act,
    ensures_bind]
  refine (owns_blockBody hr (h.enterScope s.current.position)).imp fun _ s₂ h₂ => ?_
  simp only [ensures_bind, exitScope, ensures_change, ensures_pure]
  exact h₂.exitScope

omit hr in
theorem owns_addFound {found : Option NodeId} (h : GivesStatement c P found s) :
    (addFound found).Ensures s fun _ s' => s'.Leaves c P := by
  cases found with
  | none => exact (ensures_pure _).mpr h
  | some id => exact (ensures_change _ _).mpr (Leaves.addStatement h)

theorem owns_statements (h : s.Leaves c P) :
    (statements reach).Ensures s fun _ s' => s'.Leaves c P := by
  rw [statements, ensures_bind, currentKind, ensures_look, ensures_bind, ensures_look]
  split
  · rw [ensures_bind]
    refine (hr.statement s c P h).imp fun found s₁ h₁ => ?_
    rw [ensures_bind]
    exact (owns_addFound h₁).imp fun _ s₂ h₂ => hr.statements s₂ c P h₂
  · exact (ensures_pure _).mpr h

theorem owns_declarations (h : s.Leaves c P) :
    (declarations reach).Ensures s fun _ s' => s'.Leaves c P := by
  rw [declarations, ensures_bind, ensures_look]
  split
  · rw [ensures_bind]
    refine (hr.declaration s c P h).imp fun found s₁ h₁ => ?_
    rw [ensures_bind]
    exact (owns_addFound h₁).imp fun _ s₂ h₂ => hr.declarations s₂ c P h₂
  · exact (ensures_pure _).mpr h

/-! ## Functions -/

omit hr in
/-- A function with its signature and its scope. -/
theorem leaves_function {found : Signature} {origin : Origin} (position : Position)
    (h : s.Leaves c ({.body c found.scope} + (Loose.plains (signatureParts found) + P))) :
    GivesStatement c P
      (some (s.alloc position (.function found.name found.result found.parameters found.scope
        origin)).1)
      (s.alloc position (.function found.name found.result found.parameters found.scope
        origin)).2 := by
  refine Leaves.allocScoped _ (h.congr ?_) position rfl (by simp [NodeKind.next?])
  simp only [NodeKind.inner, NodeKind.next?, signatureParts, Loose.clauses, Option.toList_none,
    List.map_nil, Multiset.coe_nil]
  abel

theorem owns_function (h : s.Leaves c P) : (function reach).Ensures s (GivesStatement c P) := by
  rw [function, ensures_bind, currentPosition, ensures_look, ensures_bind]
  refine (keeps_refuseNested.leaves h).imp fun _ s₁ h₁ => ?_
  rw [ensures_bind]
  refine (owns_signature hr h₁).imp fun found s₂ h₂ => ?_
  cases found with
  | none => exact (ensures_pure _).mpr h₂
  | some found =>
    simp only [ensures_bind, ensures_look, ensures_change]
    refine (owns_blockBody hr (Leaves.of_same h₂ (s₂.samePlaces_setLoopDepth 0))).imp
      fun _ s₃ h₃ => ?_
    simp only [exitScope, ensures_change, alloc, ensures_act, ensures_pure]
    have h₄ := h₃.of_same (s₃.samePlaces_setLoopDepth s₂.loopDepth)
    exact leaves_function s.current.position h₄.exitScope

theorem owns_foreignImport (h : s.Leaves c P) :
    (foreignImport reach).Ensures s (GivesStatement c P) := by
  rw [foreignImport]
  simp only [ensures_bind, advance, expect, addModule, ensures_act, ensures_change]
  have h₁ := (h.of_same (Still.advance s)).of_same (Still.expect _ .kwForeign)
  have h₂ := (h₁.of_same (Still.expect _ .kwFrom)).of_same (Still.expect _ .openParen)
  have h₃ := h₂.of_same (Still.expect _ .identifier)
  refine (owns_closedSignature hr ((h₃.of_same (Still.addModule _ _)).of_same
    (Still.expect _ .comma))).imp fun found s₅ h₅ => ?_
  cases found with
  | none =>
    exact (ensures_pure _).mpr ((Leaves.of_same h₅ (Still.expect s₅ .closeParen)).of_same
      (Still.expect _ .semicolon))
  | some found =>
    simp only [ensures_bind, alloc, ensures_act, ensures_pure]
    exact leaves_function s.advance.1.position
      ((Leaves.of_same h₅ (Still.expect s₅ .closeParen)).of_same (Still.expect _ .semicolon))

/-! ## Leaving functions and loops -/

omit hr in
include he in
theorem owns_returnStatement (h : s.Leaves c P) :
    (returnStatement reach).Ensures s (GivesStatement c P) := by
  have h₁ := h.of_same (Still.advance s)
  have hvalue : (returnValue reach).Ensures s.advance.2 fun found s' =>
      s'.Leaves c (Loose.plains found.toList + P) := by
    rw [returnValue, ensures_bind, currentKind, ensures_look]
    split
    · exact (ensures_pure _).mpr (h₁.congr (by simp))
    · exact (he.expression .lowest _ c P h₁).imp fun found s₂ h₂ => h₂.leaves
  rw [returnStatement, ensures_bind, advance, ensures_act, ensures_bind]
  refine hvalue.imp fun found s₂ h₂ => ?_
  simp only [ensures_bind, expect, alloc, ensures_act, ensures_pure]
  exact (Leaves.allocPlain (.jump .returning found)
    (h₂.of_same (Still.expect s₂ .semicolon)) _ rfl).asStatement c

omit hr in
theorem owns_loopControl (h : s.Leaves c P) : loopControl.Ensures s (GivesStatement c P) := by
  rw [loopControl, ensures_bind, advance, ensures_act, ensures_bind]
  refine ((keeps_refuseOutsideLoop s.advance.1).leaves (h.of_same (Still.advance s))).imp fun _ s₂ h₂ => ?_
  simp only [ensures_bind, expect, alloc, ensures_act, ensures_pure]
  exact ((h₂.of_same (Still.expect s₂ .semicolon)).allocLeaf _ _ rfl rfl).asStatement c

/-! ## Conditionals and loops -/

include he in
/-- A clause with a condition, behind its keyword, and the clauses that follow. -/
theorem owns_conditional {flow : Flow} (hflow : flow = .ifClause ∨ flow = .elifClause)
    (position : Position) (h : s.Leaves c P) :
    Ensures (do
      let condition ← reach (.expression .lowest)
      let body ← reach .block
      let next ← reach .elseClause
      return some (← alloc position (.flow flow condition body next))) s fun found s' =>
        ∃ id, found = some id ∧
          s'.Leaves c ({if flow = .elifClause then .clause c id else .statement c id} + P) := by
  rw [ensures_bind]
  refine (he.expression .lowest s c P h).imp fun condition s₁ h₁ => ?_
  rw [ensures_bind]
  refine (hr.block s₁ c _ h₁.leaves).imp fun body s₂ h₂ => ?_
  rw [ensures_bind]
  refine (hr.elseClause s₂ c _ h₂).imp fun next s₃ h₃ => ?_
  simp only [ensures_bind, alloc, ensures_act, ensures_pure]
  refine ⟨_, rfl, ?_⟩
  have h₄ := Leaves.allocScoped (.flow flow condition body next) (P := P)
    (h₃.congr (by simp only [NodeKind.inner, NodeKind.next?]; abel)) position rfl
    (fun _ => by simpa [NodeKind.continues, NodeKind.flow?] using hflow)
  rcases hflow with rfl | rfl
  · exact h₄
  · exact h₄

include he in
theorem owns_ifStatement (h : s.Leaves c P) :
    (ifStatement reach).Ensures s (GivesStatement c P) := by
  rw [ifStatement, ensures_bind, advance, ensures_act]
  refine (owns_conditional hr he (.inl rfl) _ (h.of_same (Still.advance s))).imp fun found s' h' => ?_
  obtain ⟨id, rfl, h'⟩ := h'
  exact h'

include he in
theorem owns_elseClause (h : s.Leaves c P) : (elseClause reach).Ensures s fun next s' =>
    s'.Leaves c (Loose.clauses c next + P) := by
  rw [elseClause, ensures_bind, currentKind, ensures_look]
  split
  · rw [ensures_bind, advance, ensures_act]
    refine (owns_conditional hr he (.inr rfl) _ (h.of_same (Still.advance s))).imp
      fun found s' h' => ?_
    obtain ⟨id, rfl, h'⟩ := h'
    exact h'
  · rw [ensures_bind, advance, ensures_act, ensures_bind]
    refine (hr.block _ c P (h.of_same (Still.advance s))).imp fun body s₂ h₂ => ?_
    simp only [ensures_bind, alloc, ensures_act, ensures_pure]
    refine Leaves.allocScoped (.flow .elseClause none body none) (h₂.congr ?_) _ rfl
      (by simp [NodeKind.next?])
    simp [NodeKind.inner, NodeKind.next?, Loose.clauses]
  · exact (ensures_pure _).mpr (h.congr (by simp [Loose.clauses]))

include he in
theorem owns_whileStatement (h : s.Leaves c P) :
    (whileStatement reach).Ensures s (GivesStatement c P) := by
  rw [whileStatement, ensures_bind, advance, ensures_act, ensures_bind]
  refine (he.expression .lowest _ c P (h.of_same (Still.advance s))).imp fun condition s₂ h₂ => ?_
  simp only [ensures_bind, ensures_change]
  have h₃ := h₂.leaves.of_same (s₂.samePlaces_setLoopDepth (s₂.loopDepth + 1))
  refine (hr.block _ c _ h₃).imp fun body s₄ h₄ => ?_
  simp only [alloc, ensures_act, ensures_pure]
  have h₅ := h₄.of_same (s₄.samePlaces_setLoopDepth (s₄.loopDepth - 1))
  refine Leaves.allocScoped (.flow .whileLoop condition body none) (h₅.congr ?_) _ rfl
    (by simp [NodeKind.next?])
  simp only [NodeKind.inner, NodeKind.next?, Loose.clauses, Option.toList_none, List.map_nil,
    Multiset.coe_nil]
  abel

/-! ## All parts together -/

omit hr in
/-- **What statements leave** with any number of steps. -/
theorem ownsStatements_reach (fuel : Nat) : OwnsStatements (Goal.reach .standard fuel) := by
  induction fuel with
  | zero =>
    constructor <;> intros <;> intro a s' ha <;> cases ha
  | succ fuel ih =>
    have he := ownsExpressions_reach fuel
    exact {
      type := fun _ _ _ h => owns_type h
      declaration := fun _ _ _ h => owns_declaration ih h
      statement := fun _ _ _ h => owns_statement ih h
      identifierStatement := fun _ _ _ h => owns_identifierStatement ih he h
      variableStatement := fun _ _ _ h => owns_variableStatement ih h
      function := fun _ _ _ h => owns_function ih h
      foreignImport := fun _ _ _ h => owns_foreignImport ih h
      returnStatement := fun _ _ _ h => owns_returnStatement he h
      loopControl := fun _ _ _ h => owns_loopControl h
      ifStatement := fun _ _ _ h => owns_ifStatement ih he h
      whileStatement := fun _ _ _ h => owns_whileStatement ih he h
      values := fun _ _ _ h => owns_values ih he h
      parameters := fun _ _ _ h => owns_parameters ih he h
      elseClause := fun _ _ _ h => owns_elseClause ih he h
      block := fun _ _ _ h => owns_block ih h
      statements := fun _ _ _ h => owns_statements ih h
      declarations := fun _ _ _ h => owns_declarations ih h }

end Statements

end Parse

/-! ## The tree of all tokens -/

namespace Tree

open Builder

/-- At the start there is nothing but the root. -/
theorem leaves_ofTokens (tokens : List Token) : (Builder.ofTokens tokens).Leaves .root 0 := by
  have hstatements : ∀ id, (Builder.ofTokens tokens).tree.statements id = [] := by
    intro id
    have hget : (Builder.ofTokens tokens).tree.scopes.get? id = _ :=
      ScopeForest.empty.get?_push none _ id
    rw [statements, hget]
    split
    · rfl
    · rfl
  have hnode : ∀ id, (Builder.ofTokens tokens).tree.node? id = none := fun _ => rfl
  refine ⟨rfl, by simp, 0, fun h => absurd rfl h, ?_, ?_, by simp, fun id node h => ?_,
    fun scope st h => ?_, fun id body h => ?_⟩
  · have hstored : (Builder.ofTokens tokens).tree.stored = [] := by
      have hscopes : (Builder.ofTokens tokens).tree.scopeIds = [.root] := rfl
      rw [stored, hscopes, List.flatMap_singleton, hstatements]
      rfl
    rw [hstored]
    rfl
  · rfl
  · rw [hnode] at h
    cases h
  · rw [hstatements] at h
    cases h
  · rw [body?, hnode] at h
    cases h

/-- In the tree of any tokens all nodes and scopes have a place but for the root, and for
nodes that are lost, which is noted. -/
theorem exists_accounted (tokens : List Token) :
    ∃ lost : Multiset NodeId, (lost ≠ 0 → (build tokens).Noted) ∧
      (ofTokens tokens).1.Accounted lost 0 {.root} := by
  obtain ⟨fuel, hread⟩ := build_spec tokens
  have hleaves := (Parse.ownsStatements_reach fuel).declarations _ _ _ (leaves_ofTokens tokens)
    _ _ hread
  obtain ⟨lost, hlost, haccount⟩ := hleaves.account
  rw [Multiset.zero_bind, Multiset.zero_bind, Multiset.zero_add] at haccount
  exact ⟨lost, hlost, haccount⟩

/-- **The tree of any list of tokens is owned**, whatever is wrong with them: no node
is shared, nodes come behind all that belongs to them, and every scope but the root
belongs to one node, which is found in the scope around it.  If nothing was reported,
every node is in its place. -/
theorem ofTokens_owned (tokens : List Token) :
    (ofTokens tokens).1.Owned ∧
      ((ofTokens tokens).2 = [] → ∀ id : NodeId, id.index < (ofTokens tokens).1.nodes.size →
        (ofTokens tokens).1.stored.count id = 1) := by
  obtain ⟨lost, hlost, haccount⟩ := exists_accounted tokens
  refine ⟨haccount.owned (leads_build tokens).sound.scopes.ordered, fun hclean id hid => ?_⟩
  have hnone : lost = 0 := by
    by_contra hne
    exact hlost hne hclean
  subst hnone
  exact haccount.count_stored hid

end Tree

end Braced
