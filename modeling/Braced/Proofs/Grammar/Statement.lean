import Braced.Proofs.Grammar.Expression

/-!
# Braced.Proofs.Grammar.Statement

Reading types, statements and declarations takes the kinds that the grammar
derives for them.

The first token of a part tells which rule it is read by, and behind a name the
next two do.  Where a part may be missing, what follows cannot be its beginning;
for the clauses of a conditional this has to be asked of what follows.
-/

namespace Braced

open Phrase Rule

variable {us vs ks : List TokenKind} {parts : List (List TokenKind)}

/-! ## What parts begin with -/

/-- Whether a statement can begin with a token. -/
def beginsStatement (kind : TokenKind) : Bool :=
  (RuleBook.standard.statement? kind).isSome

/-- No clause of a conditional follows. -/
def NoClause (ks : List TokenKind) : Prop :=
  ks.headD .eof ≠ .kwElif ∧ ks.headD .eof ≠ .kwElse

/-- A line begins with a name. -/
theorem IsLine.exists_cons (h : IsLine us) : ∃ ls, us = .identifier :: ls := by
  obtain ⟨ws, hws | hws, rfl⟩ := h
  · obtain ⟨_, _, -, -, rfl⟩ := derives_variableDeclaration_iff.mp hws
    exact ⟨_, rfl⟩
  · obtain ⟨_, -, rfl⟩ := derives_functionCall_iff.mp hws
    exact ⟨_, rfl⟩

/-- A function begins with its name, a colon and a parenthesis. -/
theorem exists_cons_of_function (h : functionDefinition.Derives us) :
    ∃ ls, us = .identifier :: .colon :: .openParen :: ls := by
  obtain ⟨_, _, hsignature, -, rfl⟩ := derives_functionDefinition_iff.mp h
  obtain ⟨_, _, -, -, rfl⟩ := derives_functionSignature_iff.mp hsignature
  exact ⟨_, rfl⟩

theorem startsWith_statement (h : statement.Derives us) : StartsWith beginsStatement us := by
  cases derives_statement_iff.mp h with
  | returning _ => exact startsWith_cons rfl _
  | loopControl hkind =>
    rcases hkind with rfl | rfl
    · exact startsWith_cons rfl _
    · exact startsWith_cons rfl _
  | conditional hus =>
    obtain ⟨_, _, -, -, rfl⟩ := derives_ifChain_iff.mp hus
    exact startsWith_cons rfl _
  | loop hus =>
    obtain ⟨_, -, rfl⟩ := derives_whileLoop_iff.mp hus
    exact startsWith_cons rfl _
  | line hus =>
    obtain ⟨ls, rfl⟩ := hus.exists_cons
    exact startsWith_cons rfl _
  | function hus =>
    obtain ⟨ls, rfl⟩ := exists_cons_of_function hus
    exact startsWith_cons rfl _

/-- A declaration begins with something. -/
theorem exists_cons_of_declaration (h : declaration.Derives us) : ∃ k ls, us = k :: ls := by
  cases derives_declaration_iff.mp h with
  | function hfunction =>
    obtain ⟨_, rfl⟩ := exists_cons_of_function hfunction
    exact ⟨_, _, rfl⟩
  | imported himport =>
    obtain ⟨_, -, rfl⟩ := derives_foreignImport_iff.mp himport
    exact ⟨_, _, rfl⟩
  | line hline =>
    obtain ⟨_, rfl⟩ := hline.exists_cons
    exact ⟨_, _, rfl⟩

/-- What begins a statement is no clause and no end of a block. -/
theorem ne_of_beginsStatement {kind : TokenKind} (h : beginsStatement kind) :
    kind ≠ .closeCurly ∧ kind ≠ .eof ∧ kind ≠ .kwElif ∧ kind ≠ .kwElse := by
  cases kind <;> first | decide | cases h

/-- Behind a statement of a block there is no clause. -/
theorem noClause_statements (ks : List TokenKind)
    (hparts : ∀ part ∈ parts, statement.Derives part) :
    NoClause (parts.flatten ++ .closeCurly :: ks) := by
  cases parts with
  | nil => exact ⟨by simp, by simp⟩
  | cons part parts =>
    obtain ⟨k, ls, rfl, hk⟩ := startsWith_statement (List.forall_mem_cons.mp hparts).1
    exact (ne_of_beginsStatement hk).2.2

/-- A type begins with no parenthesis. -/
theorem headD_type (h : Rule.type.Derives us) : us.headD .eof ≠ .openParen := by
  obtain ⟨isConst, atom, rfl⟩ := derives_type_iff.mp h
  cases isConst with
  | true => simp
  | false => cases atom <;> decide

theorem startsWith_block (h : block.Derives us) : StartsWith endsExpression us := by
  obtain ⟨_, -, rfl⟩ := derives_block_iff.mp h
  exact startsWith_cons rfl _

namespace Parse

open Builder Tree.Statement

/-! ## What the parts take -/

/-- What the parts of statements are known to take. -/
structure TakesStatements (reach : Reach) : Prop where
  keeps : ∀ {α : Type} (goal : Goal α), (reach goal).Keeps Extends
  type : ∀ s ks {us}, Rule.type.Derives us →
    (reach (.production .type)).Ensures s fun _ s' => s.Takes s' (us ++ ks) ks True
  values : ∀ s ks {parts : List (List TokenKind)},
    (∀ part ∈ parts, IsBehind .assignment (rule expression) part) →
    (reach .values).Ensures s fun _ s' =>
      s.Takes s' (parts.flatten ++ .semicolon :: ks) (.semicolon :: ks) True
  variableStatement : ∀ s ks {us}, variableDeclaration.Derives us →
    (reach (.production .variableStatement)).Ensures s fun _ s' =>
      s.Takes s' (us ++ .semicolon :: ks) (.semicolon :: ks) True
  parameters : ∀ s ks {us}, parameterList.Derives us →
    (reach .parameters).Ensures s fun _ s' =>
      s.Takes s' (us ++ .closeParen :: ks) (.closeParen :: ks) True
  identifierStatement : ∀ s ks {us}, (IsLine us ∨ functionDefinition.Derives us) →
    (reach (.production .identifierStatement)).Ensures s fun _ s' =>
      s.Takes s' (us ++ ks) ks True
  function : ∀ s ks {us}, functionDefinition.Derives us →
    (reach (.production .function)).Ensures s fun _ s' => s.Takes s' (us ++ ks) ks True
  foreignImport : ∀ s ks {us}, foreignImport.Derives us →
    (reach (.production .foreignImport)).Ensures s fun _ s' => s.Takes s' (us ++ ks) ks True
  returnStatement : ∀ s ks {us}, (expression.Derives us ∨ us = []) →
    (reach (.production .returnStatement)).Ensures s fun _ s' =>
      s.Takes s' (.kwReturn :: (us ++ .semicolon :: ks)) ks True
  loopControl : ∀ s ks kind, (reach (.production .loopControl)).Ensures s fun _ s' =>
    s.Takes s' (kind :: .semicolon :: ks) ks True
  ifStatement : ∀ s ks {us}, ifChain.Derives us → NoClause ks →
    (reach (.production .ifStatement)).Ensures s fun _ s' => s.Takes s' (us ++ ks) ks True
  elseClause : ∀ s ks {us}, AreClauses us → NoClause ks →
    (reach .elseClause).Ensures s fun _ s' => s.Takes s' (us ++ ks) ks True
  whileStatement : ∀ s ks {us}, whileLoop.Derives us →
    (reach (.production .whileStatement)).Ensures s fun _ s' => s.Takes s' (us ++ ks) ks True
  block : ∀ s ks {us}, block.Derives us →
    (reach .block).Ensures s fun _ s' => s.Takes s' (us ++ ks) ks True
  statement : ∀ s ks {us}, statement.Derives us → NoClause ks →
    (reach (.production .statement)).Ensures s fun _ s' => s.Takes s' (us ++ ks) ks True
  statements : ∀ s ks {parts : List (List TokenKind)}, (∀ part ∈ parts, Rule.statement.Derives part) →
    (reach .statements).Ensures s fun _ s' =>
      s.Takes s' (parts.flatten ++ .closeCurly :: ks) (.closeCurly :: ks) True
  declaration : ∀ s ks {us}, declaration.Derives us →
    (reach (.production .declaration)).Ensures s fun _ s' => s.Takes s' (us ++ ks) ks True
  declarations : ∀ s {parts : List (List TokenKind)}, (∀ part ∈ parts, Rule.declaration.Derives part) →
    (reach .declarations).Ensures s fun _ s' => s.Takes s' parts.flatten [] True

variable {reach : Reach} (s : Builder) (ks : List TokenKind)

/-! ## Types -/

theorem takes_typeName (position : Position) (isConst : Bool) (atom : TypeAtom) :
    (typeName position isConst).Ensures s fun _ s' => s.Takes s' (atom.token :: ks) ks True := by
  refine keeps_typeName.takes fun hs => ?_
  have hatom := (TypeAtom.ofToken?_eq_some_iff _ atom).mpr hs.current_kind.1
  rw [typeName, ensures_bind, currentKind, ensures_look, hatom]
  simp only [ensures_bind, advance, alloc, ensures_act, ensures_pure]
  exact (s.takes_advance atom.token ks).trans (takes_alloc _ ks position (.type atom isConst))

theorem takes_type (hus : Rule.type.Derives us) :
    type.Ensures s fun _ s' => s.Takes s' (us ++ ks) ks True := by
  obtain ⟨isConst, atom, rfl⟩ := derives_type_iff.mp hus
  refine keeps_type.takes fun hs => ?_
  rw [Tree.Statement.type, ensures_bind, currentPosition, ensures_look, ensures_bind, accept,
    ensures_act]
  cases isConst with
  | true =>
    rw [hs.accept_eq]
    have h₁ := s.takes_advance .kwConst (atom.token :: ks)
    exact (takes_typeName _ ks _ true atom).imp fun _ _ h₂ => h₁.trans h₂
  | false =>
    have hkind : atom.token ≠ .kwConst := by cases atom <;> decide
    rw [hs.accept_ne hkind]
    exact takes_typeName s ks _ false atom

/-! ## Variables -/

variable (hr : TakesStatements reach) (he : TakesExpressions reach)

include hr

include he in
theorem takes_values (hparts : ∀ part ∈ parts, IsBehind .assignment (rule expression) part) :
    (values reach).Ensures s fun _ s' =>
      s.Takes s' (parts.flatten ++ .semicolon :: ks) (.semicolon :: ks) True := by
  refine (keeps_values hr.keeps).takes fun hs => ?_
  rw [values, ensures_bind, accept, ensures_act]
  cases parts with
  | nil =>
    have haccept : s.accept .assignment = (false, s) := hs.accept_ne (by simp)
    rw [haccept, if_neg Bool.false_ne_true]
    exact (ensures_pure _).mpr (.refl s _)
  | cons part parts =>
    obtain ⟨⟨us, hus, rfl⟩, hparts'⟩ := List.forall_mem_cons.mp hparts
    rw [List.flatten_cons, List.cons_append, List.cons_append, List.append_assoc] at hs ⊢
    rw [hs.accept_eq, if_pos rfl, ensures_bind]
    have hnext : StartsWith endsExpression (parts.flatten ++ .semicolon :: ks) := by
      cases parts with
      | nil => exact startsWith_cons rfl ks
      | cons part parts =>
        obtain ⟨⟨_, -, rfl⟩, -⟩ := List.forall_mem_cons.mp hparts'
        exact startsWith_cons rfl _
    have h₁ := s.takes_advance .assignment (us ++ (parts.flatten ++ .semicolon :: ks))
    refine (he.whole _ _ hus hnext).imp fun first s₂ h₂ => ?_
    rw [ensures_bind]
    refine (hr.values s₂ ks hparts').imp fun others s₃ h₃ => (ensures_pure _).mpr ?_
    exact (h₁.trans h₂).trans h₃

theorem takes_declaredType (token : Token) (hus : IsTypeAfter .colon us)
    (hks : ks.headD .eof ≠ .colon) :
    (declaredType reach token).Ensures s fun _ s' => s.Takes s' (us ++ ks) ks True := by
  refine (keeps_declaredType hr.keeps token).takes fun hs => ?_
  rw [declaredType, ensures_bind, accept, ensures_act]
  rcases hus with ⟨us, hus, rfl⟩ | rfl
  · rw [hs.accept_eq, if_pos rfl, ensures_bind]
    have h₁ := s.takes_advance .colon (us ++ ks)
    refine (hr.type _ ks hus).imp fun atom s₂ h₂ => ?_
    simp only [ensures_bind, declare, ensures_change, ensures_pure]
    exact (h₁.trans h₂).trans (s₂.takes_declare ..)
  · rw [hs.accept_ne hks, if_neg Bool.false_ne_true]
    simp only [ensures_bind, resolveIdentifier, ensures_change, ensures_pure]
    exact s.takes_resolveIdentifier ..

theorem takes_variableStatement (hus : variableDeclaration.Derives us) :
    (variableStatement reach).Ensures s fun _ s' =>
      s.Takes s' (us ++ .semicolon :: ks) (.semicolon :: ks) True := by
  obtain ⟨ts, parts, hts, hparts, rfl⟩ := derives_variableDeclaration_iff.mp hus
  refine (keeps_variableStatement hr.keeps).takes fun hs => ?_
  rw [List.cons_append, List.append_assoc]
  have h₁ := s.takes_advance .identifier (ts ++ (parts.flatten ++ .semicolon :: ks))
  have hnext : (parts.flatten ++ .semicolon :: ks).headD .eof ≠ .colon := by
    cases parts with
    | nil => simp
    | cons part parts =>
      obtain ⟨⟨_, -, rfl⟩, -⟩ := List.forall_mem_cons.mp hparts
      simp
  rw [variableStatement, ensures_bind, expect, ensures_act, expect_of_eq hs.current_kind.1,
    ensures_bind]
  refine (takes_declaredType _ _ hr s.current hts hnext).imp fun atom s₂ h₂ => ?_
  simp only [ensures_bind, alloc, ensures_act]
  have h₃ := s₂.takes_alloc (parts.flatten ++ .semicolon :: ks) s.current.position
    (.ident s.current.identifierName)
  refine (hr.values _ ks hparts).imp fun found s₄ h₄ => (ensures_pure _).mpr ?_
  exact (((h₁.trans h₂).trans h₃).trans h₄).trans (s₄.takes_alloc ..)

include he in
theorem takes_identifierStatement (hus : IsLine us ∨ functionDefinition.Derives us) :
    (identifierStatement reach).Ensures s fun _ s' => s.Takes s' (us ++ ks) ks True := by
  refine (keeps_identifierStatement hr.keeps).takes fun hs => ?_
  rw [identifierStatement, ensures_bind, ensures_look, ensures_bind, ensures_look]
  rcases hus with ⟨ws, hws | hws, rfl⟩ | hus
  · rw [List.append_assoc] at hs ⊢
    have hvariable := hr.variableStatement s ks hws
    obtain ⟨ts, parts, hts, hparts, rfl⟩ := derives_variableDeclaration_iff.mp hws
    have hnext : (parts.flatten ++ .semicolon :: ks).headD .eof ≠ .openParen ∧
        (parts.flatten ++ .semicolon :: ks).headD .eof ≠ .colon := by
      cases parts with
      | nil => exact ⟨by simp, by simp⟩
      | cons part parts =>
        obtain ⟨⟨_, -, rfl⟩, -⟩ := List.forall_mem_cons.mp hparts
        exact ⟨by simp, by simp⟩
    rw [List.cons_append, List.append_assoc] at hs
    have hsecond : s.peekKind 1 ≠ .openParen := by
      rw [hs.peekKind_one]
      rcases hts with ⟨vs, -, rfl⟩ | rfl
      · simp
      · exact hnext.1
    have hthird : ¬(s.peekKind 1 = .colon ∧ s.peekKind 2 = .openParen) := by
      rcases hts with ⟨vs, hvs, rfl⟩ | rfl
      · rintro ⟨-, hthird⟩
        have hpeek := hs.peekKind_two
        obtain ⟨k, ls, rfl⟩ : ∃ k ls, vs = k :: ls := by
          obtain ⟨isConst, atom, rfl⟩ := derives_type_iff.mp hvs
          cases isConst <;> exact ⟨_, _, rfl⟩
        exact headD_type hvs (hpeek.symm.trans hthird)
      · rintro ⟨hsecond, -⟩
        exact hnext.2 (hs.peekKind_one.symm.trans hsecond)
    rw [if_neg hsecond, if_neg hthird, ensures_bind]
    refine hvariable.imp fun found s₁ h₁ => ?_
    simp only [ensures_bind, expect, ensures_act, ensures_pure]
    exact (h₁.trans (s₁.takes_expect .semicolon ks)).imp fun _ => trivial
  · rw [List.append_assoc] at hs ⊢
    have hcall := he.call true s (.semicolon :: ks) hws
    obtain ⟨as, -, rfl⟩ := derives_functionCall_iff.mp hws
    have hsecond : s.peekKind 1 = .openParen := hs.peekKind_one
    rw [if_pos hsecond, ensures_bind]
    refine hcall.imp fun found s₁ h₁ => ?_
    simp only [ensures_bind, expect, ensures_act, ensures_pure]
    exact (h₁.trans (s₁.takes_expect .semicolon ks)).imp fun _ => trivial
  · have hfunction := hr.function s ks hus
    obtain ⟨ls, rfl⟩ := exists_cons_of_function hus
    have hsecond : s.peekKind 1 = .colon := hs.peekKind_one
    have hthird : s.peekKind 2 = .openParen := hs.peekKind_two
    rw [if_neg (by rw [hsecond]; decide), if_pos ⟨hsecond, hthird⟩]
    exact hfunction

/-! ## Signatures -/

theorem takes_parameter (hus : parameter.Derives us) :
    (Tree.Statement.parameter reach).Ensures s fun _ s' => s.Takes s' (us ++ ks) ks True := by
  obtain ⟨ts, hts, rfl⟩ := derives_parameter_iff.mp hus
  have h₁ := s.takes_expect .identifier (.colon :: (ts ++ ks))
  have h₂ := (s.expect .identifier).2.takes_expect .colon (ts ++ ks)
  rw [Tree.Statement.parameter, ensures_bind, expect, ensures_act, ensures_bind, expect,
    ensures_act, ensures_bind]
  refine (hr.type _ ks hts).imp fun atom s₃ h₃ => ?_
  have h₁₃ := (h₁.trans h₂).trans h₃
  cases (s.expect .identifier).1 with
  | none => exact (ensures_pure _).mpr h₁₃
  | some token =>
    cases atom with
    | none => exact (ensures_pure _).mpr h₁₃
    | some type =>
      simp only [ensures_bind, declare, alloc, ensures_act, ensures_change, ensures_pure]
      exact (h₁₃.trans (s₃.takes_declare ks token.identifierName .declaration
        token.position)).trans (takes_alloc _ ks token.position (.ident token.identifierName))

theorem takes_parameters (hus : parameterList.Derives us) :
    (parameters reach).Ensures s fun _ s' =>
      s.Takes s' (us ++ .closeParen :: ks) (.closeParen :: ks) True := by
  obtain ⟨first, parts, hfirst, hparts, rfl⟩ := derives_parameterList_iff.mp hus
  rw [parameters, List.append_assoc]
  refine takes_bind (fun first => ?_) (takes_parameter s _ hr hfirst) fun found s₁ hs₁ _ => ?_
  · exact keeps_accept.bind fun _ =>
      .ite ((hr.keeps _).bind fun _ => keeps_pure _) (keeps_pure _)
  rw [ensures_bind, accept, ensures_act]
  cases parts with
  | nil =>
    have haccept : s₁.accept .comma = (false, s₁) := hs₁.accept_ne (by simp)
    rw [haccept, if_neg Bool.false_ne_true]
    exact (ensures_pure _).mpr (.refl s₁ _)
  | cons part parts =>
    obtain ⟨⟨us, hnext, rfl⟩, hparts'⟩ := List.forall_mem_cons.mp hparts
    rw [List.flatten_cons, List.cons_append, List.cons_append, List.append_assoc] at hs₁ ⊢
    have h₂ := s₁.takes_advance .comma (us ++ (parts.flatten ++ .closeParen :: ks))
    have hothers := hr.parameters s₁.advance.2 ks
      (derives_parameterList_iff.mpr ⟨us, parts, hnext, hparts', rfl⟩)
    rw [hs₁.accept_eq, if_pos rfl, ensures_bind]
    refine hothers.imp fun others s₃ h₃ => (ensures_pure _).mpr ?_
    rw [List.append_assoc] at h₃
    exact h₂.trans h₃

theorem takes_parameterList (hus : parameterList.Derives us ∨ us = []) :
    (parameterList reach).Ensures s fun _ s' =>
      s.Takes s' (.openParen :: (us ++ .closeParen :: ks)) ks True := by
  refine (keeps_parameterList hr.keeps).takes fun hs => ?_
  have h₁ := s.takes_advance .openParen (us ++ .closeParen :: ks)
  rw [Tree.Statement.parameterList, ensures_bind, expect, ensures_act,
    expect_of_eq hs.current_kind.1, ensures_bind, currentKind, ensures_look]
  rcases hus with hus | rfl
  · have hkind : s.advance.2.current.kind ≠ .closeParen := by
      obtain ⟨first, parts, hfirst, -, rfl⟩ := derives_parameterList_iff.mp hus
      obtain ⟨ts, -, rfl⟩ := derives_parameter_iff.mp hfirst
      rw [hs.advance.current_kind.1]
      decide
    rw [if_neg hkind, ensures_bind]
    refine (hr.parameters _ ks hus).imp fun found s₂ h₂ => ?_
    simp only [ensures_bind, expect, ensures_act, ensures_pure]
    exact ((h₁.trans h₂).trans (s₂.takes_expect .closeParen ks)).imp fun _ => trivial
  · rw [if_pos hs.advance.current_kind.1]
    simp only [ensures_bind, expect, ensures_act, ensures_pure]
    exact (h₁.trans (s.advance.2.takes_expect .closeParen ks)).imp fun _ => trivial

theorem takes_resultType (hus : IsTypeAfter .arrow us) (hks : ks.headD .eof ≠ .arrow) :
    (resultType reach).Ensures s fun _ s' => s.Takes s' (us ++ ks) ks True := by
  have hkeeps : (resultType reach).Keeps Extends :=
    keeps_accept.bind fun _ => .ite (hr.keeps _) (keeps_pure _)
  refine hkeeps.takes fun hs => ?_
  rw [resultType, ensures_bind, accept, ensures_act]
  rcases hus with ⟨us, hus, rfl⟩ | rfl
  · rw [hs.accept_eq, if_pos rfl]
    have h₁ := s.takes_advance .arrow (us ++ ks)
    exact (hr.type _ ks hus).imp fun atom s₂ h₂ => h₁.trans h₂
  · rw [hs.accept_ne hks, if_neg Bool.false_ne_true]
    exact (ensures_pure _).mpr (.refl s _)

theorem takes_signatureOf (token : Token) (hus : parameterList.Derives us ∨ us = [])
    (hvs : IsTypeAfter .arrow vs) (hks : ks.headD .eof ≠ .arrow) :
    (signatureOf reach token).Ensures s fun _ s' =>
      s.Takes s' (.colon :: .openParen :: (us ++ .closeParen :: (vs ++ ks))) ks True := by
  simp only [signatureOf, ensures_bind, declare, alloc, expect, enterScope, ensures_change,
    ensures_act]
  have h₁ := (s.takes_declare (.colon :: .openParen :: (us ++ .closeParen :: (vs ++ ks)))
    token.identifierName .function token.position).trans
    (takes_alloc _ _ token.position (.ident token.identifierName))
  have h₂ := (h₁.trans (takes_expect _ .colon _)).trans (takes_enterScope _ _ token.position)
  refine (takes_parameterList _ (vs ++ ks) hr hus).imp fun found s₃ h₃ => ?_
  refine (takes_resultType s₃ ks hr hvs hks).imp fun result s₄ h₄ => (ensures_pure _).mpr ?_
  exact (h₂.trans h₃).trans h₄

theorem takes_signature (hus : functionSignature.Derives us) (hks : ks.headD .eof ≠ .arrow) :
    (signature reach).Ensures s fun found s' => s.Takes s' (us ++ ks) ks found.isSome := by
  obtain ⟨ws, vs, hws, hvs, rfl⟩ := derives_functionSignature_iff.mp hus
  refine (keeps_signature hr.keeps).takes fun hs => ?_
  rw [signature, ensures_bind, expect, ensures_act, expect_of_eq hs.current_kind.1, ensures_bind]
  have h₁ := s.takes_advance .identifier (.colon :: .openParen :: (ws ++ .closeParen :: (vs ++ ks)))
  refine (takes_signatureOf _ ks hr s.current hws hvs hks).imp fun found s₂ h₂ => ?_
  refine (ensures_pure _).mpr ?_
  simp only [List.cons_append, List.append_assoc]
  exact (h₁.trans h₂).imp fun _ => rfl

theorem takes_closedSignature (hus : functionSignature.Derives us)
    (hks : ks.headD .eof ≠ .arrow) :
    (closedSignature reach).Ensures s fun _ s' => s.Takes s' (us ++ ks) ks True := by
  rw [closedSignature, ensures_bind]
  refine (takes_signature s ks hr hus hks).imp fun found s₁ h₁ => ?_
  cases found with
  | none => exact (ensures_pure _).mpr (h₁.of_not Bool.false_ne_true _ _)
  | some found =>
    simp only [ensures_bind, exitScope, ensures_change, ensures_pure]
    exact h₁.trans (s₁.takes_exitScope ks)

/-! ## Blocks and functions -/

theorem takes_blockBody (hus : Rule.block.Derives us) :
    (blockBody reach).Ensures s fun _ s' => s.Takes s' (us ++ ks) ks True := by
  obtain ⟨parts, hparts, rfl⟩ := derives_block_iff.mp hus
  rw [List.cons_append, List.append_assoc]
  have h₁ := s.takes_expect .openCurly (parts.flatten ++ .closeCurly :: ks)
  rw [blockBody, ensures_bind, expect, ensures_act, ensures_bind]
  refine (hr.statements _ ks hparts).imp fun _ s₂ h₂ => ?_
  simp only [ensures_bind, expect, ensures_act, ensures_pure]
  exact ((h₁.trans h₂).trans (s₂.takes_expect .closeCurly ks)).imp fun _ => trivial

theorem takes_block (hus : Rule.block.Derives us) :
    (block reach).Ensures s fun _ s' => s.Takes s' (us ++ ks) ks True := by
  rw [Tree.Statement.block, ensures_bind, currentPosition, ensures_look, ensures_bind, enterScope,
    ensures_act, ensures_bind]
  have h₁ := s.takes_enterScope (us ++ ks) s.current.position
  refine (takes_blockBody _ ks hr hus).imp fun _ s₂ h₂ => ?_
  simp only [ensures_bind, exitScope, ensures_change, ensures_pure]
  exact (h₁.trans h₂).trans (s₂.takes_exitScope ks)

omit hr in
/-- A function inside of a block is no fault of the grammar. -/
theorem takes_refuseNested : refuseNested.Ensures s fun _ s' => s.Takes s' ks ks True := by
  rw [refuseNested, ensures_bind, ensures_look]
  split
  · simp only [ensures_bind, ensures_look, report, ensures_change]
    exact s.takes_report ks (by simp [Fault.faultClass]) _
  · exact (ensures_pure _).mpr (.refl s ks)

theorem takes_function (hus : functionDefinition.Derives us) :
    (function reach).Ensures s fun _ s' => s.Takes s' (us ++ ks) ks True := by
  obtain ⟨ws, vs, hws, hvs, rfl⟩ := derives_functionDefinition_iff.mp hus
  have hnext : (vs ++ ks).headD .eof ≠ .arrow := by
    obtain ⟨_, -, rfl⟩ := derives_block_iff.mp hvs
    simp
  rw [function, ensures_bind, currentPosition, ensures_look, ensures_bind, List.append_assoc]
  refine (takes_refuseNested s (ws ++ (vs ++ ks))).imp fun _ s₁ h₁ => ?_
  rw [ensures_bind]
  refine (takes_signature s₁ (vs ++ ks) hr hws hnext).imp fun found s₂ h₂ => ?_
  cases found with
  | none => exact (ensures_pure _).mpr ((h₁.trans h₂).of_not Bool.false_ne_true _ _)
  | some found =>
    simp only [ensures_bind, ensures_look, ensures_change]
    have h₃ := (h₁.trans h₂).trans (s₂.takes_setLoopDepth (vs ++ ks) 0)
    refine (takes_blockBody _ ks hr hvs).imp fun _ s₄ h₄ => ?_
    simp only [exitScope, alloc, ensures_change, ensures_act, ensures_pure]
    have h₅ := (s₄.takes_setLoopDepth ks s₂.loopDepth).trans (takes_exitScope _ ks)
    exact ((h₃.trans h₄).trans h₅).trans (takes_alloc ..)

theorem takes_foreignImport (hus : Rule.foreignImport.Derives us) :
    (foreignImport reach).Ensures s fun _ s' => s.Takes s' (us ++ ks) ks True := by
  obtain ⟨ws, hws, rfl⟩ := derives_foreignImport_iff.mp hus
  simp only [List.cons_append, List.append_assoc, List.nil_append]
  have h₁ := ((s.takes_advance .pound _).trans (takes_expect _ .kwForeign _)).trans
    (takes_expect _ .kwFrom (.openParen :: .identifier :: .comma
      :: (ws ++ .closeParen :: .semicolon :: ks)))
  have h₂ := (h₁.trans (takes_expect _ .openParen _)).trans (takes_expect _ .identifier _)
  have h₃ := fun name => (h₂.trans (takes_addModule _ _ name)).trans (takes_expect _ .comma _)
  simp only [Tree.Statement.foreignImport, ensures_bind, advance, expect, addModule, ensures_act,
    ensures_change]
  have hnext : (TokenKind.closeParen :: .semicolon :: ks).headD .eof ≠ .arrow := by
    simp
  refine (takes_closedSignature _ _ hr hws hnext).imp fun found s₄ h₄ => ?_
  have h₅ := ((h₃ _).trans h₄).trans ((s₄.takes_expect .closeParen _).trans
    (takes_expect _ .semicolon ks))
  cases found with
  | none => exact (ensures_pure _).mpr (h₅.imp fun _ => trivial)
  | some found =>
    simp only [ensures_bind, alloc, ensures_act, ensures_pure]
    exact h₅.trans (takes_alloc ..)

/-! ## Leaving functions and loops -/

include he in
theorem takes_returnStatement (hus : Rule.expression.Derives us ∨ us = []) :
    (returnStatement reach).Ensures s fun _ s' =>
      s.Takes s' (.kwReturn :: (us ++ .semicolon :: ks)) ks True := by
  have hvalue : ∀ s : Builder, (returnValue reach).Ensures s fun _ s' =>
      s.Takes s' (us ++ .semicolon :: ks) (.semicolon :: ks) True := by
    intro s
    have hkeeps : (returnValue reach).Keeps Extends :=
      keeps_look.bind fun _ => .ite (keeps_pure _) (hr.keeps _)
    refine hkeeps.takes fun hs => ?_
    rw [returnValue, ensures_bind, currentKind, ensures_look]
    rcases hus with hus | rfl
    · have hkind : s.current.kind ≠ .semicolon := by
        obtain ⟨k, ls, rfl, hk⟩ := startsWith_expression hus
        rw [hs.current_kind.1]
        rintro rfl
        cases hk
      have hnext : StartsWith endsExpression (.semicolon :: ks) := startsWith_cons rfl ks
      rw [if_neg hkind]
      exact (he.whole s _ hus hnext).imp fun _ _ h => h.imp fun _ => trivial
    · rw [if_pos hs.current_kind.1]
      exact (ensures_pure _).mpr (.refl s _)
  have h₁ := s.takes_advance .kwReturn (us ++ .semicolon :: ks)
  rw [returnStatement, ensures_bind, advance, ensures_act, ensures_bind]
  refine (hvalue _).imp fun found s₂ h₂ => ?_
  simp only [ensures_bind, expect, alloc, ensures_act, ensures_pure]
  exact ((h₁.trans h₂).trans (s₂.takes_expect .semicolon ks)).trans (takes_alloc ..)

omit hr in
theorem takes_loopControl (kind : TokenKind) :
    loopControl.Ensures s fun _ s' => s.Takes s' (kind :: .semicolon :: ks) ks True := by
  have hrefuse : ∀ (s : Builder) (token : Token) (ks : List TokenKind),
      (refuseOutsideLoop token).Ensures s fun _ s' => s.Takes s' ks ks True := by
    intro s token ks
    rw [refuseOutsideLoop, ensures_bind, ensures_look]
    split
    · simp only [report, ensures_change]
      exact s.takes_report ks (by simp [Fault.faultClass]) _
    · exact (ensures_pure _).mpr (.refl s ks)
  have h₁ := s.takes_advance kind (.semicolon :: ks)
  rw [loopControl, ensures_bind, advance, ensures_act, ensures_bind]
  refine (hrefuse _ _ (.semicolon :: ks)).imp fun _ s₂ h₂ => ?_
  simp only [ensures_bind, expect, alloc, ensures_act, ensures_pure]
  exact ((h₁.trans h₂).trans (s₂.takes_expect .semicolon ks)).trans (takes_alloc ..)

/-! ## Conditionals and loops -/

omit hr in
include he in
/-- A condition, which ends where its block begins. -/
theorem takes_condition (hus : Rule.expression.Derives us) (hvs : Rule.block.Derives vs) :
    (reach (.expression .lowest)).Ensures s fun _ s' =>
      s.Takes s' (us ++ (vs ++ ks)) (vs ++ ks) True :=
  (he.whole s _ hus ((startsWith_block hvs).append ks)).imp fun _ _ h => h.imp fun _ => trivial

include he in
theorem takes_ifStatement (hus : ifChain.Derives us) (hks : NoClause ks) :
    (ifStatement reach).Ensures s fun _ s' => s.Takes s' (us ++ ks) ks True := by
  obtain ⟨_, cs, ⟨ws, vs, hws, hvs, rfl⟩, hcs, rfl⟩ := derives_ifChain_iff.mp hus
  simp only [List.cons_append, List.append_assoc]
  have h₁ := s.takes_advance .kwIf (ws ++ (vs ++ (cs ++ ks)))
  rw [ifStatement, ensures_bind, advance, ensures_act, ensures_bind]
  refine (takes_condition _ (cs ++ ks) he hws hvs).imp fun condition s₂ h₂ => ?_
  rw [ensures_bind]
  refine (hr.block s₂ (cs ++ ks) hvs).imp fun body s₃ h₃ => ?_
  rw [ensures_bind]
  refine (hr.elseClause s₃ ks hcs hks).imp fun next s₄ h₄ => ?_
  simp only [ensures_bind, alloc, ensures_act, ensures_pure]
  exact (((h₁.trans h₂).trans h₃).trans h₄).trans (takes_alloc ..)

include he in
theorem takes_elseClause (hus : AreClauses us) (hks : NoClause ks) :
    (elseClause reach).Ensures s fun _ s' => s.Takes s' (us ++ ks) ks True := by
  refine (keeps_elseClause hr.keeps).takes fun hs => ?_
  rw [elseClause, ensures_bind, currentKind, ensures_look]
  cases hus with
  | none =>
    have hkind : s.current.kind = ks.headD .eof := hs.current_kind_eq
    split
    · next helif => exact absurd (hkind.symm.trans helif) hks.1
    · next helse => exact absurd (hkind.symm.trans helse) hks.2
    · exact (ensures_pure _).mpr (.refl s _)
  | @otherwise vs hvs =>
    have h₁ := s.takes_advance .kwElse (vs ++ ks)
    rw [hs.current_kind.1]
    simp only [ensures_bind, advance, ensures_act]
    refine (hr.block _ ks hvs).imp fun body s₂ h₂ => ?_
    simp only [alloc, ensures_act, ensures_pure]
    exact (h₁.trans h₂).trans (takes_alloc ..)
  | @another _ cs hguarded hcs =>
    obtain ⟨ws, vs, hws, hvs, rfl⟩ := hguarded
    have h₁ := s.takes_advance .kwElif (ws ++ (vs ++ (cs ++ ks)))
    rw [hs.current_kind.1]
    simp only [List.cons_append, List.append_assoc, ensures_bind, advance, ensures_act]
    refine (takes_condition _ (cs ++ ks) he hws hvs).imp fun condition s₂ h₂ => ?_
    refine (hr.block s₂ (cs ++ ks) hvs).imp fun body s₃ h₃ => ?_
    refine (hr.elseClause s₃ ks hcs hks).imp fun next s₄ h₄ => ?_
    simp only [alloc, ensures_act, ensures_pure]
    exact (((h₁.trans h₂).trans h₃).trans h₄).trans (takes_alloc ..)

include he in
theorem takes_whileStatement (hus : whileLoop.Derives us) :
    (whileStatement reach).Ensures s fun _ s' => s.Takes s' (us ++ ks) ks True := by
  obtain ⟨_, ⟨ws, vs, hws, hvs, rfl⟩, rfl⟩ := derives_whileLoop_iff.mp hus
  simp only [List.cons_append, List.append_assoc]
  have h₁ := s.takes_advance .kwWhile (ws ++ (vs ++ ks))
  rw [whileStatement, ensures_bind, advance, ensures_act, ensures_bind]
  refine (takes_condition _ ks he hws hvs).imp fun condition s₂ h₂ => ?_
  simp only [ensures_bind, ensures_change]
  have h₃ := (h₁.trans h₂).trans (s₂.takes_setLoopDepth (vs ++ ks) (s₂.loopDepth + 1))
  refine (hr.block _ ks hvs).imp fun body s₄ h₄ => ?_
  simp only [alloc, ensures_act, ensures_pure]
  exact ((h₃.trans h₄).trans (s₄.takes_setLoopDepth ks (s₄.loopDepth - 1))).trans (takes_alloc ..)

/-! ## Choosing by the first token -/

theorem takes_statement (hus : Rule.statement.Derives us) (hks : NoClause ks) :
    (statement .standard reach).Ensures s fun _ s' => s.Takes s' (us ++ ks) ks True := by
  refine (keeps_statement hr.keeps).takes fun hs => ?_
  rw [Tree.Statement.statement, ensures_bind, currentKind, ensures_look]
  cases derives_statement_iff.mp hus with
  | @returning us hvalue =>
    rw [hs.current_kind.1, List.cons_append, List.append_assoc]
    exact hr.returnStatement s ks hvalue
  | @loopControl kind hkind =>
    rw [hs.current_kind.1]
    rcases hkind with rfl | rfl
    · exact hr.loopControl s ks _
    · exact hr.loopControl s ks _
  | conditional hchain =>
    have hstatement := hr.ifStatement s ks hchain hks
    obtain ⟨_, _, -, -, rfl⟩ := derives_ifChain_iff.mp hchain
    rw [hs.current_kind.1]
    exact hstatement
  | loop hloop =>
    have hstatement := hr.whileStatement s ks hloop
    obtain ⟨_, -, rfl⟩ := derives_whileLoop_iff.mp hloop
    rw [hs.current_kind.1]
    exact hstatement
  | line hline =>
    have hstatement := hr.identifierStatement s ks (.inl hline)
    obtain ⟨_, rfl⟩ := hline.exists_cons
    rw [hs.current_kind.1]
    exact hstatement
  | function hfunction =>
    have hstatement := hr.identifierStatement s ks (.inr hfunction)
    obtain ⟨_, rfl⟩ := exists_cons_of_function hfunction
    rw [hs.current_kind.1]
    exact hstatement

theorem takes_declaration (hus : Rule.declaration.Derives us) :
    (declaration .standard reach).Ensures s fun _ s' => s.Takes s' (us ++ ks) ks True := by
  refine (keeps_declaration hr.keeps).takes fun hs => ?_
  rw [Tree.Statement.declaration, ensures_bind, currentKind, ensures_look]
  cases derives_declaration_iff.mp hus with
  | function hfunction =>
    have hdeclaration := hr.identifierStatement s ks (.inr hfunction)
    obtain ⟨_, rfl⟩ := exists_cons_of_function hfunction
    rw [hs.current_kind.1]
    exact hdeclaration
  | imported himport =>
    have hdeclaration := hr.foreignImport s ks himport
    obtain ⟨_, -, rfl⟩ := derives_foreignImport_iff.mp himport
    rw [hs.current_kind.1]
    exact hdeclaration
  | line hline =>
    have hdeclaration := hr.identifierStatement s ks (.inl hline)
    obtain ⟨_, rfl⟩ := hline.exists_cons
    rw [hs.current_kind.1]
    exact hdeclaration

/-! ## Lists -/

omit hr in
theorem takes_addFound (found : Option NodeId) :
    (addFound found).Ensures s fun _ s' => s.Takes s' ks ks True := by
  cases found with
  | none => exact (ensures_pure _).mpr (.refl s ks)
  | some id => exact (ensures_change _ _).mpr (s.takes_addStatement ks id)

theorem takes_statements (hparts : ∀ part ∈ parts, Rule.statement.Derives part) :
    (statements reach).Ensures s fun _ s' =>
      s.Takes s' (parts.flatten ++ .closeCurly :: ks) (.closeCurly :: ks) True := by
  refine (keeps_statements hr.keeps).takes fun hs => ?_
  rw [statements, ensures_bind, currentKind, ensures_look, ensures_bind, ensures_look]
  cases parts with
  | nil =>
    rw [if_neg fun h => h.1 hs.current_kind.1]
    exact (ensures_pure _).mpr (.refl s _)
  | cons part parts =>
    obtain ⟨hpart, hparts'⟩ := List.forall_mem_cons.mp hparts
    have hmore : s.current.kind ≠ .closeCurly ∧ s.hasTokens := by
      obtain ⟨k, ls, rfl, hk⟩ := startsWith_statement hpart
      obtain ⟨hclose, hend, -⟩ := ne_of_beginsStatement hk
      rw [hasTokens_iff, hs.current_kind.1]
      exact ⟨hclose, hend⟩
    rw [if_pos hmore, ensures_bind, List.flatten_cons, List.append_assoc]
    refine (hr.statement s _ hpart (noClause_statements ks hparts')).imp fun found s₁ h₁ => ?_
    rw [ensures_bind]
    refine (takes_addFound s₁ (parts.flatten ++ .closeCurly :: ks) found).imp fun _ s₂ h₂ => ?_
    exact (hr.statements s₂ ks hparts').imp fun _ s₃ h₃ => (h₁.trans h₂).trans h₃

theorem takes_declarations (hparts : ∀ part ∈ parts, Rule.declaration.Derives part) :
    (declarations reach).Ensures s fun _ s' => s.Takes s' parts.flatten [] True := by
  refine (keeps_declarations hr.keeps).takes fun hs => ?_
  rw [declarations, ensures_bind, ensures_look]
  cases parts with
  | nil =>
    rw [if_neg (by rw [hasTokens_iff]; exact fun h => h hs.current_kind_nil)]
    exact (ensures_pure _).mpr (.refl s _)
  | cons part parts =>
    obtain ⟨hpart, hparts'⟩ := List.forall_mem_cons.mp hparts
    have hmore : s.hasTokens := by
      obtain ⟨k, ls, rfl⟩ := exists_cons_of_declaration hpart
      rw [hasTokens_iff, hs.current_kind.1]
      exact hs.current_kind.2
    rw [if_pos hmore, ensures_bind, List.flatten_cons]
    refine (hr.declaration s parts.flatten hpart).imp fun found s₁ h₁ => ?_
    rw [ensures_bind]
    refine (takes_addFound s₁ parts.flatten found).imp fun _ s₂ h₂ => ?_
    exact (hr.declarations s₂ hparts').imp fun _ s₃ h₃ => (h₁.trans h₂).trans h₃

/-! ## All parts together -/

omit hr in
/-- **What statements take** with any number of steps. -/
theorem takesStatements_reach (fuel : Nat) : TakesStatements (Goal.reach .standard fuel) := by
  have hkeeps : ∀ fuel {α : Type} (goal : Goal α),
      (Goal.reach .standard fuel goal).Keeps Extends :=
    fun fuel _ goal s => Goal.reach_keeps fuel goal s
  induction fuel with
  | zero =>
    refine ⟨hkeeps 0, ?_, ?_, ?_, ?_, ?_, ?_, ?_, ?_, ?_, ?_, ?_, ?_, ?_, ?_, ?_, ?_, ?_⟩ <;>
      intros <;> intro a s' ha <;> cases ha
  | succ fuel ih =>
    have he := takesExpressions_reach fuel
    exact {
      keeps := hkeeps (fuel + 1)
      type := fun s ks _ => takes_type s ks
      values := fun s ks _ => takes_values s ks ih he
      variableStatement := fun s ks _ => takes_variableStatement s ks ih
      parameters := fun s ks _ => takes_parameters s ks ih
      identifierStatement := fun s ks _ => takes_identifierStatement s ks ih he
      function := fun s ks _ => takes_function s ks ih
      foreignImport := fun s ks _ => takes_foreignImport s ks ih
      returnStatement := fun s ks _ => takes_returnStatement s ks ih he
      loopControl := takes_loopControl
      ifStatement := fun s ks _ => takes_ifStatement s ks ih he
      elseClause := fun s ks _ => takes_elseClause s ks ih he
      whileStatement := fun s ks _ => takes_whileStatement s ks ih he
      block := fun s ks _ => takes_block s ks ih
      statement := fun s ks _ => takes_statement s ks ih
      statements := fun s ks _ => takes_statements s ks ih
      declaration := fun s ks _ => takes_declaration s ks ih
      declarations := fun s _ => takes_declarations s ih }

end Parse

end Braced
