import Braced.Proofs.Grammar
import Braced.Proofs.Parse.Reads
import Mathlib.Tactic.FinCases

/-!
# Braced.Proofs.Grammar.Rules

What each rule of the grammar derives, token by token.
-/

namespace Braced

open Phrase Rule

variable {ks : List TokenKind}

/-! ## Choices between tokens -/

theorem derives_binaryOperator_iff :
    binaryOperator.Derives ks ↔ ∃ op : BinaryOp, ks = [op.token] := by
  rw [binaryOperator, derives_oneOf_iff]
  constructor
  · rintro ⟨kind, hkind, rfl⟩
    have hop : ∃ op : BinaryOp, op.token = kind := by
      fin_cases hkind
      · exact ⟨.add, rfl⟩
      · exact ⟨.subtract, rfl⟩
      · exact ⟨.multiply, rfl⟩
      · exact ⟨.divide, rfl⟩
      · exact ⟨.modulo, rfl⟩
      · exact ⟨.equals, rfl⟩
      · exact ⟨.notEquals, rfl⟩
      · exact ⟨.less, rfl⟩
      · exact ⟨.greater, rfl⟩
      · exact ⟨.lessEquals, rfl⟩
      · exact ⟨.greaterEquals, rfl⟩
    obtain ⟨op, rfl⟩ := hop
    exact ⟨op, rfl⟩
  · rintro ⟨op, rfl⟩
    cases op <;> exact ⟨_, by decide, rfl⟩

theorem derives_prefixOperator_iff :
    prefixOperator.Derives ks ↔ ∃ op : UnaryOp, ∃ kind, op.token? = some kind ∧ ks = [kind] := by
  rw [prefixOperator, derives_oneOf_iff]
  constructor
  · rintro ⟨kind, hkind, rfl⟩
    have hop : ∃ op : UnaryOp, op.token? = some kind := by
      fin_cases hkind
      · exact ⟨.increment, rfl⟩
      · exact ⟨.decrement, rfl⟩
      · exact ⟨.deref, rfl⟩
      · exact ⟨.addressOf, rfl⟩
      · exact ⟨.negate, rfl⟩
    obtain ⟨op, hop⟩ := hop
    exact ⟨op, kind, hop, rfl⟩
  · rintro ⟨op, kind, hop, rfl⟩
    cases op <;> cases hop <;> exact ⟨_, by decide, rfl⟩

/-! ## Types -/

theorem derives_type_iff :
    Rule.type.Derives ks ↔ ∃ (isConst : Bool) (atom : TypeAtom),
      ks = (if isConst then [.kwConst] else []) ++ [atom.token] := by
  have hatom : ∀ us, (oneOf .kwInt [.kwFloat, .kwDouble, .kwByte, .kwBoolean]).Derives us
      ↔ ∃ atom : TypeAtom, us = [atom.token] := by
    intro us
    rw [derives_oneOf_iff]
    constructor
    · rintro ⟨kind, hkind, rfl⟩
      fin_cases hkind
      · exact ⟨.int, rfl⟩
      · exact ⟨.float, rfl⟩
      · exact ⟨.double, rfl⟩
      · exact ⟨.byte, rfl⟩
      · exact ⟨.boolean, rfl⟩
    · rintro ⟨atom, rfl⟩
      cases atom <;> exact ⟨_, by decide, rfl⟩
  rw [derives_rule_iff, Rule.body, derives_append_iff]
  simp only [derives_optional_iff, derives_token_iff, hatom]
  constructor
  · rintro ⟨_, _, rfl | rfl, ⟨atom, rfl⟩, rfl⟩
    · exact ⟨true, atom, rfl⟩
    · exact ⟨false, atom, rfl⟩
  · rintro ⟨isConst, atom, rfl⟩
    cases isConst with
    | true => exact ⟨_, _, .inl rfl, ⟨atom, rfl⟩, rfl⟩
    | false => exact ⟨_, _, .inr rfl, ⟨atom, rfl⟩, rfl⟩

/-- A part that begins with a token of a certain kind. -/
def IsBehind (kind : TokenKind) (p : Phrase) (ks : List TokenKind) : Prop :=
  ∃ us, p.Derives us ∧ ks = kind :: us

/-- A type behind a token, or nothing. -/
def IsTypeAfter (kind : TokenKind) (ks : List TokenKind) : Prop :=
  IsBehind kind (rule .type) ks ∨ ks = []

theorem derives_parameter_iff :
    parameter.Derives ks ↔
      ∃ us, Rule.type.Derives us ∧ ks = .identifier :: .colon :: us := by
  rw [parameter, derives_append_assoc]
  simp only [derives_token_append_iff]
  constructor
  · rintro ⟨_, ⟨us, hus, rfl⟩, rfl⟩
    exact ⟨us, hus, rfl⟩
  · rintro ⟨us, hus, rfl⟩
    exact ⟨_, ⟨us, hus, rfl⟩, rfl⟩

theorem derives_parameterList_iff :
    parameterList.Derives ks ↔ ∃ us, ∃ parts : List (List TokenKind), parameter.Derives us ∧
      (∀ part ∈ parts, IsBehind .comma parameter part) ∧ ks = us ++ parts.flatten := by
  rw [derives_rule_iff, Rule.body, derives_append_iff]
  simp only [derives_many_iff, derives_token_append_iff]
  constructor
  · rintro ⟨us, _, hus, ⟨parts, hparts, rfl⟩, rfl⟩
    exact ⟨us, parts, hus, hparts, rfl⟩
  · rintro ⟨us, parts, hus, hparts, rfl⟩
    exact ⟨us, _, hus, ⟨parts, hparts, rfl⟩, rfl⟩

theorem derives_functionSignature_iff :
    functionSignature.Derives ks ↔ ∃ us vs, (parameterList.Derives us ∨ us = []) ∧
      IsTypeAfter .arrow vs ∧
      ks = .identifier :: .colon :: .openParen :: (us ++ .closeParen :: vs) := by
  rw [derives_rule_iff, Rule.body]
  simp only [derives_append_assoc, derives_token_append_iff]
  simp only [derives_append_iff (p := optional _), derives_optional_iff, derives_token_append_iff]
  constructor
  · rintro ⟨_, ⟨_, ⟨_, ⟨us, _, hus, ⟨vs, hvs, rfl⟩, rfl⟩, rfl⟩, rfl⟩, rfl⟩
    exact ⟨us, vs, hus, hvs, rfl⟩
  · rintro ⟨us, vs, hus, hvs, rfl⟩
    exact ⟨_, ⟨_, ⟨_, ⟨us, _, hus, ⟨vs, hvs, rfl⟩, rfl⟩, rfl⟩, rfl⟩, rfl⟩

/-! ## Expressions -/

/-- An operator with the operand behind it. -/
def IsOperation (ks : List TokenKind) : Prop :=
  ∃ (op : BinaryOp) (us : List TokenKind), unaryExpression.Derives us ∧ ks = op.token :: us

theorem derives_expression_iff :
    expression.Derives ks ↔ ∃ us, ∃ parts : List (List TokenKind), unaryExpression.Derives us ∧
      (∀ part ∈ parts, IsOperation part) ∧ ks = us ++ parts.flatten := by
  have hpart : ∀ part,
      (binaryOperator ++ rule unaryExpression).Derives part ↔ IsOperation part := by
    intro part
    rw [derives_append_iff]
    constructor
    · rintro ⟨vs, us, hop, hus, rfl⟩
      obtain ⟨op, rfl⟩ := derives_binaryOperator_iff.mp hop
      exact ⟨op, us, hus, rfl⟩
    · rintro ⟨op, us, hus, rfl⟩
      exact ⟨[op.token], us, derives_binaryOperator_iff.mpr ⟨op, rfl⟩, hus, rfl⟩
  rw [derives_rule_iff, Rule.body, derives_append_iff]
  simp only [derives_many_iff, hpart]
  constructor
  · rintro ⟨us, _, hus, ⟨parts, hparts, rfl⟩, rfl⟩
    exact ⟨us, parts, hus, hparts, rfl⟩
  · rintro ⟨us, parts, hus, hparts, rfl⟩
    exact ⟨us, _, hus, ⟨parts, hparts, rfl⟩, rfl⟩

/-- An operand, by what it begins with. -/
inductive IsUnary : List TokenKind → Prop
  | prefixed {op : UnaryOp} {kind : TokenKind} {us : List TokenKind} (hop : op.token? = some kind)
      (hus : unaryExpression.Derives us) : IsUnary (kind :: us)
  | nested {us : List TokenKind} (hus : expression.Derives us) :
      IsUnary (.openParen :: (us ++ [.closeParen]))
  | postfixed {us : List TokenKind} (hus : postfixExpression.Derives us) : IsUnary us

theorem derives_unaryExpression_iff : unaryExpression.Derives ks ↔ IsUnary ks := by
  rw [derives_rule_iff, Rule.body, derives_or_iff, derives_or_iff, derives_append_assoc,
    derives_token_append_iff, derives_append_iff]
  simp only [derives_append_token_iff, derives_prefixOperator_iff]
  constructor
  · rintro ((⟨_, us, ⟨op, kind, hop, rfl⟩, hus, rfl⟩ | ⟨_, ⟨us, hus, rfl⟩, rfl⟩) | hus)
    · exact .prefixed hop hus
    · exact .nested hus
    · exact .postfixed hus
  · intro h
    cases h with
    | prefixed hop hus => exact .inl (.inl ⟨_, _, ⟨_, _, hop, rfl⟩, hus, rfl⟩)
    | nested hus => exact .inl (.inr ⟨_, ⟨_, hus, rfl⟩, rfl⟩)
    | postfixed hus => exact .inr hus

theorem derives_postfixExpression_iff :
    postfixExpression.Derives ks ↔ ∃ us, ∃ step : Option Step, primaryExpression.Derives us ∧
      ks = us ++ (step.map Step.token).toList := by
  rw [derives_rule_iff, Rule.body, derives_append_iff]
  simp only [derives_optional_iff, derives_oneOf_iff]
  constructor
  · rintro ⟨us, _, hus, ⟨kind, hkind, rfl⟩ | rfl, rfl⟩
    · fin_cases hkind
      · exact ⟨us, some .increment, hus, rfl⟩
      · exact ⟨us, some .decrement, hus, rfl⟩
    · exact ⟨us, none, hus, rfl⟩
  · rintro ⟨us, step, hus, rfl⟩
    cases step with
    | none => exact ⟨us, [], hus, .inr rfl, rfl⟩
    | some step => exact ⟨us, _, hus, .inl ⟨step.token, by cases step <;> decide, rfl⟩, rfl⟩

theorem derives_primaryExpression_iff :
    primaryExpression.Derives ks ↔ (∃ kind : TokenKind, kind.carries ∧ ks = [kind]) ∨
      functionCall.Derives ks := by
  rw [derives_rule_iff, Rule.body, derives_or_iff, derives_oneOf_iff]
  refine or_congr ⟨?_, ?_⟩ Iff.rfl
  · rintro ⟨kind, hkind, rfl⟩
    refine ⟨kind, ?_, rfl⟩
    fin_cases hkind <;> rfl
  · rintro ⟨kind, hkind, rfl⟩
    refine ⟨kind, ?_, rfl⟩
    cases kind <;> first | decide | cases hkind

/-- Expressions between commas. -/
def AreExpressions (ks : List TokenKind) : Prop :=
  ∃ us, ∃ parts : List (List TokenKind), expression.Derives us ∧
    (∀ part ∈ parts, IsBehind .comma (rule expression) part) ∧ ks = us ++ parts.flatten

theorem derives_functionCall_iff :
    functionCall.Derives ks ↔ ∃ us, (AreExpressions us ∨ us = []) ∧
      ks = .identifier :: .openParen :: (us ++ [.closeParen]) := by
  have harguments : ∀ us,
      (optional (rule expression ++ many (token .comma ++ rule expression))).Derives us
        ↔ AreExpressions us ∨ us = [] := by
    intro us
    rw [derives_optional_iff, derives_append_iff, AreExpressions]
    simp only [derives_many_iff, derives_token_append_iff]
    refine or_congr ⟨?_, ?_⟩ Iff.rfl
    · rintro ⟨us, _, hus, ⟨parts, hparts, rfl⟩, rfl⟩
      exact ⟨us, parts, hus, hparts, rfl⟩
    · rintro ⟨us, parts, hus, hparts, rfl⟩
      exact ⟨us, _, hus, ⟨parts, hparts, rfl⟩, rfl⟩
  rw [derives_rule_iff, Rule.body, derives_append_assoc, derives_append_assoc,
    derives_token_append_iff]
  simp only [derives_token_append_iff, derives_append_token_iff, harguments]
  constructor
  · rintro ⟨_, ⟨_, ⟨us, hus, rfl⟩, rfl⟩, rfl⟩
    exact ⟨us, hus, rfl⟩
  · rintro ⟨us, hus, rfl⟩
    exact ⟨_, ⟨_, ⟨us, hus, rfl⟩, rfl⟩, rfl⟩

/-! ## Statements -/

theorem derives_variableDeclaration_iff :
    variableDeclaration.Derives ks ↔ ∃ us, ∃ parts : List (List TokenKind), IsTypeAfter .colon us ∧
      (∀ part ∈ parts, IsBehind .assignment (rule expression) part) ∧
      ks = .identifier :: (us ++ parts.flatten) := by
  rw [derives_rule_iff, Rule.body, derives_append_assoc, derives_token_append_iff]
  simp only [derives_append_iff (p := optional _), derives_optional_iff, derives_token_append_iff,
    derives_many_iff]
  constructor
  · rintro ⟨_, ⟨us, _, hus, ⟨parts, hparts, rfl⟩, rfl⟩, rfl⟩
    exact ⟨us, parts, hus, hparts, rfl⟩
  · rintro ⟨us, parts, hus, hparts, rfl⟩
    exact ⟨_, ⟨us, _, hus, ⟨parts, hparts, rfl⟩, rfl⟩, rfl⟩

theorem derives_block_iff :
    block.Derives ks ↔ ∃ parts : List (List TokenKind), (∀ part ∈ parts, statement.Derives part) ∧
      ks = .openCurly :: (parts.flatten ++ [.closeCurly]) := by
  rw [derives_rule_iff, Rule.body, derives_append_assoc, derives_token_append_iff]
  simp only [derives_append_token_iff, derives_many_iff]
  constructor
  · rintro ⟨_, ⟨_, ⟨parts, hparts, rfl⟩, rfl⟩, rfl⟩
    exact ⟨parts, hparts, rfl⟩
  · rintro ⟨parts, hparts, rfl⟩
    exact ⟨_, ⟨_, ⟨parts, hparts, rfl⟩, rfl⟩, rfl⟩

/-- An expression with a block. -/
def IsGuarded (ks : List TokenKind) : Prop :=
  ∃ us vs, expression.Derives us ∧ block.Derives vs ∧ ks = us ++ vs

theorem derives_guarded_iff : (rule expression ++ rule block).Derives ks ↔ IsGuarded ks :=
  derives_append_iff

theorem derives_whileLoop_iff :
    whileLoop.Derives ks ↔ ∃ us, IsGuarded us ∧ ks = .kwWhile :: us := by
  rw [derives_rule_iff, Rule.body, derives_append_assoc, derives_token_append_iff]
  simp only [derives_guarded_iff]

/-- The clauses that may follow a clause of a conditional. -/
inductive AreClauses : List TokenKind → Prop
  | none : AreClauses []
  | otherwise {us : List TokenKind} (hus : block.Derives us) : AreClauses (.kwElse :: us)
  | another {us vs : List TokenKind} (hus : IsGuarded us) (hvs : AreClauses vs) :
      AreClauses (.kwElif :: (us ++ vs))

theorem derives_clauses_iff :
    (many (token .kwElif ++ rule expression ++ rule block)
      ++ optional (token .kwElse ++ rule block)).Derives ks ↔ AreClauses ks := by
  rw [derives_append_iff]
  simp only [derives_many_iff, derives_append_assoc, derives_token_append_iff, derives_guarded_iff,
    derives_optional_iff]
  constructor
  · rintro ⟨_, vs, ⟨parts, hparts, rfl⟩, hvs, rfl⟩
    induction parts with
    | nil =>
      rcases hvs with ⟨us, hus, rfl⟩ | rfl
      · exact .otherwise hus
      · exact .none
    | cons part parts ih =>
      rw [List.forall_mem_cons] at hparts
      obtain ⟨⟨us, hus, rfl⟩, hparts⟩ := hparts
      rw [List.flatten_cons, List.append_assoc]
      exact .another hus (ih hparts)
  · intro h
    induction h with
    | none => exact ⟨_, _, ⟨[], List.forall_mem_nil _, rfl⟩, .inr rfl, rfl⟩
    | otherwise hus => exact ⟨_, _, ⟨[], List.forall_mem_nil _, rfl⟩, .inl ⟨_, hus, rfl⟩, rfl⟩
    | @another us _ hus _ ih =>
      obtain ⟨_, vs, ⟨parts, hparts, rfl⟩, hvs, rfl⟩ := ih
      refine ⟨_, vs, ⟨(.kwElif :: us) :: parts, ?_, rfl⟩, hvs, by simp⟩
      exact List.forall_mem_cons.mpr ⟨⟨_, hus, rfl⟩, hparts⟩

theorem derives_ifChain_iff :
    ifChain.Derives ks ↔ ∃ us vs, IsGuarded us ∧ AreClauses vs ∧ ks = .kwIf :: (us ++ vs) := by
  have hbody : ifChain.Derives ks ↔ (token .kwIf ++ ((rule expression ++ rule block)
      ++ (many (token .kwElif ++ rule expression ++ rule block)
        ++ optional (token .kwElse ++ rule block)))).Derives ks := by
    rw [derives_rule_iff, Rule.body, derives_append_assoc, derives_append_assoc,
      derives_append_assoc, derives_token_append_iff, derives_token_append_iff]
    simp only [derives_append_assoc]
  rw [hbody, derives_token_append_iff]
  simp only [derives_append_iff (q := many _ ++ _), derives_clauses_iff, derives_guarded_iff]
  constructor
  · rintro ⟨_, ⟨us, vs, hus, hvs, rfl⟩, rfl⟩
    exact ⟨us, vs, hus, hvs, rfl⟩
  · rintro ⟨us, vs, hus, hvs, rfl⟩
    exact ⟨_, ⟨us, vs, hus, hvs, rfl⟩, rfl⟩

/-- A line that begins with a name. -/
def IsLine (ks : List TokenKind) : Prop :=
  ∃ us, (variableDeclaration.Derives us ∨ functionCall.Derives us) ∧ ks = us ++ [.semicolon]

theorem derives_functionDefinition_iff :
    functionDefinition.Derives ks ↔ ∃ us vs, functionSignature.Derives us ∧ block.Derives vs ∧
      ks = us ++ vs := by
  rw [derives_rule_iff, Rule.body, derives_append_iff]

/-- A statement, by what it begins with. -/
inductive IsStatement : List TokenKind → Prop
  | returning {us : List TokenKind} (hus : expression.Derives us ∨ us = []) :
      IsStatement (.kwReturn :: (us ++ [.semicolon]))
  | loopControl {kind : TokenKind} (hkind : kind = .kwBreak ∨ kind = .kwContinue) :
      IsStatement [kind, .semicolon]
  | conditional {us : List TokenKind} (hus : ifChain.Derives us) : IsStatement us
  | loop {us : List TokenKind} (hus : whileLoop.Derives us) : IsStatement us
  | line {us : List TokenKind} (hus : IsLine us) : IsStatement us
  | function {us : List TokenKind} (hus : functionDefinition.Derives us) : IsStatement us

theorem derives_statement_iff : statement.Derives ks ↔ IsStatement ks := by
  rw [derives_rule_iff, Rule.body]
  simp only [derives_or_iff, derives_append_token_iff, derives_token_append_iff,
    derives_optional_iff, derives_token_iff]
  constructor
  · rintro (((((((⟨_, ⟨us, hus, rfl⟩, rfl⟩ | ⟨_, rfl, rfl⟩) | ⟨_, rfl, rfl⟩) | hus) | hus)
      | ⟨us, hus, rfl⟩) | ⟨us, hus, rfl⟩) | hus)
    · exact .returning hus
    · exact .loopControl (.inl rfl)
    · exact .loopControl (.inr rfl)
    · exact .conditional hus
    · exact .loop hus
    · exact .line ⟨us, .inl hus, rfl⟩
    · exact .line ⟨us, .inr hus, rfl⟩
    · exact .function hus
  · intro h
    cases h with
    | returning hus => exact .inl (.inl (.inl (.inl (.inl (.inl (.inl ⟨_, ⟨_, hus, rfl⟩, rfl⟩))))))
    | loopControl hkind =>
      rcases hkind with rfl | rfl
      · exact .inl (.inl (.inl (.inl (.inl (.inl (.inr ⟨_, rfl, rfl⟩))))))
      · exact .inl (.inl (.inl (.inl (.inl (.inr ⟨_, rfl, rfl⟩)))))
    | conditional hus => exact .inl (.inl (.inl (.inl (.inr hus))))
    | loop hus => exact .inl (.inl (.inl (.inr hus)))
    | line hus =>
      obtain ⟨us, hus | hus, rfl⟩ := hus
      · exact .inl (.inl (.inr ⟨us, hus, rfl⟩))
      · exact .inl (.inr ⟨us, hus, rfl⟩)
    | function hus => exact .inr hus

/-! ## Declarations -/

theorem derives_foreignImport_iff :
    foreignImport.Derives ks ↔ ∃ us, functionSignature.Derives us ∧
      ks = .pound :: .kwForeign :: .kwFrom :: .openParen :: .identifier :: .comma
        :: (us ++ [.closeParen, .semicolon]) := by
  rw [derives_rule_iff, Rule.body]
  simp only [derives_append_assoc, derives_token_append_iff]
  simp only [derives_append_iff (p := rule _), derives_token_append_iff, derives_token_iff]
  constructor
  · rintro ⟨_, ⟨_, ⟨_, ⟨_, ⟨_, ⟨_, ⟨us, _, hus, ⟨_, rfl, rfl⟩, rfl⟩, rfl⟩, rfl⟩, rfl⟩, rfl⟩,
      rfl⟩, rfl⟩
    exact ⟨us, hus, rfl⟩
  · rintro ⟨us, hus, rfl⟩
    exact ⟨_, ⟨_, ⟨_, ⟨_, ⟨_, ⟨_, ⟨us, _, hus, ⟨_, rfl, rfl⟩, rfl⟩, rfl⟩, rfl⟩, rfl⟩, rfl⟩,
      rfl⟩, rfl⟩

/-- A declaration, by what it begins with. -/
inductive IsDeclaration : List TokenKind → Prop
  | function {us : List TokenKind} (hus : functionDefinition.Derives us) : IsDeclaration us
  | imported {us : List TokenKind} (hus : foreignImport.Derives us) : IsDeclaration us
  | line {us : List TokenKind} (hus : IsLine us) : IsDeclaration us

theorem derives_declaration_iff : declaration.Derives ks ↔ IsDeclaration ks := by
  rw [derives_rule_iff, Rule.body]
  simp only [derives_or_iff, derives_append_token_iff]
  constructor
  · rintro (((hus | ⟨us, hus, rfl⟩) | hus) | ⟨us, hus, rfl⟩)
    · exact .function hus
    · exact .line ⟨us, .inr hus, rfl⟩
    · exact .imported hus
    · exact .line ⟨us, .inl hus, rfl⟩
  · intro h
    cases h with
    | function hus => exact .inl (.inl (.inl hus))
    | imported hus => exact .inl (.inr hus)
    | line hus =>
      obtain ⟨us, hus | hus, rfl⟩ := hus
      · exact .inr ⟨us, hus, rfl⟩
      · exact .inl (.inl (.inr ⟨us, hus, rfl⟩))

theorem derives_program_iff :
    program.Derives ks ↔ ∃ parts : List (List TokenKind),
      (∀ part ∈ parts, declaration.Derives part) ∧ ks = parts.flatten := by
  rw [derives_rule_iff, Rule.body, derives_many_iff]

end Braced
