import Braced.Proofs.Grammar.Rules
import Braced.Proofs.Parse.Program

/-!
# Braced.Proofs.Grammar.Sound

Whatever a tree is written as is derived by the grammar
(`Tree.WritesBlock.derives`), as long as no condition is missing in it.

An operator in front of an operand may be written in front of a whole expression
here, which is no less an expression: the operator belongs to the first operand.
-/

namespace Braced

open Phrase Rule

variable {us vs : List TokenKind}

@[simp] theorem Piece.kind_bare (kind : TokenKind) : (bare kind).kind = kind := rfl

@[simp] theorem Piece.kind_name (text : String) (marks : List Mark) :
    (name text marks).kind = .identifier := rfl

/-! ## Expressions -/

theorem derives_expression_of_unary (h : unaryExpression.Derives us) : expression.Derives us :=
  derives_expression_iff.mpr ⟨us, [], h, List.forall_mem_nil _, (List.append_nil us).symm⟩

/-- Two expressions around an operator are an expression. -/
theorem derives_expression_binary (hus : expression.Derives us) (hvs : expression.Derives vs)
    (op : BinaryOp) : expression.Derives (us ++ op.token :: vs) := by
  obtain ⟨left, parts, hleft, hparts, rfl⟩ := derives_expression_iff.mp hus
  obtain ⟨right, parts', hright, hparts', rfl⟩ := derives_expression_iff.mp hvs
  have hoperation : IsOperation (op.token :: right) := ⟨op, right, hright, rfl⟩
  rw [derives_expression_iff]
  refine ⟨left, parts ++ (op.token :: right) :: parts', hleft, ?_, by simp⟩
  exact List.forall_mem_append.mpr ⟨hparts, List.forall_mem_cons.mpr ⟨hoperation, hparts'⟩⟩

/-- An operator in front of an expression belongs to its first operand. -/
theorem derives_expression_prefixed (hus : expression.Derives us) {op : UnaryOp} {kind : TokenKind}
    (hop : op.token? = some kind) : expression.Derives (kind :: us) := by
  obtain ⟨first, parts, hfirst, hparts, rfl⟩ := derives_expression_iff.mp hus
  have hunary : unaryExpression.Derives (kind :: first) :=
    derives_unaryExpression_iff.mpr (.prefixed hop hfirst)
  exact derives_expression_iff.mpr ⟨kind :: first, parts, hunary, hparts, rfl⟩

/-- An operand with an operator behind it or not. -/
theorem derives_expression_of_primary (h : primaryExpression.Derives us) (step : Option Step) :
    expression.Derives (us ++ (step.map Step.token).toList) := by
  have hpostfix := derives_postfixExpression_iff.mpr ⟨us, step, h, rfl⟩
  exact derives_expression_of_unary (derives_unaryExpression_iff.mpr (.postfixed hpostfix))

theorem AreExpressions.cons (hus : expression.Derives us) (hvs : AreExpressions vs) :
    AreExpressions (us ++ .comma :: vs) := by
  obtain ⟨first, parts, hfirst, hparts, rfl⟩ := hvs
  refine ⟨us, (.comma :: first) :: parts, hus, ?_, by simp⟩
  exact List.forall_mem_cons.mpr ⟨⟨first, hfirst, rfl⟩, hparts⟩

theorem Tree.map_kind_stepPieces (step : Option Step) :
    (stepPieces step).map Piece.kind = (step.map Step.token).toList := by
  cases step <;> rfl

theorem carries_of_token? {constant : Primary} {kind : TokenKind} {value : TokenValue}
    (h : constant.token? = some (kind, value)) : kind.carries := by
  cases constant <;> cases h <;> rfl

namespace Tree

variable {t : Tree}

/-- **What an expression is written as is an expression.** -/
theorem Writes.derives {part : ExprPart} {ps : List Piece} (h : t.Writes part ps) :
    match part with
    | .expression _ => expression.Derives (ps.map Piece.kind)
    | .call _ => functionCall.Derives (ps.map Piece.kind)
    | .arguments [] => ps.map Piece.kind = []
    | .arguments (_ :: _) => AreExpressions (ps.map Piece.kind)
    | .values _ => ∃ parts : List (List TokenKind),
      (∀ us ∈ parts, IsBehind .assignment (rule expression) us) ∧
        ps.map Piece.kind = parts.flatten := by
  induction h with
  | @binary _ _ _ _ op _ _ _ _ _ _ _ ih ih' =>
    simpa using derives_expression_binary ih ih' op
  | prefixed _ hkind _ _ ih => exact derives_expression_prefixed ih hkind
  | nested _ _ _ ih =>
    have hunary := derives_unaryExpression_iff.mpr (.nested ih)
    simpa using derives_expression_of_unary hunary
  | @constant _ _ _ step _ _ _ hconstant =>
    rw [List.map_cons, map_kind_stepPieces]
    exact derives_expression_of_primary
      (derives_primaryExpression_iff.mpr (.inl ⟨_, carries_of_token? hconstant, rfl⟩)) step
  | @name _ _ _ _ step _ _ _ =>
    rw [List.map_cons, map_kind_stepPieces]
    exact derives_expression_of_primary
      (derives_primaryExpression_iff.mpr (.inl ⟨.identifier, rfl, rfl⟩)) step
  | @called _ _ _ step _ _ _ _ ih =>
    rw [List.map_append, Piece.map_kind_markFirst, map_kind_stepPieces]
    exact derives_expression_of_primary (derives_primaryExpression_iff.mpr (.inr ih)) step
  | @call _ _ arguments _ _ _ _ ps _ _ _ _ ih =>
    have harguments : AreExpressions (ps.map Piece.kind) ∨ ps.map Piece.kind = [] := by
      cases arguments with
      | nil => exact .inr ih
      | cons _ _ => exact .inl ih
    exact derives_functionCall_iff.mpr ⟨_, harguments, by simp⟩
  | noArguments => rfl
  | lastArgument _ ih => exact ⟨_, [], ih, List.forall_mem_nil _, (List.append_nil _).symm⟩
  | argument _ _ ih ih' => simpa using AreExpressions.cons ih ih'
  | noValues => exact ⟨[], List.forall_mem_nil _, rfl⟩
  | value _ _ ih ih' =>
    obtain ⟨parts, hparts, heq⟩ := ih'
    refine ⟨(.assignment :: _) :: parts, List.forall_mem_cons.mpr ⟨⟨_, ih, rfl⟩, hparts⟩, ?_⟩
    simp [heq]

/-! ## Types and signatures -/

theorem WritesType.derives {id : NodeId} {ps : List Piece} (h : t.WritesType id ps) :
    Rule.type.Derives (ps.map Piece.kind) := by
  obtain @⟨_, atom, isConst, _⟩ := h
  refine derives_type_iff.mpr ⟨isConst, atom, ?_⟩
  cases isConst <;> rfl

theorem WritesTypeAfter.isTypeAfter {kind : TokenKind} {type : Option NodeId} {ps : List Piece}
    (h : t.WritesTypeAfter kind type ps) : IsTypeAfter kind (ps.map Piece.kind) := by
  cases h with
  | absent => exact .inr rfl
  | present hps => exact .inl ⟨_, hps.derives, rfl⟩

theorem WritesParameters.derives {parameters : List Parameter} {ps : List Piece}
    (h : t.WritesParameters parameters ps) :
    match parameters with
    | [] => ps.map Piece.kind = []
    | _ :: _ => parameterList.Derives (ps.map Piece.kind) := by
  induction h with
  | nil => rfl
  | last _ hps =>
    have hfirst := derives_parameter_iff.mpr ⟨_, hps.derives, rfl⟩
    exact derives_parameterList_iff.mpr ⟨_, [], hfirst, List.forall_mem_nil _, by simp⟩
  | cons _ hps _ ih =>
    have hfirst := derives_parameter_iff.mpr ⟨_, hps.derives, rfl⟩
    obtain ⟨us, parts, hus, hparts, heq⟩ := derives_parameterList_iff.mp ih
    refine derives_parameterList_iff.mpr ⟨_, (.comma :: us) :: parts, hfirst, ?_, by simp [heq]⟩
    exact List.forall_mem_cons.mpr ⟨⟨us, hus, rfl⟩, hparts⟩

theorem WritesSignature.derives {name : NodeId} {parameters : List Parameter}
    {result : Option NodeId} {ps : List Piece} (h : t.WritesSignature name parameters result ps) :
    functionSignature.Derives (ps.map Piece.kind) := by
  obtain @⟨_, _, ps, qs, _, hps, hqs⟩ := h
  have hparameters : parameterList.Derives (ps.map Piece.kind) ∨ ps.map Piece.kind = [] := by
    cases parameters with
    | nil => exact .inr hps.derives
    | cons _ _ => exact .inl hps.derives
  exact derives_functionSignature_iff.mpr ⟨_, _, hparameters, hqs.isTypeAfter, by simp⟩

/-! ## Statements -/

theorem WritesLine.isLine {id : NodeId} {ps : List Piece} (h : t.WritesLine id ps) :
    IsLine (ps.map Piece.kind) := by
  cases h with
  | declared _ _ hps hqs =>
    obtain ⟨parts, hparts, heq⟩ := hqs.derives
    have hdeclaration := derives_variableDeclaration_iff.mpr ⟨_, parts, hps.isTypeAfter, hparts, rfl⟩
    exact ⟨_, .inl hdeclaration, by simp [heq]⟩
  | call hps => exact ⟨_, .inr hps.derives, by simp⟩

theorem WritesCondition.derives {condition : Option NodeId} {ps : List Piece}
    (h : t.WritesCondition False condition ps) : expression.Derives (ps.map Piece.kind) := by
  cases h with
  | absent hmissing => exact absurd hmissing not_false
  | present hps => exact hps.derives

/-- What is written between braces is a block. -/
theorem derives_blockPieces {ps : List Piece} {parts : List (List TokenKind)}
    (hparts : ∀ part ∈ parts, statement.Derives part) (h : ps.map Piece.kind = parts.flatten) :
    Rule.block.Derives ((blockPieces ps).map Piece.kind) :=
  derives_block_iff.mpr ⟨parts, hparts, by simp [blockPieces, h]⟩

/-- **What a statement is written as is a statement.** -/
theorem WritesBlock.derives {first : Nat} {part : StmtPart} {ps : List Piece} {ns : List Position}
    (h : t.WritesBlock False first part ps ns) :
    match part with
    | .statement _ => Rule.statement.Derives (ps.map Piece.kind)
    | .clauses _ => AreClauses (ps.map Piece.kind)
    | .conditional flow _ => ∃ us vs, IsGuarded us ∧ AreClauses vs ∧
      ps.map Piece.kind = flow.token :: (us ++ vs)
    | .statements _ => ∃ parts : List (List TokenKind), (∀ us ∈ parts, Rule.statement.Derives us) ∧
      ps.map Piece.kind = parts.flatten
    | .function _ => functionDefinition.Derives (ps.map Piece.kind)
    | .item _ => declaration.Derives (ps.map Piece.kind)
    | .items _ => ∃ parts : List (List TokenKind), (∀ us ∈ parts, declaration.Derives us) ∧
      ps.map Piece.kind = parts.flatten := by
  induction h with
  | line hps => exact derives_statement_iff.mpr (.line hps.isLine)
  | @returning _ _ _ ps _ hps =>
    have hvalue : expression.Derives (ps.map Piece.kind) ∨ ps.map Piece.kind = [] := by
      cases hps with
      | absent => exact .inr rfl
      | present hps => exact .inl hps.derives
    simpa using derives_statement_iff.mpr (.returning hvalue)
  | @loopControl _ _ jump _ hjump =>
    have hkind : jump.token = .kwBreak ∨ jump.token = .kwContinue := by
      cases jump with
      | returning => exact absurd rfl hjump
      | breaking => exact .inl rfl
      | continuing => exact .inr rfl
    exact derives_statement_iff.mpr (.loopControl hkind)
  | conditional _ hps _ _ _ _ _ _ ih ih' =>
    obtain ⟨parts, hparts, heq⟩ := ih
    exact ⟨_, _, ⟨_, _, hps.derives, derives_blockPieces hparts heq, rfl⟩, ih', by simp⟩
  | ifChain _ ih =>
    exact derives_statement_iff.mpr (.conditional (derives_ifChain_iff.mpr ih))
  | whileLoop _ hps _ _ _ _ ih =>
    obtain ⟨parts, hparts, heq⟩ := ih
    have hloop := derives_whileLoop_iff.mpr
      ⟨_, ⟨_, _, hps.derives, derives_blockPieces hparts heq, rfl⟩, rfl⟩
    simpa using derives_statement_iff.mpr (.loop hloop)
  | inner _ _ ih => exact derives_statement_iff.mpr (.function ih)
  | noClauses => exact .none
  | elifClause _ ih =>
    obtain ⟨us, vs, hus, hvs, heq⟩ := ih
    rw [heq]
    exact .another hus hvs
  | elseClause _ _ _ _ _ ih =>
    obtain ⟨parts, hparts, heq⟩ := ih
    exact .otherwise (derives_blockPieces hparts heq)
  | noStatements | noItems => exact ⟨[], List.forall_mem_nil _, rfl⟩
  | statement _ _ ih ih' | consItem _ _ ih ih' =>
    obtain ⟨parts, hparts, heq⟩ := ih'
    exact ⟨_ :: parts, List.forall_mem_cons.mpr ⟨ih, hparts⟩, by simp [heq]⟩
  | function _ hps _ _ _ _ ih =>
    obtain ⟨parts, hparts, heq⟩ := ih
    exact derives_functionDefinition_iff.mpr
      ⟨_, _, hps.derives, derives_blockPieces hparts heq, by simp⟩
  | itemLine hps => exact derives_declaration_iff.mpr (.line hps.isLine)
  | itemFunction _ ih => exact derives_declaration_iff.mpr (.function ih)
  | imported _ hps =>
    have himport := derives_foreignImport_iff.mpr ⟨_, hps.derives, rfl⟩
    simpa using derives_declaration_iff.mpr (.imported himport)

end Tree

/-- The kinds of pieces are those of the tokens that they match. -/
theorem Piece.map_kind_eq {ps : List Piece} {tokens : List Token}
    (h : List.Forall₂ Piece.Matches ps tokens) : ps.map Piece.kind = tokens.map Token.kind := by
  induction h with
  | nil => rfl
  | cons hp _ ih => rw [List.map_cons, List.map_cons, hp.kind, ih]

open Builder in
/-- **What is read without a fault is a program.** -/
theorem Tree.derives_of_clean {tokens : List Token} (hfits : ∀ t ∈ tokens, t.Fits)
    (hclean : ¬(build tokens).Faulty) :
    program.Derives ((tokens.takeWhile (·.kind ≠ .eof)).map Token.kind) := by
  obtain ⟨ps, ns, hreads, hend, hwrites⟩ := build_reads tokens
  have hmatch := (hreads.spells hclean (proper_ofTokens hfits)).passed_eq hreads.extends_ hend
  rw [upcoming_ofTokens] at hmatch
  rw [← Piece.map_kind_eq hmatch, derives_program_iff]
  exact (hwrites.mono (fun _ _ h => h) (fun _ _ _ h => h) hclean (Nat.le_refl 0)).derives

end Braced
