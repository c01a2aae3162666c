import Braced.Proofs.Parse.Binds

/-!
# Braced.Proofs.Parse.Resolves

Reading leaves only uses that resolve.

Each part of the grammar is known to add what its nodes bind, and no use of it that
does not resolve, unless something has been reported.  What the nodes bind and use is
told of every later tree, because nodes stay as they are.  So in the tree of all tokens
every use resolves if nothing is wrong with them (`Tree.ofTokens_resolves`).
-/

namespace Braced

namespace Builder

variable {s s' : Builder} {es : List Entry} {ids : List NodeId} {uses : Uses}

theorem kind?_alloc (s : Builder) (position : Position) (kind : NodeKind) :
    (s.alloc position kind).2.tree.kind? (s.alloc position kind).1 = some kind := by
  rw [Tree.kind?, s.node?_alloc position kind]
  rfl

/-- The uses of a part that was not read need not be told. -/
theorem Binds.drop (h : s.Binds [] [] uses s') : s.Binds [] [] (.expressions []) s' :=
  h.imp fun _ _ _ _ _ ⟨_, hid, _⟩ => absurd hid List.not_mem_nil

/-- No clause has no uses. -/
theorem Binds.noClauses (h : s.Calm s') : s.Binds [] [] (.clauses none) s' := by
  refine h.imp fun _ _ _ _ _ hu => ?_
  obtain ⟨id, hid, -⟩ := hu
  cases hid

/-- One expression after the other. -/
theorem Binds.append {s'' : Builder} {others : List NodeId}
    (h : s.Binds [] [] (.expressions ids) s')
    (h' : s'.Binds [] [] (.expressions others) s'') :
    s.Binds [] [] (.expressions (ids ++ others)) s'' := by
  refine (h.trans h').imp fun t _ _ around u hu => ?_
  obtain ⟨id, hid, hu⟩ := hu
  rcases List.mem_append.mp hid with hid | hid
  · exact .inl ⟨id, hid, hu⟩
  · exact .inr ⟨id, hid, by rwa [Surroundings.declare_nil]⟩

/-- A new expression uses what its parts use. -/
theorem Binds.allocExpression (h : s.Binds [] [] uses s') (position : Position) (kind : NodeKind)
    (hparts : ∀ t id, s'.tree.KeepsNodes t → t.kind? id = some kind →
      ∀ fuel, ∀ m ∈ t.mentions fuel id, ∀ scope around, uses scope around t ⟨m, scope, around⟩) :
    s.Binds [] [] (.expressions [(s'.alloc position kind).1]) (s'.alloc position kind).2 := by
  refine (h.then_calm (s'.calm_alloc position kind)).imp fun t ht _ around u hu => ?_
  obtain ⟨id, hid, fuel, m, hm, rfl⟩ := hu
  rw [List.mem_singleton] at hid
  subst hid
  have hkeeps := ht.nodes
  exact hparts t _ ((s'.keepsNodes_alloc position kind).trans hkeeps)
    (hkeeps.kind? (s'.kind?_alloc position kind)) fuel m hm _ around

/-- A new operator in front of an expression, or around it, uses what that does. -/
theorem Binds.allocOperator {operand : NodeId} (h : s.Binds [] [] (.expressions [operand]) s')
    (position : Position) (kind : NodeKind)
    (hmentions : ∀ (t : Tree) fuel id, t.kind? id = some kind →
      t.mentions (fuel + 1) id = t.mentions fuel operand) :
    s.Binds [] [] (.expressions [(s'.alloc position kind).1]) (s'.alloc position kind).2 := by
  refine h.allocExpression position kind fun t id _ hkind fuel m hm scope around => ?_
  cases fuel with
  | zero => cases hm
  | succ fuel =>
    rw [hmentions t fuel id hkind] at hm
    exact ⟨operand, List.mem_singleton_self _, fuel, m, hm, rfl⟩

end Builder

namespace Parse

open Builder

variable {s s' : Builder}

/-! ## Expressions -/

/-- An expression was read, if any, and its uses resolve. -/
def BindsExpression (s : Builder) (found : Option NodeId) (s' : Builder) : Prop :=
  s.Binds [] [] (.expressions found.toList) s'

/-- A call was read, if any, and its uses resolve. -/
def BindsCall (s : Builder) (found : Option NodeId) (s' : Builder) : Prop :=
  BindsExpression s found s' ∧ ∀ id ∈ found, ∃ callee arguments isDirective,
    s'.tree.kind? id = some (.call callee arguments isDirective)

theorem BindsExpression.none (h : s.Calm s') : BindsExpression s none s' :=
  Binds.drop h

/-- What is known of the uses in expressions. -/
structure ResolvesExpressions (reach : Reach) : Prop where
  unary : ∀ s, (reach (.production .unary)).Ensures s (BindsExpression s)
  primary : ∀ s, (reach (.production .primary)).Ensures s (BindsExpression s)
  prefixed : ∀ s, (reach (.production .prefixed)).Ensures s (BindsExpression s)
  grouping : ∀ s, (reach (.production .grouping)).Ensures s (BindsExpression s)
  expression : ∀ power s, (reach (.expression power)).Ensures s (BindsExpression s)
  operators : ∀ left power s₀ s, BindsExpression s₀ (some left) s →
    (reach (.operators left power)).Ensures s (BindsExpression s₀)
  binary : ∀ left power s₀ s, BindsExpression s₀ (some left) s →
    (reach (.binary left power)).Ensures s (BindsExpression s₀)
  call : ∀ isStatement s, (reach (.call isStatement)).Ensures s (BindsCall s)
  arguments : ∀ s, (reach .arguments).Ensures s fun found s' =>
    s.Binds [] [] (.expressions (found.getD [])) s'

section Expressions

open Tree.Expression

variable {reach : Reach} (hr : ResolvesExpressions reach)

include hr

theorem resolves_expression (power : Power) :
    (expression reach power).Ensures s (BindsExpression s) := by
  rw [expression, ensures_bind]
  refine (hr.unary s).imp fun found s₁ h₁ => ?_
  cases found with
  | none => exact (ensures_pure _).mpr h₁
  | some left => exact hr.operators left power s s₁ h₁

theorem resolves_binary (left : NodeId) (power : Power) {s₀ : Builder}
    (h : BindsExpression s₀ (some left) s) :
    (binary reach left power).Ensures s (BindsExpression s₀) := by
  rw [binary, ensures_bind, advance, ensures_act]
  have h₁ := h.then_calm (Still.advance s)
  split
  · exact (ensures_pure _).mpr h₁.drop
  · next op _ =>
    rw [ensures_bind]
    refine (hr.expression power _).imp fun found s₂ h₂ => ?_
    have h₂ := h₁.append h₂
    cases found with
    | none => exact (ensures_pure _).mpr h₂.drop
    | some right =>
      simp only [ensures_bind, ensures_look, alloc, ensures_act, ensures_pure]
      refine h₂.allocExpression _ _ fun t id _ hkind fuel m hm scope around => ?_
      cases fuel with
      | zero => cases hm
      | succ fuel =>
        rw [Tree.mentions, hkind] at hm
        rcases List.mem_append.mp hm with hm | hm
        · exact ⟨left, by simp, fuel, m, hm, rfl⟩
        · exact ⟨right, by simp, fuel, m, hm, rfl⟩

theorem resolves_operators (left : NodeId) (power : Power) {s₀ : Builder}
    (h : BindsExpression s₀ (some left) s) :
    (operators .standard reach left power).Ensures s (BindsExpression s₀) := by
  refine ensures_operators (fun _ => h) (h.then_calm (Still.tooDeep s)).drop fun next _ _ => ?_
  have h₁ := h.then_calm (s.calm_atDepth (s.expressionDepth + 1))
  refine (hr.binary left next s₀ _ h₁).imp fun found s₂ h₂ => ?_
  cases found with
  | none => exact h₂.then_calm (s₂.calm_exitExpression 1)
  | some folded =>
    exact (hr.operators folded power s₀ s₂ h₂).imp fun found s₃ h₃ =>
      h₃.then_calm (s₃.calm_exitExpression 1)

theorem resolves_operand : (operand .standard reach).Ensures s (BindsExpression s) := by
  rw [operand, ensures_bind, currentKind, ensures_look]
  split
  · next production hproduction =>
    rcases production_of_operand hproduction with rfl | rfl | ⟨rfl, -⟩
    · exact hr.primary s
    · exact hr.prefixed s
    · exact hr.grouping s
  · simp only [currentPosition, report, ensures_bind, ensures_look, ensures_change]
    have h₁ : s.Calm (s.report (.expectedExpression s.current.kind) s.current.position) :=
      Still.report ..
    split
    · simp only [advance, ensures_bind, ensures_act, ensures_pure]
      exact .none (h₁.then_calm (Still.advance _))
    · exact (ensures_pure _).mpr (.none h₁)

theorem resolves_unary : (unary .standard reach).Ensures s (BindsExpression s) := by
  refine ensures_unary (.none (Still.tooDeep s)) fun _ =>
    (resolves_operand hr).imp fun found s₂ h₂ => ?_
  exact ((s.calm_atDepth (s.expressionDepth + 1)).after_calm h₂).then_calm
    (s₂.calm_exitExpression 1)

theorem resolves_prefixed : (prefixed reach).Ensures s (BindsExpression s) := by
  rw [prefixed, ensures_bind, advance, ensures_act, ensures_bind]
  refine (hr.unary _).imp fun found s₂ h₂ => ?_
  have h₂ := (Still.advance s : s.Calm _).after_calm h₂
  cases found with
  | none => exact (ensures_pure _).mpr h₂
  | some operand =>
    simp only [ensures_bind, alloc, ensures_act, ensures_pure]
    exact h₂.allocOperator _ _ fun t fuel id hkind => by rw [Tree.mentions, hkind]

theorem resolves_grouping : (grouping reach).Ensures s (BindsExpression s) := by
  rw [grouping, ensures_bind, advance, ensures_act, ensures_bind]
  refine (hr.expression .lowest _).imp fun found s₂ h₂ => ?_
  have h₂ := (Still.advance s : s.Calm _).after_calm h₂
  cases found with
  | none => exact (ensures_pure _).mpr h₂
  | some operand =>
    simp only [ensures_bind, expectClosing, alloc, ensures_act, ensures_pure]
    exact (h₂.then_calm (Still.expectClosing s₂ .closeParen)).allocOperator _ _
      fun t fuel id hkind => by rw [Tree.mentions, hkind]

omit hr in
/-- A variable that is bound around is used. -/
theorem resolves_variableValue :
    variableValue.Ensures s fun value s' => s.Binds [] [] (.operand value) s' := by
  simp only [variableValue, ensures_bind, advance, resolveIdentifier, alloc, ensures_act,
    ensures_change, ensures_pure]
  have h := (Still.advance s : s.Calm _).after_calm
    (binds_resolveIdentifier _ s.advance.1.identifierName s.advance.1.position)
  refine (h.then_calm (calm_alloc _ s.advance.1.position (.ident s.advance.1.identifierName))).imp
    fun t ht _ around u hu => ?_
  obtain ⟨text, htext, rfl⟩ := hu
  rw [Tree.ident?_of_kind (ht.nodes.kind? (kind?_alloc _ _ _))] at htext
  cases htext
  rfl

theorem resolves_primaryValue : (primaryValue reach).Ensures s fun found s' =>
    ∃ uses, s.Binds [] [] uses s' ∧ ∀ value ∈ found, uses = .operand value := by
  have hadvance : s.Calm s.advance.2 := Still.advance s
  refine ensures_primaryValue (fun _ _ => ?_) (fun _ => ?_) fun _ =>
    ensures_constantValue (fun value hvalue => ⟨_, hadvance, ?_⟩)
      ⟨_, hadvance.then_calm (Still.report ..), by simp⟩
  · refine (hr.call false s).imp fun found s₁ h₁ => ⟨_, h₁.1, ?_⟩
    cases found with
    | none => simp
    | some call => simp [Uses.operand]
  · refine resolves_variableValue.imp fun value s₁ h₁ => ⟨_, h₁, ?_⟩
    simp
  · cases hconstant : s.current.value <;> rw [hconstant] at hvalue <;> cases hvalue <;>
      simp [Uses.operand]

theorem resolves_primary : (primary reach).Ensures s (BindsExpression s) := by
  rw [primary, ensures_bind, currentPosition, ensures_look, ensures_bind]
  refine (resolves_primaryValue hr).imp fun found s₁ h₁ => ?_
  obtain ⟨uses, h₁, huses⟩ := h₁
  cases found with
  | none => exact (ensures_pure _).mpr h₁.drop
  | some value =>
    rw [ensures_bind]
    refine (keeps_postfixStep (R := Calm) s₁).imp fun step s₂ h₂ => ?_
    simp only [ensures_bind, alloc, ensures_act, ensures_pure]
    obtain rfl := huses value rfl
    refine (h₁.then_calm h₂).allocExpression _ _ fun t id _ hkind fuel m hm scope around => ?_
    cases fuel with
    | zero => cases hm
    | succ fuel =>
      rw [Tree.mentions, hkind] at hm
      cases value with
      | name name =>
        obtain ⟨text, htext, rfl⟩ := List.mem_map.mp hm
        exact ⟨text, by simpa using htext, rfl⟩
      | call call => exact ⟨call, List.mem_singleton_self call, fuel, m, hm, rfl⟩
      | int | float | string | char => cases hm

/-! ## Calls -/

theorem resolves_arguments : (arguments reach).Ensures s fun found s' =>
    s.Binds [] [] (.expressions (found.getD [])) s' := by
  rw [arguments, ensures_bind]
  refine (hr.expression .lowest s).imp fun first s₁ h₁ => ?_
  rw [ensures_bind, accept, ensures_act]
  have h₂ := h₁.then_calm (Still.accept s₁ .comma)
  split
  · rw [ensures_bind]
    refine (hr.arguments _).imp fun others s₃ h₃ => (ensures_pure _).mpr ?_
    have h₃ := h₂.append h₃
    cases first with
    | none => exact h₃.drop
    | some id =>
      cases others with
      | none => exact h₃.drop
      | some ids => exact h₃
  · refine (ensures_pure _).mpr ?_
    cases first with
    | none => exact h₂
    | some id => exact h₂

theorem resolves_argumentList : (argumentList reach).Ensures s fun found s' =>
    s.Binds [] [] (.expressions (found.getD [])) s' := by
  rw [argumentList, ensures_bind, expect, ensures_act, ensures_bind, currentKind, ensures_look]
  have h₁ : s.Calm (s.expect .openParen).2 := Still.expect s .openParen
  split
  · rw [ensures_bind]
    exact (keeps_closeArguments (R := Calm) _ _).imp fun _ s₂ h₂ =>
      (ensures_pure _).mpr (h₁.then_calm h₂).drop
  · rw [ensures_bind]
    refine (hr.arguments _).imp fun found s₂ h₂ => ?_
    rw [ensures_bind]
    exact (keeps_closeArguments (R := Calm) found s₂).imp fun _ s₃ h₃ =>
      (ensures_pure _).mpr ((h₁.after_calm h₂).then_calm h₃)

theorem resolves_call (isStatement : Bool) :
    (call reach isStatement).Ensures s (BindsCall s) := by
  rw [call, ensures_bind, expect, ensures_act]
  have h₁ : s.Calm (s.expect .identifier).2 := Still.expect s .identifier
  cases (s.expect .identifier).1 with
  | none => exact (ensures_pure _).mpr ⟨.none h₁, by simp⟩
  | some token =>
    simp only [ensures_bind, resolveFunction, ensures_change, alloc, ensures_act]
    have hfunction := h₁.after_calm
      (binds_resolveFunction _ token.identifierName token.position)
    have h₂ := hfunction.then_calm (calm_alloc _ token.position (.ident token.identifierName))
    refine (resolves_argumentList hr).imp fun found s₃ h₃ => ?_
    cases found with
    | none => exact (ensures_pure _).mpr ⟨(h₂.trans h₃).drop, by simp⟩
    | some ids =>
      simp only [ensures_bind, ensures_look, ensures_act, ensures_pure]
      have hcallee := h₃.extends_.keepsNodes.kind? (kind?_alloc _ token.position
        (.ident token.identifierName))
      refine ⟨(h₂.trans h₃).allocExpression _ _ fun t id hkeeps hkind fuel m hm scope around => ?_,
        fun id hid => ?_⟩
      · cases fuel with
        | zero => cases hm
        | succ fuel =>
          rw [Tree.mentions, hkind] at hm
          rcases List.mem_append.mp hm with hm | hm
          · rw [Tree.ident?_of_kind (hkeeps.kind? hcallee)] at hm
            cases List.mem_singleton.mp hm
            exact .inl rfl
          · obtain ⟨id, hid, hm⟩ := List.mem_flatMap.mp hm
            exact .inr ⟨id, hid, fuel, m, hm, by rw [Surroundings.declare_nil]⟩
      · cases hid
        exact ⟨_, _, _, kind?_alloc _ _ _⟩

omit hr in
/-- **The uses in expressions resolve**, with any number of steps. -/
theorem resolvesExpressions_reach (fuel : Nat) :
    ResolvesExpressions (Goal.reach .standard fuel) := by
  induction fuel with
  | zero =>
    constructor <;> intros <;> intro a s' ha <;> cases ha
  | succ fuel ih =>
    exact {
      unary := fun _ => resolves_unary ih
      primary := fun _ => resolves_primary ih
      prefixed := fun _ => resolves_prefixed ih
      grouping := fun _ => resolves_grouping ih
      expression := fun power _ => resolves_expression ih power
      operators := fun left power _ _ h => resolves_operators ih left power h
      binary := fun left power _ _ h => resolves_binary ih left power h
      call := fun isStatement _ => resolves_call ih isStatement
      arguments := fun _ => resolves_arguments ih }

end Expressions

/-! ## Statements -/

/-- A statement was read, if any; it has bound its names, and its uses resolve. -/
def BindsStatement (s : Builder) (found : Option NodeId) (s' : Builder) : Prop :=
  ∃ es, s.Binds es [] (.statements found.toList) s' ∧
    ∀ t, s'.tree.KeepsNodes t → found.toList.flatMap t.bindings = es

/-- Statements were read; they have bound their names, and their uses resolve. -/
def BindsStatements (s s' : Builder) : Prop :=
  ∃ es ids, s.Binds es ids (.statements ids) s' ∧
    ∀ t, s'.tree.KeepsNodes t → ids.flatMap t.bindings = es

/-- A clause was read, if any, and the uses from it on resolve. -/
def BindsClauses (s : Builder) (found : Option NodeId) (s' : Builder) : Prop :=
  s.Binds [] [] (.clauses found) s' ∧ ∀ id ∈ found, ∃ flow condition body next,
    s'.tree.kind? id = some (.flow flow condition body next)

/-- Parameters were read and bound. -/
def BindsParameters (s : Builder) (found : List Parameter) (s' : Builder) : Prop :=
  ∃ es, s.Binds es [] .none s' ∧ ∀ t, s'.tree.KeepsNodes t → t.parameterBindings found = es

section

variable {found : Option NodeId} {s'' : Builder}

theorem BindsStatement.none (h : s.Calm s') : BindsStatement s none s' :=
  ⟨[], h, fun _ _ => rfl⟩

theorem BindsStatement.then_calm (h : BindsStatement s found s') (h' : s'.Calm s'') :
    BindsStatement s found s'' := by
  obtain ⟨es, h, hes⟩ := h
  exact ⟨es, h.then_calm h', fun t ht => hes t (h'.extends_.keepsNodes.trans ht)⟩

theorem BindsStatement.after_calm (h : s.Calm s') (h' : BindsStatement s' found s'') :
    BindsStatement s found s'' := by
  obtain ⟨es, h', hes⟩ := h'
  exact ⟨es, h.after_calm h', hes⟩

/-- A node binds its names as a statement, and uses what its parts use. -/
theorem BindsStatement.of_kind {es : List Entry} {uses : Uses} {id : NodeId} {kind : NodeKind}
    (h : s.Binds es [] uses s') (hkind : s'.tree.kind? id = some kind)
    (hparts : ∀ t, s'.tree.KeepsNodes t → t.kind? id = some kind → t.bindings id = es ∧
      ∀ scope around u, t.UsedBy scope (around.declare es) id u → uses scope around t u) :
    BindsStatement s (some id) s' := by
  refine ⟨es, h.imp fun t ht _ around u hu => ?_, fun t ht => ?_⟩
  · obtain ⟨hbindings, huses⟩ := hparts t ht.nodes (ht.nodes.kind? hkind)
    rcases hu with hu | hu
    · rw [hbindings] at hu
      exact huses _ around u hu
    · exact hu.elim
  · simp [(hparts t ht (ht.kind? hkind)).1]

/-- A new statement binds its names and uses what its parts use. -/
theorem BindsStatement.alloc {es : List Entry} {uses : Uses} (h : s.Binds es [] uses s')
    (position : Position) (kind : NodeKind)
    (hparts : ∀ t id, s'.tree.KeepsNodes t → t.kind? id = some kind → t.bindings id = es ∧
      ∀ scope around u, t.UsedBy scope (around.declare es) id u → uses scope around t u) :
    BindsStatement s (some (s'.alloc position kind).1) (s'.alloc position kind).2 :=
  .of_kind (h.then_calm (s'.calm_alloc position kind)) (s'.kind?_alloc position kind)
    fun t ht => hparts t _ ((s'.keepsNodes_alloc position kind).trans ht)

/-- A call is a statement as well. -/
theorem BindsCall.statement (h : BindsCall s found s') : BindsStatement s found s' := by
  obtain ⟨h, hcall⟩ := h
  cases found with
  | none => exact ⟨[], h.imp fun _ _ _ _ _ hu => hu.elim, fun _ _ => rfl⟩
  | some id =>
    obtain ⟨callee, arguments, isDirective, hkind⟩ := hcall id rfl
    refine .of_kind h hkind fun t _ hkind => ⟨?_, fun scope around u hu => ?_⟩
    · rw [Tree.bindings, hkind]
    · rw [Surroundings.declare_nil] at hu
      obtain ⟨m, hm, rfl⟩ := hu.of_call hkind
      exact ⟨id, List.mem_singleton_self id, _, m, hm, rfl⟩

/-- The first clause stands for the statement. -/
theorem BindsClauses.statement (h : BindsClauses s found s') : BindsStatement s found s' := by
  obtain ⟨h, hflow⟩ := h
  cases found with
  | none => exact ⟨[], h.imp fun _ _ _ _ _ hu => hu.elim, fun _ _ => rfl⟩
  | some id =>
    obtain ⟨flow, condition, body, next, hkind⟩ := hflow id rfl
    refine .of_kind h hkind fun t _ hkind => ⟨?_, fun scope around u hu => ?_⟩
    · rw [Tree.bindings, hkind]
    · rw [Surroundings.declare_nil] at hu
      exact ⟨id, rfl, hu.of_flow hkind⟩

end

/-- What is known of what statements bind and use. -/
structure ResolvesStatements (reach : Reach) : Prop where
  type : ∀ s, (reach (.production .type)).Ensures s fun found s' =>
    s.Calm s' ∧ (found = none → s'.Noted)
  declaration : ∀ s, (reach (.production .declaration)).Ensures s (BindsStatement s)
  statement : ∀ s, (reach (.production .statement)).Ensures s (BindsStatement s)
  identifierStatement : ∀ s, (reach (.production .identifierStatement)).Ensures s (BindsStatement s)
  variableStatement : ∀ s, (reach (.production .variableStatement)).Ensures s (BindsStatement s)
  function : ∀ s, (reach (.production .function)).Ensures s (BindsStatement s)
  foreignImport : ∀ s, (reach (.production .foreignImport)).Ensures s (BindsStatement s)
  returnStatement : ∀ s, (reach (.production .returnStatement)).Ensures s (BindsStatement s)
  loopControl : ∀ s, (reach (.production .loopControl)).Ensures s (BindsStatement s)
  ifStatement : ∀ s, (reach (.production .ifStatement)).Ensures s (BindsStatement s)
  whileStatement : ∀ s, (reach (.production .whileStatement)).Ensures s (BindsStatement s)
  values : ∀ s, (reach .values).Ensures s fun ids s' => s.Binds [] [] (.expressions ids) s'
  parameters : ∀ s, (reach .parameters).Ensures s (BindsParameters s)
  elseClause : ∀ s, (reach .elseClause).Ensures s (BindsClauses s)
  block : ∀ s, (reach .block).Ensures s fun body s' => s.Binds [] [] (.block [] body) s'
  statements : ∀ s, (reach .statements).Ensures s fun _ s' => BindsStatements s s'
  declarations : ∀ s, (reach .declarations).Ensures s fun _ s' => BindsStatements s s'

section Statements

open Tree.Statement

variable {reach : Reach}

/-! ## Types and variables -/

theorem resolves_type : type.Ensures s fun found s' => s.Calm s' ∧ (found = none → s'.Noted) := by
  rw [type, ensures_bind, currentPosition, ensures_look, ensures_bind, accept, ensures_act,
    typeName, ensures_bind, currentKind, ensures_look]
  have h₁ : s.Calm (s.accept .kwConst).2 := Still.accept s .kwConst
  split
  · simp only [ensures_bind, currentPosition, ensures_look, report, ensures_change, advance,
      ensures_act, ensures_pure]
    exact ⟨(h₁.then_calm (Still.report ..)).then_calm (Still.advance _),
      fun _ => (extends_advance _).noted (noted_report _ _ _)⟩
  · simp only [ensures_bind, advance, alloc, ensures_act, ensures_pure]
    exact ⟨(h₁.then_calm (Still.advance _)).then_calm (calm_alloc ..), by simp⟩

/-- A token that nothing begins with is passed. -/
theorem resolves_refusal {fault : TokenKind → Fault} :
    Ensures (do
      report (fault s.current.kind) (← currentPosition)
      let _ ← advance
      return none) s (BindsStatement s) := by
  simp only [ensures_bind, currentPosition, ensures_look, report, ensures_change, advance,
    ensures_act, ensures_pure]
  exact .none (Still.trans (Still.report ..) (Still.advance _))

variable (hr : ResolvesStatements reach) (he : ResolvesExpressions reach)

include hr

theorem resolves_declaration : (declaration .standard reach).Ensures s (BindsStatement s) := by
  rw [declaration, ensures_bind, currentKind, ensures_look]
  split
  · next production hproduction =>
    rcases production_of_declaration hproduction with ⟨rfl, -⟩ | ⟨rfl, -⟩
    · exact hr.identifierStatement s
    · exact hr.foreignImport s
  · exact resolves_refusal

theorem resolves_statement : (statement .standard reach).Ensures s (BindsStatement s) := by
  rw [statement, ensures_bind, currentKind, ensures_look]
  split
  · next production hproduction =>
    rcases production_of_statement hproduction with
      ⟨rfl, -⟩ | ⟨rfl, -⟩ | ⟨rfl, -⟩ | ⟨rfl, -⟩ | ⟨rfl, -⟩
    · exact hr.identifierStatement s
    · exact hr.returnStatement s
    · exact hr.loopControl s
    · exact hr.ifStatement s
    · exact hr.whileStatement s
  · exact resolves_refusal

include he in
theorem resolves_identifierStatement :
    (identifierStatement reach).Ensures s (BindsStatement s) := by
  rw [identifierStatement, ensures_bind, ensures_look, ensures_bind, ensures_look]
  split
  · rw [ensures_bind]
    refine (he.call true s).imp fun found s₁ h₁ => ?_
    simp only [ensures_bind, expect, ensures_act, ensures_pure]
    exact h₁.statement.then_calm (Still.expect s₁ .semicolon)
  · split
    · exact hr.function s
    · rw [ensures_bind]
      refine (hr.variableStatement s).imp fun found s₁ h₁ => ?_
      simp only [ensures_bind, expect, ensures_act, ensures_pure]
      exact h₁.then_calm (Still.expect s₁ .semicolon)

include he in
theorem resolves_values : (values reach).Ensures s fun ids s' =>
    s.Binds [] [] (.expressions ids) s' := by
  rw [values, ensures_bind, accept, ensures_act]
  have h₁ : s.Calm (s.accept .assignment).2 := Still.accept s .assignment
  split
  · rw [ensures_bind]
    refine (he.expression .lowest _).imp fun first s₂ h₂ => ?_
    rw [ensures_bind]
    exact (hr.values s₂).imp fun others s₃ h₃ =>
      (ensures_pure _).mpr ((h₁.after_calm h₂).append h₃)
  · exact (ensures_pure _).mpr h₁.drop

/-- What a type behind a name makes of the name. -/
def declared (name : String) (type : Option NodeId) : List Entry :=
  type.toList.map fun _ => ⟨name, .declaration⟩

/-- The name is bound around, or by the type behind it. -/
theorem resolves_declaredType (token : Token) :
    (declaredType reach token).Ensures s fun type s' =>
      s.Binds (declared token.identifierName type) []
        (.both (declared token.identifierName type) .none
          (.mention (.variable token.identifierName))) s' := by
  rw [declaredType, ensures_bind, accept, ensures_act]
  have h₁ : s.Calm (s.accept .colon).2 := Still.accept s .colon
  split
  · rw [ensures_bind]
    refine (hr.type _).imp fun type s₂ h₂ => ?_
    simp only [ensures_bind, declare, ensures_change, ensures_pure]
    have h₃ := (h₁.then_calm h₂.1).after_calm (binds_declare_mention s₂ token.identifierName
      (show EntryKind.declaration.isBinding from rfl) token.position)
    cases type with
    | none => exact h₃.of_noted ((extends_declare _ _ _ _).noted (h₂.2 rfl))
    | some type => exact h₃
  · simp only [ensures_bind, resolveIdentifier, ensures_change, ensures_pure]
    refine (h₁.after_calm (binds_resolveIdentifier _ token.identifierName token.position)).imp
      fun t _ _ around u hu => ?_
    rcases hu with hu | hu
    · exact hu.elim
    · rwa [declared, Option.toList_none, List.map_nil, Surroundings.declare_nil] at hu

theorem resolves_variableStatement :
    (variableStatement reach).Ensures s (BindsStatement s) := by
  rw [variableStatement, ensures_bind, expect, ensures_act]
  have h₁ : s.Calm (s.expect .identifier).2 := Still.expect s .identifier
  split
  · exact (ensures_pure _).mpr (.none h₁)
  · next token _ =>
    rw [ensures_bind]
    refine (resolves_declaredType hr token).imp fun type s₂ h₂ => ?_
    simp only [ensures_bind, alloc, ensures_act]
    have h₃ := (h₁.after_calm h₂).then_calm
      (s₂.calm_alloc token.position (.ident token.identifierName))
    refine (hr.values _).imp fun ids s₄ h₄ => (ensures_pure _).mpr ?_
    have hname := h₄.extends_.keepsNodes.kind? (s₂.kind?_alloc token.position
      (.ident token.identifierName))
    have h₅ := h₃.trans h₄
    rw [List.append_nil, List.append_nil] at h₅
    refine .alloc h₅ _ _ fun t id ht hkind => ⟨?_, fun scope around u hu => ?_⟩
    · rw [Tree.bindings, hkind]
      cases type with
      | none => rfl
      | some type => simp [declared, Tree.ident?_of_kind (ht.kind? hname)]
    · obtain ⟨m, hm, rfl⟩ := hu.of_declaration hkind
      rw [Tree.assigned, Tree.ident?_of_kind (ht.kind? hname)] at hm
      rcases List.mem_append.mp hm with hm | hm
      · cases List.mem_singleton.mp hm
        exact .inl (.inr rfl)
      · obtain ⟨id, hid, hm⟩ := List.mem_flatMap.mp hm
        exact .inr ⟨id, hid, _, m, hm, rfl⟩

/-! ## Signatures -/

theorem resolves_parameter : (parameter reach).Ensures s fun found s' =>
    BindsParameters s found.toList s' := by
  rw [parameter, ensures_bind, expect, ensures_act, ensures_bind, expect, ensures_act, ensures_bind]
  have h₁ : s.Calm ((s.expect .identifier).2.expect .colon).2 :=
    Still.trans (Still.expect s .identifier) (Still.expect _ .colon)
  refine (hr.type _).imp fun type s₂ htype => ?_
  have h₂ := h₁.then_calm htype.1
  cases (s.expect .identifier).1 with
  | none => exact (ensures_pure _).mpr ⟨[], h₂, fun _ _ => rfl⟩
  | some token =>
    cases type with
    | none => exact (ensures_pure _).mpr ⟨[], h₂, fun _ _ => rfl⟩
    | some type =>
      simp only [ensures_bind, declare, ensures_change, alloc, ensures_act, ensures_pure]
      refine ⟨_, (h₂.after_calm (binds_declare s₂ token.identifierName
        (show EntryKind.declaration.isBinding from rfl) token.position)).then_calm
          (calm_alloc _ token.position (.ident token.identifierName)), fun t ht => ?_⟩
      simp [Tree.parameterBindings, Tree.ident?_of_kind (ht.kind? (kind?_alloc _ _ _))]

theorem resolves_parameters : (parameters reach).Ensures s (BindsParameters s) := by
  rw [parameters, ensures_bind]
  refine (resolves_parameter hr).imp fun first s₁ h₁ => ?_
  obtain ⟨es, h₁, hes⟩ := h₁
  rw [ensures_bind, accept, ensures_act]
  have h₂ := h₁.then_calm (Still.accept s₁ .comma)
  have hes₂ : ∀ t, (s₁.accept .comma).2.tree.KeepsNodes t → t.parameterBindings first.toList = es :=
    fun t ht => hes t ((extends_accept s₁ .comma).keepsNodes.trans ht)
  split
  · rw [ensures_bind]
    refine (hr.parameters _).imp fun others s₃ h₃ => (ensures_pure _).mpr ?_
    obtain ⟨es', h₃, hes'⟩ := h₃
    refine ⟨es ++ es', (h₂.trans h₃).imp fun _ _ _ _ _ hu => hu.elim, fun t ht => ?_⟩
    rw [Tree.parameterBindings, List.flatMap_append]
    exact congrArg₂ (· ++ ·) (hes₂ t (h₃.extends_.keepsNodes.trans ht)) (hes' t ht)
  · exact (ensures_pure _).mpr ⟨es, h₂, hes₂⟩

theorem resolves_parameterList : (parameterList reach).Ensures s (BindsParameters s) := by
  rw [parameterList, ensures_bind, expect, ensures_act, ensures_bind, currentKind, ensures_look]
  have h₁ : s.Calm (s.expect .openParen).2 := Still.expect s .openParen
  split
  · simp only [ensures_bind, expect, ensures_act, ensures_pure]
    exact ⟨[], h₁.then_calm (Still.expect _ .closeParen), fun _ _ => rfl⟩
  · rw [ensures_bind]
    refine (hr.parameters _).imp fun found s₂ h₂ => ?_
    obtain ⟨es, h₂, hes⟩ := h₂
    simp only [ensures_bind, expect, ensures_act, ensures_pure]
    refine ⟨es, (h₁.after_calm h₂).then_calm (Still.expect s₂ .closeParen), fun t ht => ?_⟩
    exact hes t ((extends_expect s₂ .closeParen).keepsNodes.trans ht)

theorem resolves_resultType : Keeps Calm (resultType reach) := by
  refine keeps_accept.bind fun arrow => .ite (fun s => ?_) (keeps_pure _)
  exact (hr.type s).imp fun _ _ h => h.1

/-- A signature was read, if any: its name is bound, and its parameters are bound in a
scope that is left open. -/
def BindsSignature (s : Builder) (found : Option Signature) (s' : Builder) : Prop :=
  match found with
  | none => s.Calm s'
  | some found => ∃ name position es s₁, s.Binds [⟨name, .function⟩] [] .none s₁ ∧
      (s₁.enterScope position).1 = found.scope ∧
      (s₁.enterScope position).2.Binds es [] .none s' ∧
      s'.tree.kind? found.name = some (.ident name) ∧
      ∀ t, s'.tree.KeepsNodes t → t.parameterBindings found.parameters = es

theorem resolves_signature : (signature reach).Ensures s (BindsSignature s) := by
  rw [signature, ensures_bind, expect, ensures_act]
  have h₁ : s.Calm (s.expect .identifier).2 := Still.expect s .identifier
  split
  · exact (ensures_pure _).mpr h₁
  · next token _ =>
    simp only [signatureOf, ensures_bind, declare, ensures_change, alloc, expect, enterScope,
      ensures_act, ensures_pure]
    have h₂ := (h₁.after_calm (binds_declare _ token.identifierName
      (show EntryKind.function.isBinding from rfl) token.position)).then_calm
        (calm_alloc _ token.position (.ident token.identifierName))
    have h₃ := h₂.then_calm (Still.expect _ .colon)
    refine (resolves_parameterList hr).imp fun parameters s₄ h₄ => ?_
    obtain ⟨es, h₄, hes⟩ := h₄
    refine (resolves_resultType hr s₄).imp fun result s₅ h₅ => ?_
    refine ⟨token.identifierName, token.position, es, _, h₃, rfl, h₄.then_calm h₅, ?_,
      fun t ht => hes t (h₅.extends_.keepsNodes.trans ht)⟩
    have hkeeps := (((extends_expect _ .colon).trans (extends_enterScope _ token.position)).trans
      h₄.extends_).trans h₅.extends_
    exact hkeeps.keepsNodes.kind? (kind?_alloc _ token.position (.ident token.identifierName))

/-! ## Blocks -/

theorem resolves_blockBody : (blockBody reach).Ensures s fun _ s' => BindsStatements s s' := by
  rw [blockBody, ensures_bind, expect, ensures_act, ensures_bind]
  have h₁ : s.Calm (s.expect .openCurly).2 := Still.expect s .openCurly
  refine (hr.statements _).imp fun _ s₂ h₂ => ?_
  obtain ⟨es, ids, h₂, hes⟩ := h₂
  simp only [ensures_bind, expect, ensures_act, ensures_pure]
  exact ⟨es, ids, (h₁.after_calm h₂).then_calm (Still.expect s₂ .closeCurly), fun t ht =>
    hes t ((extends_expect s₂ .closeCurly).keepsNodes.trans ht)⟩

theorem resolves_block : (block reach).Ensures s fun body s' =>
    s.Binds [] [] (.block [] body) s' := by
  rw [block, ensures_bind, currentPosition, ensures_look, ensures_bind, enterScope, ensures_act,
    ensures_bind]
  refine (resolves_blockBody hr).imp fun _ s₂ h₂ => ?_
  obtain ⟨es, ids, h₂, -⟩ := h₂
  simp only [ensures_bind, exitScope, ensures_change, ensures_pure]
  refine h₂.block fun t _ hids around u hu => ?_
  have hblock : Uses.statements (t.statements (s.enterScope s.current.position).1)
    (s.enterScope s.current.position).1 (around.enter.declare []) t u := hu
  rwa [hids, Surroundings.declare_nil] at hblock

omit hr in
/-- What was found and added comes in front of what follows. -/
theorem bindsStatements_cons {found : Option NodeId} {s₁ s₂ s₃ : Builder}
    (h : BindsStatement s found s₁) (hadd : s₁.Binds [] found.toList .none s₂)
    (h' : BindsStatements s₂ s₃) : BindsStatements s s₃ := by
  obtain ⟨es, h, hes⟩ := h
  obtain ⟨es', ids, h', hes'⟩ := h'
  have hkeeps : ∀ t : Tree, s₃.tree.KeepsNodes t → s₁.tree.KeepsNodes t :=
    fun t ht => (hadd.extends_.trans h'.extends_).keepsNodes.trans ht
  have hall := (h.trans hadd).trans h'
  rw [List.append_nil, List.nil_append] at hall
  refine ⟨es ++ es', found.toList ++ ids, hall.imp fun t ht _ around u hu => ?_, fun t ht => ?_⟩
  · rcases Uses.statements_append hu with hu | hu
    · exact .inl (.inl hu)
    · rw [hes t (hkeeps t ht.nodes)] at hu
      exact .inr hu
  · rw [List.flatMap_append, hes t (hkeeps t ht), hes' t ht]

omit hr in
theorem resolves_addFound (found : Option NodeId) :
    (addFound found).Ensures s fun _ s' => s.Binds [] found.toList .none s' := by
  cases found with
  | none => exact (ensures_pure _).mpr (calm_refl s)
  | some id => exact (ensures_change _ _).mpr (binds_addStatement s id)

theorem resolves_statements : (statements reach).Ensures s fun _ s' => BindsStatements s s' := by
  rw [statements, ensures_bind, currentKind, ensures_look, ensures_bind, ensures_look]
  split
  · rw [ensures_bind]
    refine (hr.statement s).imp fun found s₁ h₁ => ?_
    rw [ensures_bind]
    exact (resolves_addFound found).imp fun _ s₂ h₂ =>
      (hr.statements s₂).imp fun _ s₃ h₃ => bindsStatements_cons h₁ h₂ h₃
  · exact (ensures_pure _).mpr ⟨[], [], calm_refl s, fun _ _ => rfl⟩

theorem resolves_declarations :
    (declarations reach).Ensures s fun _ s' => BindsStatements s s' := by
  rw [declarations, ensures_bind, ensures_look]
  split
  · rw [ensures_bind]
    refine (hr.declaration s).imp fun found s₁ h₁ => ?_
    rw [ensures_bind]
    exact (resolves_addFound found).imp fun _ s₂ h₂ =>
      (hr.declarations s₂).imp fun _ s₃ h₃ => bindsStatements_cons h₁ h₂ h₃
  · exact (ensures_pure _).mpr ⟨[], [], calm_refl s, fun _ _ => rfl⟩

/-! ## Functions -/

theorem resolves_function : (function reach).Ensures s (BindsStatement s) := by
  rw [function, ensures_bind, currentPosition, ensures_look, ensures_bind]
  refine (keeps_refuseNested (R := Calm) s).imp fun _ s₁ h₁ => ?_
  rw [ensures_bind]
  refine (resolves_signature hr).imp fun found s₂ h₂ => ?_
  cases found with
  | none => exact (ensures_pure _).mpr (.none (h₁.then_calm h₂))
  | some found =>
    obtain ⟨name, position, es, s₀, hname, hscope, hparameters, hident, hes⟩ := h₂
    simp only [ensures_bind, ensures_look, ensures_change]
    refine (resolves_blockBody hr).imp fun _ s₃ h₃ => ?_
    obtain ⟨es', ids, h₃, -⟩ := h₃
    have hbody := (hparameters.then_calm (s₂.calm_setLoopDepth 0)).trans
      (h₃.then_calm (s₃.calm_setLoopDepth s₂.loopDepth))
    simp only [exitScope, ensures_change, alloc, ensures_act, ensures_pure]
    have hkeeps := (h₃.then_calm (s₃.calm_setLoopDepth s₂.loopDepth)).extends_.keepsNodes
    have hblock : s₀.Binds [] [] (.block found.parameters found.scope)
        (s₃.setLoopDepth s₂.loopDepth).exitScope := by
      refine hbody.block fun t ht hids around u hu => .inr ?_
      have hu : Uses.statements (t.statements found.scope) found.scope
        (around.enter.declare (t.parameterBindings found.parameters)) t u := hu
      rw [hes t (hkeeps.trans ht), ← hscope, hids] at hu
      exact hu
    refine .alloc (h₁.after_calm (hname.trans hblock)) _ _ fun t id ht hkind =>
      ⟨?_, fun scope around u hu => ?_⟩
    · rw [Tree.bindings, hkind]
      simp [Tree.ident?_of_kind (ht.kind? (hkeeps.kind? hident))]
    · exact .inr (Uses.statements_of_along (fun _ _ => .statement) (hu.of_function hkind).2)

/-- A signature behind which no scope is open. -/
theorem resolves_closedSignature : (closedSignature reach).Ensures s fun found s' =>
    match found with
    | none => s.Calm s'
    | some found => ∃ name, s.Binds [⟨name, .function⟩] [] .none s' ∧
        s'.tree.kind? found.name = some (.ident name) := by
  rw [closedSignature, ensures_bind]
  refine (resolves_signature hr).imp fun found s₂ h₂ => ?_
  cases found with
  | none => exact (ensures_pure _).mpr h₂
  | some found =>
    obtain ⟨name, position, es, s₀, hname, -, hparameters, hident, -⟩ := h₂
    simp only [ensures_bind, exitScope, ensures_change, ensures_pure]
    have hclosed : s₀.Calm s₂.exitScope := hparameters.block fun _ _ _ _ _ hu => hu
    exact ⟨name, hname.then_calm hclosed, hident⟩

theorem resolves_foreignImport : (foreignImport reach).Ensures s (BindsStatement s) := by
  rw [foreignImport]
  simp only [ensures_bind, advance, expect, addModule, ensures_act, ensures_change]
  have h₁ := (Still.advance s : s.Calm _).then_calm (Still.expect _ .kwForeign)
  have h₂ := (h₁.then_calm (Still.expect _ .kwFrom)).then_calm (Still.expect _ .openParen)
  have h₃ := h₂.then_calm (Still.expect _ .identifier)
  have h₄ := fun name => (h₃.then_calm (Still.addModule _ name)).then_calm (Still.expect _ .comma)
  refine (resolves_closedSignature hr).imp fun found s₅ h₅ => ?_
  cases found with
  | none =>
    exact (ensures_pure _).mpr (.none (((h₄ _).then_calm h₅).then_calm
      (Still.trans (Still.expect s₅ .closeParen) (Still.expect _ .semicolon))))
  | some found =>
    obtain ⟨name, h₅, hident⟩ := h₅
    simp only [ensures_bind, alloc, ensures_act, ensures_pure]
    have hclose : s₅.Calm ((s₅.expect .closeParen).2.expect .semicolon).2 :=
      Still.trans (Still.expect s₅ .closeParen) (Still.expect _ .semicolon)
    refine .alloc (((h₄ _).after_calm h₅).then_calm hclose) _ _ fun t id ht hkind =>
      ⟨?_, fun scope around u hu => ?_⟩
    · rw [Tree.bindings, hkind]
      simp [Tree.ident?_of_kind (ht.kind? (hclose.extends_.keepsNodes.kind? hident))]
    · cases (hu.of_function hkind).1

/-! ## Leaving functions and loops -/

omit hr in
include he in
theorem resolves_returnStatement : (returnStatement reach).Ensures s (BindsStatement s) := by
  have hvalue : (returnValue reach).Ensures s.advance.2 (BindsExpression s.advance.2) := by
    rw [returnValue, ensures_bind, currentKind, ensures_look]
    split
    · exact (ensures_pure _).mpr (.none (calm_refl _))
    · exact he.expression .lowest _
  rw [returnStatement, ensures_bind, advance, ensures_act, ensures_bind]
  refine hvalue.imp fun found s₂ h₂ => ?_
  simp only [ensures_bind, expect, alloc, ensures_act, ensures_pure]
  have h₃ := ((Still.advance s : s.Calm _).after_calm h₂).then_calm (Still.expect s₂ .semicolon)
  refine .alloc h₃ _ _ fun t id _ hkind => ⟨?_, fun scope around u hu => ?_⟩
  · rw [Tree.bindings, hkind]
  · rw [Surroundings.declare_nil] at hu
    obtain ⟨m, hm, rfl⟩ := hu.of_jump hkind
    obtain ⟨id, hid, hm⟩ := List.mem_flatMap.mp hm
    exact ⟨id, hid, _, m, hm, rfl⟩

omit hr in
theorem resolves_loopControl : loopControl.Ensures s (BindsStatement s) := by
  rw [loopControl, ensures_bind, advance, ensures_act, ensures_bind]
  refine (keeps_refuseOutsideLoop (R := Calm) s.advance.1 _).imp fun _ s₂ h₂ => ?_
  simp only [ensures_bind, expect, alloc, ensures_act, ensures_pure]
  have h₃ : s.Calm (s₂.expect .semicolon).2 :=
    ((Still.advance s : s.Calm _).then_calm h₂).then_calm (Still.expect s₂ .semicolon)
  refine .alloc h₃ _ _ fun t id _ hkind => ⟨?_, fun scope around u hu => ?_⟩
  · rw [Tree.bindings, hkind]
  · obtain ⟨m, hm, -⟩ := hu.of_jump hkind
    cases hm

/-! ## Conditionals and loops -/

omit hr in
/-- A new clause with its condition, its body and the clauses that follow. -/
theorem bindsClauses_alloc {flow : Flow} {condition next : Option NodeId} {body : ScopeId}
    {s₁ s₂ s₃ : Builder} (h₁ : s.Binds [] [] (.expressions condition.toList) s₁)
    (h₂ : s₁.Binds [] [] (.block [] body) s₂) (h₃ : s₂.Binds [] [] (.clauses next) s₃)
    (position : Position) :
    BindsClauses s (some (s₃.alloc position (.flow flow condition body next)).1)
      (s₃.alloc position (.flow flow condition body next)).2 := by
  have h := ((h₁.trans h₂).trans h₃).then_calm
    (s₃.calm_alloc position (.flow flow condition body next))
  refine ⟨h.imp fun t ht _ around u hu => ?_, fun id hid => ?_⟩
  · obtain ⟨id, hid, fuel, hu⟩ := hu
    cases hid
    cases fuel with
    | zero => cases hu
    | succ fuel =>
      rw [Tree.clauseUses, ht.nodes.kind? (kind?_alloc _ _ _)] at hu
      rcases List.mem_append.mp hu with hu | hu
      · rcases List.mem_append.mp hu with hu | hu
        · obtain ⟨m, hm, rfl⟩ := List.mem_map.mp hu
          obtain ⟨id, hid, hm⟩ := List.mem_flatMap.mp hm
          exact .inl (.inl ⟨id, hid, _, m, hm, rfl⟩)
        · refine .inl (.inr ?_)
          rw [Surroundings.declare_nil]
          have hblock := Uses.statements_of_along (fun _ _ => .statement) hu
          rwa [Uses.block, Tree.parameterBindings, List.flatMap_nil, Surroundings.declare_nil]
      · obtain ⟨id, hid, hu⟩ := List.mem_flatMap.mp hu
        refine .inr ⟨id, by simpa using hid, fuel, ?_⟩
        rwa [List.append_nil, Surroundings.declare_nil]
  · cases hid
    exact ⟨_, _, _, _, kind?_alloc _ _ _⟩

include he in
/-- A clause with a condition, behind its keyword, and the clauses that follow. -/
theorem resolves_conditional (flow : Flow) (position : Position) :
    Ensures (do
      let condition ← reach (.expression .lowest)
      let body ← reach .block
      let next ← reach .elseClause
      return some (← alloc position (.flow flow condition body next))) s (BindsClauses s) := by
  rw [ensures_bind]
  refine (he.expression .lowest s).imp fun condition s₁ h₁ => ?_
  rw [ensures_bind]
  refine (hr.block s₁).imp fun body s₂ h₂ => ?_
  rw [ensures_bind]
  refine (hr.elseClause s₂).imp fun next s₃ h₃ => ?_
  simp only [ensures_bind, alloc, ensures_act, ensures_pure]
  exact bindsClauses_alloc h₁ h₂ h₃.1 position

include he in
theorem resolves_ifStatement : (ifStatement reach).Ensures s (BindsStatement s) := by
  rw [ifStatement, ensures_bind, advance, ensures_act]
  exact (resolves_conditional hr he .ifClause _).imp fun found s' h =>
    .after_calm (Still.advance s) h.statement

include he in
theorem resolves_elseClause : (elseClause reach).Ensures s (BindsClauses s) := by
  have h₁ : s.Calm s.advance.2 := Still.advance s
  rw [elseClause, ensures_bind, currentKind, ensures_look]
  split
  · rw [ensures_bind, advance, ensures_act]
    exact (resolves_conditional hr he .elifClause _).imp fun found s' h => ⟨h₁.after_calm h.1, h.2⟩
  · rw [ensures_bind, advance, ensures_act, ensures_bind]
    refine (hr.block _).imp fun body s₂ h₂ => ?_
    simp only [ensures_bind, alloc, ensures_act, ensures_pure]
    exact bindsClauses_alloc h₁.drop h₂ (calm_refl s₂).noClauses _
  · exact (ensures_pure _).mpr ⟨(calm_refl s).noClauses, by simp⟩

include he in
theorem resolves_whileStatement : (whileStatement reach).Ensures s (BindsStatement s) := by
  rw [whileStatement, ensures_bind, advance, ensures_act, ensures_bind]
  refine (he.expression .lowest _).imp fun condition s₂ h₂ => ?_
  simp only [ensures_bind, ensures_change]
  refine (hr.block _).imp fun body s₃ h₃ => ?_
  simp only [alloc, ensures_act, ensures_pure]
  have h₁ := ((Still.advance s : s.Calm _).after_calm h₂).then_calm
    (s₂.calm_setLoopDepth (s₂.loopDepth + 1))
  exact (bindsClauses_alloc h₁ h₃ (s₃.calm_setLoopDepth (s₃.loopDepth - 1)).noClauses _).statement

/-! ## All parts together -/

omit hr in
/-- **The uses in statements resolve**, with any number of steps. -/
theorem resolvesStatements_reach (fuel : Nat) : ResolvesStatements (Goal.reach .standard fuel) := by
  induction fuel with
  | zero =>
    constructor <;> intros <;> intro a s' ha <;> cases ha
  | succ fuel ih =>
    have he := resolvesExpressions_reach fuel
    exact {
      type := fun _ => resolves_type
      declaration := fun _ => resolves_declaration ih
      statement := fun _ => resolves_statement ih
      identifierStatement := fun _ => resolves_identifierStatement ih he
      variableStatement := fun _ => resolves_variableStatement ih
      function := fun _ => resolves_function ih
      foreignImport := fun _ => resolves_foreignImport ih
      returnStatement := fun _ => resolves_returnStatement he
      loopControl := fun _ => resolves_loopControl
      ifStatement := fun _ => resolves_ifStatement ih he
      whileStatement := fun _ => resolves_whileStatement ih he
      values := fun _ => resolves_values ih he
      parameters := fun _ => resolves_parameters ih
      elseClause := fun _ => resolves_elseClause ih he
      block := fun _ => resolves_block ih
      statements := fun _ => resolves_statements ih
      declarations := fun _ => resolves_declarations ih }

end Statements

end Parse

/-! ## The tree of all tokens -/

namespace Tree

open Builder

/-- At the start nothing is bound. -/
theorem sees_ofTokens (tokens : List Token) : (Builder.ofTokens tokens).Sees ⟨[], []⟩ where
  sound := Leads.sound .refl
  distinct := Leads.distinct .refl
  around := .outermost rfl

/-- **Every use in the tree of any list of tokens resolves**, and the root binds what the
top-level statements bind, unless something is wrong with the tokens. -/
theorem ofTokens_resolves {tokens : List Token} (h : (ofTokens tokens).2 = []) :
    (∀ u ∈ (ofTokens tokens).1.uses, u.Resolves (ofTokens tokens).1) ∧
      (ofTokens tokens).1.scopes.bound .root = (ofTokens tokens).1.rootStatements.flatMap
        (ofTokens tokens).1.bindings := by
  obtain ⟨fuel, hread⟩ := build_spec tokens
  obtain ⟨es, ids, hbinds, hes⟩ := (Parse.resolvesStatements_reach fuel).declarations _ _ _ hread
  have hclean : ¬ (build tokens).Noted := fun hnoted => hnoted h
  have hsees := sees_ofTokens tokens
  have hroot : (ofTokens tokens).1.rootStatements = ids := hbinds.statements hsees.sound
  refine ⟨fun u hu => ?_, ?_⟩
  · refine hbinds.settled hclean _ hsees (ofTokens tokens).1
      ⟨fun _ _ hnode => hnode, .refl _, fun _ _ _ => rfl⟩ u ?_
    rw [uses, alongRoot, alongRoot, alongRoot, hroot] at hu
    rcases List.mem_append.mp hu with hu | hu
    · rcases List.mem_append.mp hu with hu | hu
      · exact Uses.statements_of_along (fun _ _ => .function rfl) hu
      · exact Uses.statements_of_along (fun _ _ => .assignment rfl) hu
    · exact Uses.statements_of_along (fun _ _ => .call rfl) hu
  · rw [hroot, hes (ofTokens tokens).1 fun _ _ hnode => hnode]
    exact hbinds.bound hsees.sound hclean

end Tree

end Braced
