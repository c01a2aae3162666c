import Braced.Proofs.Parse.Enough

/-!
# Braced.Proofs.Parse.Below

Reading in which fewer references have an answer.

A part of the grammar learns of the others only through the answers that its
references get.  Where these are the same, so is what it makes of them, and a
reference without an answer leaves it without one (`Goal.step_below`).  So the number
of steps that reading is allowed does not matter once it is enough
(`Goal.reach_mono`), and what is read is what one step of it makes of reading
(`Goal.run_eq_step`).

The same holds behind any property of builders that the operations keep
(`Builder.Steady`).  Only an import notes a module, and no part but the top-level ones
leads to it; these are kept apart (`Goal.isInner`).
-/

namespace Braced

/-! ## Properties that operations keep -/

/-- A property that every operation keeps, but perhaps not the one that notes a
module. -/
class Builder.Steady (P : Builder → Prop) : Prop where
  advance : ∀ {s}, P s → P s.advance.2
  report : ∀ {s}, P s → ∀ fault position, P (s.report fault position)
  skipToStatementEnd : ∀ {s}, P s → P s.skipToStatementEnd
  declare : ∀ {s}, P s → ∀ name kind position, kind.isBinding → P (s.declare name kind position)
  resolveIdentifier : ∀ {s}, P s → ∀ name position, P (s.resolveIdentifier name position)
  alloc : ∀ {s}, P s → ∀ position kind, P (s.alloc position kind).2
  addStatement : ∀ {s}, P s → ∀ id, P (s.addStatement id)
  enterScope : ∀ {s}, P s → ∀ position, P (s.enterScope position).2
  exitScope : ∀ {s}, P s → P s.exitScope
  setLoopDepth : ∀ {s}, P s → ∀ depth, P (s.setLoopDepth depth)
  setExpressionDepth : ∀ {s}, P s → ∀ depth, P { s with expressionDepth := depth }

/-- A property that every operation keeps. -/
class Builder.Robust (P : Builder → Prop) : Prop extends Builder.Steady P where
  addModule : ∀ {s}, P s → ∀ name, P (s.addModule name)

namespace Builder

/-- What holds of all later builders is kept by each operation. -/
instance (P : Builder → Prop) [hP : Lasting P] : Robust P where
  advance hs := hP.later hs (extends_advance _)
  report hs _ _ := hP.later hs (extends_report ..)
  skipToStatementEnd hs := hP.later hs (extends_skipToStatementEnd _)
  declare hs _ _ _ _ := hP.later hs (extends_declare ..)
  resolveIdentifier hs _ _ := hP.later hs (extends_resolveIdentifier ..)
  alloc hs _ _ := hP.later hs (extends_alloc ..)
  addStatement hs _ := hP.later hs (extends_addStatement ..)
  enterScope hs _ := hP.later hs (extends_enterScope ..)
  exitScope hs := hP.later hs (extends_exitScope _)
  setLoopDepth hs _ := hP.later hs (.of_eq rfl rfl rfl rfl)
  setExpressionDepth hs _ := hP.later hs (.of_eq rfl rfl rfl rfl)
  addModule hs _ := hP.later hs (extends_addModule ..)

instance : Lasting fun _ => True := ⟨fun _ _ => trivial⟩

namespace Steady

variable {P : Builder → Prop} [hP : Steady P] {s : Builder} (hs : P s)

include hs

theorem expect (kind : TokenKind) : P (s.expect kind).2 := by
  unfold Builder.expect
  split
  · exact hP.advance hs
  · exact hP.advance (hP.report hs _ _)

theorem accept (kind : TokenKind) : P (s.accept kind).2 := by
  unfold Builder.accept
  split
  · exact hP.advance hs
  · exact hs

theorem expectClosing (kind : TokenKind) : P (s.expectClosing kind).2 := by
  unfold Builder.expectClosing
  split
  · exact hP.report hs _ _
  · exact expect hs kind

theorem resolveFunction (name : String) (position : Position) :
    P (s.resolveFunction name position) := by
  unfold Builder.resolveFunction
  split
  · exact hP.report hs _ _
  · split
    · exact hs
    · exact hP.report hs _ _

theorem enterExpression : P s.enterExpression.2 := by
  unfold Builder.enterExpression
  split
  · exact hP.setExpressionDepth hs _
  · exact hP.skipToStatementEnd (hP.report hs _ _)

end Steady

end Builder

/-! ## Parts that note no module -/

/-- Whether the part leads to no import. -/
def Goal.isInner : Goal α → Bool
  | production .declaration | production .foreignImport | declarations => false
  | _ => true

theorem Goal.isInner_of_operand {kind : TokenKind} {production : Production}
    (h : RuleBook.standard.operand? kind = some production) :
    (Goal.production production).isInner = true := by
  cases kind <;> cases h <;> rfl

theorem Goal.isInner_of_statement {kind : TokenKind} {production : Production}
    (h : RuleBook.standard.statement? kind = some production) :
    (Goal.production production).isInner = true := by
  cases kind <;> cases h <;> rfl

namespace Parse

/-! ## Actions -/

/-- Wherever `P` holds, what `m` gives is given by `m'` too, and `P` holds behind it. -/
def Below (P : Builder → Prop) (m m' : Parse α) : Prop :=
  ∀ s, P s → m.Ensures s fun a s' => m' s = some (a, s') ∧ P s'

section Actions

variable {P : Builder → Prop} {m m' : Parse α}

theorem below_pure (a : α) : Below P (pure a : Parse α) (pure a) :=
  fun _ hs => (ensures_pure a).mpr ⟨rfl, hs⟩

theorem below_look {f : Builder → α} : Below P (look f) (look f) :=
  fun _ hs => (ensures_look f).mpr ⟨rfl, hs⟩

theorem below_act {f : Builder → α × Builder} (h : ∀ {s}, P s → P (f s).2) :
    Below P (act f) (act f) :=
  fun _ hs => (ensures_act f).mpr ⟨rfl, h hs⟩

theorem below_change {f : Builder → Builder} (h : ∀ {s}, P s → P (f s)) :
    Below P (change f) (change f) :=
  fun _ hs => (ensures_change f _).mpr ⟨rfl, h hs⟩

theorem Below.bind {f f' : α → Parse β} (hm : Below P m m') (hf : ∀ a, Below P (f a) (f' a)) :
    Below P (m >>= f) (m' >>= f') := by
  intro s hs
  rw [ensures_bind]
  refine (hm s hs).imp fun a s' h => (hf a s' h.2).imp fun b s'' h' => ⟨?_, h'.2⟩
  simp only [Bind.bind, StateT.bind, h.1, Option.bind_some, h'.1]

theorem Below.ite {c : Prop} [Decidable c] {k k' : Parse α} (hm : Below P m m')
    (hk : Below P k k') : Below P (if c then m else k) (if c then m' else k') := by
  split
  · exact hm
  · exact hk

variable [hP : Builder.Steady P]

theorem below_advance : Below P advance advance := below_act hP.advance

theorem below_report {fault : Fault} {position : Position} :
    Below P (report fault position) (report fault position) :=
  below_change fun hs => hP.report hs _ _

theorem below_expect {kind : TokenKind} : Below P (expect kind) (expect kind) :=
  below_act fun hs => Builder.Steady.expect hs kind

theorem below_accept {kind : TokenKind} : Below P (accept kind) (accept kind) :=
  below_act fun hs => Builder.Steady.accept hs kind

theorem below_expectClosing {kind : TokenKind} :
    Below P (expectClosing kind) (expectClosing kind) :=
  below_act fun hs => Builder.Steady.expectClosing hs kind

theorem below_alloc {position : Position} {kind : NodeKind} :
    Below P (alloc position kind) (alloc position kind) :=
  below_act fun hs => hP.alloc hs _ _

theorem below_declare {name : String} {kind : EntryKind} {position : Position}
    (hkind : kind.isBinding) :
    Below P (declare name kind position) (declare name kind position) :=
  below_change fun hs => hP.declare hs _ _ _ hkind

theorem below_resolveIdentifier {name : String} {position : Position} :
    Below P (resolveIdentifier name position) (resolveIdentifier name position) :=
  below_change fun hs => hP.resolveIdentifier hs _ _

theorem below_resolveFunction {name : String} {position : Position} :
    Below P (resolveFunction name position) (resolveFunction name position) :=
  below_change fun hs => Builder.Steady.resolveFunction hs _ _

theorem below_enterScope {position : Position} :
    Below P (enterScope position) (enterScope position) :=
  below_act fun hs => hP.enterScope hs _

theorem below_exitScope : Below P exitScope exitScope := below_change hP.exitScope

theorem below_setLoopDepth {depth : Builder → Nat} :
    Below P (change fun s => s.setLoopDepth (depth s)) (change fun s => s.setLoopDepth (depth s)) :=
  below_change fun hs => hP.setLoopDepth hs _

theorem below_enterExpression : Below P enterExpression enterExpression :=
  below_act Builder.Steady.enterExpression

theorem below_exitExpression {levels : Nat} :
    Below P (exitExpression levels) (exitExpression levels) :=
  below_change fun hs => hP.setExpressionDepth hs _

end Actions

/-! ## Parts of expressions -/

section Parts

variable {P : Builder → Prop} [hP : Builder.Steady P] {reach reach' : Reach}
  (hr : ∀ {α : Type} (goal : Goal α), goal.isInner → Below P (reach goal) (reach' goal))

section Expressions

open Tree.Expression

theorem below_postfixStep : Below P postfixStep postfixStep := by
  refine below_look.bind fun kind => ?_
  split
  · exact below_pure _
  · exact below_advance.bind fun _ => below_pure _

theorem below_closeArguments (found : Option (List NodeId)) :
    Below P (closeArguments found) (closeArguments found) := by
  refine below_look.bind fun kind => .ite ?_ (below_pure _)
  exact below_expectClosing.bind fun _ => below_pure _

include hr

omit hP in
theorem below_expression (power : Power) :
    Below P (expression reach power) (expression reach' power) := by
  refine (hr _ rfl).bind fun found => ?_
  cases found with
  | none => exact below_pure _
  | some left => exact hr _ rfl

theorem below_operators (left : NodeId) (power : Power) :
    Below P (operators .standard reach left power) (operators .standard reach' left power) := by
  refine below_look.bind fun kind => ?_
  split
  · exact below_pure _
  · refine .ite (below_pure _) (below_enterExpression.bind fun _ => .ite ?_ (below_pure _))
    refine (hr _ rfl).bind fun found => ?_
    cases found with
    | none => exact (below_pure _).bind fun _ => below_exitExpression.bind fun _ => below_pure _
    | some folded =>
      exact (hr _ rfl).bind fun _ => below_exitExpression.bind fun _ => below_pure _

theorem below_binary (left : NodeId) (power : Power) :
    Below P (binary reach left power) (binary reach' left power) := by
  refine below_advance.bind fun token => ?_
  split
  · exact below_pure _
  · refine (hr _ rfl).bind fun found => ?_
    cases found with
    | none => exact below_pure _
    | some right => exact below_look.bind fun _ => below_alloc.bind fun _ => below_pure _

theorem below_operand : Below P (operand .standard reach) (operand .standard reach') := by
  refine below_look.bind fun kind => ?_
  split
  · next production hproduction => exact hr _ (Goal.isInner_of_operand hproduction)
  · refine below_look.bind fun _ => below_report.bind fun _ => ?_
    exact .ite (below_advance.bind fun _ => below_pure _) (below_pure _)

theorem below_unary : Below P (unary .standard reach) (unary .standard reach') := by
  refine below_enterExpression.bind fun entered => .ite ?_ (below_pure _)
  exact (below_operand hr).bind fun _ => below_exitExpression.bind fun _ => below_pure _

theorem below_prefixed : Below P (prefixed reach) (prefixed reach') := by
  refine below_advance.bind fun token => (hr _ rfl).bind fun found => ?_
  cases found with
  | none => exact below_pure _
  | some operand => exact below_alloc.bind fun _ => below_pure _

theorem below_grouping : Below P (grouping reach) (grouping reach') := by
  refine below_advance.bind fun token => (hr _ rfl).bind fun found => ?_
  cases found with
  | none => exact below_pure _
  | some operand => exact below_expectClosing.bind fun _ => below_alloc.bind fun _ => below_pure _

theorem below_primaryValue : Below P (primaryValue reach) (primaryValue reach') := by
  refine below_look.bind fun kind => .ite (below_look.bind fun next => .ite ?_ ?_) ?_
  · exact (hr _ rfl).bind fun _ => below_pure _
  · refine .bind ?_ fun _ => below_pure _
    exact below_advance.bind fun _ => below_resolveIdentifier.bind fun _ =>
      below_alloc.bind fun _ => below_pure _
  · refine below_advance.bind fun token => ?_
    split
    · exact below_pure _
    · exact below_report.bind fun _ => below_pure _

theorem below_primary : Below P (primary reach) (primary reach') := by
  refine below_look.bind fun _ => (below_primaryValue hr).bind fun found => ?_
  cases found with
  | none => exact below_pure _
  | some value => exact below_postfixStep.bind fun _ => below_alloc.bind fun _ => below_pure _

theorem below_arguments : Below P (arguments reach) (arguments reach') := by
  refine (hr _ rfl).bind fun first => below_accept.bind fun more => .ite ?_ (below_pure _)
  exact (hr _ rfl).bind fun _ => below_pure _

theorem below_argumentList : Below P (argumentList reach) (argumentList reach') := by
  refine below_expect.bind fun _ => below_look.bind fun kind => .ite ?_ ?_
  · exact (below_closeArguments _).bind fun _ => below_pure _
  · exact (hr _ rfl).bind fun _ => (below_closeArguments _).bind fun _ => below_pure _

theorem below_call (isStatement : Bool) :
    Below P (call reach isStatement) (call reach' isStatement) := by
  refine below_expect.bind fun found => ?_
  cases found with
  | none => exact below_pure _
  | some token =>
    refine below_resolveFunction.bind fun _ => below_alloc.bind fun callee => ?_
    refine (below_argumentList hr).bind fun arguments => ?_
    cases arguments with
    | none => exact below_pure _
    | some arguments => exact below_look.bind fun _ => below_alloc.bind fun _ => below_pure _

end Expressions

/-! ## Parts of statements -/

open Tree.Statement

theorem below_type : Below P type type := by
  refine below_look.bind fun _ => below_accept.bind fun _ => below_look.bind fun _ => ?_
  split
  · exact below_look.bind fun _ => below_report.bind fun _ =>
      below_advance.bind fun _ => below_pure _
  · exact below_advance.bind fun _ => below_alloc.bind fun _ => below_pure _

theorem below_refuseNested : Below P refuseNested refuseNested :=
  below_look.bind fun _ => .ite (below_look.bind fun _ => below_report) (below_pure _)

theorem below_addFound (found : Option NodeId) : Below P (addFound found) (addFound found) := by
  cases found with
  | none => exact below_pure _
  | some id => exact below_change fun hs => hP.addStatement hs id

theorem below_loopControl : Below P loopControl loopControl := by
  refine below_advance.bind fun _ => .bind ?_ fun _ => below_expect.bind fun _ =>
    below_alloc.bind fun _ => below_pure _
  exact below_look.bind fun _ => .ite below_report (below_pure _)

include hr

theorem below_statement : Below P (statement .standard reach) (statement .standard reach') := by
  refine below_look.bind fun kind => ?_
  split
  · next production hproduction => exact hr _ (Goal.isInner_of_statement hproduction)
  · exact below_look.bind fun _ => below_report.bind fun _ =>
      below_advance.bind fun _ => below_pure _

theorem below_identifierStatement :
    Below P (identifierStatement reach) (identifierStatement reach') := by
  refine below_look.bind fun second => below_look.bind fun third => .ite ?_ (.ite ?_ ?_)
  · exact (hr _ rfl).bind fun _ => below_expect.bind fun _ => below_pure _
  · exact hr _ rfl
  · exact (hr _ rfl).bind fun _ => below_expect.bind fun _ => below_pure _

theorem below_values : Below P (values reach) (values reach') := by
  refine below_accept.bind fun more => .ite ?_ (below_pure _)
  exact (hr _ rfl).bind fun _ => (hr _ rfl).bind fun _ => below_pure _

theorem below_declaredType (token : Token) :
    Below P (declaredType reach token) (declaredType reach' token) := by
  refine below_accept.bind fun typed => .ite ?_ ?_
  · exact (hr _ rfl).bind fun _ => (below_declare rfl).bind fun _ => below_pure _
  · exact below_resolveIdentifier.bind fun _ => below_pure _

theorem below_variableStatement :
    Below P (variableStatement reach) (variableStatement reach') := by
  refine below_expect.bind fun found => ?_
  cases found with
  | none => exact below_pure _
  | some token =>
    exact (below_declaredType hr token).bind fun _ => below_alloc.bind fun _ =>
      (hr _ rfl).bind fun _ => below_alloc.bind fun _ => below_pure _

theorem below_parameter : Below P (parameter reach) (parameter reach') := by
  refine below_expect.bind fun token => below_expect.bind fun _ => (hr _ rfl).bind fun atom => ?_
  split
  · exact (below_declare rfl).bind fun _ => below_alloc.bind fun _ => below_pure _
  · exact below_pure _

theorem below_parameters : Below P (parameters reach) (parameters reach') := by
  refine (below_parameter hr).bind fun first => below_accept.bind fun more =>
    .ite ?_ (below_pure _)
  exact (hr _ rfl).bind fun _ => below_pure _

theorem below_parameterList : Below P (parameterList reach) (parameterList reach') := by
  refine below_expect.bind fun _ => below_look.bind fun kind => .ite ?_ ?_
  · exact below_expect.bind fun _ => below_pure _
  · exact (hr _ rfl).bind fun _ => below_expect.bind fun _ => below_pure _

theorem below_signature : Below P (signature reach) (signature reach') := by
  refine below_expect.bind fun found => ?_
  cases found with
  | none => exact below_pure _
  | some token =>
    refine .bind ?_ fun _ => below_pure _
    refine (below_declare rfl).bind fun _ => below_alloc.bind fun _ => below_expect.bind fun _ =>
      below_enterScope.bind fun _ => (below_parameterList hr).bind fun _ =>
      .bind ?_ fun _ => below_pure _
    exact below_accept.bind fun _ => .ite (hr _ rfl) (below_pure _)

theorem below_blockBody : Below P (blockBody reach) (blockBody reach') :=
  below_expect.bind fun _ => (hr _ rfl).bind fun _ => below_expect.bind fun _ => below_pure _

theorem below_function : Below P (function reach) (function reach') := by
  refine below_look.bind fun _ => below_refuseNested.bind fun _ =>
    (below_signature hr).bind fun found => ?_
  cases found with
  | none => exact below_pure _
  | some found =>
    exact below_look.bind fun _ => below_setLoopDepth.bind fun _ =>
      (below_blockBody hr).bind fun _ => below_setLoopDepth.bind fun _ =>
      below_exitScope.bind fun _ => below_alloc.bind fun _ => below_pure _

theorem below_closedSignature : Below P (closedSignature reach) (closedSignature reach') := by
  refine (below_signature hr).bind fun found => ?_
  cases found with
  | none => exact below_pure _
  | some found => exact below_exitScope.bind fun _ => below_pure _

theorem below_block : Below P (block reach) (block reach') :=
  below_look.bind fun _ => below_enterScope.bind fun _ => (below_blockBody hr).bind fun _ =>
    below_exitScope.bind fun _ => below_pure _

theorem below_statements : Below P (statements reach) (statements reach') := by
  refine below_look.bind fun _ => below_look.bind fun _ => .ite ?_ (below_pure _)
  exact (hr _ rfl).bind fun _ => (below_addFound _).bind fun _ => hr _ rfl

theorem below_returnStatement : Below P (returnStatement reach) (returnStatement reach') := by
  refine below_advance.bind fun _ => .bind ?_ fun _ => below_expect.bind fun _ =>
    below_alloc.bind fun _ => below_pure _
  exact below_look.bind fun _ => .ite (below_pure _) (hr _ rfl)

theorem below_ifStatement : Below P (ifStatement reach) (ifStatement reach') :=
  below_advance.bind fun _ => (hr _ rfl).bind fun _ => (hr _ rfl).bind fun _ =>
    (hr _ rfl).bind fun _ => below_alloc.bind fun _ => below_pure _

theorem below_elseClause : Below P (elseClause reach) (elseClause reach') := by
  refine below_look.bind fun kind => ?_
  split
  · exact below_advance.bind fun _ => (hr _ rfl).bind fun _ => (hr _ rfl).bind fun _ =>
      (hr _ rfl).bind fun _ => below_alloc.bind fun _ => below_pure _
  · exact below_advance.bind fun _ => (hr _ rfl).bind fun _ => below_alloc.bind fun _ =>
      below_pure _
  · exact below_pure _

theorem below_whileStatement : Below P (whileStatement reach) (whileStatement reach') :=
  below_advance.bind fun _ => (hr _ rfl).bind fun _ => below_setLoopDepth.bind fun _ =>
    (hr _ rfl).bind fun _ => below_setLoopDepth.bind fun _ => below_alloc.bind fun _ =>
    below_pure _

end Parts

/-! ## Top-level parts -/

section Toplevel

variable {P : Builder → Prop} [hP : Builder.Robust P] {reach reach' : Reach}
  (hr : ∀ {α : Type} (goal : Goal α), Below P (reach goal) (reach' goal))

open Tree.Statement

include hr

theorem below_foreignImport : Below P (foreignImport reach) (foreignImport reach') := by
  refine below_advance.bind fun mark => below_expect.bind fun _ => below_expect.bind fun _ =>
    below_expect.bind fun _ => below_expect.bind fun token => .bind ?_ fun _ =>
    below_expect.bind fun _ => (below_closedSignature fun goal _ => hr goal).bind fun found =>
    below_expect.bind fun _ => below_expect.bind fun _ => ?_
  · exact below_change fun hs => hP.addModule hs _
  · cases found with
    | none => exact below_pure _
    | some found => exact below_alloc.bind fun _ => below_pure _

theorem below_declaration :
    Below P (declaration .standard reach) (declaration .standard reach') := by
  refine below_look.bind fun kind => ?_
  split
  · exact hr _
  · exact below_look.bind fun _ => below_report.bind fun _ =>
      below_advance.bind fun _ => below_pure _

theorem below_declarations : Below P (declarations reach) (declarations reach') := by
  refine below_look.bind fun _ => .ite ?_ (below_pure _)
  exact (hr _).bind fun _ => (below_addFound _).bind fun _ => hr _

end Toplevel

end Parse

/-! ## All parts together -/

open Parse

/-- One step of reading a part that notes no module. -/
theorem Goal.step_below_of_isInner {P : Builder → Prop} [Builder.Steady P] {reach reach' : Reach}
    (hr : ∀ {α : Type} (goal : Goal α), goal.isInner → Below P (reach goal) (reach' goal)) :
    ∀ {α : Type} (goal : Goal α), goal.isInner →
      Below P (goal.step .standard reach) (goal.step .standard reach')
  | _, .production .unary, _ => below_unary hr
  | _, .production .primary, _ => below_primary hr
  | _, .production .prefixed, _ => below_prefixed hr
  | _, .production .grouping, _ => below_grouping hr
  | _, .production .statement, _ => below_statement hr
  | _, .production .identifierStatement, _ => below_identifierStatement hr
  | _, .production .variableStatement, _ => below_variableStatement hr
  | _, .production .function, _ => below_function hr
  | _, .production .returnStatement, _ => below_returnStatement hr
  | _, .production .loopControl, _ => below_loopControl
  | _, .production .ifStatement, _ => below_ifStatement hr
  | _, .production .whileStatement, _ => below_whileStatement hr
  | _, .production .type, _ => below_type
  | _, .expression power, _ => below_expression hr power
  | _, .operators left power, _ => below_operators hr left power
  | _, .binary left power, _ => below_binary hr left power
  | _, .call isStatement, _ => below_call hr isStatement
  | _, .arguments, _ => below_arguments hr
  | _, .values, _ => below_values hr
  | _, .parameters, _ => below_parameters hr
  | _, .elseClause, _ => below_elseClause hr
  | _, .block, _ => below_block hr
  | _, .statements, _ => below_statements hr

/-- **One step of reading gives the same where the references in it do.** -/
theorem Goal.step_below {P : Builder → Prop} [Builder.Robust P] {reach reach' : Reach}
    (hr : ∀ {α : Type} (goal : Goal α), Below P (reach goal) (reach' goal)) {α : Type}
    (goal : Goal α) : Below P (goal.step .standard reach) (goal.step .standard reach') := by
  cases hinner : goal.isInner with
  | true => exact Goal.step_below_of_isInner (fun goal _ => hr goal) goal hinner
  | false =>
    cases goal with
    | production p =>
      cases p with
      | declaration => exact below_declaration hr
      | foreignImport => exact below_foreignImport hr
      | _ => cases hinner
    | declarations => exact below_declarations hr
    | _ => cases hinner

/-! ## The number of steps -/

/-- With more steps nothing else is given. -/
theorem Goal.reach_below (fuel more : Nat) : ∀ {α : Type} (goal : Goal α),
    Below (fun _ => True) (Goal.reach .standard fuel goal)
      (Goal.reach .standard (fuel + more) goal) := by
  induction fuel with
  | zero =>
    intro α goal s _ a s' h
    cases h
  | succ fuel ih =>
    intro α goal
    rw [Nat.add_right_comm]
    exact Goal.step_below ih goal

/-- **The number of steps does not matter once it is enough.** -/
theorem Goal.reach_mono {fuel fuel' : Nat} (hle : fuel ≤ fuel') {goal : Goal α} {s s' : Builder}
    {a : α} (h : Goal.reach .standard fuel goal s = some (a, s')) :
    Goal.reach .standard fuel' goal s = some (a, s') := by
  obtain ⟨more, rfl⟩ := Nat.exists_eq_add_of_le hle
  exact (Goal.reach_below fuel more goal s trivial a s' h).1

end Braced
