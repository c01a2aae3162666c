import Braced.Proofs.Parse.Ensures

/-!
# Braced.Proofs.Parse.Keeps

Relations between a builder and a later one that no reading breaks.

A relation that goes from one builder to the next with each operation, and that
composes (`Builder.Respected`), holds between the builders before and after any
part of the grammar has been read (`Goal.reach_keeps`).  So what only ever grows
is proved about the operations alone.
-/

namespace Braced

/-- Whether a node of the kind is no name, and says nothing of functions. -/
def NodeKind.isUnnamed : NodeKind → Bool
  | .ident _ | .call .. | .function .. => false
  | _ => true

/-- Whether a node of the kind is an expression. -/
def NodeKind.isExpression : NodeKind → Bool
  | .binary .. | .unary .. | .primary .. => true
  | _ => false

/-- A relation that composes. -/
class Builder.Composes (R : Builder → Builder → Prop) : Prop where
  refl : ∀ s, R s s
  trans : ∀ {s s' s'' : Builder}, R s s' → R s' s'' → R s s''

/-- A relation that composes, and holds between a builder and what is made of it by
passing tokens, reporting the next one, or noting a module. -/
class Builder.Moves (R : Builder → Builder → Prop) : Prop extends Builder.Composes R where
  advance : ∀ s, R s s.advance.2
  reportHere : ∀ (s : Builder) fault, R s (s.report fault s.current.position)
  skipToStatementEnd : ∀ s, R s s.skipToStatementEnd
  addModule : ∀ s name, R s (s.addModule name)

/-- A relation that, besides, holds where a statement or a node is added, unless the
node is an expression, a name, a call or a function. -/
class Builder.Collects (R : Builder → Builder → Prop) : Prop extends Builder.Moves R where
  add : ∀ s position kind, kind.isUnnamed → kind.isExpression = false →
    R s (s.alloc position kind).2
  addStatement : ∀ s id, R s (s.addStatement id)

/-- A relation that, besides, holds where a statement or a node is added, unless the
node is a name, a call or a function. -/
class Builder.Makes (R : Builder → Builder → Prop) : Prop extends Builder.Collects R where
  make : ∀ s position kind, kind.isUnnamed → R s (s.alloc position kind).2
  add := fun s position kind h _ => make s position kind h

/-- A relation that composes, and holds between a builder and what each operation
makes of it that leaves nodes, statements, bindings and depths as they are. -/
class Builder.Still (R : Builder → Builder → Prop) : Prop extends Builder.Moves R where
  report : ∀ s fault position, R s (s.report fault position)
  resolveIdentifier : ∀ s name position, R s (s.resolveIdentifier name position)
  reportHere := fun s fault => report s fault s.current.position

/-- A relation that composes, and holds between a builder and what each operation
makes of it that leaves nodes, statements and depths as they are. -/
class Builder.Quiet (R : Builder → Builder → Prop) : Prop extends Builder.Still R where
  declare : ∀ s name kind position, kind.isBinding → R s (s.declare name kind position)

/-- A relation that composes, and holds between a builder and what each operation
makes of it that leaves scopes and depths as they are, unless it adds an expression, a
call or a function. -/
class Builder.Tame (R : Builder → Builder → Prop) : Prop
    extends Builder.Quiet R, Builder.Collects R where
  name : ∀ s position name, R s (s.alloc position (.ident name)).2

/-- A relation that composes, and holds between a builder and what each operation
makes of it that leaves scopes and depths as they are, unless it adds a call or a
function. -/
class Builder.Modest (R : Builder → Builder → Prop) : Prop
    extends Builder.Tame R, Builder.Makes R

/-- A relation that composes, and holds between a builder and what each operation
makes of it that leaves scopes and depths as they are. -/
class Builder.Plain (R : Builder → Builder → Prop) : Prop extends Builder.Modest R where
  alloc : ∀ s position kind, R s (s.alloc position kind).2
  make := fun s position kind _ => alloc s position kind
  name := fun s position name => alloc s position (.ident name)

/-- A relation that composes, and holds where scopes are opened or closed, or loops and
levels of an expression are counted. -/
class Builder.Opening (R : Builder → Builder → Prop) : Prop extends Builder.Moves R where
  enterScope : ∀ s position, R s (s.enterScope position).2
  exitScope : ∀ s, R s s.exitScope
  setLoopDepth : ∀ s depth, R s (s.setLoopDepth depth)
  setExpressionDepth : ∀ (s : Builder) depth, R s { s with expressionDepth := depth }

/-- A relation that holds between a builder and what each operation makes of it,
and that composes. -/
class Builder.Respected (R : Builder → Builder → Prop) : Prop
    extends Builder.Plain R, Builder.Opening R

/-! ## Operations made of others -/

namespace Builder

variable {R : Builder → Builder → Prop}

namespace Moves

variable [hR : Moves R] (s : Builder)

theorem expect (kind : TokenKind) : R s (s.expect kind).2 := by
  unfold Builder.expect
  split
  · exact hR.advance s
  · exact hR.trans (hR.reportHere ..) (hR.advance _)

theorem accept (kind : TokenKind) : R s (s.accept kind).2 := by
  unfold Builder.accept
  split
  · exact hR.advance s
  · exact hR.refl s

theorem expectClosing (kind : TokenKind) : R s (s.expectClosing kind).2 := by
  unfold Builder.expectClosing
  split
  · exact hR.reportHere ..
  · exact expect s kind

/-- Giving up a statement whose expression is too deep. -/
theorem tooDeep : R s (s.report (.expressionTooDeep maxExpressionDepth)
    s.current.position).skipToStatementEnd :=
  hR.trans (hR.reportHere ..) (hR.skipToStatementEnd _)

end Moves

namespace Still

export Composes (refl trans)
export Moves (advance skipToStatementEnd addModule expect accept expectClosing tooDeep)

theorem resolveFunction [hR : Still R] (s : Builder) (name : String) (position : Position) :
    R s (s.resolveFunction name position) := by
  unfold Builder.resolveFunction
  split
  · exact hR.report ..
  · split
    · exact hR.refl s
    · exact hR.report ..

end Still

namespace Plain

export Collects (addStatement)

end Plain

namespace Opening

variable [hR : Opening R] (s : Builder)

theorem enterExpression : R s s.enterExpression.2 := by
  unfold Builder.enterExpression
  split
  · exact hR.setExpressionDepth s _
  · exact Moves.tooDeep s

theorem exitExpression (levels : Nat) : R s (s.exitExpression levels) :=
  hR.setExpressionDepth s _

end Opening

end Builder

namespace Parse

/-- `R` holds between the builders before and after `m`. -/
def Keeps (R : Builder → Builder → Prop) (m : Parse α) : Prop :=
  ∀ s, m.Ensures s fun _ s' => R s s'

/-! ## Actions -/

section Actions

variable {R : Builder → Builder → Prop} {m : Parse α}

theorem Keeps.ite {c : Prop} [Decidable c] {m' : Parse α} (hm : Keeps R m) (hm' : Keeps R m') :
    Keeps R (if c then m else m') := by
  split
  · exact hm
  · exact hm'

theorem keeps_act {f : Builder → α × Builder} (h : ∀ s, R s (f s).2) : Keeps R (act f) :=
  fun s => (ensures_act f).mpr (h s)

theorem keeps_change {f : Builder → Builder} (h : ∀ s, R s (f s)) : Keeps R (change f) :=
  fun s => (ensures_change f _).mpr (h s)

section Composes

variable [hR : Builder.Composes R]

theorem keeps_pure (a : α) : Keeps R (pure a : Parse α) :=
  fun s => (ensures_pure a).mpr (hR.refl s)

theorem keeps_look {f : Builder → α} : Keeps R (look f) :=
  fun s => (ensures_look f).mpr (hR.refl s)

theorem Keeps.bind {f : α → Parse β} (hm : Keeps R m) (hf : ∀ a, Keeps R (f a)) :
    Keeps R (m >>= f) := by
  intro s
  rw [ensures_bind]
  exact (hm s).imp fun a s' h => (hf a s').imp fun _ _ h' => hR.trans h h'

end Composes

section Moves

variable [hR : Builder.Moves R]

theorem keeps_advance : Keeps R advance := keeps_act hR.advance

/-- The next token is reported, and then something else is done. -/
theorem keeps_reportHere {fault : Fault} {f : Unit → Parse α} (hf : Keeps R (f ())) :
    Keeps R (currentPosition >>= fun position => report fault position >>= f) := by
  intro s
  rw [currentPosition, ensures_bind, ensures_look, ensures_bind, report, ensures_change]
  exact (hf _).imp fun _ _ h => hR.trans (hR.reportHere s fault) h

theorem keeps_expect {kind : TokenKind} : Keeps R (expect kind) :=
  keeps_act fun s => Builder.Moves.expect s kind

theorem keeps_accept {kind : TokenKind} : Keeps R (accept kind) :=
  keeps_act fun s => Builder.Moves.accept s kind

theorem keeps_addModule {name : String} : Keeps R (addModule name) :=
  keeps_change fun s => hR.addModule s name

theorem keeps_expectClosing {kind : TokenKind} : Keeps R (expectClosing kind) :=
  keeps_act fun s => Builder.Moves.expectClosing s kind

open Tree.Expression in
theorem keeps_postfixStep : Keeps R postfixStep := by
  refine keeps_look.bind fun kind => ?_
  split
  · exact keeps_pure _
  · exact keeps_advance.bind fun _ => keeps_pure _

open Tree.Expression in
theorem keeps_closeArguments (found : Option (List NodeId)) : Keeps R (closeArguments found) := by
  refine keeps_look.bind fun kind => .ite ?_ (keeps_pure _)
  exact keeps_expectClosing.bind fun _ => keeps_pure _

open Tree.Statement in
theorem keeps_refuseNested : Keeps R refuseNested := by
  refine keeps_look.bind fun _ => .ite (fun s => ?_) (keeps_pure _)
  rw [ensures_bind, ensures_look, report, ensures_change]
  exact hR.reportHere s _

end Moves

section Still

variable [hR : Builder.Still R]

theorem keeps_report {fault : Fault} {position : Position} : Keeps R (report fault position) :=
  keeps_change fun s => hR.report s fault position

theorem keeps_resolveIdentifier {name : String} {position : Position} :
    Keeps R (resolveIdentifier name position) :=
  keeps_change fun s => hR.resolveIdentifier s name position

theorem keeps_resolveFunction {name : String} {position : Position} :
    Keeps R (resolveFunction name position) :=
  keeps_change fun s => Builder.Still.resolveFunction s name position

open Tree.Statement in
theorem keeps_refuseOutsideLoop (token : Token) : Keeps R (refuseOutsideLoop token) :=
  keeps_look.bind fun _ => .ite keeps_report (keeps_pure _)

end Still

theorem keeps_declare [hR : Builder.Quiet R] {name : String} {kind : EntryKind}
    {position : Position} (h : kind.isBinding) : Keeps R (declare name kind position) :=
  keeps_change fun s => hR.declare s name kind position h

theorem keeps_add [hR : Builder.Collects R] {position : Position} {kind : NodeKind}
    (h : kind.isUnnamed) (h' : kind.isExpression = false) : Keeps R (alloc position kind) :=
  keeps_act fun s => hR.add s position kind h h'

theorem keeps_make [hR : Builder.Makes R] {position : Position} {kind : NodeKind}
    (h : kind.isUnnamed) : Keeps R (alloc position kind) :=
  keeps_act fun s => hR.make s position kind h

theorem keeps_name [hR : Builder.Tame R] {position : Position} {name : String} :
    Keeps R (alloc position (.ident name)) :=
  keeps_act fun s => hR.name s position name

theorem keeps_alloc [hR : Builder.Plain R] {position : Position} {kind : NodeKind} :
    Keeps R (alloc position kind) :=
  keeps_act fun s => hR.alloc s position kind

variable [hR : Builder.Opening R]

theorem keeps_enterScope {position : Position} : Keeps R (enterScope position) :=
  keeps_act fun s => hR.enterScope s position

theorem keeps_exitScope : Keeps R exitScope := keeps_change hR.exitScope

theorem keeps_setLoopDepth {f : Builder → Nat} : Keeps R (change fun s => s.setLoopDepth (f s)) :=
  keeps_change fun s => hR.setLoopDepth s (f s)

theorem keeps_enterExpression : Keeps R enterExpression :=
  keeps_act Builder.Opening.enterExpression

theorem keeps_exitExpression {levels : Nat} : Keeps R (exitExpression levels) :=
  keeps_change fun s => Builder.Opening.exitExpression s levels

end Actions

/-! ## Parts that name something, or report a token that was passed -/

/-- `R` holds between the builders before and after each part of a statement that binds
a name or looks for one, or reports a token that it has passed. -/
structure KeepsDeclaring (R : Builder → Builder → Prop) (reach : Reach) : Prop where
  variableStatement : Keeps R (Tree.Statement.variableStatement reach)
  parameter : Keeps R (Tree.Statement.parameter reach)
  loopControl : Keeps R Tree.Statement.loopControl

/-- `R` holds between the builders before and after each part that adds a name or a
call, binds a name or looks for one, or reports a token that it has passed. -/
structure KeepsNaming (R : Builder → Builder → Prop) (reach : Reach) : Prop
    extends KeepsDeclaring R reach where
  primaryValue : Keeps R (Tree.Expression.primaryValue reach)
  call : ∀ isStatement, Keeps R (Tree.Expression.call reach isStatement)

/-! ## Parts of expressions -/

section Parts

variable {R : Builder → Builder → Prop} [hR : Builder.Makes R] {book : RuleBook}
  {reach : Reach} (hr : ∀ {α : Type} (goal : Goal α), Keeps R (reach goal))

open Tree.Expression in
include hr in
theorem keeps_expression (power : Power) : Keeps R (expression reach power) := by
  refine (hr _).bind fun found => ?_
  cases found with
  | none => exact keeps_pure none
  | some left => exact hr _

open Tree.Expression in
include hr in
theorem keeps_binary (left : NodeId) (power : Power) : Keeps R (binary reach left power) := by
  refine keeps_advance.bind fun token => ?_
  split
  · exact keeps_pure _
  · refine (hr _).bind fun found => ?_
    cases found with
    | none => exact keeps_pure _
    | some right =>
      exact keeps_look.bind fun _ => (keeps_make rfl).bind fun _ => keeps_pure _

open Tree.Expression in
include hr in
theorem keeps_operand : Keeps R (operand book reach) := by
  refine keeps_look.bind fun kind => ?_
  split
  · exact hr _
  · exact keeps_reportHere (.ite (keeps_advance.bind fun _ => keeps_pure _) (keeps_pure _))

open Tree.Expression in
include hr in
theorem keeps_prefixed : Keeps R (prefixed reach) := by
  refine keeps_advance.bind fun token => (hr _).bind fun found => ?_
  cases found with
  | none => exact keeps_pure _
  | some operand => exact (keeps_make rfl).bind fun _ => keeps_pure _

open Tree.Expression in
include hr in
theorem keeps_grouping : Keeps R (grouping reach) := by
  refine keeps_advance.bind fun token => (hr _).bind fun found => ?_
  cases found with
  | none => exact keeps_pure _
  | some operand =>
    exact keeps_expectClosing.bind fun _ => (keeps_make rfl).bind fun _ => keeps_pure _

open Tree.Expression in
theorem keeps_primary (hvalue : Keeps R (primaryValue reach)) : Keeps R (primary reach) := by
  refine keeps_look.bind fun _ => hvalue.bind fun found => ?_
  cases found with
  | none => exact keeps_pure _
  | some value =>
    exact keeps_postfixStep.bind fun _ => (keeps_make rfl).bind fun _ => keeps_pure _

open Tree.Expression in
include hr in
theorem keeps_arguments : Keeps R (arguments reach) := by
  refine (hr _).bind fun first => keeps_accept.bind fun more => .ite ?_ (keeps_pure _)
  exact (hr _).bind fun _ => keeps_pure _

open Tree.Expression in
include hr in
theorem keeps_argumentList : Keeps R (argumentList reach) := by
  refine keeps_expect.bind fun _ => keeps_look.bind fun kind => .ite ?_ ?_
  · exact (keeps_closeArguments _).bind fun _ => keeps_pure _
  · exact (hr _).bind fun _ => (keeps_closeArguments _).bind fun _ => keeps_pure _

end Parts

/-! ## Parts of statements -/

section Statements

variable {R : Builder → Builder → Prop} [hR : Builder.Collects R] {book : RuleBook}
  {reach : Reach} (hr : ∀ {α : Type} (goal : Goal α), Keeps R (reach goal))

open Tree.Statement

theorem keeps_typeName {position : Position} {isConst : Bool} :
    Keeps R (typeName position isConst) := by
  refine keeps_look.bind fun _ => ?_
  split
  · exact keeps_reportHere (keeps_advance.bind fun _ => keeps_pure _)
  · exact keeps_advance.bind fun _ => (keeps_add rfl rfl).bind fun _ => keeps_pure _

theorem keeps_type : Keeps R type :=
  keeps_look.bind fun _ => keeps_accept.bind fun _ => keeps_typeName

include hr

theorem keeps_declaration : Keeps R (declaration book reach) := by
  refine keeps_look.bind fun kind => ?_
  split
  · exact hr _
  · exact keeps_reportHere (keeps_advance.bind fun _ => keeps_pure _)

theorem keeps_statement : Keeps R (statement book reach) := by
  refine keeps_look.bind fun kind => ?_
  split
  · exact hr _
  · exact keeps_reportHere (keeps_advance.bind fun _ => keeps_pure _)

theorem keeps_identifierStatement : Keeps R (identifierStatement reach) := by
  refine keeps_look.bind fun second => keeps_look.bind fun third => .ite ?_ (.ite ?_ ?_)
  · exact (hr _).bind fun _ => keeps_expect.bind fun _ => keeps_pure _
  · exact hr _
  · exact (hr _).bind fun _ => keeps_expect.bind fun _ => keeps_pure _

theorem keeps_values : Keeps R (values reach) := by
  refine keeps_accept.bind fun more => .ite ?_ (keeps_pure _)
  exact (hr _).bind fun _ => (hr _).bind fun _ => keeps_pure _

theorem keeps_parameters (hparameter : Keeps R (parameter reach)) :
    Keeps R (parameters reach) := by
  refine hparameter.bind fun first => keeps_accept.bind fun more => .ite ?_ (keeps_pure _)
  exact (hr _).bind fun _ => keeps_pure _

theorem keeps_parameterList : Keeps R (parameterList reach) := by
  refine keeps_expect.bind fun _ => keeps_look.bind fun kind => .ite ?_ ?_
  · exact keeps_expect.bind fun _ => keeps_pure _
  · exact (hr _).bind fun _ => keeps_expect.bind fun _ => keeps_pure _

theorem keeps_blockBody : Keeps R (blockBody reach) :=
  keeps_expect.bind fun _ => (hr _).bind fun _ => keeps_expect.bind fun _ => keeps_pure _

omit hr in
theorem keeps_addFound (found : Option NodeId) : Keeps R (addFound found) := by
  cases found with
  | none => exact keeps_pure _
  | some id => exact keeps_change fun s => hR.addStatement s id

theorem keeps_statements : Keeps R (statements reach) := by
  refine keeps_look.bind fun _ => keeps_look.bind fun _ => .ite ?_ (keeps_pure _)
  exact (hr _).bind fun _ => (keeps_addFound _).bind fun _ => hr _

theorem keeps_declarations : Keeps R (declarations reach) := by
  refine keeps_look.bind fun _ => .ite ?_ (keeps_pure _)
  exact (hr _).bind fun _ => (keeps_addFound _).bind fun _ => hr _

theorem keeps_returnStatement : Keeps R (returnStatement reach) := by
  refine keeps_advance.bind fun _ => .bind ?_ fun _ => keeps_expect.bind fun _ =>
    (keeps_add rfl rfl).bind fun _ => keeps_pure _
  exact keeps_look.bind fun _ => .ite (keeps_pure _) (hr _)

theorem keeps_ifStatement : Keeps R (ifStatement reach) :=
  keeps_advance.bind fun _ => (hr _).bind fun _ => (hr _).bind fun _ => (hr _).bind fun _ =>
    (keeps_add rfl rfl).bind fun _ => keeps_pure _

theorem keeps_elseClause : Keeps R (elseClause reach) := by
  refine keeps_look.bind fun kind => ?_
  split
  · exact keeps_advance.bind fun _ => (hr _).bind fun _ => (hr _).bind fun _ => (hr _).bind fun _ =>
      (keeps_add rfl rfl).bind fun _ => keeps_pure _
  · exact keeps_advance.bind fun _ => (hr _).bind fun _ => (keeps_add rfl rfl).bind fun _ =>
      keeps_pure _
  · exact keeps_pure _

end Statements

/-! ## Parts with names -/

section Names

variable {R : Builder → Builder → Prop} [hR : Builder.Tame R] {reach : Reach}
  (hr : ∀ {α : Type} (goal : Goal α), Keeps R (reach goal))

open Tree.Expression in
include hr in
theorem keeps_primaryValue : Keeps R (primaryValue reach) := by
  refine keeps_look.bind fun kind => .ite (keeps_look.bind fun next => .ite ?_ ?_) ?_
  · exact (hr _).bind fun _ => keeps_pure _
  · refine .bind ?_ fun _ => keeps_pure _
    exact keeps_advance.bind fun _ => keeps_resolveIdentifier.bind fun _ =>
      keeps_name.bind fun _ => keeps_pure _
  · refine keeps_advance.bind fun token => ?_
    split
    · exact keeps_pure _
    · exact keeps_report.bind fun _ => keeps_pure _

omit hR in
open Tree.Expression in
include hr in
theorem keeps_call [Builder.Plain R] (isStatement : Bool) : Keeps R (call reach isStatement) := by
  refine keeps_expect.bind fun found => ?_
  cases found with
  | none => exact keeps_pure _
  | some token =>
    refine keeps_resolveFunction.bind fun _ => keeps_name.bind fun callee => ?_
    refine (keeps_argumentList hr).bind fun arguments => ?_
    cases arguments with
    | none => exact keeps_pure _
    | some arguments =>
      exact keeps_look.bind fun _ => keeps_alloc.bind fun _ => keeps_pure _

open Tree.Statement

omit hr in
theorem keeps_loopControl : Keeps R loopControl :=
  keeps_advance.bind fun _ => (keeps_refuseOutsideLoop _).bind fun _ => keeps_expect.bind fun _ =>
    (keeps_add rfl rfl).bind fun _ => keeps_pure _

include hr

theorem keeps_declaredType (token : Token) : Keeps R (declaredType reach token) := by
  refine keeps_accept.bind fun typed => .ite ?_ ?_
  · exact (hr _).bind fun _ => (keeps_declare rfl).bind fun _ => keeps_pure _
  · exact keeps_resolveIdentifier.bind fun _ => keeps_pure _

theorem keeps_variableStatement : Keeps R (variableStatement reach) := by
  refine keeps_expect.bind fun found => ?_
  cases found with
  | none => exact keeps_pure _
  | some token =>
    exact (keeps_declaredType hr token).bind fun _ => keeps_name.bind fun _ =>
      (hr _).bind fun _ => (keeps_add rfl rfl).bind fun _ => keeps_pure _

theorem keeps_parameter : Keeps R (parameter reach) := by
  refine keeps_expect.bind fun token => keeps_expect.bind fun _ => (hr _).bind fun atom => ?_
  split
  · exact (keeps_declare rfl).bind fun _ => keeps_name.bind fun _ => keeps_pure _
  · exact keeps_pure _

theorem keepsDeclaring : KeepsDeclaring R reach where
  variableStatement := keeps_variableStatement hr
  parameter := keeps_parameter hr
  loopControl := keeps_loopControl

/-- Where calls are kept, so is all that names something. -/
theorem keepsNaming (hcall : ∀ isStatement, Keeps R (Tree.Expression.call reach isStatement)) :
    KeepsNaming R reach where
  toKeepsDeclaring := keepsDeclaring hr
  primaryValue := keeps_primaryValue hr
  call := hcall

end Names

/-! ## Parts that open scopes, loops or levels of an expression -/

/-- `R` holds between the builders before and after each part that opens a scope or a
loop, and closes it again. -/
structure KeepsScopes (R : Builder → Builder → Prop) (reach : Reach) : Prop where
  function : Keeps R (Tree.Statement.function reach)
  foreignImport : Keeps R (Tree.Statement.foreignImport reach)
  block : Keeps R (Tree.Statement.block reach)
  whileStatement : Keeps R (Tree.Statement.whileStatement reach)

/-- `R` holds between the builders before and after each part that opens a scope,
a loop or a level of an expression, and closes it again. -/
structure KeepsOpening (R : Builder → Builder → Prop) (book : RuleBook) (reach : Reach) :
    Prop extends KeepsScopes R reach where
  operators : ∀ left power, Keeps R (Tree.Expression.operators book reach left power)
  unary : Keeps R (Tree.Expression.unary book reach)

section Opening

variable {R : Builder → Builder → Prop} [hR : Builder.Collects R] [hO : Builder.Opening R]
  {book : RuleBook} {reach : Reach} (hr : ∀ {α : Type} (goal : Goal α), Keeps R (reach goal))

omit hR in
open Tree.Expression in
include hr in
theorem keeps_operators (left : NodeId) (power : Power) :
    Keeps R (operators book reach left power) := by
  refine keeps_look.bind fun kind => ?_
  split
  · exact keeps_pure _
  · refine .ite (keeps_pure _) (keeps_enterExpression.bind fun entered => .ite ?_ (keeps_pure _))
    refine (hr _).bind fun found => ?_
    cases found with
    | none => exact (keeps_pure _).bind fun _ => keeps_exitExpression.bind fun _ => keeps_pure _
    | some folded => exact (hr _).bind fun _ => keeps_exitExpression.bind fun _ => keeps_pure _

omit hR in
open Tree.Expression in
include hr in
theorem keeps_unary [Builder.Makes R] : Keeps R (unary book reach) := by
  refine keeps_enterExpression.bind fun entered => .ite ?_ (keeps_pure _)
  exact (keeps_operand hr).bind fun _ => keeps_exitExpression.bind fun _ => keeps_pure _

open Tree.Statement

include hr

omit hR hO in
theorem keeps_resultType [Builder.Moves R] : Keeps R (resultType reach) :=
  keeps_accept.bind fun _ => .ite (hr _) (keeps_pure _)

omit hR in
theorem keeps_signatureOf [Builder.Tame R] (token : Token) :
    Keeps R (signatureOf reach token) := by
  refine (keeps_declare rfl).bind fun _ => keeps_name.bind fun _ =>
    keeps_expect.bind fun _ => keeps_enterScope.bind fun _ => ?_
  exact (keeps_parameterList hr).bind fun _ => (keeps_resultType hr).bind fun _ => keeps_pure _

omit hR in
theorem keeps_signature [Builder.Tame R] : Keeps R (signature reach) := by
  refine keeps_expect.bind fun found => ?_
  cases found with
  | none => exact keeps_pure _
  | some token => exact (keeps_signatureOf hr token).bind fun _ => keeps_pure _

/-- What keeps signatures and function nodes keeps functions. -/
theorem keeps_function (hsignature : Keeps R (signature reach))
    (hnode : ∀ {position name result parameters body origin},
      Keeps R (alloc position (.function name result parameters body origin))) :
    Keeps R (function reach) := by
  refine keeps_look.bind fun _ => keeps_refuseNested.bind fun _ => hsignature.bind fun found => ?_
  cases found with
  | none => exact keeps_pure _
  | some found =>
    exact keeps_look.bind fun _ => keeps_setLoopDepth.bind fun _ =>
      (keeps_blockBody hr).bind fun _ => keeps_setLoopDepth.bind fun _ =>
      keeps_exitScope.bind fun _ => hnode.bind fun _ => keeps_pure _

omit hr hR in
theorem keeps_foreignImport (hsignature : Keeps R (signature reach))
    (hnode : ∀ {position name result parameters body origin},
      Keeps R (alloc position (.function name result parameters body origin))) :
    Keeps R (foreignImport reach) := by
  refine keeps_advance.bind fun mark => keeps_expect.bind fun _ => keeps_expect.bind fun _ =>
    keeps_expect.bind fun _ => keeps_expect.bind fun token =>
    keeps_addModule.bind fun _ => keeps_expect.bind fun _ =>
    .bind ?_ fun found => keeps_expect.bind fun _ => keeps_expect.bind fun _ => ?_
  · refine hsignature.bind fun found => ?_
    cases found with
    | none => exact keeps_pure _
    | some found => exact keeps_exitScope.bind fun _ => keeps_pure _
  · cases found with
    | none => exact keeps_pure _
    | some found => exact hnode.bind fun _ => keeps_pure _

theorem keeps_block : Keeps R (block reach) :=
  keeps_look.bind fun _ => keeps_enterScope.bind fun _ => (keeps_blockBody hr).bind fun _ =>
    keeps_exitScope.bind fun _ => keeps_pure _

theorem keeps_whileStatement : Keeps R (whileStatement reach) :=
  keeps_advance.bind fun _ => (hr _).bind fun _ => keeps_setLoopDepth.bind fun _ =>
    (hr _).bind fun _ => keeps_setLoopDepth.bind fun _ => (keeps_add rfl rfl).bind fun _ =>
    keeps_pure _

/-- What keeps functions and imports keeps all that opens scopes. -/
theorem keepsScopes_of (hfunction : Keeps R (function reach))
    (himport : Keeps R (foreignImport reach)) : KeepsScopes R reach where
  function := hfunction
  foreignImport := himport
  block := keeps_block hr
  whileStatement := keeps_whileStatement hr

omit hR in
/-- What keeps functions and imports keeps all that opens something. -/
theorem keepsOpening_of [Builder.Makes R] (hfunction : Keeps R (function reach))
    (himport : Keeps R (foreignImport reach)) : KeepsOpening R book reach where
  toKeepsScopes := keepsScopes_of hr hfunction himport
  operators := keeps_operators hr
  unary := keeps_unary hr

end Opening

/-- A relation that every operation respects is kept by these parts too. -/
theorem keepsOpening {R : Builder → Builder → Prop} [Builder.Respected R] {book : RuleBook}
    {reach : Reach} (hr : ∀ {α : Type} (goal : Goal α), Keeps R (reach goal)) :
    KeepsOpening R book reach :=
  keepsOpening_of hr (keeps_function hr (keeps_signature hr) keeps_alloc)
    (keeps_foreignImport (keeps_signature hr) keeps_alloc)

end Parse

/-! ## All parts together -/

/-- Whether the part is an expression, or part of one. -/
def Goal.isExpression : Goal α → Bool
  | production .unary | production .primary | production .prefixed | production .grouping
  | expression _ | operators .. | binary .. | call _ | arguments => true
  | _ => false

section

variable {R : Builder → Builder → Prop} {book : RuleBook}

section

variable {reach : Reach} (hr : ∀ {α : Type} (goal : Goal α), Parse.Keeps R (reach goal))

include hr

open Parse in
/-- One step of reading a part that is no expression keeps what the references in it
keep. -/
theorem Goal.step_keeps_outside [Builder.Collects R] (hd : KeepsDeclaring R reach)
    (hs : KeepsScopes R reach) : ∀ {α : Type} (goal : Goal α), goal.isExpression = false →
      Keeps R (goal.step book reach)
  | _, .production .declaration, _ => keeps_declaration hr
  | _, .production .statement, _ => keeps_statement hr
  | _, .production .identifierStatement, _ => keeps_identifierStatement hr
  | _, .production .variableStatement, _ => hd.variableStatement
  | _, .production .function, _ => hs.function
  | _, .production .foreignImport, _ => hs.foreignImport
  | _, .production .returnStatement, _ => keeps_returnStatement hr
  | _, .production .loopControl, _ => hd.loopControl
  | _, .production .ifStatement, _ => keeps_ifStatement hr
  | _, .production .whileStatement, _ => hs.whileStatement
  | _, .production .type, _ => keeps_type
  | _, .values, _ => keeps_values hr
  | _, .parameters, _ => keeps_parameters hr hd.parameter
  | _, .elseClause, _ => keeps_elseClause hr
  | _, .block, _ => hs.block
  | _, .statements, _ => keeps_statements hr
  | _, .declarations, _ => keeps_declarations hr

open Parse in
/-- One step of reading an expression, or part of one, keeps what the references in it
keep. -/
theorem Goal.step_keeps_inside [Builder.Makes R] (hn : KeepsNaming R reach)
    (ho : KeepsOpening R book reach) : ∀ {α : Type} (goal : Goal α), goal.isExpression →
      Keeps R (goal.step book reach)
  | _, .production .unary, _ => ho.unary
  | _, .production .primary, _ => keeps_primary hn.primaryValue
  | _, .production .prefixed, _ => keeps_prefixed hr
  | _, .production .grouping, _ => keeps_grouping hr
  | _, .expression power, _ => keeps_expression hr power
  | _, .operators left power, _ => ho.operators left power
  | _, .binary left power, _ => keeps_binary hr left power
  | _, .call isStatement, _ => hn.call isStatement
  | _, .arguments, _ => keeps_arguments hr

open Parse in
/-- One step of reading keeps what the references in it keep. -/
theorem Goal.step_keeps [Builder.Makes R] (hn : KeepsNaming R reach)
    (ho : KeepsOpening R book reach) {α : Type} (goal : Goal α) :
    Keeps R (goal.step book reach) := by
  cases hgoal : goal.isExpression with
  | false => exact step_keeps_outside hr hn.toKeepsDeclaring ho.toKeepsScopes goal hgoal
  | true => exact step_keeps_inside hr hn ho goal hgoal

end

/-- No reading breaks a relation that composes and is kept by the operations that only
pass tokens or add to the tree, and by the parts that do more, if what these refer to
keeps it. -/
theorem Goal.reach_keeps_with [Builder.Makes R]
    (hparts : ∀ fuel, (∀ {α : Type} (goal : Goal α), Parse.Keeps R (Goal.reach book fuel goal)) →
      Parse.KeepsNaming R (Goal.reach book fuel) ∧
        Parse.KeepsOpening R book (Goal.reach book fuel)) (fuel : Nat) (goal : Goal α)
    (s : Builder) : (Goal.reach book fuel goal).Ensures s fun _ s' => R s s' := by
  refine Goal.reach_ensures (P := fun _ s _ s' => R s s') (fun fuel ih α goal s => ?_) fuel goal s
  have hr : ∀ {α : Type} (goal : Goal α), Parse.Keeps R (Goal.reach book fuel goal) :=
    fun goal s => ih goal s
  obtain ⟨hn, ho⟩ := hparts fuel hr
  exact Goal.step_keeps hr hn ho goal s

/-- No reading breaks a relation that composes and is kept by the operations that
open nothing, and by the parts that do if what they refer to keeps it. -/
theorem Goal.reach_keeps_of [Builder.Plain R]
    (ho : ∀ {reach : Reach}, (∀ {α : Type} (goal : Goal α), Parse.Keeps R (reach goal)) →
      Parse.KeepsOpening R book reach) (fuel : Nat) (goal : Goal α) (s : Builder) :
    (Goal.reach book fuel goal).Ensures s fun _ s' => R s s' :=
  Goal.reach_keeps_with
    (fun _ hr => ⟨Parse.keepsNaming hr (Parse.keeps_call hr), ho hr⟩) fuel goal s

/-- **No reading breaks a relation that every operation respects.** -/
theorem Goal.reach_keeps [Builder.Respected R] (fuel : Nat) (goal : Goal α) (s : Builder) :
    (Goal.reach book fuel goal).Ensures s fun _ s' => R s s' :=
  Goal.reach_keeps_of Parse.keepsOpening fuel goal s

end

end Braced
