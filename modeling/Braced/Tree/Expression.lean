import Braced.Tree.Goal

/-!
# Braced.Tree.Expression

Reading expressions.

Operators are read by precedence: `expression power` reads an operand and then
as many operators as bind more strongly than `power`. So operators of one power
group to the left, and stronger ones take their operands first.

A node's place is the place of the first token of what it stands for. An
operator node begins where its left operand does.
-/

namespace Braced.Tree.Expression

open Parse

/-! ## Operators -/

/-- An expression whose outermost operators bind more strongly than `power`. -/
def expression (reach : Reach) (power : Power) : Parse (Option NodeId) := do
  match ← reach (.production .unary) with
  | none => return none
  | some left => reach (.operators left power)

/-- The operators after `left`. Each of them nests the expression one level
    deeper, because what has been read becomes its left operand. -/
def operators (book : RuleBook) (reach : Reach) (left : NodeId) (power : Power) :
    Parse (Option NodeId) := do
  match book.power? (← currentKind) with
  | none => return some left
  | some next =>
    if next.rank ≤ power.rank then return some left
    else if ← enterExpression then
      let result ← match ← reach (.binary left next) with
        | none => pure none
        | some folded => reach (.operators folded power)
      exitExpression 1
      return result
    else return none

/-- A binary operator and its right operand. -/
def binary (reach : Reach) (left : NodeId) (power : Power) : Parse (Option NodeId) := do
  let token ← advance
  match BinaryOp.ofToken? token.kind with
  | none => return none
  | some op =>
    match ← reach (.expression power) with
    | none => return none
    | some right =>
      let position ← look fun s => ((s.nodes.get? left).map Node.position).getD .start
      return some (← alloc position (.binary op left right))

/-! ## Operands -/

/-- Whether a token is left to what is around an operand that is missing. -/
def closesOperand (kind : TokenKind) : Bool :=
  kind = .semicolon || kind = .closeParen || kind = .closeCurly || kind = .comma

/-- What the next token leads into as an operand. -/
def operand (book : RuleBook) (reach : Reach) : Parse (Option NodeId) := do
  let kind ← currentKind
  match book.operand? kind with
  | some production => reach (.production production)
  | none =>
    report (.expectedExpression kind) (← currentPosition)
    if !closesOperand kind then
      let _ ← advance
    return none

/-- An operand with what stands in front of it, one level deeper. -/
def unary (book : RuleBook) (reach : Reach) : Parse (Option NodeId) := do
  if ← enterExpression then
    let result ← operand book reach
    exitExpression 1
    return result
  else return none

/-- The operator in front of an operand. -/
def prefixOp : TokenKind → UnaryOp
  | .plusPlus => .increment
  | .minusMinus => .decrement
  | .star => .deref
  | .ampersand => .addressOf
  | _ => .negate

/-- An operator and the operand behind it. -/
def prefixed (reach : Reach) : Parse (Option NodeId) := do
  let token ← advance
  match ← reach (.production .unary) with
  | none => return none
  | some operand => return some (← alloc token.position (.unary (prefixOp token.kind) operand))

/-- An expression between parentheses. -/
def grouping (reach : Reach) : Parse (Option NodeId) := do
  let token ← advance
  match ← reach (.expression .lowest) with
  | none => return none
  | some operand =>
    let _ ← expectClosing .closeParen
    return some (← alloc token.position (.unary .nested operand))

/-- The constant that a token carries. -/
def constant? : TokenValue → Option Primary
  | .int value => some (.int value)
  | .float value => some (.float value)
  | .char value => some (.char value)
  | .string bytes => some (.string bytes)
  | .identifier _ | .none => none

/-- The operator behind an operand. -/
def postfixOp? : TokenKind → Option Step
  | .plusPlus => some .increment
  | .minusMinus => some .decrement
  | _ => none

/-- A variable, by the name that the next token carries. -/
def variableValue : Parse Primary := do
  let token ← advance
  resolveIdentifier token.identifierName token.position
  return .name (← alloc token.position (.ident token.identifierName))

/-- A constant, or a report that the next token carries none. -/
def constantValue : Parse (Option Primary) := do
  let token ← advance
  match constant? token.value with
  | some value => return some value
  | none =>
    report (.expectedExpression token.kind) token.position
    return none

/-- A call, a variable or a constant. -/
def primaryValue (reach : Reach) : Parse (Option Primary) := do
  if (← currentKind) = .identifier then
    if (← look (·.peekKind 1)) = .openParen then
      return (← reach (.call false)).map .call
    else return some (← variableValue)
  else constantValue

/-- The operator behind an operand, if there is one. -/
def postfixStep : Parse (Option Step) := do
  match postfixOp? (← currentKind) with
  | none => return none
  | some step =>
    let _ ← advance
    return some step

/-- An operand without operators in front of it. At most one operator behind it
    belongs to it. -/
def primary (reach : Reach) : Parse (Option NodeId) := do
  let position ← currentPosition
  match ← primaryValue reach with
  | none => return none
  | some value =>
    let step ← postfixStep
    return some (← alloc position (.primary value step))

/-! ## Calls -/

/-- Arguments between commas. After one that is missing the others are still
    read, for what is wrong with them. -/
def arguments (reach : Reach) : Parse (Option (List NodeId)) := do
  let first ← reach (.expression .lowest)
  if ← accept .comma then
    let others ← reach .arguments
    return do return (← first) :: (← others)
  else return first.map fun argument => [argument]

/-- The end of a call's arguments. When one of them is missing, a missing
    parenthesis is not reported as well. -/
def closeArguments (found : Option (List NodeId)) : Parse Unit := do
  if found.isSome || (← currentKind) = .closeParen then
    let _ ← expectClosing .closeParen

/-- The arguments of a call, in their parentheses. -/
def argumentList (reach : Reach) : Parse (Option (List NodeId)) := do
  let _ ← expect .openParen
  if (← currentKind) = .closeParen then
    closeArguments (some [])
    return some []
  else
    let found ← reach .arguments
    closeArguments found
    return found

/-- A call. When an argument is missing, so is the call as a whole. -/
def call (reach : Reach) (isStatement : Bool) : Parse (Option NodeId) := do
  match ← expect .identifier with
  | none => return none
  | some token =>
    resolveFunction token.identifierName token.position
    let callee ← alloc token.position (.ident token.identifierName)
    match ← argumentList reach with
    | none => return none
    | some found =>
      let isDirective := isStatement && (← look Builder.atRoot)
      return some (← alloc token.position (.call callee found isDirective))

end Braced.Tree.Expression
