import Braced.Target.Text

/-!
# Braced.Target.OfTree

The program of a tree (`Target.Program.ofTree`), and its text (`Tree.emit`).

A tree that was built from tokens has a program unless a function is defined in
a block of another one. Other trees need not make sense: a handle may lead to a
node of the wrong kind, to no node, or round in a circle. The first such place
is reported, in the order prototypes, variables, function bodies, startup.
-/

namespace Braced

/-! ## Failures -/

/-- What a node is needed as. -/
inductive NodeRole
  | identifier
  | type
  | expression
  | controlFlow
  | statement
  deriving DecidableEq, Repr

def NodeRole.describe : NodeRole → String
  | identifier => "identifier"
  | type => "type"
  | expression => "expression"
  | controlFlow => "control flow"
  | statement => "statement"

/-- Why a tree has no program. -/
inductive EmitError
  /-- The node at that place cannot be what it is needed as. -/
  | unexpected (role : NodeRole) (position : Position)
  /-- A handle leads to no node, or handles lead round in a circle. -/
  | malformed
  deriving DecidableEq, Repr

def EmitError.message : EmitError → String
  | unexpected role position =>
    "cannot emit " ++ role.describe ++ " at " ++ toString position.line ++ ":"
      ++ toString position.column
  | malformed => "cannot emit a tree whose nodes are not in order"

namespace Tree

/-! ## Names and types -/

/-- The node under a handle. -/
def get (t : Tree) (id : NodeId) : Except EmitError Node :=
  match t.node? id with
  | some node => .ok node
  | none => .error .malformed

/-- The name that an identifier node carries. -/
def identName (t : Tree) (id : NodeId) : Except EmitError String := do
  let node ← t.get id
  match node.kind with
  | .ident name => return name
  | _ => throw (.unexpected .identifier node.position)

/-- The name of a variable or a parameter. -/
def variableName (t : Tree) (id : NodeId) : Except EmitError Target.Name := do
  return .own (← t.identName id)

/-- The name of a function, which is imported when it is one of `imports`. -/
def functionName (t : Tree) (imports : List String) (id : NodeId) :
    Except EmitError Target.Name := do
  let name ← t.identName id
  return if imports.contains name then .imported name else .own name

/-- The type that a type node carries, and whether it is `const`. -/
def typeAtom (t : Tree) (id : NodeId) : Except EmitError (TypeAtom × Bool) := do
  let node ← t.get id
  match node.kind with
  | .type atom isConst => return (atom, isConst)
  | _ => throw (.unexpected .type node.position)

/-! ## Expressions -/

/-- The expression of a node; `fuel` bounds how deep its parts nest. -/
def targetExpr (t : Tree) (imports : List String) :
    (fuel : Nat) → NodeId → Except EmitError Target.Expr
  | 0, _ => throw .malformed
  | fuel + 1, id => do
    let node ← t.get id
    match node.kind with
    | .binary op left right =>
      let left ← t.targetExpr imports fuel left
      let right ← t.targetExpr imports fuel right
      return .binary op left right
    | .unary op operand => return .unary op (← t.targetExpr imports fuel operand)
    | .primary value step =>
      let operand ← match value with
        | .int value => pure (.int value)
        | .float value => pure (.float value)
        | .char value => pure (.char value)
        | .string bytes => pure (.string bytes)
        | .name name => Target.Expr.name <$> t.variableName name
        | .call call => t.targetExpr imports fuel call
      return match step with
        | some step => .stepped operand step
        | none => operand
    | .call callee arguments _ =>
      let function ← t.functionName imports callee
      return .call function (← arguments.mapM (t.targetExpr imports fuel))
    | .ident name => return .name (.own name)
    | _ => throw (.unexpected .expression node.position)

/-- The expression of a node. Parts that do not go round in a circle nest no
    deeper than there are nodes. -/
def expr (t : Tree) (imports : List String) (id : NodeId) : Except EmitError Target.Expr :=
  t.targetExpr imports t.nodes.size id

/-! ## Statements -/

mutual

/-- The statement of a node; `fuel` bounds how deep its parts nest. -/
def targetStmt (t : Tree) (imports : List String) :
    (fuel : Nat) → NodeId → Except EmitError Target.Stmt
  | 0, _ => throw .malformed
  | fuel + 1, id => do
    let node ← t.get id
    match node.kind with
    | .declaration (some type) name values =>
      let (atom, isConst) ← t.typeAtom type
      let name ← t.variableName name
      let values ← values.mapM (t.expr imports)
      -- a constant without a value could never get one
      return .declare (isConst && !values.isEmpty) atom name values
    | .declaration none name values =>
      let name ← t.variableName name
      return .assign name (← values.mapM (t.expr imports))
    | .call _ _ _ => return .call (← t.expr imports id)
    | .jump .returning value => return .returning (← value.mapM (t.expr imports))
    | .jump .breaking _ => return .breaking
    | .jump .continuing _ => return .continuing
    | .flow _ _ _ _ => return .flow (← t.targetClauses imports fuel id)
    | _ => throw (.unexpected .statement node.position)

/-- The clauses from a node on; `fuel` bounds how deep their parts nest. -/
def targetClauses (t : Tree) (imports : List String) :
    (fuel : Nat) → NodeId → Except EmitError (List Target.Clause)
  | 0, _ => throw .malformed
  | fuel + 1, id => do
    let node ← t.get id
    match node.kind with
    | .flow flow condition body next =>
      let condition ← condition.mapM (t.expr imports)
      let body ← (t.statements body).mapM (t.targetStmt imports fuel)
      let others ← match next with
        | some next => t.targetClauses imports fuel next
        | none => pure []
      return .mk flow condition body :: others
    | _ => throw (.unexpected .controlFlow node.position)

end

/-- The statements of a scope. A statement and its first clause are one node, so
    twice the number of nodes bounds how deep they nest. -/
def block (t : Tree) (imports : List String) (id : ScopeId) :
    Except EmitError (List Target.Stmt) :=
  (t.statements id).mapM (t.targetStmt imports (2 * t.nodes.size))

/-! ## The program -/

/-- The kinds of the top-level nodes, each with its handle. -/
def rootNodes (t : Tree) : List (NodeId × NodeKind) :=
  t.rootStatements.filterMap fun id => (t.node? id).map fun node => (id, node.kind)

/-- The names of the functions that are imported. -/
def importedNames (t : Tree) : List String :=
  t.rootNodes.filterMap fun
    | (_, .function name _ _ _ (.imported _)) => t.ident? name
    | _ => none

/-- The type and the name of a parameter. -/
def targetParameter (t : Tree) (p : Parameter) : Except EmitError (TypeAtom × Target.Name) := do
  return ((← t.typeAtom p.type).1, ← t.variableName p.name)

/-- What a function node looks like to its callers. -/
def signature (t : Tree) (imports : List String) (name : NodeId) (result : Option NodeId)
    (parameters : List Parameter) : Except EmitError Target.Signature := do
  let result ← result.mapM fun id => return (← t.typeAtom id).1
  let name ← t.functionName imports name
  let parameters ← parameters.mapM t.targetParameter
  return ⟨name, result, parameters⟩

/-- The prototype of a function. -/
def prototypeOf (t : Tree) (imports : List String) :
    NodeId × NodeKind → Except EmitError (List Target.Signature)
  | (_, .function name result parameters _ _) =>
    return [← t.signature imports name result parameters]
  | _ => return []

/-- The variable of a declaration. -/
def globalOf (t : Tree) : NodeId × NodeKind → Except EmitError (List (TypeAtom × Target.Name))
  | (_, .declaration (some type) name _) =>
    return [((← t.typeAtom type).1, ← t.variableName name)]
  | _ => return []

/-- A function that has a body. -/
def functionOf (t : Tree) (imports : List String) :
    NodeId × NodeKind → Except EmitError (List Target.Function)
  | (_, .function name result parameters body .own) =>
    return [⟨← t.signature imports name result parameters, ← t.block imports body⟩]
  | _ => return []

/-- The values of a variable of the file, or an assignment of the top level. -/
def assignmentOf (t : Tree) (imports : List String) :
    NodeId × NodeKind → Except EmitError (List Target.Stmt)
  | (_, .declaration type name values) =>
    if type.isNone || !values.isEmpty then
      return [.assign (← t.variableName name) (← values.mapM (t.expr imports))]
    else return []
  | _ => return []

/-- A call of the top level. -/
def callOf (t : Tree) (imports : List String) :
    NodeId × NodeKind → Except EmitError (List Target.Stmt)
  | (id, .call _ _ true) => return [.call (← t.expr imports id)]
  | _ => return []

/-- What all top-level nodes come to, one after the other. -/
def collect (t : Tree) (f : NodeId × NodeKind → Except EmitError (List α)) :
    Except EmitError (List α) := do
  return (← t.rootNodes.mapM f).flatten

end Tree

/-- The program of a tree. At startup the values and assignments of the top
    level come first, and then its calls, both in the order of the source. -/
def Target.Program.ofTree (t : Tree) : Except EmitError Target.Program := do
  let imports := t.importedNames
  let prototypes ← t.collect (t.prototypeOf imports)
  let globals ← t.collect t.globalOf
  let functions ← t.collect (t.functionOf imports)
  let assignments ← t.collect (t.assignmentOf imports)
  let calls ← t.collect (t.callOf imports)
  return {
    modules := t.modules.entries.map Entry.name
    prototypes, globals, functions
    startup := assignments ++ calls }

/-- The text of a tree's program, for a tree that was read from the source with
    the given name. -/
def Tree.emit (file : String) (t : Tree) : Except EmitError String :=
  (Target.Program.ofTree t).map (Target.Program.text file)

end Braced
