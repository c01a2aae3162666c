import Braced.Proofs.Scope.Around

/-!
# Braced.Proofs.Tree.Uses

The uses of names in a tree, each with what is bound around it.

A statement that binds a name binds it for itself and for what comes after it in its
block; a function's parameters and its body are one block.  `Tree.uses` lists the
uses that are written out, and `Use.binding` is what a use stands for.
-/

namespace Braced

/-- A name in an expression, or in front of an assignment. -/
inductive Mention
  | variable (name : String)
  /-- The name of a function that is called. -/
  | function (name : String)
  deriving DecidableEq, Repr

/-- A mention, with the scope it stands in and the bindings around it. -/
structure Use where
  mention : Mention
  scope : ScopeId
  around : Surroundings Entry
  deriving DecidableEq, Repr

/-- What a use stands for, with the number of scopes around the one that binds it: a
variable is what the innermost scope around it binds, and a call is of what the root
binds. -/
def Use.binding (u : Use) : Option (Nat × List Entry) :=
  match u.mention with
  | .variable name => u.around.find (·.name = name)
  | .function name => Surroundings.find ⟨[], u.around.outside⟩ (·.name = name)

namespace Tree

/-- The kind of a node. -/
def kind? (t : Tree) (id : NodeId) : Option NodeKind :=
  (t.node? id).map Node.kind

/-! ## Bindings -/

/-- What a statement binds in the scope it stands in. -/
def bindings (t : Tree) (id : NodeId) : List Entry :=
  match t.kind? id with
  | some (.declaration (some _) name _) => (t.ident? name).toList.map (⟨·, .declaration⟩)
  | some (.function name _ _ _ _) => (t.ident? name).toList.map (⟨·, .function⟩)
  | _ => []

/-- What parameters bind. -/
def parameterBindings (t : Tree) (parameters : List Parameter) : List Entry :=
  parameters.flatMap fun p => (t.ident? p.name).toList.map (⟨·, .declaration⟩)

/-! ## Expressions -/

/-- The names in an expression, in the order of the source; `fuel` bounds how deep its
parts nest. -/
def mentions (t : Tree) : (fuel : Nat) → NodeId → List Mention
  | 0, _ => []
  | fuel + 1, id =>
    match t.kind? id with
    | some (.binary _ left right) => t.mentions fuel left ++ t.mentions fuel right
    | some (.unary _ operand) => t.mentions fuel operand
    | some (.primary (.name name) _) => (t.ident? name).toList.map .variable
    | some (.primary (.call call) _) => t.mentions fuel call
    | some (.call callee arguments _) =>
      (t.ident? callee).toList.map .function ++ arguments.flatMap (t.mentions fuel)
    | some (.ident name) => [.variable name]
    | _ => []

/-- The names in an expression whose parts do not go round in a circle. -/
def mentionsOf (t : Tree) (id : NodeId) : List Mention :=
  t.mentions t.nodes.size id

/-- The names in a declaration or an assignment that is written as one. -/
def assigned (t : Tree) (name : NodeId) (values : List NodeId) : List Mention :=
  (t.ident? name).toList.map .variable ++ values.flatMap t.mentionsOf

/-! ## Statements -/

mutual

/-- The uses in a statement of a scope; `fuel` bounds how deep its parts nest. -/
def stmtUses (t : Tree) : (fuel : Nat) → ScopeId → Surroundings Entry → NodeId → List Use
  | 0, _, _, _ => []
  | fuel + 1, scope, around, id =>
    match t.kind? id with
    | some (.declaration (some _) _ values) =>
      (values.flatMap t.mentionsOf).map (⟨·, scope, around⟩)
    | some (.declaration none name values) => (t.assigned name values).map (⟨·, scope, around⟩)
    | some (.call _ _ _) => (t.mentionsOf id).map (⟨·, scope, around⟩)
    | some (.jump .returning value) =>
      (value.toList.flatMap t.mentionsOf).map (⟨·, scope, around⟩)
    | some (.flow _ _ _ _) => t.clauseUses fuel scope around id
    | _ => []

/-- The uses in the clauses from a node on. -/
def clauseUses (t : Tree) : (fuel : Nat) → ScopeId → Surroundings Entry → NodeId → List Use
  | 0, _, _, _ => []
  | fuel + 1, scope, around, id =>
    match t.kind? id with
    | some (.flow _ condition body next) =>
      (condition.toList.flatMap t.mentionsOf).map (⟨·, scope, around⟩) ++
        Surroundings.along t.bindings (t.stmtUses fuel body) around.enter (t.statements body) ++
        next.toList.flatMap (t.clauseUses fuel scope around)
    | _ => []

end

/-- The uses in the statements of a scope. -/
def blockUses (t : Tree) (scope : ScopeId) (around : Surroundings Entry) : List Use :=
  around.along t.bindings (t.stmtUses (2 * t.nodes.size) scope) (t.statements scope)

/-! ## The whole tree -/

/-- The uses in the body of a function. -/
def functionUses (t : Tree) (around : Surroundings Entry) (id : NodeId) : List Use :=
  match t.kind? id with
  | some (.function _ _ parameters body .own) =>
    t.blockUses body (around.enter.declare (t.parameterBindings parameters))
  | _ => []

/-- The uses in an assignment of the top level, or in a declaration there that gives a
value, which is an assignment as well. -/
def assignmentUses (t : Tree) (around : Surroundings Entry) (id : NodeId) : List Use :=
  match t.kind? id with
  | some (.declaration type name values) =>
    if type.isNone || !values.isEmpty then
      (t.assigned name values).map (⟨·, .root, around⟩)
    else []
  | _ => []

/-- The uses in a call of the top level. -/
def callUses (t : Tree) (around : Surroundings Entry) (id : NodeId) : List Use :=
  match t.kind? id with
  | some (.call _ _ true) => (t.mentionsOf id).map (⟨·, .root, around⟩)
  | _ => []

/-- Goes along the top level. -/
def alongRoot (t : Tree) (f : Surroundings Entry → NodeId → List Use) : List Use :=
  Surroundings.along t.bindings f ⟨[], []⟩ t.rootStatements

/-- All uses that are written out: those in functions, in assignments of the top level
and in calls of the top level. -/
def uses (t : Tree) : List Use :=
  t.alongRoot t.functionUses ++ t.alongRoot t.assignmentUses ++ t.alongRoot t.callUses

/-! ## One statement -/

/-- The use is in a statement of a scope, or in a part of the top level that is written
out. -/
inductive UsedBy (t : Tree) (scope : ScopeId) (around : Surroundings Entry) (id : NodeId)
    (u : Use) : Prop
  | statement {fuel : Nat} (h : u ∈ t.stmtUses fuel scope around id)
  | function (hscope : scope = .root) (h : u ∈ t.functionUses around id)
  | assignment (hscope : scope = .root) (h : u ∈ t.assignmentUses around id)
  | call (hscope : scope = .root) (h : u ∈ t.callUses around id)

namespace UsedBy

variable {t : Tree} {id : NodeId} {scope : ScopeId} {around : Surroundings Entry} {u : Use}

theorem of_call {callee : NodeId} {arguments : List NodeId} {isDirective : Bool}
    (h : t.UsedBy scope around id u)
    (hkind : t.kind? id = some (.call callee arguments isDirective)) :
    ∃ m ∈ t.mentionsOf id, u = ⟨m, scope, around⟩ := by
  cases h with
  | @statement fuel h =>
    cases fuel with
    | zero => cases h
    | succ fuel =>
      rw [stmtUses, hkind] at h
      obtain ⟨m, hm, rfl⟩ := List.mem_map.mp h
      exact ⟨m, hm, rfl⟩
  | function _ h => simp [functionUses, hkind] at h
  | assignment _ h => simp [assignmentUses, hkind] at h
  | call hscope h =>
    subst hscope
    rw [callUses, hkind] at h
    cases isDirective with
    | false => cases h
    | true =>
      obtain ⟨m, hm, rfl⟩ := List.mem_map.mp h
      exact ⟨m, hm, rfl⟩

theorem of_declaration {type : Option NodeId} {name : NodeId} {values : List NodeId}
    (h : t.UsedBy scope around id u) (hkind : t.kind? id = some (.declaration type name values)) :
    ∃ m ∈ t.assigned name values, u = ⟨m, scope, around⟩ := by
  cases h with
  | @statement fuel h =>
    cases fuel with
    | zero => cases h
    | succ fuel =>
      rw [stmtUses, hkind] at h
      cases type with
      | none =>
        obtain ⟨m, hm, rfl⟩ := List.mem_map.mp h
        exact ⟨m, hm, rfl⟩
      | some type =>
        obtain ⟨m, hm, rfl⟩ := List.mem_map.mp h
        exact ⟨m, List.mem_append_right _ hm, rfl⟩
  | function _ h => simp [functionUses, hkind] at h
  | assignment hscope h =>
    subst hscope
    rw [assignmentUses, hkind] at h
    dsimp only at h
    split at h
    · obtain ⟨m, hm, rfl⟩ := List.mem_map.mp h
      exact ⟨m, hm, rfl⟩
    · cases h
  | call _ h => simp [callUses, hkind] at h

theorem of_jump {jump : Jump} {value : Option NodeId} (h : t.UsedBy scope around id u)
    (hkind : t.kind? id = some (.jump jump value)) :
    ∃ m ∈ value.toList.flatMap t.mentionsOf, u = ⟨m, scope, around⟩ := by
  cases h with
  | @statement fuel h =>
    cases fuel with
    | zero => cases h
    | succ fuel =>
      rw [stmtUses, hkind] at h
      cases jump with
      | returning =>
        obtain ⟨m, hm, rfl⟩ := List.mem_map.mp h
        exact ⟨m, hm, rfl⟩
      | breaking | continuing => cases h
  | function _ h => simp [functionUses, hkind] at h
  | assignment _ h => simp [assignmentUses, hkind] at h
  | call _ h => simp [callUses, hkind] at h

theorem of_flow {flow : Flow} {condition next : Option NodeId} {body : ScopeId}
    (h : t.UsedBy scope around id u) (hkind : t.kind? id = some (.flow flow condition body next)) :
    ∃ fuel, u ∈ t.clauseUses fuel scope around id := by
  cases h with
  | @statement fuel h =>
    cases fuel with
    | zero => cases h
    | succ fuel =>
      rw [stmtUses, hkind] at h
      exact ⟨fuel, h⟩
  | function _ h => simp [functionUses, hkind] at h
  | assignment _ h => simp [assignmentUses, hkind] at h
  | call _ h => simp [callUses, hkind] at h

theorem of_function {name : NodeId} {result : Option NodeId} {parameters : List Parameter}
    {body : ScopeId} {origin : Origin} (h : t.UsedBy scope around id u)
    (hkind : t.kind? id = some (.function name result parameters body origin)) :
    origin = .own ∧
      u ∈ t.blockUses body (around.enter.declare (t.parameterBindings parameters)) := by
  cases h with
  | @statement fuel h =>
    cases fuel with
    | zero => cases h
    | succ fuel => simp [stmtUses, hkind] at h
  | function _ h =>
    rw [functionUses, hkind] at h
    cases origin with
    | own => exact ⟨rfl, h⟩
    | imported => cases h
  | assignment _ h => simp [assignmentUses, hkind] at h
  | call _ h => simp [callUses, hkind] at h

end UsedBy

end Tree

/-- The use is of something that is bound once where it is bound, a call is of a
function, and the bindings around it are, from its scope outwards to the root, what the
scopes of the tree bind first. -/
structure Use.Resolves (u : Use) (t : Tree) : Prop where
  binding : ∃ depth e, u.binding = some (depth, [e]) ∧
    ∀ name, u.mention = .function name → e.kind = .function
  scopes : ∃ frames, t.scopes.Around u.scope frames ∧
    List.Forall₂ (· <+: ·) u.around.frames frames
  outside : u.around.outside <+: t.scopes.bound .root

end Braced
