import Braced.Proofs.Tree.Writes

/-!
# Braced.Proofs.Tree.Write

Writing a tree back out (`Tree.write`).

The writer walks the tree in the order of the source: the top-level statements,
and in each of them signatures, types, blocks, clauses, values, expressions with
their parentheses, calls, and operators behind operands.  It marks each node at
the first piece of what it writes for it.  A tree that is written as some pieces
according to `Tree.WritesBlock` is written as these by the writer
(`Tree.WritesBlock.write_items`).
-/

namespace Braced.Tree

/-! ## The writer -/

/-- The name that a node carries, which begins there. -/
def writeName (t : Tree) (id : NodeId) : Option Piece :=
  match t.node? id with
  | some ⟨position, .ident name⟩ => some (.name name [⟨id, position⟩])
  | _ => none

def writeType (t : Tree) (id : NodeId) : Option (List Piece) :=
  match t.node? id with
  | some ⟨position, .type atom isConst⟩ => some (typePieces atom isConst ⟨id, position⟩)
  | _ => none

/-- A type behind a token of the given kind, or no type. -/
def writeTypeAfter (t : Tree) (kind : TokenKind) : Option NodeId → Option (List Piece)
  | none => some []
  | some id => (t.writeType id).map (.bare kind :: ·)

/-- Parts with commas between them. -/
def separated (parts : List (List Piece)) : List Piece :=
  [.bare .comma].intercalate parts

def writeParameter (t : Tree) (p : Parameter) : Option (List Piece) := do
  return (← t.writeName p.name) :: .bare .colon :: (← t.writeType p.type)

def writeSignature (t : Tree) (name : NodeId) (parameters : List Parameter)
    (result : Option NodeId) : Option (List Piece) := do
  let name ← t.writeName name
  let parameters ← parameters.mapM t.writeParameter
  let result ← t.writeTypeAfter .arrow result
  return name :: .bare .colon :: .bare .openParen
    :: (separated parameters ++ .bare .closeParen :: result)

/-- The expression of a node; `fuel` bounds how deep its parts nest. -/
def writeExpr (t : Tree) : (fuel : Nat) → NodeId → Option (List Piece)
  | 0, _ => none
  | fuel + 1, id => do
    let node ← t.node? id
    match node.kind with
    | .binary op left right =>
      let left ← t.writeExpr fuel left
      let right ← t.writeExpr fuel right
      return Piece.markFirst ⟨id, node.position⟩ (left ++ .bare op.token :: right)
    | .unary op operand =>
      let operand ← t.writeExpr fuel operand
      match op.token? with
      | some kind => return ⟨kind, .none, [⟨id, node.position⟩]⟩ :: operand
      | none =>
        return ⟨.openParen, .none, [⟨id, node.position⟩]⟩ :: (operand ++ [.bare .closeParen])
    | .primary (.name name) step =>
      let name ← t.writeName name
      return Piece.markFirst ⟨id, node.position⟩ [name] ++ stepPieces step
    | .primary (.call call) step =>
      let call ← t.writeExpr fuel call
      return Piece.markFirst ⟨id, node.position⟩ call ++ stepPieces step
    | .primary constant step =>
      let (kind, value) ← constant.token?
      return ⟨kind, value, [⟨id, node.position⟩]⟩ :: stepPieces step
    | .call callee arguments _ =>
      let callee ← t.writeName callee
      let arguments ← arguments.mapM (t.writeExpr fuel)
      return Piece.markFirst ⟨id, node.position⟩
        (callee :: .bare .openParen :: (separated arguments ++ [.bare .closeParen]))
    | _ => none

/-- The expression of a node, whose parts nest no deeper than there are nodes. -/
def writeExpression (t : Tree) (id : NodeId) : Option (List Piece) :=
  t.writeExpr t.nodes.size id

/-- An expression, or nothing. -/
def writeOptional (t : Tree) : Option NodeId → Option (List Piece)
  | none => some []
  | some id => t.writeExpression id

/-- The statement of a node with its clauses and blocks; `fuel` bounds how deep
these nest. -/
def writeStmt (t : Tree) : (fuel : Nat) → NodeId → Option (List Piece)
  | 0, _ => none
  | fuel + 1, id => do
    let node ← t.node? id
    match node.kind with
    | .declaration type name values =>
      let name ← t.writeName name
      let type ← t.writeTypeAfter .colon type
      let values ← values.mapM t.writeExpression
      return Piece.markFirst ⟨id, node.position⟩ [name]
        ++ (type ++ (values.flatMap (.bare .assignment :: ·) ++ [.bare .semicolon]))
    | .call _ _ _ => return (← t.writeExpression id) ++ [.bare .semicolon]
    | .jump jump value =>
      return ⟨jump.token, .none, [⟨id, node.position⟩]⟩
        :: ((← t.writeOptional value) ++ [.bare .semicolon])
    | .flow flow condition body next =>
      let condition ← t.writeOptional condition
      let body ← (t.statements body).mapM (t.writeStmt fuel)
      let others ← match next with
        | some next => t.writeStmt fuel next
        | none => pure []
      return ⟨flow.token, .none, [⟨id, node.position⟩]⟩
        :: (condition ++ (blockPieces body.flatten ++ others))
    | .function name result parameters body .own =>
      let signature ← t.writeSignature name parameters result
      let body ← (t.statements body).mapM (t.writeStmt fuel)
      return Piece.markFirst ⟨id, node.position⟩ signature ++ blockPieces body.flatten
    | .function name result parameters _ (.imported module) =>
      let signature ← t.writeSignature name parameters result
      return ⟨.pound, .none, [⟨id, node.position⟩]⟩ :: .bare .kwForeign :: .bare .kwFrom
        :: .bare .openParen :: .name module [] :: .bare .comma
        :: (signature ++ [.bare .closeParen, .bare .semicolon])
    | _ => none

/-- All top-level statements in order. -/
def write (t : Tree) : Option (List Piece) :=
  (t.rootStatements.mapM (t.writeStmt t.nodes.size)).map List.flatten

/-! ## The writer writes what is written -/

variable {t : Tree}

theorem writeName_eq {id : NodeId} {position : Position} {name : String}
    (h : t.node? id = some ⟨position, .ident name⟩) :
    t.writeName id = some (.name name [⟨id, position⟩]) := by
  rw [writeName, h]

theorem WritesType.write {id : NodeId} {ps : List Piece} (h : t.WritesType id ps) :
    t.writeType id = some ps := by
  obtain ⟨hnode⟩ := h
  rw [writeType, hnode]

theorem WritesTypeAfter.write {kind : TokenKind} {type : Option NodeId} {ps : List Piece}
    (h : t.WritesTypeAfter kind type ps) : t.writeTypeAfter kind type = some ps := by
  cases h with
  | absent => rfl
  | present hps => rw [writeTypeAfter, hps.write, Option.map_some]

/-- Some parts are written as soon as the first one and the others are. -/
theorem mapM_cons_eq_some {f : α → Option β} {a : α} {as : List α} {b : β} {bs : List β}
    (h : f a = some b) (hs : as.mapM f = some bs) : (a :: as).mapM f = some (b :: bs) := by
  rw [List.mapM_cons, h, hs]
  rfl

/-- A comma stands behind each part but the last. -/
theorem separated_cons {f : α → Option (List Piece)} {a : α} {as : List α} {ps : List Piece}
    {parts : List (List Piece)} (h : (a :: as).mapM f = some parts) :
    separated (ps :: parts) = ps ++ .bare .comma :: separated parts := by
  rw [List.mapM_cons] at h
  obtain ⟨part, -, h⟩ := Option.bind_eq_some_iff.mp h
  obtain ⟨others, -, h⟩ := Option.bind_eq_some_iff.mp h
  cases h
  exact (List.intercalate_cons_cons).trans (by rw [List.append_assoc]; rfl)

theorem WritesParameters.write {parameters : List Parameter} {ps : List Piece}
    (h : t.WritesParameters parameters ps) :
    ∃ parts, parameters.mapM t.writeParameter = some parts ∧ separated parts = ps := by
  have hparameter : ∀ {p : Parameter} {position : Position} {text : String} {ps : List Piece},
      t.node? p.name = some ⟨position, .ident text⟩ → t.WritesType p.type ps →
      t.writeParameter p = some (.name text [⟨p.name, position⟩] :: .bare .colon :: ps) := by
    intro p position text ps hname hps
    simp [writeParameter, writeName_eq hname, hps.write]
  induction h with
  | nil => exact ⟨[], rfl, rfl⟩
  | last hname hps =>
    exact ⟨_, mapM_cons_eq_some (hparameter hname hps) rfl, List.intercalate_singleton⟩
  | cons hname hps hqs ih =>
    obtain ⟨parts, hparts, rfl⟩ := ih
    exact ⟨_, mapM_cons_eq_some (hparameter hname hps) hparts, separated_cons hparts⟩

theorem WritesSignature.write {name : NodeId} {parameters : List Parameter}
    {result : Option NodeId} {ps : List Piece}
    (h : t.WritesSignature name parameters result ps) :
    t.writeSignature name parameters result = some ps := by
  obtain ⟨hname, hps, hqs⟩ := h
  obtain ⟨parts, hparts, rfl⟩ := hps.write
  simp [writeSignature, writeName_eq hname, hparts, hqs.write]

/-- **Expressions are written** in as many steps as there are nodes before them. -/
theorem Writes.write {part : ExprPart} {ps : List Piece} (h : t.Writes part ps) :
    match part with
    | .expression id | .call id => ∀ fuel, id.index < fuel → t.writeExpr fuel id = some ps
    | .arguments ids => ∀ fuel, (∀ id ∈ ids, id.index < fuel) →
      ∃ parts, ids.mapM (t.writeExpr fuel) = some parts ∧ separated parts = ps
    | .values ids => ∀ fuel, (∀ id ∈ ids, id.index < fuel) →
      ∃ parts, ids.mapM (t.writeExpr fuel) = some parts ∧
        parts.flatMap (.bare .assignment :: ·) = ps := by
  induction h with
  | binary hnode hleft hright _ _ ih ih' =>
    intro fuel hfuel
    obtain ⟨n, rfl, hn⟩ := exists_fuel hfuel
    simp [writeExpr, hnode, ih n (by omega), ih' n (by omega)]
  | prefixed hnode hkind hoperand _ ih =>
    intro fuel hfuel
    obtain ⟨n, rfl, hn⟩ := exists_fuel hfuel
    simp [writeExpr, hnode, ih n (by omega), hkind]
  | nested hnode hoperand _ ih =>
    intro fuel hfuel
    obtain ⟨n, rfl, hn⟩ := exists_fuel hfuel
    simp [writeExpr, hnode, ih n (by omega), UnaryOp.token?]
  | @constant _ _ constant _ _ _ hnode hconstant =>
    intro fuel hfuel
    obtain ⟨n, rfl, hn⟩ := exists_fuel hfuel
    cases constant <;> cases hconstant <;> simp [writeExpr, hnode, Primary.token?]
  | name hnode hname =>
    intro fuel hfuel
    obtain ⟨n, rfl, hn⟩ := exists_fuel hfuel
    simp [writeExpr, hnode, writeName_eq hname, Piece.name]
  | called hnode hcall _ ih =>
    intro fuel hfuel
    obtain ⟨n, rfl, hn⟩ := exists_fuel hfuel
    simp [writeExpr, hnode, ih n (by omega)]
  | call hnode hcallee harguments _ ih =>
    intro fuel hfuel
    obtain ⟨n, rfl, hn⟩ := exists_fuel hfuel
    obtain ⟨parts, hparts, rfl⟩ := ih n fun a ha => Nat.lt_of_lt_of_le (harguments a ha) hn
    simp [writeExpr, hnode, writeName_eq hcallee, hparts, Piece.name]
  | noArguments => exact fun _ _ => ⟨[], rfl, rfl⟩
  | lastArgument _ ih =>
    intro fuel hfuel
    exact ⟨_, mapM_cons_eq_some (ih fuel (hfuel _ (by simp))) rfl, List.intercalate_singleton⟩
  | argument _ _ ih ih' =>
    intro fuel hfuel
    obtain ⟨parts, hparts, rfl⟩ := ih' fuel fun a ha => hfuel a (List.mem_cons_of_mem _ ha)
    exact ⟨_, mapM_cons_eq_some (ih fuel (hfuel _ (by simp))) hparts, separated_cons hparts⟩
  | noValues => exact fun _ _ => ⟨[], rfl, rfl⟩
  | value _ _ ih ih' =>
    intro fuel hfuel
    obtain ⟨parts, hparts, rfl⟩ := ih' fuel fun a ha => hfuel a (List.mem_cons_of_mem _ ha)
    exact ⟨_, mapM_cons_eq_some (ih fuel (hfuel _ (by simp))) hparts, rfl⟩

theorem Writes.writeExpression {id : NodeId} {ps : List Piece}
    (h : t.Writes (.expression id) ps) : t.writeExpression id = some ps :=
  h.write _ (lt_size_of_isSome h.get?_isSome)

theorem WritesCondition.write {missing : Prop} {condition : Option NodeId} {ps : List Piece}
    (h : t.WritesCondition missing condition ps) : t.writeOptional condition = some ps := by
  cases h with
  | absent => rfl
  | present hps => exact hps.writeExpression

theorem WritesValue.write {value : Option NodeId} {ps : List Piece} (h : t.WritesValue value ps) :
    t.writeOptional value = some ps := by
  cases h with
  | absent => rfl
  | present hps => exact hps.writeExpression

theorem WritesLine.write {id : NodeId} {ps : List Piece} (h : t.WritesLine id ps) (n : Nat) :
    t.writeStmt (n + 1) id = some ps := by
  cases h with
  | declared hnode hname hps hqs =>
    obtain ⟨parts, hparts, rfl⟩ := hqs.write _ fun a ha => lt_size_of_isSome (hqs.get?_isSome a ha)
    have hvalues : List.mapM t.writeExpression _ = some parts := hparts
    simp [writeStmt, hnode, writeName_eq hname, hps.write, hvalues, Piece.name]
  | call hps =>
    have hcall := hps.write _ (lt_size_of_isSome hps.get?_isSome)
    cases hps with
    | call hnode => simp [writeStmt, hnode, Tree.writeExpression, hcall]

/-- **Statements are written** in as many steps as there are nodes before them. -/
theorem WritesBlock.write {missing : Prop} {first : Nat} {part : StmtPart} {ps : List Piece}
    {ns : List Position} (h : t.WritesBlock missing first part ps ns) :
    match part with
    | .statement id | .conditional _ id | .function id | .item id =>
      ∀ fuel, id.index < fuel → t.writeStmt fuel id = some ps
    | .clauses next => ∀ fuel, (∀ id ∈ next, id.index < fuel) →
      (match next with | some id => t.writeStmt fuel id | none => pure []) = some ps
    | .statements ids | .items ids => ∀ fuel, (∀ id ∈ ids, id.index < fuel) →
      ∃ parts, ids.mapM (t.writeStmt fuel) = some parts ∧ parts.flatten = ps := by
  induction h with
  | line hps | itemLine hps =>
    intro fuel hfuel
    obtain ⟨n, rfl, -⟩ := exists_fuel hfuel
    exact hps.write n
  | returning hnode hps =>
    intro fuel hfuel
    obtain ⟨n, rfl, -⟩ := exists_fuel hfuel
    simp [writeStmt, hnode, hps.write, Jump.token]
  | loopControl hnode _ =>
    intro fuel hfuel
    obtain ⟨n, rfl, -⟩ := exists_fuel hfuel
    simp [writeStmt, hnode, writeOptional]
  | @conditional _ _ _ _ next _ _ _ _ _ _ _ hnode hps _ hids hlt hnext _ _ ih ih' =>
    intro fuel hfuel
    obtain ⟨n, rfl, hn⟩ := exists_fuel hfuel
    obtain ⟨parts, hparts, rfl⟩ := ih n fun i hi => Nat.lt_of_lt_of_le (hlt i hi) hn
    have hothers := ih' n fun i hi => Nat.lt_of_lt_of_le (hnext i hi) hn
    cases next <;> simp [writeStmt, hnode, hps.write, hids.statements_eq, hparts] at hothers ⊢ <;>
      simp [hothers]
  | whileLoop hnode hps _ hids hlt _ ih =>
    intro fuel hfuel
    obtain ⟨n, rfl, hn⟩ := exists_fuel hfuel
    obtain ⟨parts, hparts, rfl⟩ := ih n fun i hi => Nat.lt_of_lt_of_le (hlt i hi) hn
    simp [writeStmt, hnode, hps.write, hids.statements_eq, hparts, Flow.token]
  | elseClause hnode _ hids hlt _ ih =>
    intro fuel hfuel
    obtain ⟨n, rfl, hn⟩ := exists_fuel (hfuel _ rfl)
    obtain ⟨parts, hparts, rfl⟩ := ih n fun i hi => Nat.lt_of_lt_of_le (hlt i hi) hn
    simp [writeStmt, hnode, writeOptional, hids.statements_eq, hparts, Flow.token]
  | function hnode hps _ hids hlt _ ih =>
    intro fuel hfuel
    obtain ⟨n, rfl, hn⟩ := exists_fuel hfuel
    obtain ⟨parts, hparts, rfl⟩ := ih n fun i hi => Nat.lt_of_lt_of_le (hlt i hi) hn
    simp [writeStmt, hnode, hps.write, hids.statements_eq, hparts]
  | imported hnode hps =>
    intro fuel hfuel
    obtain ⟨n, rfl, hn⟩ := exists_fuel hfuel
    simp [writeStmt, hnode, hps.write]
  | ifChain _ ih | inner _ _ ih | itemFunction _ ih => exact ih
  | elifClause _ ih => exact fun fuel hfuel => ih fuel (hfuel _ rfl)
  | noClauses => exact fun _ _ => rfl
  | noStatements | noItems => exact fun _ _ => ⟨[], rfl, rfl⟩
  | statement _ _ ih ih' | consItem _ _ ih ih' =>
    intro fuel hfuel
    obtain ⟨parts, hparts, rfl⟩ := ih' fuel fun a ha => hfuel a (List.mem_cons_of_mem _ ha)
    exact ⟨_, mapM_cons_eq_some (ih fuel (hfuel _ (by simp))) hparts, rfl⟩

/-- **The writer writes what a tree is written as.** -/
theorem WritesBlock.write_items {missing : Prop} {first : Nat} {ps : List Piece}
    {ns : List Position} (h : t.WritesBlock missing first (.items t.rootStatements) ps ns) :
    t.write = some ps := by
  obtain ⟨parts, hparts, rfl⟩ := h.write _ fun id hid => lt_size_of_isSome (h.get?_isSome id hid)
  rw [Tree.write, hparts]
  rfl

end Braced.Tree
