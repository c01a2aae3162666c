import Braced.Proofs.Target.Emits
import Braced.Proofs.Target.Fraction
import Braced.Proofs.Target.Occurrences

/-!
# Braced.Proofs.Target.Structure

The structure of a function's body.

`t.HasStmts ids shapes` says that statements of the tree are what their shapes tell: the
same statements, clauses, operators, operands and arguments, in the same places.  Names
are what is written for them, floating-point numbers their digits, and a declaration
without a value is not `const`.

A body that was read has a structure, and its text is that of the structure
(`Tree.WritesBlock.shaped`), where the names of the tree are words (`Tree.Spelled`).
-/

namespace Braced

open Target

variable {t : Tree} {imports : List String}

namespace Tree

/-! ## The shape of a node -/

mutual

/-- The operand is what the shape tells. -/
def HasOperand (t : Tree) (imports : List String) (value : Primary) : Operand → Prop
  | .int n => value = .int n
  | .float text => ∃ x, value = .float x ∧ x.literalText.toList = text.chars
  | .char b => value = .char b
  | .string bytes => value = .string bytes
  | .name name => ∃ id text, value = .name id ∧ t.ident? id = some text ∧ text.toList = name.chars
  | .call function arguments => ∃ call position callee ids isDirective text, value = .call call ∧
      t.node? call = some ⟨position, .call callee ids isDirective⟩ ∧ t.ident? callee = some text ∧
      (functionText imports text).toList = function.chars ∧ t.HasShapes imports ids arguments

/-- The expression is what the shape tells. -/
def HasShape (t : Tree) (imports : List String) (id : NodeId) : Shape → Prop
  | .operand value step => ∃ position operand,
      t.node? id = some ⟨position, .primary operand step⟩ ∧ t.HasOperand imports operand value
  | .unary op e => ∃ position operand, t.node? id = some ⟨position, .unary op operand⟩ ∧
      t.HasShape imports operand e
  | .binary op e e' => ∃ position left right,
      t.node? id = some ⟨position, .binary op left right⟩ ∧ t.HasShape imports left e ∧
      t.HasShape imports right e'

/-- The expressions are what the shapes tell, each what one of them does. -/
def HasShapes (t : Tree) (imports : List String) (ids : List NodeId) : List Shape → Prop
  | [] => ids = []
  | e :: es => ∃ id others, ids = id :: others ∧ t.HasShape imports id e ∧
      t.HasShapes imports others es

end

/-- An expression that may be missing. -/
def HasOption (t : Tree) (imports : List String) (value : Option NodeId) : Option Shape → Prop
  | none => value = none
  | some e => ∃ id, value = some id ∧ t.HasShape imports id e

/-- A variable with the values that it gets. -/
def HasAssignment (t : Tree) (imports : List String) (id : NodeId) (ids : List NodeId) (name : Word)
    (values : List Shape) : Prop :=
  (∃ text, t.ident? id = some text ∧ text.toList = name.chars) ∧ t.HasShapes imports ids values

mutual

/-- The statement is what the shape tells. -/
def HasStmt (t : Tree) (imports : List String) (id : NodeId) : StmtShape → Prop
  | .declare isConst atom name values => ∃ position type target ids position' isConst',
      t.node? id = some ⟨position, .declaration (some type) target ids⟩ ∧
      t.node? type = some ⟨position', .type atom isConst'⟩ ∧
      isConst = (isConst' && !ids.isEmpty) ∧ t.HasAssignment imports target ids name values
  | .assign name values => ∃ position target ids,
      t.node? id = some ⟨position, .declaration none target ids⟩ ∧
      t.HasAssignment imports target ids name values
  | .call function arguments => t.HasOperand imports (.call id) (.call function arguments)
  | .returning value => ∃ position v, t.node? id = some ⟨position, .jump .returning v⟩ ∧
      t.HasOption imports v value
  | .breaking => ∃ position, t.node? id = some ⟨position, .jump .breaking none⟩
  | .continuing => ∃ position, t.node? id = some ⟨position, .jump .continuing none⟩
  | .conditional condition body others => ∃ position c scope next,
      t.node? id = some ⟨position, .flow .ifClause c scope next⟩ ∧ t.HasOption imports c condition ∧
      t.HasStmts imports (t.statements scope) body ∧ t.HasClauses imports next others
  | .loop condition body => ∃ position c scope,
      t.node? id = some ⟨position, .flow .whileLoop c scope none⟩ ∧
      t.HasOption imports c condition ∧ t.HasStmts imports (t.statements scope) body

/-- The statements are what the shapes tell, each what one of them does. -/
def HasStmts (t : Tree) (imports : List String) (ids : List NodeId) : List StmtShape → Prop
  | [] => ids = []
  | s :: ss => ∃ id others, ids = id :: others ∧ t.HasStmt imports id s ∧
      t.HasStmts imports others ss

/-- The clauses that follow a clause are what the shapes tell. -/
def HasClauses (t : Tree) (imports : List String) (next : Option NodeId) : List ClauseShape → Prop
  | [] => next = none
  | .elif condition body :: cs => ∃ id position c scope next', next = some id ∧
      t.node? id = some ⟨position, .flow .elifClause c scope next'⟩ ∧
      t.HasOption imports c condition ∧ t.HasStmts imports (t.statements scope) body ∧
      t.HasClauses imports next' cs
  | .otherwise body :: cs => ∃ id position scope next', next = some id ∧
      t.node? id = some ⟨position, .flow .elseClause none scope next'⟩ ∧
      t.HasStmts imports (t.statements scope) body ∧ t.HasClauses imports next' cs

end

/-! ## Names -/

/-- The names of a tree are words, and those of functions begin like one. -/
def Spelled (t : Tree) (imports : List String) : Prop :=
  ∀ id text, t.ident? id = some text →
    text.toList.all isWordChar = true ∧ isLabel (functionText imports text).toList = true

theorem Spelled.word (h : t.Spelled imports) {id : NodeId} {position : Position} {text : String}
    (hnode : t.node? id = some ⟨position, .ident text⟩) :
    ∃ w : Word, t.ident? id = some text ∧ text.toList = w.chars := by
  have hident : t.ident? id = some text := by
    rw [ident?, hnode]
  exact ⟨⟨_, (h id text hident).1⟩, hident, rfl⟩

theorem Spelled.label (h : t.Spelled imports) {id : NodeId} {position : Position} {text : String}
    (hnode : t.node? id = some ⟨position, .ident text⟩) :
    ∃ f : Label, t.ident? id = some text ∧ (functionText imports text).toList = f.chars := by
  have hident : t.ident? id = some text := by
    rw [ident?, hnode]
  exact ⟨⟨_, (h id text hident).2⟩, hident, rfl⟩

end Tree

/-! ## The text of expressions -/

theorem ok_bind {α β : Type} {r : Except EmitError α} {f : α → Except EmitError β} {a : α} {b : β}
    (h : r = .ok a) (hf : f a = .ok b) : (r >>= f) = .ok b :=
  bind_eq_ok_iff.mpr ⟨a, h, hf⟩

theorem ok_mapM_cons {α β : Type} {f : α → Except EmitError β} {a : α} {as : List α} {b : β}
    {bs : List β} (h : f a = .ok b) (hs : as.mapM f = .ok bs) : (a :: as).mapM f = .ok (b :: bs) :=
  mapM_cons_eq_ok_iff.mpr ⟨b, bs, h, hs, rfl⟩

/-- The text of the expression is that of the shape. -/
def Target.Expr.WrittenAs (e : Expr) (shape : Shape) : Prop :=
  ∀ rest, e.text.toList ++ rest = shape.write rest

/-- The text of a variable is that of a word. -/
theorem Target.toList_own {w : Word} {text : String} (h : text.toList = w.chars)
    (rest : List Char) : (Name.own text).text.toList ++ rest = w.write rest := by
  simp [Name.text, ownMark, h, Word.write]

/-- Arguments are written with commas between them. -/
theorem Target.toList_commaSeparated {es : List Expr} {shapes : List Shape}
    (h : List.Forall₂ Expr.WrittenAs es shapes) (rest : List Char) :
    (commaSeparated (Expr.texts es)).toList ++ rest = Shape.writeArguments shapes rest := by
  have hothers : ∀ {es : List Expr} {shapes : List Shape}, List.Forall₂ Expr.WrittenAs es shapes →
      ∀ e : Expr, (commaSeparated (Expr.texts (e :: es))).toList ++ rest
        = e.text.toList ++ Shape.writeEach [',', ' '] shapes rest := by
    intro es shapes h
    induction h with
    | nil => simp [Expr.texts, commaSeparated, Shape.writeEach]
    | @cons e' s es shapes he' _ ih =>
      intro e
      have hrest := ih e'
      rw [commaSeparated, Expr.texts] at hrest
      rw [commaSeparated, Expr.texts, Expr.texts, String.intercalate_cons_cons, Shape.writeEach,
        ← he', ← hrest]
      simp
  cases h with
  | nil => simp [Expr.texts, commaSeparated, Shape.writeArguments]
  | cons he h => rw [hothers h, Shape.writeArguments, he]

/-- Values are written behind an `=` each. -/
theorem Target.toList_values {es : List Expr} {shapes : List Shape}
    (h : List.Forall₂ Expr.WrittenAs es shapes) (rest : List Char) :
    (String.join ((Expr.texts es).map fun value => " = " ++ value)).toList ++ rest
      = Shape.writeEach [' ', '=', ' '] shapes rest := by
  induction h with
  | nil => simp [Expr.texts, Shape.writeEach]
  | cons he _ ih =>
    rw [Expr.texts, List.map_cons, String.join_cons, Shape.writeEach, ← ih, ← he]
    simp

namespace Tree

/-- The expression can be emitted, and has a shape with the same text. -/
def ShapedExpr (t : Tree) (imports : List String) (fuel : Nat) (id : NodeId) : Prop :=
  ∃ e shape, t.targetExpr imports fuel id = .ok e ∧ t.HasShape imports id shape ∧
    e.WrittenAs shape

/-- The call can be emitted, and has a shape with the same text. -/
def ShapedCall (t : Tree) (imports : List String) (fuel : Nat) (id : NodeId) : Prop :=
  ∃ e function arguments, t.targetExpr imports fuel id = .ok e ∧
    t.HasOperand imports (.call id) (.call function arguments) ∧
    ∀ rest, e.text.toList ++ rest = (Operand.call function arguments).write rest

/-- Each of the expressions can be emitted, and has a shape with the same text. -/
def ShapedExprs (t : Tree) (imports : List String) (fuel : Nat) (ids : List NodeId) : Prop :=
  ∃ es shapes, ids.mapM (t.targetExpr imports fuel) = .ok es ∧ t.HasShapes imports ids shapes ∧
    List.Forall₂ Expr.WrittenAs es shapes

variable {id : NodeId} {position : Position} {n : Nat}

theorem shapedExpr_binary {left right : NodeId} {op : BinaryOp}
    (hnode : t.node? id = some ⟨position, .binary op left right⟩)
    (hleft : t.ShapedExpr imports n left) (hright : t.ShapedExpr imports n right) :
    t.ShapedExpr imports (n + 1) id := by
  obtain ⟨l, e, hl, he, htext⟩ := hleft
  obtain ⟨r, e', hr, he', htext'⟩ := hright
  refine ⟨.binary op l r, .binary op e e', ?_, ⟨_, _, _, hnode, he, he'⟩, fun rest => ?_⟩
  · rw [targetExpr]
    exact ok_bind (get_eq hnode) (ok_bind hl (ok_bind hr rfl))
  · rw [Shape.write, ← htext', ← htext]
    simp [Expr.text]

theorem shapedExpr_unary {operand : NodeId} {op : UnaryOp}
    (hnode : t.node? id = some ⟨position, .unary op operand⟩)
    (hoperand : t.ShapedExpr imports n operand) : t.ShapedExpr imports (n + 1) id := by
  obtain ⟨o, e, ho, he, htext⟩ := hoperand
  refine ⟨.unary op o, .unary op e, ?_, ⟨_, _, hnode, he⟩, fun rest => ?_⟩
  · rw [targetExpr]
    exact ok_bind (get_eq hnode) (ok_bind ho rfl)
  · rw [Shape.write, ← htext]
    simp [Expr.text]

/-- The expression of an operand, without the operator behind it. -/
def targetOperand (t : Tree) (imports : List String) (fuel : Nat) :
    Primary → Except EmitError Expr
  | .int value => pure (.int value)
  | .float value => pure (.float value)
  | .char value => pure (.char value)
  | .string bytes => pure (.string bytes)
  | .name name => Expr.name <$> t.variableName name
  | .call call => t.targetExpr imports fuel call

/-- An operand gets the operator behind it, if there is one. -/
theorem targetExpr_primary {value : Primary} {step : Option Step}
    (hnode : t.node? id = some ⟨position, .primary value step⟩) :
    t.targetExpr imports (n + 1) id =
      (t.targetOperand imports n value).map fun o => step.elim o (.stepped o) := by
  rw [targetExpr, get_eq hnode]
  cases step <;> cases value <;> rfl

/-- The operand can be emitted, and has a shape with the same text. -/
def ShapedOperand (t : Tree) (imports : List String) (fuel : Nat) (value : Primary) : Prop :=
  ∃ e v, t.targetOperand imports fuel value = .ok e ∧ t.HasOperand imports value v ∧
    ∀ rest, e.text.toList ++ rest = v.write rest

theorem shapedOperand_constant {constant : Primary} {kind : TokenKind} {value : TokenValue}
    (hconstant : constant.token? = some (kind, value)) : t.ShapedOperand imports n constant := by
  cases constant with
  | int value => exact ⟨.int value, .int value, rfl, rfl, fun _ => rfl⟩
  | float value =>
    exact ⟨.float value, .float ⟨_, value.isFraction_literalText⟩, rfl, ⟨value, rfl, rfl⟩,
      fun _ => rfl⟩
  | char value =>
    refine ⟨.char value, .char value, rfl, rfl, fun rest => ?_⟩
    simp [Expr.text, Literal.char, Operand.write]
  | string bytes =>
    refine ⟨.string bytes, .string bytes, rfl, rfl, fun rest => ?_⟩
    simp [Expr.text, Literal.string, Operand.write]
  | name | call => cases hconstant

theorem shapedOperand_name (hnames : t.Spelled imports) {text : String}
    (hname : t.node? id = some ⟨position, .ident text⟩) :
    t.ShapedOperand imports n (.name id) := by
  obtain ⟨w, hident, hw⟩ := hnames.word hname
  refine ⟨.name (.own _), .name w, ?_, ⟨_, _, rfl, hident, hw⟩, toList_own hw⟩
  rw [targetOperand, variableName, identName_ok hname]
  rfl

/-- An operand, with what stands behind it. -/
theorem shapedExpr_primary {value : Primary} {step : Option Step}
    (hnode : t.node? id = some ⟨position, .primary value step⟩)
    (hvalue : t.ShapedOperand imports n value) : t.ShapedExpr imports (n + 1) id := by
  obtain ⟨o, v, ho, hv, htext⟩ := hvalue
  have hread : t.targetExpr imports (n + 1) id = .ok (step.elim o (.stepped o)) := by
    rw [targetExpr_primary hnode, ho]
    rfl
  cases step with
  | none => exact ⟨o, .operand v none, hread, ⟨_, _, hnode, hv⟩, htext⟩
  | some step =>
    refine ⟨.stepped o step, .operand v (some step), hread, ⟨_, _, hnode, hv⟩, fun rest => ?_⟩
    rw [Shape.write, ← htext]
    simp [Expr.text, stepChars]

theorem shapedCall_call (hnames : t.Spelled imports) {callee : NodeId} {arguments : List NodeId}
    {isDirective : Bool} {position' : Position} {text : String}
    (hnode : t.node? id = some ⟨position, .call callee arguments isDirective⟩)
    (hcallee : t.node? callee = some ⟨position', .ident text⟩)
    (harguments : t.ShapedExprs imports n arguments) : t.ShapedCall imports (n + 1) id := by
  obtain ⟨es, shapes, hes, hshapes, htext⟩ := harguments
  obtain ⟨f, hident, hf⟩ := hnames.label hcallee
  obtain ⟨name, hfunction, hname⟩ : ∃ name, t.functionName imports callee = .ok name ∧
      name.text = functionText imports text :=
    ⟨_, ok_bind (identName_ok hcallee) rfl, rfl⟩
  refine ⟨.call name es, f, shapes, ?_,
    ⟨_, _, _, _, _, _, rfl, hnode, hident, hf, hshapes⟩, fun rest => ?_⟩
  · rw [targetExpr]
    exact ok_bind (get_eq hnode) (ok_bind hfunction (ok_bind hes rfl))
  · rw [Operand.write, ← toList_commaSeparated htext, ← hf, ← hname]
    simp [Expr.text]

theorem shapedExprs_nil : t.ShapedExprs imports n [] :=
  ⟨[], [], rfl, rfl, .nil⟩

theorem shapedExprs_cons {ids : List NodeId} (h : t.ShapedExpr imports n id)
    (hs : t.ShapedExprs imports n ids) : t.ShapedExprs imports n (id :: ids) := by
  obtain ⟨e, shape, he, hshape, htext⟩ := h
  obtain ⟨es, shapes, hes, hshapes, htexts⟩ := hs
  exact ⟨e :: es, shape :: shapes, ok_mapM_cons he hes, ⟨_, _, rfl, hshape, hshapes⟩,
    .cons htext htexts⟩

/-- **An expression that can be emitted has a shape**, and its text is that of the shape. -/
theorem Writes.shaped (hnames : t.Spelled imports) {part : ExprPart} {ps : List Piece}
    (h : t.Writes part ps) :
    match part with
    | .expression id => ∀ fuel, id.index < fuel → t.ShapedExpr imports fuel id
    | .call id => ∀ fuel, id.index < fuel → t.ShapedCall imports fuel id
    | .arguments ids | .values ids =>
      ∀ fuel, (∀ id ∈ ids, id.index < fuel) → t.ShapedExprs imports fuel ids := by
  induction h with
  | binary hnode hleft hright _ _ ih ih' =>
    intro fuel hfuel
    obtain ⟨n, rfl, hn⟩ := exists_fuel hfuel
    exact shapedExpr_binary hnode (ih n (by omega)) (ih' n (by omega))
  | prefixed hnode _ hoperand _ ih | nested hnode hoperand _ ih =>
    intro fuel hfuel
    obtain ⟨n, rfl, hn⟩ := exists_fuel hfuel
    exact shapedExpr_unary hnode (ih n (by omega))
  | constant hnode hconstant =>
    intro fuel hfuel
    obtain ⟨n, rfl, -⟩ := exists_fuel hfuel
    exact shapedExpr_primary hnode (shapedOperand_constant hconstant)
  | name hnode hname =>
    intro fuel hfuel
    obtain ⟨n, rfl, -⟩ := exists_fuel hfuel
    exact shapedExpr_primary hnode (shapedOperand_name hnames hname)
  | called hnode hcall _ ih =>
    intro fuel hfuel
    obtain ⟨n, rfl, hn⟩ := exists_fuel hfuel
    obtain ⟨e, f, arguments, he, hoperand, htext⟩ := ih n (by omega)
    exact shapedExpr_primary hnode ⟨e, .call f arguments, he, hoperand, htext⟩
  | call hnode hcallee harguments _ ih =>
    intro fuel hfuel
    obtain ⟨n, rfl, hn⟩ := exists_fuel hfuel
    exact shapedCall_call hnames hnode hcallee
      (ih n fun a ha => Nat.lt_of_lt_of_le (harguments a ha) hn)
  | noArguments | noValues => exact fun _ _ => shapedExprs_nil
  | lastArgument _ ih =>
    exact fun fuel hfuel => shapedExprs_cons (ih fuel (hfuel _ (by simp))) shapedExprs_nil
  | argument _ _ ih ih' | value _ _ ih ih' =>
    exact fun fuel hfuel => shapedExprs_cons (ih fuel (hfuel _ (by simp)))
      (ih' fuel fun a ha => hfuel a (List.mem_cons_of_mem _ ha))

/-- The expression that may be missing can be emitted if it is there, and has a shape with the
same text. -/
def ShapedOption (t : Tree) (imports : List String) (value : Option NodeId) : Prop :=
  ∃ v shape, value.mapM (t.expr imports) = .ok v ∧ t.HasOption imports value shape ∧
    Option.Rel Expr.WrittenAs v shape

theorem shapedOption_none : t.ShapedOption imports none :=
  ⟨none, none, rfl, rfl, .none⟩

theorem Writes.shapedOption (hnames : t.Spelled imports) {ps : List Piece}
    (h : t.Writes (.expression id) ps) : t.ShapedOption imports (some id) := by
  obtain ⟨e, shape, he, hshape, htext⟩ := h.shaped hnames _ (lt_size_of_isSome h.get?_isSome)
  refine ⟨some e, some shape, ?_, ⟨id, rfl, hshape⟩, .some htext⟩
  change some <$> t.expr imports id = _
  rw [expr, he]
  rfl

theorem WritesValue.shaped (hnames : t.Spelled imports) {value : Option NodeId}
    {ps : List Piece} (h : t.WritesValue value ps) : t.ShapedOption imports value := by
  cases h with
  | absent => exact shapedOption_none
  | present hps => exact hps.shapedOption hnames

theorem WritesCondition.shaped (hnames : t.Spelled imports) {missing : Prop}
    {condition : Option NodeId} {ps : List Piece} (h : t.WritesCondition missing condition ps) :
    t.ShapedOption imports condition := by
  cases h with
  | absent => exact shapedOption_none
  | present hps => exact hps.shapedOption hnames

end Tree

/-! ## The text of statements -/

namespace Target

theorem toList_indentation (depth : Nat) (rest : List Char) :
    (indentation depth).toList ++ rest = indented depth rest := by
  rw [indentation, String.toList_ofList, indented]

theorem toList_conditionText {v : Option Expr} {shape : Option Shape}
    (h : Option.Rel Expr.WrittenAs v shape) (rest : List Char) :
    (conditionText v).toList ++ rest = writeCondition shape rest := by
  cases h with
  | none => rfl
  | some h =>
    rw [conditionText, writeCondition, ← h]
    simp

/-- A variable with its values, up to the end of the line. -/
theorem toList_assignmentText {w : Word} {text : String} {es : List Expr} {shapes : List Shape}
    (hw : text.toList = w.chars) (h : List.Forall₂ Expr.WrittenAs es shapes) (rest : List Char) :
    (assignmentText (.own text) es).toList ++ ';' :: '\n' :: rest
      = writeAssignment w shapes rest := by
  rw [writeAssignment, ← toList_values h, ← toList_own hw, assignmentText, String.toList_append,
    List.append_assoc]

/-- The lines of the statement are those of the shape. -/
def Stmt.WrittenAs (s : Stmt) (shape : StmtShape) : Prop :=
  ∀ depth rest, (s.text depth).toList ++ rest = indented depth (shape.write depth rest)

/-- The lines of the statements are those of the shapes. -/
def Stmt.AllWrittenAs (ss : List Stmt) (shapes : List StmtShape) : Prop :=
  ∀ depth rest, (Stmt.texts depth ss).toList ++ rest = StmtShape.writeAll depth shapes rest

/-- The clauses that follow a clause are written as the shapes. -/
def Clause.AllWrittenAs (cs : List Clause) (shapes : List ClauseShape) : Prop :=
  ∀ depth rest, (Clause.texts depth cs).toList ++ rest = ClauseShape.writeAll depth shapes rest

/-- A clause, from behind its keyword on. -/
theorem Clause.toList_text {v : Option Expr} {condition : Option Shape} {ss : List Stmt}
    {body : List StmtShape} (hv : Option.Rel Expr.WrittenAs v condition)
    (hss : Stmt.AllWrittenAs ss body) (flow : Flow) (depth : Nat) (rest : List Char) :
    (Clause.text depth (.mk flow v ss)).toList ++ rest = (flowText flow).toList
      ++ writeCondition condition (openBlock (StmtShape.writeAll (depth + 1) body
        (closeBlock depth rest))) := by
  rw [closeBlock, ← toList_indentation, ← hss, openBlock, ← toList_conditionText hv]
  simp [Clause.text]

end Target

namespace Tree

theorem isEmpty_of_hasShapes {ids : List NodeId} {es : List Expr} {shapes : List Shape}
    (h : t.HasShapes imports ids shapes) (htext : List.Forall₂ Expr.WrittenAs es shapes) :
    ids.isEmpty = es.isEmpty := by
  cases htext with
  | nil =>
    obtain rfl : ids = [] := h
    rfl
  | cons =>
    obtain ⟨id, others, rfl, -⟩ := h
    rfl

/-- The statement can be emitted, and has a shape with the same lines. -/
def ShapedStmt (t : Tree) (imports : List String) (fuel : Nat) (id : NodeId) : Prop :=
  ∃ s shape, t.targetStmt imports fuel id = .ok s ∧ t.HasStmt imports id shape ∧
    s.WrittenAs shape

/-- Each of the statements can be emitted, and has a shape with the same lines. -/
def ShapedStmts (t : Tree) (imports : List String) (fuel : Nat) (ids : List NodeId) : Prop :=
  ∃ ss shapes, ids.mapM (t.targetStmt imports fuel) = .ok ss ∧ t.HasStmts imports ids shapes ∧
    Stmt.AllWrittenAs ss shapes

/-- The clauses that follow a clause can be emitted, and have shapes with the same lines. -/
def ShapedClauses (t : Tree) (imports : List String) (fuel : Nat) (next : Option NodeId) : Prop :=
  ∃ cs shapes, (next.elim (.ok []) (t.targetClauses imports fuel)) = .ok cs ∧
    t.HasClauses imports next shapes ∧ Clause.AllWrittenAs cs shapes

/-- The clause can be emitted with those that follow it, and there are shapes of its parts with
the same lines. -/
def ShapedClause (t : Tree) (imports : List String) (fuel : Nat) (flow : Flow) (id : NodeId) :
    Prop :=
  ∃ cs position c scope next condition body others, t.targetClauses imports fuel id = .ok cs ∧
    t.node? id = some ⟨position, .flow flow c scope next⟩ ∧ t.HasOption imports c condition ∧
    t.HasStmts imports (t.statements scope) body ∧ t.HasClauses imports next others ∧
    ∀ depth rest, (Clause.texts depth cs).toList ++ rest = (flowText flow).toList
      ++ writeCondition condition (openBlock (StmtShape.writeAll (depth + 1) body
        (closeBlock depth (ClauseShape.writeAll depth others rest))))

/-- The body of the function can be emitted, and has shapes with the same lines. -/
def ShapedBody (t : Tree) (imports : List String) (id : NodeId) : Prop :=
  ∀ position name result parameters body,
    t.node? id = some ⟨position, .function name result parameters body .own⟩ →
    t.ShapedStmts imports (2 * t.nodes.size) (t.statements body)

variable {id : NodeId} {position : Position} {n : Nat}

/-! ### Lines -/

theorem shapedStmt_assign (hnames : t.Spelled imports) {name : NodeId} {position' : Position}
    {text : String} {values : List NodeId}
    (hnode : t.node? id = some ⟨position, .declaration none name values⟩)
    (hname : t.node? name = some ⟨position', .ident text⟩)
    (hvalues : t.ShapedExprs imports t.nodes.size values) : t.ShapedStmt imports (n + 1) id := by
  obtain ⟨w, hident, hw⟩ := hnames.word hname
  obtain ⟨es, shapes, hes, hshapes, htext⟩ := hvalues
  refine ⟨.assign (.own text) es, .assign w shapes, ?_,
    ⟨_, _, _, hnode, ⟨_, hident, hw⟩, hshapes⟩, fun depth rest => ?_⟩
  · rw [targetStmt]
    exact ok_bind (get_eq hnode) (ok_bind (ok_bind (identName_ok hname) rfl) (ok_bind hes rfl))
  · rw [StmtShape.write, ← toList_assignmentText hw htext, ← toList_indentation]
    simp [Stmt.text]

theorem shapedStmt_declare (hnames : t.Spelled imports) {name type : NodeId}
    {position' position'' : Position} {text : String} {atom : TypeAtom} {isConst : Bool}
    {values : List NodeId}
    (hnode : t.node? id = some ⟨position, .declaration (some type) name values⟩)
    (htype : t.node? type = some ⟨position', .type atom isConst⟩)
    (hname : t.node? name = some ⟨position'', .ident text⟩)
    (hvalues : t.ShapedExprs imports t.nodes.size values) : t.ShapedStmt imports (n + 1) id := by
  obtain ⟨w, hident, hw⟩ := hnames.word hname
  obtain ⟨es, shapes, hes, hshapes, htext⟩ := hvalues
  refine ⟨.declare (isConst && !es.isEmpty) atom (.own text) es,
    .declare (isConst && !es.isEmpty) atom w shapes, ?_,
    ⟨_, _, _, _, _, isConst, hnode, htype, ?_, ⟨_, hident, hw⟩, hshapes⟩, fun depth rest => ?_⟩
  · rw [targetStmt]
    exact ok_bind (get_eq hnode) (ok_bind (ok_bind (get_eq htype) rfl)
      (ok_bind (ok_bind (identName_ok hname) rfl) (ok_bind hes rfl)))
  · rw [isEmpty_of_hasShapes hshapes htext]
  · rw [StmtShape.write, ← toList_assignmentText hw htext, ← toList_indentation]
    cases isConst && !es.isEmpty <;> simp [Stmt.text, Keyword.chars]

theorem shapedStmt_call {callee : NodeId} {arguments : List NodeId} {isDirective : Bool}
    (hnode : t.node? id = some ⟨position, .call callee arguments isDirective⟩)
    (hcall : t.ShapedCall imports t.nodes.size id) : t.ShapedStmt imports (n + 1) id := by
  obtain ⟨e, f, arguments, he, hcall, htext⟩ := hcall
  refine ⟨.call e, .call f arguments, ?_, hcall, fun depth rest => ?_⟩
  · rw [targetStmt]
    exact ok_bind (get_eq hnode) (ok_bind he rfl)
  · rw [StmtShape.write, ← htext, ← toList_indentation]
    simp [Stmt.text]

/-- **A statement on a line has a shape**, and its line is that of the shape. -/
theorem WritesLine.shaped (hnames : t.Spelled imports) {ps : List Piece}
    (h : t.WritesLine id ps) : t.ShapedStmt imports (n + 1) id := by
  cases h with
  | declared hnode hname hps hqs =>
    have hvalues := hqs.shaped hnames _ fun id hid => lt_size_of_isSome (hqs.get?_isSome id hid)
    cases hps with
    | absent => exact shapedStmt_assign hnames hnode hname hvalues
    | present hps =>
      cases hps with
      | type htype => exact shapedStmt_declare hnames hnode htype hname hvalues
  | call hps =>
    have hcall := hps.shaped hnames _ (lt_size_of_isSome hps.get?_isSome)
    cases hps with
    | call hnode => exact shapedStmt_call hnode hcall

/-! ### Jumps -/

theorem shapedStmt_returning {value : Option NodeId}
    (hnode : t.node? id = some ⟨position, .jump .returning value⟩)
    (hvalue : t.ShapedOption imports value) : t.ShapedStmt imports (n + 1) id := by
  obtain ⟨v, shape, hv, hshape, htext⟩ := hvalue
  refine ⟨.returning v, .returning shape, ?_, ⟨_, _, hnode, hshape⟩, fun depth rest => ?_⟩
  · rw [targetStmt]
    exact ok_bind (get_eq hnode) (ok_bind hv rfl)
  · rw [StmtShape.write, ← toList_indentation]
    cases htext with
    | none => simp [Stmt.text, writeValue, Keyword.chars]
    | some htext =>
      rw [writeValue, ← htext]
      simp [Stmt.text, Keyword.chars]

theorem shapedStmt_loopControl {jump : Jump}
    (hnode : t.node? id = some ⟨position, .jump jump none⟩) (hjump : jump ≠ .returning) :
    t.ShapedStmt imports (n + 1) id := by
  rw [ShapedStmt, targetStmt]
  cases jump with
  | returning => exact absurd rfl hjump
  | breaking =>
    refine ⟨.breaking, .breaking, ok_bind (get_eq hnode) rfl, ⟨_, hnode⟩, fun depth rest => ?_⟩
    rw [StmtShape.write, ← toList_indentation]
    simp [Stmt.text, Keyword.chars]
  | continuing =>
    refine ⟨.continuing, .continuing, ok_bind (get_eq hnode) rfl, ⟨_, hnode⟩,
      fun depth rest => ?_⟩
    rw [StmtShape.write, ← toList_indentation]
    simp [Stmt.text, Keyword.chars]

/-! ### Blocks -/

theorem targetClauses_ok {flow : Flow} {condition next : Option NodeId} {body : ScopeId}
    {v : Option Expr} {ss : List Stmt} {cs : List Clause}
    (hnode : t.node? id = some ⟨position, .flow flow condition body next⟩)
    (hv : condition.mapM (t.expr imports) = .ok v)
    (hss : (t.statements body).mapM (t.targetStmt imports n) = .ok ss)
    (hcs : (next.elim (.ok []) (t.targetClauses imports n)) = .ok cs) :
    t.targetClauses imports (n + 1) id = .ok (.mk flow v ss :: cs) := by
  rw [targetClauses]
  refine ok_bind (get_eq hnode) (ok_bind hv (ok_bind hss ?_))
  cases next <;> exact ok_bind hcs rfl

theorem shapedClauses_none : t.ShapedClauses imports n none :=
  ⟨[], [], rfl, rfl, fun _ _ => rfl⟩

theorem shapedClause {flow : Flow} {condition next : Option NodeId} {body : ScopeId}
    (hnode : t.node? id = some ⟨position, .flow flow condition body next⟩)
    (hcondition : t.ShapedOption imports condition)
    (hbody : t.ShapedStmts imports n (t.statements body))
    (hnext : t.ShapedClauses imports n next) : t.ShapedClause imports (n + 1) flow id := by
  obtain ⟨v, shape, hv, hshape, htext⟩ := hcondition
  obtain ⟨ss, shapes, hss, hshapes, htexts⟩ := hbody
  obtain ⟨cs, others, hcs, hothers, hrest⟩ := hnext
  refine ⟨.mk flow v ss :: cs, _, condition, body, next, shape, shapes, others,
    targetClauses_ok hnode hv hss hcs, hnode, hshape, hshapes, hothers, fun depth rest => ?_⟩
  rw [Clause.texts, String.toList_append, List.append_assoc, hrest,
    Clause.toList_text htext htexts]

theorem shapedClauses_elif (h : t.ShapedClause imports n .elifClause id) :
    t.ShapedClauses imports n (some id) := by
  obtain ⟨cs, position, c, scope, next, condition, body, others, hcs, hnode, hcondition, hbody,
    hothers, htext⟩ := h
  refine ⟨cs, .elif condition body :: others, hcs,
    ⟨_, _, _, _, _, rfl, hnode, hcondition, hbody, hothers⟩, fun depth rest => ?_⟩
  rw [htext]
  rfl

theorem shapedClauses_else {body : ScopeId}
    (hnode : t.node? id = some ⟨position, .flow .elseClause none body none⟩)
    (hbody : t.ShapedStmts imports n (t.statements body)) :
    t.ShapedClauses imports (n + 1) (some id) := by
  obtain ⟨ss, shapes, hss, hshapes, htexts⟩ := hbody
  refine ⟨[.mk .elseClause none ss], [.otherwise shapes], targetClauses_ok hnode rfl hss rfl,
    ⟨_, _, _, _, rfl, hnode, hshapes, rfl⟩, fun depth rest => ?_⟩
  have htext := Clause.toList_text .none htexts .elseClause depth rest
  rw [Clause.texts, Clause.texts, String.append_empty, htext]
  rfl

theorem shapedStmt_conditional (h : t.ShapedClause imports n .ifClause id) :
    t.ShapedStmt imports (n + 1) id := by
  obtain ⟨cs, position, c, scope, next, condition, body, others, hcs, hnode, hcondition, hbody,
    hothers, htext⟩ := h
  refine ⟨.flow cs, .conditional condition body others, ?_,
    ⟨_, _, _, _, hnode, hcondition, hbody, hothers⟩, fun depth rest => ?_⟩
  · rw [targetStmt]
    exact ok_bind (get_eq hnode) (ok_bind hcs rfl)
  · rw [StmtShape.write, ← toList_indentation,
      show Keyword.conditional.chars = (flowText .ifClause).toList from rfl, ← htext]
    simp [Stmt.text]

theorem shapedStmt_loop {condition : Option NodeId} {body : ScopeId}
    (hnode : t.node? id = some ⟨position, .flow .whileLoop condition body none⟩)
    (hcondition : t.ShapedOption imports condition)
    (hbody : t.ShapedStmts imports n (t.statements body)) :
    t.ShapedStmt imports (n + 2) id := by
  obtain ⟨v, shape, hv, hshape, htext⟩ := hcondition
  obtain ⟨ss, shapes, hss, hshapes, htexts⟩ := hbody
  refine ⟨.flow [.mk .whileLoop v ss], .loop shape shapes, ?_,
    ⟨_, _, _, hnode, hshape, hshapes⟩, fun depth rest => ?_⟩
  · rw [targetStmt]
    exact ok_bind (get_eq hnode) (ok_bind (targetClauses_ok hnode hv hss rfl) rfl)
  · rw [StmtShape.write, ← toList_indentation,
      show Keyword.loop.chars = (flowText .whileLoop).toList from rfl,
      ← Clause.toList_text htext htexts]
    simp [Stmt.text, Clause.texts]

theorem shapedStmts_nil : t.ShapedStmts imports n [] :=
  ⟨[], [], rfl, rfl, fun _ _ => rfl⟩

theorem shapedStmts_cons {ids : List NodeId} (h : t.ShapedStmt imports n id)
    (h' : t.ShapedStmts imports n ids) : t.ShapedStmts imports n (id :: ids) := by
  obtain ⟨s, shape, hs, hshape, htext⟩ := h
  obtain ⟨ss, shapes, hss, hshapes, htexts⟩ := h'
  refine ⟨s :: ss, shape :: shapes, ok_mapM_cons hs hss, ⟨_, _, rfl, hshape, hshapes⟩,
    fun depth rest => ?_⟩
  rw [Stmt.texts, String.toList_append, List.append_assoc, htexts, StmtShape.writeAll, htext]

/-- What is no function of the program has no body. -/
theorem shapedBody_of_ne {node : Node} (hnode : t.node? id = some node)
    (h : ∀ name result parameters body, node.kind ≠ .function name result parameters body .own) :
    t.ShapedBody imports id := by
  intro position name result parameters body hnode'
  rw [hnode] at hnode'
  cases hnode'
  exact absurd rfl (h name result parameters body)

/-- **Statements that can be emitted have shapes**, and their lines are those of the
shapes. -/
theorem WritesBlock.shaped (hnames : t.Spelled imports) {missing : Prop} {first : Nat}
    {part : StmtPart} {ps : List Piece} {ns : List Position}
    (h : t.WritesBlock missing first part ps ns) (hns : ns = []) :
    match part with
    | .statement id => ∀ fuel, 2 * id.index + 1 < fuel → t.ShapedStmt imports fuel id
    | .conditional flow id => ∀ fuel, 2 * id.index < fuel → t.ShapedClause imports fuel flow id
    | .clauses next =>
      ∀ fuel, (∀ id ∈ next, 2 * id.index < fuel) → t.ShapedClauses imports fuel next
    | .statements ids =>
      ∀ fuel, (∀ id ∈ ids, 2 * id.index + 1 < fuel) → t.ShapedStmts imports fuel ids
    | .function id | .item id => t.ShapedBody imports id
    | .items ids => ∀ id ∈ ids, t.ShapedBody imports id := by
  induction h with
  | line hps =>
    intro fuel hfuel
    obtain ⟨n, rfl, -⟩ := exists_fuel hfuel
    exact hps.shaped hnames
  | returning hnode hps =>
    intro fuel hfuel
    obtain ⟨n, rfl, -⟩ := exists_fuel hfuel
    exact shapedStmt_returning hnode (hps.shaped hnames)
  | loopControl hnode hjump =>
    intro fuel hfuel
    obtain ⟨n, rfl, -⟩ := exists_fuel hfuel
    exact shapedStmt_loopControl hnode hjump
  | conditional hnode hps _ hids hlt hnext _ _ ih ih' =>
    obtain ⟨rfl, rfl⟩ := List.append_eq_nil_iff.mp hns
    obtain rfl := hids.statements_eq
    intro fuel hfuel
    obtain ⟨n, rfl, hn⟩ := exists_fuel hfuel
    refine shapedClause hnode (hps.shaped hnames) (ih rfl n (fuel_of_lt hlt hn))
      (ih' rfl n fun i hi => ?_)
    have := hnext i hi
    omega
  | ifChain _ ih =>
    intro fuel hfuel
    obtain ⟨n, rfl, hn⟩ := exists_fuel hfuel
    exact shapedStmt_conditional (ih hns n (by omega))
  | whileLoop hnode hps _ hids hlt _ ih =>
    obtain rfl := hids.statements_eq
    intro fuel hfuel
    obtain ⟨n, rfl, hn⟩ := exists_fuel hfuel
    obtain ⟨k, rfl, hk⟩ := exists_fuel (Nat.lt_of_lt_of_le (Nat.lt_succ_self _) hn)
    exact shapedStmt_loop hnode (hps.shaped hnames) (ih hns k (fuel_of_lt hlt hk))
  | inner => cases hns
  | noClauses => exact fun _ _ => shapedClauses_none
  | elifClause _ ih => exact fun fuel hfuel => shapedClauses_elif (ih hns fuel (hfuel _ rfl))
  | elseClause hnode _ hids hlt _ ih =>
    obtain rfl := hids.statements_eq
    intro fuel hfuel
    obtain ⟨n, rfl, hn⟩ := exists_fuel (hfuel _ rfl)
    exact shapedClauses_else hnode (ih hns n (fuel_of_lt hlt hn))
  | noStatements => exact fun _ _ => shapedStmts_nil
  | statement _ _ ih ih' =>
    obtain ⟨rfl, rfl⟩ := List.append_eq_nil_iff.mp hns
    exact fun fuel hfuel => shapedStmts_cons (ih rfl fuel (hfuel _ (by simp)))
      (ih' rfl fuel fun a ha => hfuel a (List.mem_cons_of_mem _ ha))
  | function hnode _ _ hids hlt _ ih =>
    intro position name result parameters body hnode'
    rw [hnode] at hnode'
    cases hnode'
    obtain rfl := hids.statements_eq
    have hid := lt_size_of_isSome (Option.isSome_of_eq_some hnode)
    exact ih hns _ (fuel_of_lt (fun i hi => Nat.lt_trans (hlt i hi) hid) (Nat.le_refl _))
  | itemLine hps =>
    cases hps with
    | declared hnode => exact shapedBody_of_ne hnode (by simp)
    | call hps =>
      cases hps with
      | call hnode => exact shapedBody_of_ne hnode (by simp)
  | itemFunction _ ih => exact ih hns
  | imported hnode => exact shapedBody_of_ne hnode (by simp)
  | noItems => exact fun id hid => by cases hid
  | consItem _ _ ih ih' =>
    obtain ⟨rfl, rfl⟩ := List.append_eq_nil_iff.mp hns
    intro id hid
    obtain rfl | hid := List.mem_cons.mp hid
    · exact ih rfl
    · exact ih' rfl id hid

end Tree

end Braced
