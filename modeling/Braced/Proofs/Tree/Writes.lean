import Braced.Tree

/-!
# Braced.Proofs.Tree.Writes

What the parts of a tree are written as.

A tree is written out as a list of pieces, one for each token.  A piece has the
kind and the value of its token, and bears a mark for each node whose part
begins with it.  `Tree.Writes` and `Tree.WritesBlock` say which pieces a part is
written as; they hold of trees that make sense, in which every handle leads to
an earlier node of the right kind.

What is written of a part stays the same when a tree grows elsewhere
(`Tree.WritesBlock.mono`).
-/

namespace Braced

/-! ## Pieces -/

/-- A node, with its place, whose part begins here. -/
structure Mark where
  id : NodeId
  position : Position
  deriving DecidableEq, Repr

/-- One token of a tree that is written out. -/
structure Piece where
  kind : TokenKind
  value : TokenValue
  /-- The nodes whose parts begin with this piece. -/
  marks : List Mark
  deriving DecidableEq, Repr

namespace Piece

/-- A token that carries nothing and begins no part. -/
def bare (kind : TokenKind) : Piece :=
  ⟨kind, .none, []⟩

/-- A name, with the marks of what it begins. -/
def name (name : String) (marks : List Mark) : Piece :=
  ⟨.identifier, .identifier name, marks⟩

/-- Lets the part of one more node begin with the first of some pieces. -/
def markFirst (m : Mark) : List Piece → List Piece
  | [] => []
  | p :: ps => { p with marks := m :: p.marks } :: ps

@[simp] theorem markFirst_cons (m : Mark) (p : Piece) (ps : List Piece) :
    markFirst m (p :: ps) = { p with marks := m :: p.marks } :: ps := rfl

theorem markFirst_append (m : Mark) {ps : List Piece} (h : ps ≠ []) (qs : List Piece) :
    markFirst m (ps ++ qs) = markFirst m ps ++ qs := by
  cases ps with
  | nil => exact absurd rfl h
  | cons p ps => rfl

@[simp] theorem markFirst_eq_nil_iff (m : Mark) (ps : List Piece) :
    markFirst m ps = [] ↔ ps = [] := by
  cases ps <;> simp [markFirst]

/-- A mark changes no kinds. -/
@[simp] theorem map_kind_markFirst (m : Mark) (ps : List Piece) :
    (markFirst m ps).map kind = ps.map kind := by
  cases ps <;> rfl

end Piece

/-! ## Tokens of operators and keywords -/

/-- The token of a type. -/
def TypeAtom.token : TypeAtom → TokenKind
  | int => .kwInt
  | byte => .kwByte
  | float => .kwFloat
  | double => .kwDouble
  | boolean => .kwBoolean

/-- The token of an operator between operands. -/
def BinaryOp.token : BinaryOp → TokenKind
  | add => .plus
  | subtract => .dash
  | multiply => .star
  | divide => .slash
  | modulo => .percent
  | equals => .equals
  | notEquals => .notEquals
  | less => .less
  | greater => .greater
  | lessEquals => .lessEquals
  | greaterEquals => .greaterEquals

/-- The token of an operator in front of an operand; parentheses are none. -/
def UnaryOp.token? : UnaryOp → Option TokenKind
  | increment => some .plusPlus
  | decrement => some .minusMinus
  | nested => none
  | deref => some .star
  | addressOf => some .ampersand
  | negate => some .dash

/-- The token of an operator behind an operand. -/
def Step.token : Step → TokenKind
  | increment => .plusPlus
  | decrement => .minusMinus

/-- The token of a constant. -/
def Primary.token? : Primary → Option (TokenKind × TokenValue)
  | int value => some (.intConst, .int value)
  | float value => some (.floatConst, .float value)
  | string bytes => some (.stringConst, .string bytes)
  | char value => some (.charConst, .char value)
  | name _ | call _ => none

/-- The keyword of a statement that leaves a function or a round of a loop. -/
def Jump.token : Jump → TokenKind
  | returning => .kwReturn
  | breaking => .kwBreak
  | continuing => .kwContinue

/-- The keyword of a clause or a loop. -/
def Flow.token : Flow → TokenKind
  | ifClause => .kwIf
  | elifClause => .kwElif
  | elseClause => .kwElse
  | whileLoop => .kwWhile

theorem TypeAtom.ofToken?_eq_some_iff (kind : TokenKind) (atom : TypeAtom) :
    TypeAtom.ofToken? kind = some atom ↔ kind = atom.token := by
  constructor
  · intro h
    cases kind <;> cases h <;> rfl
  · rintro rfl
    cases atom <;> rfl

theorem BinaryOp.ofToken?_eq_some_iff (kind : TokenKind) (op : BinaryOp) :
    BinaryOp.ofToken? kind = some op ↔ kind = op.token := by
  constructor
  · intro h
    cases kind <;> cases h <;> rfl
  · rintro rfl
    cases op <;> rfl

namespace Tree

/-! ## Expressions -/

/-- The operator behind an operand. -/
def stepPieces : Option Step → List Piece
  | none => []
  | some step => [.bare step.token]

/-- The parts that expressions are made of. -/
inductive ExprPart
  | expression (id : NodeId)
  | call (id : NodeId)
  /-- Arguments between commas. -/
  | arguments (ids : List NodeId)
  /-- Values, each behind an `=`. -/
  | values (ids : List NodeId)

/-- A part of an expression is written as these pieces. -/
inductive Writes (t : Tree) : ExprPart → List Piece → Prop
  | binary {id left right : NodeId} {position : Position} {op : BinaryOp} {ps qs : List Piece}
      (hnode : t.node? id = some ⟨position, .binary op left right⟩)
      (hleft : left.index < id.index) (hright : right.index < id.index)
      (hps : Writes t (.expression left) ps) (hqs : Writes t (.expression right) qs) :
      Writes t (.expression id) (Piece.markFirst ⟨id, position⟩ (ps ++ .bare op.token :: qs))
  | prefixed {id operand : NodeId} {position : Position} {op : UnaryOp} {kind : TokenKind}
      {ps : List Piece} (hnode : t.node? id = some ⟨position, .unary op operand⟩)
      (hkind : op.token? = some kind) (hoperand : operand.index < id.index)
      (hps : Writes t (.expression operand) ps) :
      Writes t (.expression id) (⟨kind, .none, [⟨id, position⟩]⟩ :: ps)
  | nested {id operand : NodeId} {position : Position} {ps : List Piece}
      (hnode : t.node? id = some ⟨position, .unary .nested operand⟩)
      (hoperand : operand.index < id.index) (hps : Writes t (.expression operand) ps) :
      Writes t (.expression id)
        (⟨.openParen, .none, [⟨id, position⟩]⟩ :: (ps ++ [.bare .closeParen]))
  | constant {id : NodeId} {position : Position} {constant : Primary} {step : Option Step}
      {kind : TokenKind} {value : TokenValue}
      (hnode : t.node? id = some ⟨position, .primary constant step⟩)
      (hconstant : constant.token? = some (kind, value)) :
      Writes t (.expression id) (⟨kind, value, [⟨id, position⟩]⟩ :: stepPieces step)
  | name {id name : NodeId} {position namePosition : Position} {step : Option Step} {text : String}
      (hnode : t.node? id = some ⟨position, .primary (.name name) step⟩)
      (hname : t.node? name = some ⟨namePosition, .ident text⟩) :
      Writes t (.expression id)
        (.name text [⟨id, position⟩, ⟨name, namePosition⟩] :: stepPieces step)
  | called {id call : NodeId} {position : Position} {step : Option Step} {ps : List Piece}
      (hnode : t.node? id = some ⟨position, .primary (.call call) step⟩)
      (hcall : call.index < id.index) (hps : Writes t (.call call) ps) :
      Writes t (.expression id) (Piece.markFirst ⟨id, position⟩ ps ++ stepPieces step)
  | call {id callee : NodeId} {arguments : List NodeId} {isDirective : Bool}
      {position calleePosition : Position} {text : String} {ps : List Piece}
      (hnode : t.node? id = some ⟨position, .call callee arguments isDirective⟩)
      (hcallee : t.node? callee = some ⟨calleePosition, .ident text⟩)
      (harguments : ∀ a ∈ arguments, a.index < id.index) (hps : Writes t (.arguments arguments) ps) :
      Writes t (.call id) (.name text [⟨id, position⟩, ⟨callee, calleePosition⟩]
        :: .bare .openParen :: (ps ++ [.bare .closeParen]))
  | noArguments : Writes t (.arguments []) []
  | lastArgument {id : NodeId} {ps : List Piece} (hps : Writes t (.expression id) ps) :
      Writes t (.arguments [id]) ps
  | argument {id next : NodeId} {ids : List NodeId} {ps qs : List Piece}
      (hps : Writes t (.expression id) ps) (hqs : Writes t (.arguments (next :: ids)) qs) :
      Writes t (.arguments (id :: next :: ids)) (ps ++ .bare .comma :: qs)
  | noValues : Writes t (.values []) []
  | value {id : NodeId} {ids : List NodeId} {ps qs : List Piece}
      (hps : Writes t (.expression id) ps) (hqs : Writes t (.values ids) qs) :
      Writes t (.values (id :: ids)) (.bare .assignment :: (ps ++ qs))

/-! ## Types and signatures -/

/-- The pieces of a type. -/
def typePieces (atom : TypeAtom) (isConst : Bool) (mark : Mark) : List Piece :=
  if isConst then [⟨.kwConst, .none, [mark]⟩, .bare atom.token] else [⟨atom.token, .none, [mark]⟩]

/-- A type is written as these pieces. -/
inductive WritesType (t : Tree) (id : NodeId) : List Piece → Prop
  | type {position : Position} {atom : TypeAtom} {isConst : Bool}
      (hnode : t.node? id = some ⟨position, .type atom isConst⟩) :
      WritesType t id (typePieces atom isConst ⟨id, position⟩)

/-- A type behind a token of the given kind, or no type. -/
inductive WritesTypeAfter (t : Tree) (kind : TokenKind) : Option NodeId → List Piece → Prop
  | absent : WritesTypeAfter t kind none []
  | present {id : NodeId} {ps : List Piece} (hps : t.WritesType id ps) :
      WritesTypeAfter t kind (some id) (.bare kind :: ps)

/-- Parameters between commas. -/
inductive WritesParameters (t : Tree) : List Parameter → List Piece → Prop
  | nil : WritesParameters t [] []
  | last {p : Parameter} {position : Position} {text : String} {ps : List Piece}
      (hname : t.node? p.name = some ⟨position, .ident text⟩) (hps : t.WritesType p.type ps) :
      WritesParameters t [p] (.name text [⟨p.name, position⟩] :: .bare .colon :: ps)
  | cons {p next : Parameter} {others : List Parameter} {position : Position} {text : String}
      {ps qs : List Piece} (hname : t.node? p.name = some ⟨position, .ident text⟩)
      (hps : t.WritesType p.type ps) (hqs : WritesParameters t (next :: others) qs) :
      WritesParameters t (p :: next :: others)
        (.name text [⟨p.name, position⟩] :: .bare .colon :: (ps ++ .bare .comma :: qs))

/-- A function's name, parameters and result type. -/
inductive WritesSignature (t : Tree) (name : NodeId) (parameters : List Parameter)
    (result : Option NodeId) : List Piece → Prop
  | signature {position : Position} {text : String} {ps qs : List Piece}
      (hname : t.node? name = some ⟨position, .ident text⟩)
      (hps : t.WritesParameters parameters ps) (hqs : t.WritesTypeAfter .arrow result qs) :
      WritesSignature t name parameters result
        (.name text [⟨name, position⟩] :: .bare .colon :: .bare .openParen
          :: (ps ++ .bare .closeParen :: qs))

/-! ## Statements -/

/-- The scope is there, and these are its statements. -/
def HasStatements (t : Tree) (id : ScopeId) (ids : List NodeId) : Prop :=
  ∃ scope, t.scopes.get? id = some scope ∧ scope.statements.toList = ids

/-- A statement that begins with a name and ends with a semicolon. -/
inductive WritesLine (t : Tree) : NodeId → List Piece → Prop
  | declared {id name : NodeId} {type : Option NodeId} {values : List NodeId}
      {position namePosition : Position} {text : String} {ps qs : List Piece}
      (hnode : t.node? id = some ⟨position, .declaration type name values⟩)
      (hname : t.node? name = some ⟨namePosition, .ident text⟩)
      (hps : t.WritesTypeAfter .colon type ps) (hqs : t.Writes (.values values) qs) :
      WritesLine t id (.name text [⟨id, position⟩, ⟨name, namePosition⟩]
        :: (ps ++ (qs ++ [.bare .semicolon])))
  | call {id : NodeId} {ps : List Piece} (hps : t.Writes (.call id) ps) :
      WritesLine t id (ps ++ [.bare .semicolon])

/-- The value that is returned, or nothing. -/
inductive WritesValue (t : Tree) : Option NodeId → List Piece → Prop
  | absent : WritesValue t none []
  | present {id : NodeId} {ps : List Piece} (hps : t.Writes (.expression id) ps) :
      WritesValue t (some id) ps

/-- A condition. It may be missing only where `missing` says so. -/
inductive WritesCondition (t : Tree) (missing : Prop) : Option NodeId → List Piece → Prop
  | absent (h : missing) : WritesCondition t missing none []
  | present {id : NodeId} {ps : List Piece} (hps : t.Writes (.expression id) ps) :
      WritesCondition t missing (some id) ps

/-- The parts that statements are made of. -/
inductive StmtPart
  | statement (id : NodeId)
  /-- The clauses that follow a clause of a conditional. -/
  | clauses (next : Option NodeId)
  /-- A clause with a condition, and the clauses that follow it. -/
  | conditional (flow : Flow) (id : NodeId)
  | statements (ids : List NodeId)
  | function (id : NodeId)
  /-- A top-level declaration. -/
  | item (id : NodeId)
  | items (ids : List NodeId)

/-- Statements between braces. -/
def blockPieces (ps : List Piece) : List Piece :=
  .bare .openCurly :: (ps ++ [.bare .closeCurly])

/-- A part of a program is written as these pieces, and these are the places of
the functions inside of its blocks.  The scopes of its blocks come at `first` or
later, and conditions are missing only where `missing` says so. -/
inductive WritesBlock (t : Tree) (missing : Prop) (first : Nat) :
    StmtPart → List Piece → List Position → Prop
  | line {id : NodeId} {ps : List Piece} (hps : t.WritesLine id ps) :
      WritesBlock t missing first (.statement id) ps []
  | returning {id : NodeId} {position : Position} {value : Option NodeId} {ps : List Piece}
      (hnode : t.node? id = some ⟨position, .jump .returning value⟩) (hps : t.WritesValue value ps) :
      WritesBlock t missing first (.statement id)
        (⟨.kwReturn, .none, [⟨id, position⟩]⟩ :: (ps ++ [.bare .semicolon])) []
  | loopControl {id : NodeId} {position : Position} {jump : Jump}
      (hnode : t.node? id = some ⟨position, .jump jump none⟩) (hjump : jump ≠ .returning) :
      WritesBlock t missing first (.statement id)
        [⟨jump.token, .none, [⟨id, position⟩]⟩, .bare .semicolon] []
  | conditional {flow : Flow} {id : NodeId} {position : Position} {condition next : Option NodeId}
      {body : ScopeId} {ids : List NodeId} {ps qs rs : List Piece} {ns ms : List Position}
      (hnode : t.node? id = some ⟨position, .flow flow condition body next⟩)
      (hps : t.WritesCondition missing condition ps)
      (hfirst : first ≤ body.index) (hids : t.HasStatements body ids)
      (hlt : ∀ i ∈ ids, i.index < id.index) (hnext : ∀ i ∈ next, i.index < id.index)
      (hqs : WritesBlock t missing first (.statements ids) qs ns)
      (hrs : WritesBlock t missing first (.clauses next) rs ms) :
      WritesBlock t missing first (.conditional flow id)
        (⟨flow.token, .none, [⟨id, position⟩]⟩ :: (ps ++ (blockPieces qs ++ rs))) (ns ++ ms)
  | ifChain {id : NodeId} {ps : List Piece} {ns : List Position}
      (hps : WritesBlock t missing first (.conditional .ifClause id) ps ns) :
      WritesBlock t missing first (.statement id) ps ns
  | whileLoop {id : NodeId} {position : Position} {condition : Option NodeId} {body : ScopeId}
      {ids : List NodeId} {ps qs : List Piece} {ns : List Position}
      (hnode : t.node? id = some ⟨position, .flow .whileLoop condition body none⟩)
      (hps : t.WritesCondition missing condition ps)
      (hfirst : first ≤ body.index) (hids : t.HasStatements body ids)
      (hlt : ∀ i ∈ ids, i.index < id.index)
      (hqs : WritesBlock t missing first (.statements ids) qs ns) :
      WritesBlock t missing first (.statement id)
        (⟨.kwWhile, .none, [⟨id, position⟩]⟩ :: (ps ++ blockPieces qs)) ns
  | inner {id : NodeId} {node : Node} {ps : List Piece} {ns : List Position}
      (hnode : t.node? id = some node) (hps : WritesBlock t missing first (.function id) ps ns) :
      WritesBlock t missing first (.statement id) ps (node.position :: ns)
  | noClauses : WritesBlock t missing first (.clauses none) [] []
  | elifClause {id : NodeId} {ps : List Piece} {ns : List Position}
      (hps : WritesBlock t missing first (.conditional .elifClause id) ps ns) :
      WritesBlock t missing first (.clauses (some id)) ps ns
  | elseClause {id : NodeId} {position : Position} {body : ScopeId} {ids : List NodeId}
      {qs : List Piece} {ns : List Position}
      (hnode : t.node? id = some ⟨position, .flow .elseClause none body none⟩)
      (hfirst : first ≤ body.index) (hids : t.HasStatements body ids)
      (hlt : ∀ i ∈ ids, i.index < id.index)
      (hqs : WritesBlock t missing first (.statements ids) qs ns) :
      WritesBlock t missing first (.clauses (some id))
        (⟨.kwElse, .none, [⟨id, position⟩]⟩ :: blockPieces qs) ns
  | noStatements : WritesBlock t missing first (.statements []) [] []
  | statement {id : NodeId} {ids : List NodeId} {ps qs : List Piece} {ns ms : List Position}
      (hps : WritesBlock t missing first (.statement id) ps ns)
      (hqs : WritesBlock t missing first (.statements ids) qs ms) :
      WritesBlock t missing first (.statements (id :: ids)) (ps ++ qs) (ns ++ ms)
  | function {id name : NodeId} {position : Position} {result : Option NodeId}
      {parameters : List Parameter} {body : ScopeId} {ids : List NodeId} {ps qs : List Piece}
      {ns : List Position}
      (hnode : t.node? id = some ⟨position, .function name result parameters body .own⟩)
      (hps : t.WritesSignature name parameters result ps)
      (hfirst : first ≤ body.index) (hids : t.HasStatements body ids)
      (hlt : ∀ i ∈ ids, i.index < id.index)
      (hqs : WritesBlock t missing first (.statements ids) qs ns) :
      WritesBlock t missing first (.function id)
        (Piece.markFirst ⟨id, position⟩ ps ++ blockPieces qs) ns
  | itemLine {id : NodeId} {ps : List Piece} (hps : t.WritesLine id ps) :
      WritesBlock t missing first (.item id) ps []
  | itemFunction {id : NodeId} {ps : List Piece} {ns : List Position}
      (hps : WritesBlock t missing first (.function id) ps ns) :
      WritesBlock t missing first (.item id) ps ns
  | imported {id name : NodeId} {position : Position} {result : Option NodeId}
      {parameters : List Parameter} {body : ScopeId} {module : String} {ps : List Piece}
      (hnode : t.node? id
        = some ⟨position, .function name result parameters body (.imported module)⟩)
      (hps : t.WritesSignature name parameters result ps) :
      WritesBlock t missing first (.item id)
        (⟨.pound, .none, [⟨id, position⟩]⟩ :: .bare .kwForeign :: .bare .kwFrom :: .bare .openParen
          :: .name module [] :: .bare .comma
          :: (ps ++ [.bare .closeParen, .bare .semicolon])) []
  | noItems : WritesBlock t missing first (.items []) [] []
  | consItem {id : NodeId} {ids : List NodeId} {ps qs : List Piece} {ns ms : List Position}
      (hps : WritesBlock t missing first (.item id) ps ns)
      (hqs : WritesBlock t missing first (.items ids) qs ms) :
      WritesBlock t missing first (.items (id :: ids)) (ps ++ qs) (ns ++ ms)

/-! ## What is written begins with something -/

variable {t t' : Tree}

/-- Expressions and calls are written as something. -/
theorem Writes.ne_nil {part : ExprPart} {ps : List Piece} (h : t.Writes part ps) :
    match part with
    | .expression _ | .call _ => ps ≠ []
    | _ => True := by
  induction h with
  | binary _ _ _ _ _ ih _ => simp
  | called _ _ _ ih => simp [ih]
  | prefixed | nested | constant | name | call => simp
  | noArguments | lastArgument | argument | noValues | value => trivial

/-- The nodes of what is written are there. -/
theorem Writes.get?_isSome {part : ExprPart} {ps : List Piece} (h : t.Writes part ps) :
    match part with
    | .expression id | .call id => (t.node? id).isSome
    | .arguments ids | .values ids => ∀ id ∈ ids, (t.node? id).isSome := by
  induction h with
  | binary hnode | prefixed hnode | nested hnode | constant hnode | name hnode | called hnode
  | call hnode => simp [hnode]
  | noArguments | noValues => simp
  | lastArgument _ ih => simpa using ih
  | argument _ _ ih ih' => simpa [ih] using ih'
  | value _ _ ih ih' => simpa [ih] using ih'

theorem WritesLine.get?_isSome {id : NodeId} {ps : List Piece} (h : t.WritesLine id ps) :
    (t.node? id).isSome := by
  cases h with
  | declared hnode => simp [hnode]
  | call hps => exact hps.get?_isSome

/-- The nodes of statements are there. -/
theorem WritesBlock.get?_isSome {missing : Prop} {first : Nat} {part : StmtPart}
    {ps : List Piece} {ns : List Position} (h : t.WritesBlock missing first part ps ns) :
    match part with
    | .statement id | .conditional _ id | .function id | .item id => (t.node? id).isSome
    | .clauses next => ∀ id ∈ next, (t.node? id).isSome
    | .statements ids | .items ids => ∀ id ∈ ids, (t.node? id).isSome := by
  induction h with
  | line hps | itemLine hps => exact hps.get?_isSome
  | returning hnode | loopControl hnode | conditional hnode | whileLoop hnode | inner hnode
  | function hnode | imported hnode => simp [hnode]
  | elseClause hnode => simp [hnode]
  | ifChain _ ih | itemFunction _ ih => exact ih
  | elifClause _ ih => simpa using ih
  | noClauses | noStatements | noItems => simp
  | statement _ _ ih ih' | consItem _ _ ih ih' => simpa [ih] using ih'

/-- There are more nodes than come before one of them. -/
theorem lt_size_of_isSome {id : NodeId} (h : (t.node? id).isSome) : id.index < t.nodes.size :=
  (Arena.get?_isSome_iff t.nodes id).mp h

theorem HasStatements.statements_eq {id : ScopeId} {ids : List NodeId}
    (h : t.HasStatements id ids) : t.statements id = ids := by
  obtain ⟨scope, hscope, rfl⟩ := h
  rw [statements, hscope]
  rfl

/-! ## Steps downwards -/

/-- Fuel above a bound is one step, and no less than the bound for the steps inside of it. -/
theorem exists_fuel {k fuel : Nat} (h : k < fuel) : ∃ n, fuel = n + 1 ∧ k ≤ n :=
  ⟨_, (Nat.succ_pred_eq_of_pos (Nat.zero_lt_of_lt h)).symm, Nat.le_pred_of_lt h⟩

/-- Two steps for each node are enough for the statements that come before one. -/
theorem fuel_of_lt {ids : List NodeId} {k n : Nat} (hlt : ∀ id ∈ ids, id.index < k)
    (hn : 2 * k ≤ n) : ∀ id ∈ ids, 2 * id.index + 1 < n := by
  intro id hid
  have := hlt id hid
  omega

/-! ## Growing trees -/

/-- Every node of `t` is still there in `t'`. -/
def KeepsNodes (t t' : Tree) : Prop :=
  ∀ id node, t.node? id = some node → t'.node? id = some node

theorem KeepsNodes.trans {t'' : Tree} (h : t.KeepsNodes t') (h' : t'.KeepsNodes t'') :
    t.KeepsNodes t'' :=
  fun id node hnode => h' id node (h id node hnode)

/-- Every scope from `first` on still has the statements it has in `t`. -/
def KeepsStatements (first : Nat) (t t' : Tree) : Prop :=
  ∀ id ids, first ≤ id.index → t.HasStatements id ids → t'.HasStatements id ids

/-- An expression is written the same way in a tree with more nodes. -/
theorem Writes.mono (ht : t.KeepsNodes t') {part : ExprPart} {ps : List Piece}
    (h : t.Writes part ps) : t'.Writes part ps := by
  induction h with
  | binary hnode hleft hright _ _ ih ih' => exact .binary (ht _ _ hnode) hleft hright ih ih'
  | prefixed hnode hkind hoperand _ ih => exact .prefixed (ht _ _ hnode) hkind hoperand ih
  | nested hnode hoperand _ ih => exact .nested (ht _ _ hnode) hoperand ih
  | constant hnode hconstant => exact .constant (ht _ _ hnode) hconstant
  | name hnode hname => exact .name (ht _ _ hnode) (ht _ _ hname)
  | called hnode hcall _ ih => exact .called (ht _ _ hnode) hcall ih
  | call hnode hcallee harguments _ ih =>
    exact .call (ht _ _ hnode) (ht _ _ hcallee) harguments ih
  | noArguments => exact .noArguments
  | lastArgument _ ih => exact .lastArgument ih
  | argument _ _ ih ih' => exact .argument ih ih'
  | noValues => exact .noValues
  | value _ _ ih ih' => exact .value ih ih'

theorem WritesType.mono (ht : t.KeepsNodes t') {id : NodeId} {ps : List Piece}
    (h : t.WritesType id ps) : t'.WritesType id ps := by
  obtain ⟨hnode⟩ := h
  exact .type (ht _ _ hnode)

theorem WritesTypeAfter.mono (ht : t.KeepsNodes t') {kind : TokenKind} {type : Option NodeId}
    {ps : List Piece} (h : t.WritesTypeAfter kind type ps) : t'.WritesTypeAfter kind type ps := by
  cases h with
  | absent => exact .absent
  | present hps => exact .present (hps.mono ht)

theorem WritesParameters.mono (ht : t.KeepsNodes t') {parameters : List Parameter}
    {ps : List Piece} (h : t.WritesParameters parameters ps) :
    t'.WritesParameters parameters ps := by
  induction h with
  | nil => exact .nil
  | last hname hps => exact .last (ht _ _ hname) (hps.mono ht)
  | cons hname hps _ ih => exact .cons (ht _ _ hname) (hps.mono ht) ih

theorem WritesSignature.mono (ht : t.KeepsNodes t') {name : NodeId}
    {parameters : List Parameter} {result : Option NodeId} {ps : List Piece}
    (h : t.WritesSignature name parameters result ps) :
    t'.WritesSignature name parameters result ps := by
  obtain ⟨hname, hps, hqs⟩ := h
  exact .signature (ht _ _ hname) (hps.mono ht) (hqs.mono ht)

theorem WritesLine.mono (ht : t.KeepsNodes t') {id : NodeId} {ps : List Piece}
    (h : t.WritesLine id ps) : t'.WritesLine id ps := by
  cases h with
  | declared hnode hname hps hqs =>
    exact .declared (ht _ _ hnode) (ht _ _ hname) (hps.mono ht) (hqs.mono ht)
  | call hps => exact .call (hps.mono ht)

theorem WritesValue.mono (ht : t.KeepsNodes t') {value : Option NodeId} {ps : List Piece}
    (h : t.WritesValue value ps) : t'.WritesValue value ps := by
  cases h with
  | absent => exact .absent
  | present hps => exact .present (hps.mono ht)

theorem WritesCondition.mono (ht : t.KeepsNodes t') {missing missing' : Prop}
    (hm : missing → missing') {condition : Option NodeId} {ps : List Piece}
    (h : t.WritesCondition missing condition ps) : t'.WritesCondition missing' condition ps := by
  cases h with
  | absent h => exact .absent (hm h)
  | present hps => exact .present (hps.mono ht)

/-- **A statement is written the same way in a tree that has grown elsewhere.** -/
theorem WritesBlock.mono {missing missing' : Prop} {first first' : Nat} (ht : t.KeepsNodes t')
    (hscopes : t.KeepsStatements first t') (hm : missing → missing') (hfirst : first' ≤ first)
    {part : StmtPart} {ps : List Piece} {ns : List Position}
    (h : t.WritesBlock missing first part ps ns) : t'.WritesBlock missing' first' part ps ns := by
  induction h with
  | line hps => exact .line (hps.mono ht)
  | returning hnode hps => exact .returning (ht _ _ hnode) (hps.mono ht)
  | loopControl hnode hjump => exact .loopControl (ht _ _ hnode) hjump
  | conditional hnode hps hbody hids hlt hnext _ _ ih ih' =>
    exact .conditional (ht _ _ hnode) (hps.mono ht hm) (Nat.le_trans hfirst hbody)
      (hscopes _ _ hbody hids) hlt hnext ih ih'
  | ifChain _ ih => exact .ifChain ih
  | whileLoop hnode hps hbody hids hlt _ ih =>
    exact .whileLoop (ht _ _ hnode) (hps.mono ht hm) (Nat.le_trans hfirst hbody)
      (hscopes _ _ hbody hids) hlt ih
  | inner hnode _ ih => exact .inner (ht _ _ hnode) ih
  | noClauses => exact .noClauses
  | elifClause _ ih => exact .elifClause ih
  | elseClause hnode hbody hids hlt _ ih =>
    exact .elseClause (ht _ _ hnode) (Nat.le_trans hfirst hbody) (hscopes _ _ hbody hids) hlt ih
  | noStatements => exact .noStatements
  | statement _ _ ih ih' => exact .statement ih ih'
  | function hnode hps hbody hids hlt _ ih =>
    exact .function (ht _ _ hnode) (hps.mono ht) (Nat.le_trans hfirst hbody) (hscopes _ _ hbody hids)
      hlt ih
  | itemLine hps => exact .itemLine (hps.mono ht)
  | itemFunction _ ih => exact .itemFunction ih
  | imported hnode hps => exact .imported (ht _ _ hnode) (hps.mono ht)
  | noItems => exact .noItems
  | consItem _ _ ih ih' => exact .consItem ih ih'

/-- Scopes that come late enough come late enough for less. -/
theorem WritesBlock.of_le {missing : Prop} {first first' : Nat} (hfirst : first' ≤ first)
    {part : StmtPart} {ps : List Piece} {ns : List Position}
    (h : t.WritesBlock missing first part ps ns) : t.WritesBlock missing first' part ps ns :=
  h.mono (fun _ _ hnode => hnode) (fun _ _ _ hids => hids) (fun hm => hm) hfirst

end Tree

end Braced
