import Braced.Compile
import Braced.Proofs.Parse.Program

/-!
# Braced.Proofs.Target.Emits

Which trees have a program.

A tree that is written as something (`Tree.WritesBlock`) has nodes of the right
kinds in all places but one: a statement may be a function.  So the first
function inside of a block is the first thing that cannot be emitted, and without
one the whole tree can (`Tree.WritesBlock.emits_ofTree`).  The trees that are
read from tokens are of this form, and the functions inside of their blocks are
the ones that were reported.
-/

namespace Braced

/-! ## Results that fail at the first of some places -/

/-- There is a result if there are no such places, and otherwise the first of
them holds a statement that cannot be emitted. -/
def FailsAt (r : Except EmitError α) (ns : List Position) : Prop :=
  match ns with
  | [] => ∃ a, r = .ok a
  | p :: _ => r = .error (.unexpected .statement p)

namespace FailsAt

variable {r : Except EmitError α} {ns ms : List Position}

theorem ok (a : α) : FailsAt (.ok a) [] :=
  ⟨a, rfl⟩

/-- What comes later can only fail where what comes first does not. -/
theorem bind {f : α → Except EmitError β} (h : FailsAt r ns) (hf : ∀ a, FailsAt (f a) ms) :
    FailsAt (r >>= f) (ns ++ ms) := by
  cases ns with
  | nil =>
    obtain ⟨a, rfl⟩ := h
    exact hf a
  | cons p ns =>
    rw [show r = _ from h]
    rfl

theorem map (h : FailsAt r ns) (f : α → β) : FailsAt (f <$> r) ns := by
  cases ns with
  | nil =>
    obtain ⟨a, rfl⟩ := h
    exact ⟨f a, rfl⟩
  | cons p ns =>
    rw [show r = _ from h]
    rfl

theorem bind_ok {f : α → β} (h : FailsAt r ns) : FailsAt (do return f (← r)) ns := by
  have hbind := h.bind fun a => FailsAt.ok (f a)
  rwa [List.append_nil] at hbind

theorem mapM_nil (f : α → Except EmitError β) : FailsAt ([].mapM f) [] :=
  ok []

theorem mapM_cons {f : α → Except EmitError β} {a : α} {as : List α} (h : FailsAt (f a) ns)
    (hs : FailsAt (as.mapM f) ms) : FailsAt ((a :: as).mapM f) (ns ++ ms) := by
  rw [List.mapM_cons]
  exact h.bind fun b => hs.bind_ok

end FailsAt

namespace Tree

variable {t : Tree} (imports : List String)

/-! ## Names, types and expressions -/

theorem get_eq {id : NodeId} {node : Node} (h : t.node? id = some node) : t.get id = .ok node := by
  rw [get, h]

theorem identName_ok {id : NodeId} {position : Position} {name : String}
    (h : t.node? id = some ⟨position, .ident name⟩) : t.identName id = .ok name := by
  rw [identName, get_eq h]
  rfl

theorem WritesType.emits {id : NodeId} {ps : List Piece} (h : t.WritesType id ps) :
    FailsAt (t.typeAtom id) [] := by
  obtain ⟨hnode⟩ := h
  rw [typeAtom, get_eq hnode]
  exact .ok _

theorem functionName_ok {id : NodeId} {position : Position} {name : String}
    (h : t.node? id = some ⟨position, .ident name⟩) : FailsAt (t.functionName imports id) [] := by
  rw [functionName, identName_ok h]
  exact .ok _

theorem variableName_ok {id : NodeId} {position : Position} {name : String}
    (h : t.node? id = some ⟨position, .ident name⟩) : FailsAt (t.variableName id) [] := by
  rw [variableName, identName_ok h]
  exact .ok _

/-- **Expressions can be emitted** in as many steps as there are nodes before
them. -/
theorem Writes.emits {part : ExprPart} {ps : List Piece} (h : t.Writes part ps) :
    match part with
    | .expression id | .call id =>
      ∀ fuel, id.index < fuel → FailsAt (t.targetExpr imports fuel id) []
    | .arguments ids | .values ids =>
      ∀ fuel, (∀ id ∈ ids, id.index < fuel) → FailsAt (ids.mapM (t.targetExpr imports fuel)) [] := by
  induction h with
  | binary hnode hleft hright _ _ ih ih' =>
    intro fuel hfuel
    obtain ⟨n, rfl, hn⟩ := exists_fuel hfuel
    rw [targetExpr, get_eq hnode]
    exact (ih n (by omega)).bind fun _ => (ih' n (by omega)).bind_ok
  | prefixed hnode _ hoperand _ ih | nested hnode hoperand _ ih =>
    intro fuel hfuel
    obtain ⟨n, rfl, hn⟩ := exists_fuel hfuel
    rw [targetExpr, get_eq hnode]
    exact (ih n (by omega)).bind_ok
  | @constant _ _ constant _ _ _ hnode hconstant =>
    intro fuel hfuel
    obtain ⟨n, rfl, hn⟩ := exists_fuel hfuel
    rw [targetExpr, get_eq hnode]
    cases constant <;> cases hconstant <;> exact .ok _
  | name hnode hname =>
    intro fuel hfuel
    obtain ⟨n, rfl, hn⟩ := exists_fuel hfuel
    rw [targetExpr, get_eq hnode]
    exact ((variableName_ok hname).map _).bind_ok
  | called hnode hcall _ ih =>
    intro fuel hfuel
    obtain ⟨n, rfl, hn⟩ := exists_fuel hfuel
    rw [targetExpr, get_eq hnode]
    exact (ih n (by omega)).bind_ok
  | call hnode hcallee harguments _ ih =>
    intro fuel hfuel
    obtain ⟨n, rfl, hn⟩ := exists_fuel hfuel
    rw [targetExpr, get_eq hnode]
    refine (functionName_ok imports hcallee).bind fun _ => FailsAt.bind_ok ?_
    exact ih n fun a ha => Nat.lt_of_lt_of_le (harguments a ha) hn
  | noArguments | noValues => exact fun _ _ => .mapM_nil _
  | lastArgument _ ih =>
    exact fun fuel hfuel => .mapM_cons (ih fuel (hfuel _ (by simp))) (.mapM_nil _)
  | argument _ _ ih ih' | value _ _ ih ih' =>
    intro fuel hfuel
    exact .mapM_cons (ih fuel (hfuel _ (by simp)))
      (ih' fuel fun a ha => hfuel a (List.mem_cons_of_mem _ ha))

/-- The whole expression of a node can be emitted. -/
theorem Writes.emits_expr {id : NodeId} {ps : List Piece} (h : t.Writes (.expression id) ps) :
    FailsAt (t.expr imports id) [] :=
  h.emits imports _ (lt_size_of_isSome h.get?_isSome)

theorem Writes.emits_call {id : NodeId} {ps : List Piece} (h : t.Writes (.call id) ps) :
    FailsAt (t.expr imports id) [] :=
  h.emits imports _ (lt_size_of_isSome h.get?_isSome)

theorem Writes.emits_values {ids : List NodeId} {ps : List Piece}
    (h : t.Writes (.values ids) ps) : FailsAt (ids.mapM (t.expr imports)) [] :=
  h.emits imports _ fun id hid => lt_size_of_isSome (h.get?_isSome id hid)

theorem WritesValue.emits {value : Option NodeId} {ps : List Piece} (h : t.WritesValue value ps) :
    FailsAt (value.mapM (t.expr imports)) [] := by
  cases h with
  | absent => exact .ok _
  | present hps => exact (hps.emits_expr imports).map _

theorem WritesCondition.emits {missing : Prop} {condition : Option NodeId} {ps : List Piece}
    (h : t.WritesCondition missing condition ps) :
    FailsAt (condition.mapM (t.expr imports)) [] := by
  cases h with
  | absent => exact .ok _
  | present hps => exact (hps.emits_expr imports).map _

/-! ## Statements -/

theorem WritesLine.emits {id : NodeId} {ps : List Piece} (h : t.WritesLine id ps) (n : Nat) :
    FailsAt (t.targetStmt imports (n + 1) id) [] := by
  cases h with
  | declared hnode hname hps hqs =>
    rw [targetStmt, get_eq hnode]
    cases hps with
    | absent =>
      exact (variableName_ok hname).bind fun _ => (hqs.emits_values imports).bind_ok
    | present hps =>
      exact hps.emits.bind fun _ => (variableName_ok hname).bind fun _ =>
        (hqs.emits_values imports).bind_ok
  | call hps =>
    have hcall := hps.emits_call imports
    cases hps with
    | call hnode =>
      rw [targetStmt, get_eq hnode]
      exact hcall.bind_ok

/-- The body of the function under a handle fails at these places, and nothing
else of the function does. -/
def FunctionFailsAt (t : Tree) (imports : List String) (id : NodeId) (ns : List Position) : Prop :=
  ∃ position name result parameters body,
    t.node? id = some ⟨position, .function name result parameters body .own⟩ ∧
    FailsAt (t.signature imports name result parameters) [] ∧ FailsAt (t.block imports body) ns

theorem WritesSignature.emits {name : NodeId} {parameters : List Parameter}
    {result : Option NodeId} {ps : List Piece} (h : t.WritesSignature name parameters result ps) :
    FailsAt (t.signature imports name result parameters) [] := by
  obtain ⟨hname, hps, hqs⟩ := h
  have hresult : FailsAt (result.mapM fun id => return (← t.typeAtom id).1) [] := by
    cases hqs with
    | absent => exact .ok _
    | present hps => exact hps.emits.bind_ok.map _
  have hparameter : ∀ {p : Parameter} {position : Position} {text : String} {ps : List Piece},
      t.node? p.name = some ⟨position, .ident text⟩ → t.WritesType p.type ps →
      FailsAt (t.targetParameter p) [] :=
    fun hname hps => hps.emits.bind fun _ => (variableName_ok hname).bind_ok
  have hparameters : FailsAt (parameters.mapM t.targetParameter) [] := by
    induction hps with
    | nil => exact .mapM_nil _
    | last hname hps => exact .mapM_cons (hparameter hname hps) (.mapM_nil _)
    | cons hname hps _ ih => exact .mapM_cons (hparameter hname hps) ih
  exact hresult.bind fun _ => (functionName_ok imports hname).bind fun _ => hparameters.bind_ok

/-- A clause fails where its block does, and then where the clauses that follow
do. -/
theorem clauses_failsAt {id : NodeId} {position : Position} {flow : Flow}
    {condition next : Option NodeId} {body : ScopeId} {n : Nat} {ns ms : List Position}
    (hnode : t.node? id = some ⟨position, .flow flow condition body next⟩)
    (hcondition : FailsAt (condition.mapM (t.expr imports)) [])
    (hbody : FailsAt ((t.statements body).mapM (t.targetStmt imports n)) ns)
    (hnext : FailsAt (match next with
      | some id => t.targetClauses imports n id
      | none => pure []) ms) :
    FailsAt (t.targetClauses imports (n + 1) id) (ns ++ ms) := by
  rw [targetClauses, get_eq hnode]
  cases next with
  | none => exact hcondition.bind fun _ => hbody.bind fun _ => hnext.bind_ok
  | some next => exact hcondition.bind fun _ => hbody.bind fun _ => hnext.bind_ok

theorem lastClause_failsAt {id : NodeId} {position : Position} {flow : Flow}
    {condition : Option NodeId} {body : ScopeId} {n : Nat} {ns : List Position}
    (hnode : t.node? id = some ⟨position, .flow flow condition body none⟩)
    (hcondition : FailsAt (condition.mapM (t.expr imports)) [])
    (hbody : FailsAt ((t.statements body).mapM (t.targetStmt imports n)) ns) :
    FailsAt (t.targetClauses imports (n + 1) id) ns := by
  have hclauses := clauses_failsAt imports hnode hcondition hbody (.ok [])
  rwa [List.append_nil] at hclauses

theorem WritesBlock.node_conditional {missing : Prop} {first : Nat} {flow : Flow} {id : NodeId}
    {ps : List Piece} {ns : List Position}
    (h : t.WritesBlock missing first (.conditional flow id) ps ns) :
    ∃ position condition body next,
      t.node? id = some ⟨position, .flow flow condition body next⟩ := by
  cases h with
  | conditional hnode => exact ⟨_, _, _, _, hnode⟩

/-- **Statements can be emitted up to the first function** among them or inside
of them. A statement and its first clause are one node, so there are two steps
for each node. -/
theorem WritesBlock.emits {missing : Prop} {first : Nat} {part : StmtPart} {ps : List Piece}
    {ns : List Position} (h : t.WritesBlock missing first part ps ns) :
    match part with
    | .statement id => ∀ fuel, 2 * id.index + 1 < fuel →
      FailsAt (t.targetStmt imports fuel id) ns
    | .conditional _ id => ∀ fuel, 2 * id.index < fuel →
      FailsAt (t.targetClauses imports fuel id) ns
    | .clauses next => ∀ fuel, (∀ id ∈ next, 2 * id.index < fuel) →
      FailsAt (match next with | some id => t.targetClauses imports fuel id | none => pure []) ns
    | .statements ids => ∀ fuel, (∀ id ∈ ids, 2 * id.index + 1 < fuel) →
      FailsAt (ids.mapM (t.targetStmt imports fuel)) ns
    | .function id => t.FunctionFailsAt imports id ns
    | .item _ | .items _ => True := by
  induction h with
  | line hps =>
    intro fuel hfuel
    obtain ⟨n, rfl, -⟩ := exists_fuel hfuel
    exact hps.emits imports n
  | returning hnode hps =>
    intro fuel hfuel
    obtain ⟨n, rfl, -⟩ := exists_fuel hfuel
    rw [targetStmt, get_eq hnode]
    exact (hps.emits imports).bind_ok
  | @loopControl _ _ jump hnode hjump =>
    intro fuel hfuel
    obtain ⟨n, rfl, -⟩ := exists_fuel hfuel
    rw [targetStmt, get_eq hnode]
    cases jump with
    | returning => exact absurd rfl hjump
    | breaking | continuing => exact .ok _
  | conditional hnode hps _ hids hlt hnext _ _ ih ih' =>
    intro fuel hfuel
    obtain ⟨n, rfl, hn⟩ := exists_fuel hfuel
    refine clauses_failsAt imports hnode (hps.emits imports) ?_ (ih' n fun i hi => ?_)
    · rw [hids.statements_eq]
      exact ih n (fuel_of_lt hlt hn)
    · have := hnext i hi
      omega
  | ifChain hps ih =>
    intro fuel hfuel
    obtain ⟨n, rfl, hn⟩ := exists_fuel hfuel
    obtain ⟨position, condition, body, next, hnode⟩ := hps.node_conditional
    rw [targetStmt, get_eq hnode]
    exact (ih n (by omega)).bind_ok
  | whileLoop hnode hps _ hids hlt _ ih =>
    intro fuel hfuel
    obtain ⟨n, rfl, hn⟩ := exists_fuel hfuel
    obtain ⟨k, rfl, hk⟩ := exists_fuel (Nat.lt_of_lt_of_le (Nat.lt_succ_self _) hn)
    rw [targetStmt, get_eq hnode]
    refine FailsAt.bind_ok ?_
    refine lastClause_failsAt imports hnode (hps.emits imports) ?_
    rw [hids.statements_eq]
    exact ih k (fuel_of_lt hlt hk)
  | inner hnode _ ih =>
    intro fuel hfuel
    obtain ⟨n, rfl, -⟩ := exists_fuel hfuel
    obtain ⟨position, name, result, parameters, body, hfunction, -⟩ := ih
    rw [hfunction] at hnode
    cases hnode
    rw [targetStmt, get_eq hfunction]
    rfl
  | noClauses => exact fun _ _ => .ok _
  | elifClause _ ih => exact fun fuel hfuel => ih fuel (hfuel _ rfl)
  | elseClause hnode _ hids hlt _ ih =>
    intro fuel hfuel
    obtain ⟨n, rfl, hn⟩ := exists_fuel (hfuel _ rfl)
    refine lastClause_failsAt imports hnode (.ok none) ?_
    rw [hids.statements_eq]
    exact ih n (fuel_of_lt hlt hn)
  | noStatements => exact fun _ _ => .mapM_nil _
  | statement _ _ ih ih' =>
    intro fuel hfuel
    exact .mapM_cons (ih fuel (hfuel _ (by simp)))
      (ih' fuel fun a ha => hfuel a (List.mem_cons_of_mem _ ha))
  | function hnode hps _ hids hlt _ ih =>
    refine ⟨_, _, _, _, _, hnode, hps.emits imports, ?_⟩
    rw [block, hids.statements_eq]
    have hid := lt_size_of_isSome (Option.isSome_of_eq_some hnode)
    exact ih _ (fuel_of_lt (fun i hi => Nat.lt_trans (hlt i hi) hid) (Nat.le_refl _))
  | itemLine | itemFunction | imported | noItems | consItem => trivial

/-! ## The program -/

/-- A top-level node comes to what it stands for, and only the body of a function
can fail. -/
structure ItemFailsAt (t : Tree) (imports : List String) (item : NodeId × NodeKind)
    (ns : List Position) : Prop where
  prototype : FailsAt (t.prototypeOf imports item) []
  global : FailsAt (t.globalOf item) []
  function : FailsAt (t.functionOf imports item) ns
  assignment : FailsAt (t.assignmentOf imports item) []
  call : FailsAt (t.callOf imports item) []

theorem WritesLine.emits_item {id : NodeId} {ps : List Piece} (h : t.WritesLine id ps) :
    ∃ node, t.node? id = some node ∧ t.ItemFailsAt imports (id, node.kind) [] := by
  cases h with
  | declared hnode hname hps hqs =>
    refine ⟨_, hnode, .ok _, ?_, .ok _, ?_, .ok _⟩
    · cases hps with
      | absent => exact .ok _
      | present hps =>
        exact (hps.emits.bind fun _ => (variableName_ok hname).bind_ok)
    · rw [assignmentOf]
      split
      · exact (variableName_ok hname).bind fun _ => (hqs.emits_values imports).bind_ok
      · exact .ok _
  | call hps =>
    have hcall := hps.emits_call imports
    cases hps with
    | @call _ _ _ isDirective _ _ _ _ hnode =>
      refine ⟨_, hnode, .ok _, .ok _, .ok _, .ok _, ?_⟩
      cases isDirective with
      | true => exact hcall.bind_ok
      | false => exact .ok _

/-- **Top-level nodes can be emitted up to the first function in a block.** -/
theorem WritesBlock.emits_items {missing : Prop} {first : Nat} {part : StmtPart}
    {ps : List Piece} {ns : List Position} (h : t.WritesBlock missing first part ps ns) :
    match part with
    | .item id => ∃ node, t.node? id = some node ∧ t.ItemFailsAt imports (id, node.kind) ns
    | .items ids => ∃ items,
      (ids.filterMap fun id => (t.node? id).map fun node => (id, node.kind)) = items ∧
      FailsAt (items.mapM (t.prototypeOf imports)) [] ∧
      FailsAt (items.mapM t.globalOf) [] ∧
      FailsAt (items.mapM (t.functionOf imports)) ns ∧
      FailsAt (items.mapM (t.assignmentOf imports)) [] ∧
      FailsAt (items.mapM (t.callOf imports)) []
    | _ => True := by
  induction h with
  | itemLine hps => exact hps.emits_item imports
  | itemFunction hps _ =>
    obtain ⟨_, _, _, _, _, hnode, hsignature, hbody⟩ := hps.emits imports
    exact ⟨_, hnode, hsignature.bind_ok, .ok _, hsignature.bind fun _ => hbody.bind_ok, .ok _, .ok _⟩
  | imported hnode hps =>
    exact ⟨_, hnode, (hps.emits imports).bind_ok, .ok _, .ok _, .ok _, .ok _⟩
  | noItems => exact ⟨_, rfl, .mapM_nil _, .mapM_nil _, .mapM_nil _, .mapM_nil _, .mapM_nil _⟩
  | consItem _ _ ih ih' =>
    obtain ⟨node, hnode, hitem⟩ := ih
    obtain ⟨items, hitems, h₁, h₂, h₃, h₄, h₅⟩ := ih'
    refine ⟨(_, node.kind) :: items, ?_, .mapM_cons hitem.prototype h₁, .mapM_cons hitem.global h₂,
      .mapM_cons hitem.function h₃, .mapM_cons hitem.assignment h₄, .mapM_cons hitem.call h₅⟩
    rw [List.filterMap_cons_some (by rw [hnode]; rfl), hitems]
  | line | returning | loopControl | conditional | ifChain | whileLoop | inner | noClauses
  | elifClause | elseClause | noStatements | statement | function => trivial

/-- **A tree has a program up to the first function in a block.** -/
theorem WritesBlock.emits_ofTree {missing : Prop} {first : Nat} {ps : List Piece}
    {ns : List Position} (h : t.WritesBlock missing first (.items t.rootStatements) ps ns) :
    FailsAt (Target.Program.ofTree t) ns := by
  obtain ⟨items, hitems, h₁, h₂, h₃, h₄, h₅⟩ := h.emits_items t.importedNames
  have hroot : t.rootNodes = items := hitems
  rw [← hroot] at h₁ h₂ h₃ h₄ h₅
  have hcollect : ∀ {α : Type} {f : NodeId × NodeKind → Except EmitError (List α)}
      {ns : List Position}, FailsAt (t.rootNodes.mapM f) ns → FailsAt (t.collect f) ns :=
    fun h => h.bind_ok
  rw [Target.Program.ofTree]
  refine (hcollect h₁).bind fun _ => (hcollect h₂).bind fun _ => ?_
  rw [← List.append_nil ns]
  exact (hcollect h₃).bind fun _ => (hcollect h₄).bind fun _ => (hcollect h₅).bind_ok

end Tree

/-! ## Trees that were read -/

/-- Whether the fault is a function inside of a block. -/
def Diagnostic.isNested (d : Diagnostic) : Bool :=
  match d.fault with
  | .nestedFunction _ => true
  | _ => false

theorem Diagnostic.isNested_iff (d : Diagnostic) :
    d.isNested ↔ ∃ name, d.fault = .nestedFunction name := by
  unfold isNested
  split
  · next name h => simp [h]
  · next h =>
    refine ⟨fun hfalse => absurd hfalse Bool.false_ne_true, ?_⟩
    rintro ⟨name, hname⟩
    exact absurd hname (h name)

/-- The places of such functions begin with that of the first one. -/
theorem Diagnostic.find?_isNested (ds : List Diagnostic) :
    (ds.find? isNested).map Diagnostic.position = (ds.filterMap nestedPosition?).head? := by
  induction ds with
  | nil => rfl
  | cons d ds ih =>
    obtain ⟨fault, position⟩ := d
    cases fault with
    | nestedFunction name => rfl
    | _ => exact ih

namespace Tree

/-- The functions inside of blocks that are in the way of a tree are those that
were reported. -/
theorem failsAt_ofTokens (file : String) (tokens : List Token) :
    FailsAt ((ofTokens tokens).1.emit file)
      ((ofTokens tokens).2.filterMap Diagnostic.nestedPosition?) := by
  obtain ⟨ps, ns, hreads, -, hwrites⟩ := build_reads tokens
  have hnested : (ofTokens tokens).2.filterMap Diagnostic.nestedPosition? = ns := hreads.nested
  rw [hnested]
  exact hwrites.emits_ofTree.map _

theorem failsAt_find?_ofTokens (file : String) (tokens : List Token) :
    match (ofTokens tokens).2.find? Diagnostic.isNested with
    | some d => (ofTokens tokens).1.emit file = .error (.unexpected .statement d.position)
    | none => ∃ text, (ofTokens tokens).1.emit file = .ok text := by
  have hplaces := Diagnostic.find?_isNested (ofTokens tokens).2
  have hfails := failsAt_ofTokens file tokens
  cases hfind : (ofTokens tokens).2.find? Diagnostic.isNested with
  | none =>
    rw [hfind] at hplaces
    rwa [List.head?_eq_none_iff.mp hplaces.symm] at hfails
  | some d =>
    rw [hfind] at hplaces
    obtain ⟨ns, hns⟩ := List.head?_eq_some_iff.mp hplaces.symm
    rwa [hns] at hfails

/-- A tree that is handed on is that of the source's tokens, and nothing is wrong with
them. -/
theorem tokens_of_ofSource {lx : Lexicon} {source : List UInt8} {t : Tree}
    (h : Tree.ofSource lx source = .ok t) :
    ∃ tokens, Token.ofSource lx source = .ok tokens ∧ t = (ofTokens tokens).1 ∧
      (ofTokens tokens).2 = [] := by
  unfold ofSource at h
  split at h
  · next tokens htokens =>
    unfold ofTokens? at h
    split at h
    · next tree hread =>
      cases h
      exact ⟨tokens, htokens, by rw [hread], by rw [hread]⟩
    · cases h
  · cases h

/-- A tree that is handed on was read without any fault. -/
theorem ofSource_eq_ok {lx : Lexicon} {source : List UInt8} {t : Tree}
    (h : Tree.ofSource lx source = .ok t) :
    ∃ tokens, t = (ofTokens tokens).1 ∧ (ofTokens tokens).2 = [] :=
  (tokens_of_ofSource h).imp fun _ htokens => htokens.2

/-- **The tree of a list of tokens can be emitted unless a function stands inside
of a block.**  Such a function has been reported, and the first one that has been
is the place where emission fails.  A tree without any fault can be emitted. -/
theorem emit_ofTokens (file : String) (tokens : List Token) :
    ((∃ e, (ofTokens tokens).1.emit file = .error e) ↔
      ∃ d ∈ (ofTokens tokens).2, ∃ name, d.fault = .nestedFunction name) ∧
    (match (ofTokens tokens).2.find? Diagnostic.isNested with
      | some d => (ofTokens tokens).1.emit file = .error (.unexpected .statement d.position)
      | none => ∃ text, (ofTokens tokens).1.emit file = .ok text) ∧
    ∀ lx source t, Tree.ofSource lx source = .ok t → ∃ text, t.emit file = .ok text := by
  have hfirst := failsAt_find?_ofTokens file tokens
  refine ⟨?_, hfirst, fun lx source t ht => ?_⟩
  · cases hfind : (ofTokens tokens).2.find? Diagnostic.isNested with
    | none =>
      rw [hfind] at hfirst
      obtain ⟨text, htext⟩ := hfirst
      rw [htext]
      refine ⟨fun ⟨e, he⟩ => absurd he (by simp), fun ⟨d, hd, hname⟩ => ?_⟩
      exact absurd ((d.isNested_iff).mpr hname) (List.find?_eq_none.mp hfind d hd)
    | some d =>
      rw [hfind] at hfirst
      have hname := (d.isNested_iff).mp (List.find?_some hfind)
      exact ⟨fun _ => ⟨d, List.mem_of_find?_eq_some hfind, hname⟩, fun _ => ⟨_, hfirst⟩⟩
  · obtain ⟨tokens', rfl, hclean⟩ := ofSource_eq_ok ht
    have hclean' := failsAt_find?_ofTokens file tokens'
    rwa [hclean] at hclean'

end Tree

end Braced
