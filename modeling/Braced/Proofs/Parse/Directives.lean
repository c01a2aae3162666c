import Braced.Proofs.Parse.Progress
import Braced.Proofs.Parse.Resolves

/-!
# Braced.Proofs.Parse.Directives

Which calls are made at startup.

A call is marked as a directive when it has been read as a statement in the root.  Such a
call is passed on by the parts that read a statement, and by no other, until it is added to
the root (`Builder.PlacedBut`).  So directives are statements of the root.  The other way
round, a call that is added to the root has been read there
(`Goal.reach_declaration_topLevelAt`).
-/

namespace Braced

/-- Whether the node is a call that is made at startup. -/
def NodeKind.isDirective : NodeKind → Bool
  | .call _ _ isDirective => isDirective
  | _ => false

/-- Whether a node of the kind may be a statement of the root.  A call may if it is made at
startup. -/
def NodeKind.isTopLevel : NodeKind → Bool
  | .declaration _ _ _ | .function _ _ _ _ _ => true
  | .call _ _ isDirective => isDirective
  | _ => false

theorem NodeKind.isDirective_of_isUnnamed {kind : NodeKind} (h : kind.isUnnamed) :
    kind.isDirective = false := by
  cases kind <;> first | rfl | cases h

namespace Builder

variable {s s' s'' : Builder} {found : Option NodeId} {id : NodeId} {kind : NodeKind}

/-! ## Nodes and statements that stay -/

theorem lt_of_kind? (h : s.tree.kind? id = some kind) : id.index < s.nodes.size := by
  obtain ⟨node, hnode, -⟩ := Option.map_eq_some_iff.mp h
  exact Tree.lt_size_of_isSome (by rw [hnode]; rfl)

theorem Extends.node?_of_lt (h : s.Extends s') (hid : id.index < s.nodes.size) :
    s'.tree.node? id = s.tree.node? id := by
  obtain ⟨node, hnode⟩ := Option.isSome_iff_exists.mp ((s.nodes.get?_isSome_iff id).mpr hid)
  rw [show s'.tree.node? id = _ from h.get?_node hnode, show s.tree.node? id = _ from hnode]

theorem Extends.kind?_of_lt (h : s.Extends s') (hid : id.index < s.nodes.size) :
    s'.tree.kind? id = s.tree.kind? id := by
  rw [Tree.kind?, Tree.kind?, h.node?_of_lt hid]

theorem Extends.statements_subset (h : s.Extends s') (scope : ScopeId) :
    s.tree.statements scope ⊆ s'.tree.statements scope := by
  intro id hid
  unfold Tree.statements at hid
  cases hscope : s.tree.scopes.get? scope with
  | none =>
    rw [hscope] at hid
    cases hid
  | some old =>
    rw [hscope] at hid
    obtain ⟨new, hnew, hgrows⟩ := h.scopes scope old hscope
    rw [Tree.statements, show s'.tree.scopes.get? scope = _ from hnew]
    exact hgrows.statements.subset hid

/-! ## Relations that only new nodes can break -/

section

variable {R : Builder → Builder → Prop} (hnodes : ∀ {s s' : Builder}, Leads s s' →
  s'.nodes = s.nodes → R s s')

include hnodes

/-- A relation that composes and holds wherever no node is added. -/
theorem Modest.of_nodes (htrans : ∀ {s s' s'' : Builder}, R s s' → R s' s'' → R s s'')
    (hmake : ∀ (s : Builder) position kind, kind.isUnnamed → R s (s.alloc position kind).2)
    (hname : ∀ (s : Builder) position name, R s (s.alloc position (.ident name)).2) :
    Modest R where
  refl _ := hnodes .refl rfl
  trans := htrans
  advance s := hnodes (Still.advance s) (Still.advance s : s.SamePlaces _).nodes
  report _ _ _ := hnodes (Still.report ..) rfl
  skipToStatementEnd s := hnodes (Still.skipToStatementEnd s) rfl
  resolveIdentifier s name position := hnodes (Still.resolveIdentifier ..)
    (Still.resolveIdentifier s name position : s.SamePlaces _).nodes
  addModule s name := hnodes (Still.addModule ..) (Still.addModule s name : s.SamePlaces _).nodes
  declare s name kind position h := hnodes (Quiet.declare _ _ _ _ h)
    (Quiet.declare s name kind position h : s.SamePlaces _).nodes
  make := hmake
  name := hname
  addStatement s id := hnodes (Plain.addStatement s id) rfl

theorem Opening.of_nodes [Moves R] : Opening R where
  toMoves := inferInstance
  enterScope _ _ := hnodes (Respected.enterScope ..) rfl
  exitScope s := hnodes (Respected.exitScope s) rfl
  setLoopDepth _ _ := hnodes (Respected.setLoopDepth ..) rfl
  setExpressionDepth s depth := hnodes (Respected.setExpressionDepth s depth) rfl

end

/-! ## Directives -/

/-- The directives that are new in `s'` are statements of the root, but for `found`, which
is to be one. -/
structure PlacedBut (found : Option NodeId) (s s' : Builder) : Prop where
  extends_ : s.Extends s'
  leads : Leads s s'
  placed : s.Sound → ∀ id kind, s.nodes.size ≤ id.index → s'.tree.kind? id = some kind →
    kind.isDirective → id ∈ s'.tree.rootStatements ∨ (found = some id ∧ s'.scope = .root)

/-- The directives that are new in `s'` are statements of the root. -/
abbrev Placed (s s' : Builder) : Prop :=
  PlacedBut none s s'

theorem PlacedBut.but (h : s.Placed s') (found : Option NodeId) : PlacedBut found s s' where
  extends_ := h.extends_
  leads := h.leads
  placed hs id kind hid hkind hdirective := by
    rcases h.placed hs id kind hid hkind hdirective with hroot | ⟨hnone, -⟩
    · exact .inl hroot
    · cases hnone

/-- What comes behind may leave a directive to be placed. -/
theorem PlacedBut.trans (h : s.Placed s') (h' : PlacedBut found s' s'') :
    PlacedBut found s s'' where
  extends_ := h.extends_.trans h'.extends_
  leads := h.leads.trans h'.leads
  placed hs id kind hid hkind hdirective := by
    by_cases hold : id.index < s'.nodes.size
    · rw [h'.extends_.kind?_of_lt hold] at hkind
      rcases h.placed hs id kind hid hkind hdirective with hroot | ⟨hnone, -⟩
      · exact .inl (h'.extends_.statements_subset .root hroot)
      · cases hnone
    · exact h'.placed (h.leads.sound_of hs) id kind (Nat.le_of_not_lt hold) hkind hdirective

/-- A directive that is to be placed stays so while the scope stays the same. -/
theorem PlacedBut.then_placed (h : PlacedBut found s s') (h' : s'.Placed s'')
    (hscope : s''.scope = s'.scope) : PlacedBut found s s'' where
  extends_ := h.extends_.trans h'.extends_
  leads := h.leads.trans h'.leads
  placed hs id kind hid hkind hdirective := by
    by_cases hold : id.index < s'.nodes.size
    · rw [h'.extends_.kind?_of_lt hold] at hkind
      rcases h.placed hs id kind hid hkind hdirective with hroot | ⟨hfound, hroot⟩
      · exact .inl (h'.extends_.statements_subset .root hroot)
      · exact .inr ⟨hfound, hscope.trans hroot⟩
    · rcases h'.placed (h.leads.sound_of hs) id kind (Nat.le_of_not_lt hold) hkind hdirective with
        hroot | ⟨hnone, -⟩
      · exact .inl hroot
      · cases hnone

theorem placed_of_nodes (h : Leads s s') (hnodes : s'.nodes = s.nodes) : s.Placed s' where
  extends_ := h.extends_
  leads := h
  placed _ id kind hid hkind _ := by
    have hlt := lt_of_kind? hkind
    rw [hnodes] at hlt
    omega

/-- A node that is new behind `alloc` is the one that was made. -/
theorem new_of_alloc {s : Builder} {position : Position} {kind kind' : NodeKind} {id : NodeId}
    (hid : s.nodes.size ≤ id.index)
    (hkind : (s.alloc position kind).2.tree.kind? id = some kind') :
    id = (s.alloc position kind).1 ∧ kind' = kind := by
  rw [Tree.kind?, s.node?_of_alloc position kind id] at hkind
  split at hkind
  · next hnew =>
    cases hkind
    cases id
    exact ⟨congrArg NodeId.mk hnew, rfl⟩
  · exact absurd (lt_of_kind? hkind) (Nat.not_lt_of_le hid)

/-- A new call may be a directive where the root is open. -/
theorem placedBut_alloc (s : Builder) (position : Position) (kind : NodeKind)
    (h : kind.isDirective → s.scope = .root) :
    PlacedBut (some (s.alloc position kind).1) s (s.alloc position kind).2 where
  extends_ := s.extends_alloc position kind
  leads := Plain.alloc s position kind
  placed _ id kind' hid hkind hdirective := by
    obtain ⟨rfl, rfl⟩ := new_of_alloc hid hkind
    exact .inr ⟨rfl, h hdirective⟩

/-- A new node that is no directive need not be placed. -/
theorem placed_alloc (s : Builder) (position : Position) (kind : NodeKind)
    (h : kind.isDirective = false) : s.Placed (s.alloc position kind).2 where
  extends_ := s.extends_alloc position kind
  leads := Plain.alloc s position kind
  placed _ id kind' hid hkind hdirective := by
    obtain ⟨rfl, rfl⟩ := new_of_alloc hid hkind
    rw [h] at hdirective
    cases hdirective

instance : Modest Placed :=
  .of_nodes placed_of_nodes .trans
    (fun s position _ h => s.placed_alloc position _ (NodeKind.isDirective_of_isUnnamed h))
    fun s position name => s.placed_alloc position (.ident name) rfl

instance : Opening Placed :=
  .of_nodes placed_of_nodes

/-- Adding what was found to the scope that is open places it. -/
theorem PlacedBut.addStatement (h : PlacedBut (some id) s s') : s.Placed (s'.addStatement id) where
  extends_ := h.extends_.trans (s'.extends_addStatement id)
  leads := h.leads.tail (.addStatement s' id)
  placed hs other kind hother hkind hdirective := by
    rcases h.placed hs other kind hother hkind hdirective with hroot | ⟨hfound, hscope⟩
    · exact .inl ((s'.extends_addStatement id).statements_subset .root hroot)
    · cases hfound
      refine .inl ?_
      rw [Tree.rootStatements, s'.statements_addStatement id (h.leads.sound_of hs).scope,
        if_pos hscope.symm]
      exact List.mem_append_right _ (List.mem_singleton_self id)

end Builder

/-! ## Parts that may give a call as a statement -/

/-- Whether the part may give a call as a statement. -/
def Goal.givesCall : Goal α → Bool
  | call isStatement => isStatement
  | production .identifierStatement | production .statement | production .declaration => true
  | _ => false

/-- Reading without the parts that may give a call as a statement. -/
def Reach.withoutCalls (reach : Reach) : Reach :=
  fun goal => if goal.givesCall then fun _ => none else reach goal

namespace Parse

open Builder Tree.Expression Tree.Statement

/-- All directives find their place while these parts are read. -/
structure PlacesCalls (reach : Reach) : Prop where
  others : ∀ {α : Type} (goal : Goal α), Keeps Placed (reach.withoutCalls goal)
  call : ∀ s, (reach (.call true)).Ensures s fun found s' => PlacedBut found s s'
  identifierStatement : ∀ s,
    (reach (.production .identifierStatement)).Ensures s fun found s' => PlacedBut found s s'
  declaration : ∀ s,
    (reach (.production .declaration)).Ensures s fun found s' => PlacedBut found s s'
  statement : ∀ s,
    (reach (.production .statement)).Ensures s fun found s' => PlacedBut found s s'

variable {reach : Reach} {s : Builder}

/-- A call is placed by what reads it as a statement, and is no directive otherwise. -/
theorem placed_call (hr : ∀ {α : Type} (goal : Goal α), Keeps Placed (reach goal))
    (isStatement : Bool) : (call reach isStatement).Ensures s fun found s' =>
      PlacedBut found s s' ∧ (isStatement = false → s.Placed s') := by
  rw [call, ensures_bind]
  refine (keeps_expect (R := Placed) s).imp fun found s₁ h₁ => ?_
  cases found with
  | none => exact (ensures_pure _).mpr ⟨h₁, fun _ => h₁⟩
  | some token =>
    simp only [ensures_bind, resolveFunction, ensures_change, alloc, ensures_act]
    have h₂ : s.Placed (s₁.resolveFunction token.identifierName token.position) :=
      h₁.trans (Still.resolveFunction ..)
    refine (keeps_argumentList hr _).imp fun found s₃ h₃ => ?_
    have h₃ := (h₂.trans (placed_alloc _ token.position (.ident token.identifierName) rfl)).trans h₃
    cases found with
    | none => exact (ensures_pure _).mpr ⟨h₃, fun _ => h₃⟩
    | some arguments =>
      simp only [ensures_bind, ensures_look, ensures_act, ensures_pure]
      refine ⟨h₃.trans (placedBut_alloc _ _ _ fun hdirective => ?_), ?_⟩
      · simp only [NodeKind.isDirective, Bool.and_eq_true, atRoot, decide_eq_true_eq] at hdirective
        exact hdirective.2
      · rintro rfl
        exact h₃.trans (placed_alloc _ _ _ rfl)

section Statements

variable (hr : PlacesCalls reach)

include hr

theorem placed_identifierStatement : (identifierStatement reach).Ensures s fun found s' =>
    PlacedBut found s s' := by
  simp only [identifierStatement, ensures_bind, ensures_look]
  have hclose : ∀ {found s₁}, PlacedBut found s s₁ → PlacedBut found s (s₁.expect .semicolon).2 :=
    fun h => h.then_placed (Moves.expect ..) (Still.expect _ .semicolon : SamePlaces _ _).scope
  split
  · rw [ensures_bind]
    exact (hr.call s).imp fun found s₁ h₁ => by
      simp only [ensures_bind, expect, ensures_act, ensures_pure]
      exact hclose h₁
  · split
    · exact (hr.others (.production .function) s).imp fun found _ h => h.but found
    · rw [ensures_bind]
      exact (hr.others (.production .variableStatement) s).imp fun found s₁ h₁ => by
        simp only [ensures_bind, expect, ensures_act, ensures_pure]
        exact hclose (h₁.but found)

omit hr in
/-- A token that nothing begins with is passed. -/
theorem placed_refusal {fault : Fault} : (do
      report fault (← currentPosition)
      let _ ← advance
      return none : Parse (Option NodeId)).Ensures s fun found s' => PlacedBut found s s' :=
  (keeps_reportHere (R := Placed) (keeps_advance.bind fun _ => keeps_pure (none : Option NodeId))
    s).imp fun found _ h => h.but found

theorem placed_declaration : (declaration .standard reach).Ensures s fun found s' =>
    PlacedBut found s s' := by
  rw [declaration, ensures_bind, currentKind, ensures_look]
  split
  · next production hproduction =>
    rcases production_of_declaration hproduction with ⟨rfl, -⟩ | ⟨rfl, -⟩
    · exact hr.identifierStatement s
    · exact (hr.others (.production .foreignImport) s).imp fun found _ h => h.but found
  · exact placed_refusal

theorem placed_statement : (statement .standard reach).Ensures s fun found s' =>
    PlacedBut found s s' := by
  have hothers (production : Production) :
      (reach.withoutCalls (.production production)).Ensures s fun found s' =>
        PlacedBut found s s' :=
    (hr.others (.production production) s).imp fun found _ h => h.but found
  rw [statement, ensures_bind, currentKind, ensures_look]
  split
  · next production hproduction =>
    rcases production_of_statement hproduction with
      ⟨rfl, -⟩ | ⟨rfl, -⟩ | ⟨rfl, -⟩ | ⟨rfl, -⟩ | ⟨rfl, -⟩
    · exact hr.identifierStatement s
    · exact hothers .returnStatement
    · exact hothers .loopControl
    · exact hothers .ifStatement
    · exact hothers .whileStatement
  · exact placed_refusal

omit hr in
/-- What was found is placed, and then other statements are read. -/
theorem placed_others {found : Option NodeId} {s₁ : Builder} {goal : Goal Unit}
    (h : PlacedBut found s s₁) (hgoal : Keeps Placed (reach goal)) :
    (addFound found >>= fun _ => reach goal).Ensures s₁ fun _ s' => s.Placed s' := by
  rw [ensures_bind]
  cases found with
  | none => exact (ensures_pure _).mpr ((hgoal s₁).imp fun _ _ h₂ => h.trans h₂)
  | some id =>
    rw [addFound, addStatement, ensures_change]
    exact (hgoal _).imp fun _ _ h₂ => h.addStatement.trans h₂

theorem placed_statements : Keeps Placed (statements reach) := by
  refine keeps_look.bind fun _ => keeps_look.bind fun _ => .ite (fun s => ?_) (keeps_pure _)
  rw [ensures_bind]
  exact (hr.statement s).imp fun found s₁ h₁ => placed_others h₁ (hr.others .statements)

theorem placed_declarations : Keeps Placed (declarations reach) := by
  refine keeps_look.bind fun _ => .ite (fun s => ?_) (keeps_pure _)
  rw [ensures_bind]
  exact (hr.declaration s).imp fun found s₁ h₁ => placed_others h₁ (hr.others .declarations)

/-- An operand is no statement. -/
theorem placed_operand : Keeps Placed (operand .standard reach) := by
  refine keeps_look.bind fun kind => ?_
  split
  · next production hproduction =>
    rcases production_of_operand hproduction with rfl | rfl | ⟨rfl, -⟩
    · exact hr.others (.production .primary)
    · exact hr.others (.production .prefixed)
    · exact hr.others (.production .grouping)
  · exact keeps_reportHere (.ite (keeps_advance.bind fun _ => keeps_pure _) (keeps_pure _))

theorem placed_unary : Keeps Placed (unary .standard reach) := by
  refine keeps_enterExpression.bind fun entered => .ite ?_ (keeps_pure _)
  exact (placed_operand hr).bind fun _ => keeps_exitExpression.bind fun _ => keeps_pure _

/-- A call in an expression is no directive. -/
theorem placed_innerCall : Keeps Placed (call reach false) := by
  have hcall : Keeps Placed (call reach.withoutCalls false) :=
    fun s => (placed_call hr.others false).imp fun _ _ h => h.2 rfl
  exact hcall

/-- One step of reading a part that gives no call as a statement. -/
theorem placed_step : ∀ {α : Type} (goal : Goal α), goal.givesCall = false →
    Keeps Placed (goal.step .standard reach)
  | _, .production .unary, _ => placed_unary hr
  | _, .production .primary, _ =>
    (keeps_primary (keeps_primaryValue hr.others) : Keeps Placed (primary reach.withoutCalls))
  | _, .production .prefixed, _ =>
    (keeps_prefixed hr.others : Keeps Placed (prefixed reach.withoutCalls))
  | _, .production .grouping, _ =>
    (keeps_grouping hr.others : Keeps Placed (grouping reach.withoutCalls))
  | _, .production .variableStatement, _ =>
    (keeps_variableStatement hr.others : Keeps Placed (variableStatement reach.withoutCalls))
  | _, .production .function, _ =>
    (keeps_function hr.others (keeps_signature hr.others)
      (keeps_act fun s => s.placed_alloc _ _ rfl) : Keeps Placed (function reach.withoutCalls))
  | _, .production .foreignImport, _ =>
    (keeps_foreignImport (keeps_signature hr.others) (keeps_act fun s => s.placed_alloc _ _ rfl) :
      Keeps Placed (foreignImport reach.withoutCalls))
  | _, .production .returnStatement, _ =>
    (keeps_returnStatement hr.others : Keeps Placed (returnStatement reach.withoutCalls))
  | _, .production .loopControl, _ => keeps_loopControl
  | _, .production .ifStatement, _ =>
    (keeps_ifStatement hr.others : Keeps Placed (ifStatement reach.withoutCalls))
  | _, .production .whileStatement, _ =>
    (keeps_whileStatement hr.others : Keeps Placed (whileStatement reach.withoutCalls))
  | _, .production .type, _ => keeps_type
  | _, .expression power, _ =>
    (keeps_expression hr.others power : Keeps Placed (expression reach.withoutCalls power))
  | _, .operators left power, _ => (keeps_operators hr.others left power :
      Keeps Placed (operators .standard reach.withoutCalls left power))
  | _, .binary left power, _ =>
    (keeps_binary hr.others left power : Keeps Placed (binary reach.withoutCalls left power))
  | _, .call false, _ => placed_innerCall hr
  | _, .arguments, _ => (keeps_arguments hr.others : Keeps Placed (arguments reach.withoutCalls))
  | _, .values, _ => (keeps_values hr.others : Keeps Placed (values reach.withoutCalls))
  | _, .parameters, _ => (keeps_parameters hr.others (keeps_parameter hr.others) :
      Keeps Placed (parameters reach.withoutCalls))
  | _, .elseClause, _ => (keeps_elseClause hr.others : Keeps Placed (elseClause reach.withoutCalls))
  | _, .block, _ => (keeps_block hr.others : Keeps Placed (block reach.withoutCalls))
  | _, .statements, _ => placed_statements hr
  | _, .declarations, _ => placed_declarations hr

end Statements

/-- **All directives find their place**, with any number of steps. -/
theorem placesCalls_reach (fuel : Nat) : PlacesCalls (Goal.reach .standard fuel) := by
  induction fuel with
  | zero =>
    have hnone : ∀ {α : Type} {goal : Goal α} {s : Builder} {Q : α → Builder → Prop},
        (Goal.reach .standard 0 goal).Ensures s Q := by
      intro α goal s Q a s' h
      cases h
    refine ⟨fun goal => ?_, fun _ => hnone, fun _ => hnone, fun _ => hnone, fun _ => hnone⟩
    exact .ite (fun _ _ _ h => by cases h) fun _ => hnone
  | succ fuel ih =>
    refine ⟨fun goal => ?_, fun _ => ?_, fun _ => placed_identifierStatement ih,
      fun _ => placed_declaration ih, fun _ => placed_statement ih⟩
    · unfold Reach.withoutCalls
      split
      · exact fun _ _ _ h => by cases h
      · next hgoal => exact placed_step ih goal (Bool.eq_false_iff.mpr hgoal)
    · exact (placed_call ih.others true).imp fun _ _ h => h.1

end Parse

/-! ## Statements of the root -/

namespace Tree

/-- A statement that the root may have stands at the token. -/
def TopLevelAt (t : Tree) (id : NodeId) (token : Token) : Prop :=
  ∃ kind, t.node? id = some ⟨token.position, kind⟩ ∧ kind.isTopLevel

theorem TopLevelAt.mono {t t' : Tree} {id : NodeId} {token : Token} (h : t.TopLevelAt id token)
    (ht : t.KeepsNodes t') : t'.TopLevelAt id token := by
  obtain ⟨kind, hnode, hkind⟩ := h
  exact ⟨kind, ht _ _ hnode, hkind⟩

end Tree

namespace Parse

open Builder Tree.Expression Tree.Statement

/-- What is found, if anything, is a node that `p` holds of. -/
def Found (p : Node → Prop) (found : Option NodeId) (s : Builder) : Prop :=
  ∀ id ∈ found, ∃ node, s.tree.node? id = some node ∧ p node

/-- Whatever `m` finds is a node that `p` holds of. -/
def Finds (p : Node → Prop) (m : Parse (Option NodeId)) : Prop :=
  ∀ s, m.Ensures s (Found p)

variable {p : Node → Prop} {reach : Reach} {s : Builder}

theorem Found.extends_ {found : Option NodeId} {s' : Builder} (h : Found p found s)
    (hs : s.Extends s') : Found p found s' := by
  intro id hid
  obtain ⟨node, hnode, hp⟩ := h id hid
  exact ⟨node, hs.keepsNodes _ _ hnode, hp⟩

theorem finds_bind {m : Parse α} {f : α → Parse (Option NodeId)} (h : ∀ a, Finds p (f a)) :
    Finds p (m >>= f) :=
  fun _ => (ensures_bind _ _).mpr fun a s' _ => h a s'

theorem finds_none : Finds p (pure none) :=
  fun _ => (ensures_pure _).mpr fun _ h => by cases h

theorem finds_alloc {position : Position} {kind : NodeKind} (h : p ⟨position, kind⟩) :
    Finds p (alloc position kind >>= fun id => pure (some id)) := by
  intro s
  rw [ensures_bind, alloc, ensures_act, ensures_pure]
  rintro id hid
  cases hid
  exact ⟨_, s.node?_alloc position kind, h⟩

/-- A token that was expected is the one that the part begins with. -/
theorem found_expect {f : Option Token → Parse (Option NodeId)} {kind : TokenKind}
    (hkind : kind ≠ .eof) (hnone : f none = pure none)
    (hsome : (f (some s.current)).Ensures (s.expect kind).2 (Found p)) :
    (expect kind >>= f).Ensures s (Found p) := by
  rw [ensures_bind, Parse.expect, ensures_act]
  cases hfound : (s.expect kind).1 with
  | none =>
    rw [hnone]
    exact finds_none _
  | some token =>
    obtain ⟨-, rfl⟩ := hasTokens_of_expect hkind hfound
    exact hsome

theorem found_variableStatement
    (hp : ∀ type name values, p ⟨s.current.position, .declaration type name values⟩) :
    (variableStatement reach).Ensures s (Found p) := by
  refine found_expect (by decide) rfl ?_
  exact finds_bind (fun _ => finds_bind fun _ => finds_bind fun _ => finds_alloc (hp ..)) _

theorem found_function (hp : ∀ name result parameters body origin,
      p ⟨s.current.position, .function name result parameters body origin⟩) :
    (function reach).Ensures s (Found p) := by
  rw [function, ensures_bind, currentPosition, ensures_look]
  refine finds_bind (fun _ => finds_bind fun found => ?_) s
  cases found with
  | none => exact finds_none
  | some found =>
    exact finds_bind fun _ => finds_bind fun _ => finds_bind fun _ => finds_bind fun _ =>
      finds_bind fun _ => finds_alloc (hp ..)

theorem found_foreignImport (hp : ∀ name result parameters body origin,
      p ⟨s.current.position, .function name result parameters body origin⟩) :
    (foreignImport reach).Ensures s (Found p) := by
  rw [foreignImport, ensures_bind, advance, ensures_act, advance_fst]
  refine finds_bind (fun _ => finds_bind fun _ => finds_bind fun _ => finds_bind fun _ =>
    finds_bind fun _ => finds_bind fun _ => finds_bind fun found => finds_bind fun _ =>
    finds_bind fun _ => ?_) _
  cases found with
  | none => exact finds_none
  | some found => exact finds_alloc (hp ..)

/-- A call that is a statement is made at startup if it is one of the root. -/
theorem found_call (hr : ∀ {α : Type} (goal : Goal α), Keeps Stays (reach goal))
    (hp : ∀ callee arguments, p ⟨s.current.position, .call callee arguments s.atRoot⟩) :
    (call reach true).Ensures s (Found p) := by
  refine found_expect (by decide) rfl ?_
  simp only [ensures_bind, resolveFunction, ensures_change, alloc, ensures_act]
  have h₁ : s.Stays (s.expect .identifier).2 := Still.expect s .identifier
  have h₂ := h₁.trans (Still.resolveFunction _ s.current.identifierName s.current.position)
  refine (keeps_argumentList hr _).imp fun found s₃ h₃ => ?_
  have h₃ := (h₂.trans (Tame.name _ s.current.position s.current.identifierName)).trans h₃
  cases found with
  | none => exact finds_none s₃
  | some arguments =>
    rw [ensures_bind, ensures_look]
    refine finds_alloc ?_ s₃
    rw [Bool.true_and, atRoot, h₃.scope]
    exact hp ..

end Parse

/-- Where a token is passed, the first one is. -/
theorem Builder.Passes.cons_sublist {s s' : Builder} (h : s.Passes s') (htokens : s.hasTokens) :
    (s.current :: s'.upcoming).Sublist s.upcoming := by
  obtain ⟨passed, hupcoming⟩ := h.extends_.upcoming_eq
  have hfirst : s.upcoming.head? = some s.current := by
    rw [upcoming, rest, List.takeWhile_cons_of_pos (by simpa using s.hasTokens_iff.mp htokens)]
    rfl
  cases passed with
  | nil =>
    have hlt := h.remaining_lt
    rw [remaining, remaining, hupcoming, List.nil_append] at hlt
    exact absurd hlt (Nat.lt_irrefl _)
  | cons token passed =>
    rw [hupcoming] at hfirst ⊢
    cases hfirst
    exact (List.sublist_append_right passed _).cons_cons _

namespace Builder

variable {s : Builder}

/-- The root is open. -/
structure InRoot (s : Builder) : Prop where
  sound : s.Sound
  scope : s.scope = .root

theorem inRoot_ofTokens (tokens : List Token) : (ofTokens tokens).InRoot :=
  ⟨sound_ofTokens tokens, rfl⟩

theorem InRoot.addStatement (h : s.InRoot) (id : NodeId) : (s.addStatement id).InRoot :=
  ⟨(Operation.addStatement s id).sound h.sound, h.scope⟩

theorem InRoot.rootStatements_addStatement (h : s.InRoot) (id : NodeId) :
    (s.addStatement id).tree.rootStatements = s.tree.rootStatements ++ [id] := by
  rw [Tree.rootStatements, s.statements_addStatement id h.sound.scope, if_pos h.scope.symm,
    Tree.rootStatements]

end Builder

namespace Goal

open Parse Builder

variable {s : Builder}

section

variable {Q : Option NodeId → Builder → Prop} (hnone : ∀ s', Q none s')
  (hclose : ∀ found s', Q found s' → Q found (s'.expect .semicolon).2)
  (hcall : ∀ fuel, (Tree.Expression.call (reach .standard fuel) true).Ensures s Q)
  (hvariable : ∀ fuel, (Tree.Statement.variableStatement (reach .standard fuel)).Ensures s Q)
  (hfunction : ∀ fuel, (Tree.Statement.function (reach .standard fuel)).Ensures s Q)

include hclose hcall hvariable hfunction

/-- What begins with a name is read as one of three parts.  What these ensure is ensured, if
a semicolon behind them does not matter. -/
theorem reach_identifierStatement_of (fuel : Nat) :
    (reach .standard fuel (.production .identifierStatement)).Ensures s Q := by
  refine ensures_of_step (.production .identifierStatement) (fun fuel => ?_) fuel
  show (Tree.Statement.identifierStatement (reach .standard fuel)).Ensures s Q
  simp only [Tree.Statement.identifierStatement, ensures_bind, ensures_look]
  have hend : ∀ found s', Q found s' →
      (Parse.expect .semicolon >>= fun _ => pure found).Ensures s' Q := by
    intro found s' h
    rw [ensures_bind, Parse.expect, ensures_act, ensures_pure]
    exact hclose found s' h
  split
  · rw [ensures_bind]
    exact (ensures_of_step (.call true) hcall fuel).imp hend
  · split
    · exact ensures_of_step (.production .function) hfunction fuel
    · rw [ensures_bind]
      exact (ensures_of_step (.production .variableStatement) hvariable fuel).imp hend

include hnone

/-- A declaration is read as one of these or as an import, or a token is passed. -/
theorem reach_declaration_of
    (himport : ∀ fuel, (Tree.Statement.foreignImport (reach .standard fuel)).Ensures s Q)
    (fuel : Nat) : (reach .standard fuel (.production .declaration)).Ensures s Q := by
  refine ensures_of_step (.production .declaration) (fun fuel => ?_) fuel
  show (Tree.Statement.declaration .standard (reach .standard fuel)).Ensures s Q
  rw [Tree.Statement.declaration, ensures_bind, currentKind, ensures_look]
  split
  · next production hproduction =>
    rcases production_of_declaration hproduction with ⟨rfl, -⟩ | ⟨rfl, -⟩
    · exact reach_identifierStatement_of hclose hcall hvariable hfunction fuel
    · exact ensures_of_step (.production .foreignImport) himport fuel
  · simp only [ensures_bind, currentPosition, ensures_look, Parse.report, ensures_change,
      Parse.advance, ensures_act, ensures_pure]
    exact hnone _

end

/-- A declaration of the root is a statement that the root may have, at the token that it
begins with. -/
theorem reach_declaration_topLevelAt (hs : s.scope = .root) (fuel : Nat) :
    (reach .standard fuel (.production .declaration)).Ensures s fun found s' =>
      ∀ id ∈ found, s'.tree.TopLevelAt id s.current := by
  have hfound := reach_declaration_of
    (Q := Found fun node => node.position = s.current.position ∧ node.kind.isTopLevel)
    (fun _ _ h => by cases h) (fun _ s' h => h.extends_ (s'.extends_expect .semicolon))
    (fun fuel => found_call (reach_stays fuel) fun _ _ => ⟨rfl, decide_eq_true hs⟩)
    (fun _ => found_variableStatement fun _ _ _ => ⟨rfl, rfl⟩)
    (fun _ => found_function fun _ _ _ _ _ => ⟨rfl, rfl⟩)
    (fun _ => found_foreignImport fun _ _ _ _ _ => ⟨rfl, rfl⟩) fuel
  refine hfound.imp fun found s' h id hid => ?_
  obtain ⟨node, hnode, hposition, hkind⟩ := h id hid
  exact ⟨node.kind, hposition ▸ hnode, hkind⟩

/-- A part that passes a token passes one, whatever number of steps it is read in. -/
theorem reach_passes {goal : Goal α} (h : goal.Fits s) (hpasses : goal.passes)
    (htokens : s.hasTokens) (fuel : Nat) :
    (reach .standard fuel goal).Ensures s fun _ s' => s.Passes s' := by
  intro a s' hread
  obtain ⟨b, t, hrun, -, hpassed⟩ := run_gives h
  have hmore := reach_mono (Nat.le_max_left fuel (enoughFuel s.ahead.length)) hread
  have hrun' := reach_mono (Nat.le_max_right fuel (enoughFuel s.ahead.length)) hrun
  rw [hmore] at hrun'
  cases hrun'
  exact hpassed hpasses htokens

/-- A declaration of the root leads back to the root, and is not yet one of its
statements. -/
theorem reach_declaration_inRoot (h : s.InRoot) (fuel : Nat) :
    (reach .standard fuel (.production .declaration)).Ensures s fun _ s' =>
      s'.InRoot ∧ s.Extends s' ∧ s'.tree.rootStatements = s.tree.rootStatements := by
  refine ((resolvesStatements_reach fuel).declaration s).imp fun found s' hbinds => ?_
  obtain ⟨es, hbinds, -⟩ := hbinds
  have hstatements := hbinds.statements h.sound
  rw [h.scope, List.append_nil] at hstatements
  exact ⟨⟨hbinds.leads.sound_of h.sound, hbinds.scope.trans h.scope⟩, hbinds.extends_, hstatements⟩

/-- **What is added to the root** are statements that the root may have, one behind the
other at tokens that are passed. -/
theorem reach_declarations_inOrder (h : s.InRoot) (hend : s.Terminated) (fuel : Nat) :
    (reach .standard fuel .declarations).Ensures s fun _ s' =>
      ∃ ids tokens, s'.tree.rootStatements = s.tree.rootStatements ++ ids ∧
        List.Forall₂ s'.tree.TopLevelAt ids tokens ∧ tokens.Sublist s.upcoming := by
  -- the tokens that statements begin with, and behind them those to come, are some of all
  refine Ensures.imp (reach_declarations_of (I := fun t => t.InRoot ∧ t.Terminated ∧
    ∃ ids tokens, t.tree.rootStatements = s.tree.rootStatements ++ ids ∧
      List.Forall₂ t.tree.TopLevelAt ids tokens ∧ (tokens ++ t.upcoming).Sublist s.upcoming)
    (fun fuel t ht htokens => ?_) fuel ⟨h, hend, [], [], by simp⟩) fun _ s' hs' => ?_
  · obtain ⟨hroot, hend, ids, tokens, hids, hplaces, hsublist⟩ := ht
    have hfits : (production .declaration).Fits t := ⟨hend, by simp [needsToken]⟩
    refine (((reach_declaration_topLevelAt hroot.scope fuel).and
      (reach_passes hfits rfl htokens fuel)).and (reach_declaration_inRoot hroot fuel)).imp
        fun found t' hlater => ?_
    obtain ⟨⟨hfound, hpasses⟩, hroot', hextends, hsame⟩ := hlater
    have hend' := hextends.terminated hend
    have hupcoming := hpasses.cons_sublist htokens
    have hplaces' := hplaces.imp fun _ _ hplace => hplace.mono hextends.keepsNodes
    cases found with
    | none =>
      refine ⟨hroot', hend', ids, tokens, hsame.trans hids, hplaces', ?_⟩
      exact ((List.Sublist.refl tokens).append
        ((List.sublist_cons_self _ _).trans hupcoming)).trans hsublist
    | some id =>
      have hadds := t'.extends_addStatement id
      refine ⟨hroot'.addStatement id, hend', ids ++ [id], tokens ++ [t.current], ?_, ?_, ?_⟩
      · rw [Option.elim_some, hroot'.rootStatements_addStatement, hsame, hids, List.append_assoc]
      · refine List.rel_append (hplaces'.imp fun _ _ hplace => hplace.mono hadds.keepsNodes) ?_
        exact .cons ((hfound id rfl).mono hadds.keepsNodes) .nil
      · rw [List.append_assoc]
        exact ((List.Sublist.refl tokens).append hupcoming).trans hsublist
  · obtain ⟨-, -, ids, tokens, hids, hplaces, hsublist⟩ := hs'
    exact ⟨ids, tokens, hids, hplaces, (List.sublist_append_left _ _).trans hsublist⟩

end Goal

/-- What is in the first of two lists has its counterpart in the second. -/
theorem exists_of_forall₂ {R : α → β → Prop} {as : List α} {bs : List β}
    (h : List.Forall₂ R as bs) {a : α} (ha : a ∈ as) : ∃ b ∈ bs, R a b := by
  induction h with
  | nil => cases ha
  | @cons a' b as bs hab _ ih =>
    rcases List.mem_cons.mp ha with rfl | ha
    · exact ⟨b, List.mem_cons_self, hab⟩
    · obtain ⟨b', hb', hr⟩ := ih ha
      exact ⟨b', List.mem_cons_of_mem b hb', hr⟩

namespace Tree

/-- **The statements of the root**, in the tree of any list of tokens: variables,
assignments, functions and calls that are made at startup, in the order of the tokens that
they begin with. -/
theorem rootStatements_inOrder (tokens : List Token) :
    ∃ firsts, firsts.Sublist tokens ∧
      List.Forall₂ (ofTokens tokens).1.TopLevelAt (ofTokens tokens).1.rootStatements firsts := by
  obtain ⟨fuel, hread⟩ := build_spec tokens
  obtain ⟨ids, firsts, hids, hplaces, hsublist⟩ := Goal.reach_declarations_inOrder
    (Builder.inRoot_ofTokens tokens) (Builder.terminated_ofTokens tokens) fuel _ _ hread
  rw [Builder.upcoming_ofTokens] at hsublist
  have hroot : (ofTokens tokens).1.rootStatements = ids := hids
  exact ⟨firsts, hsublist.trans (List.takeWhile_sublist _), hroot ▸ hplaces⟩

/-- **Directives are the calls among the statements of the root**, in the tree of any list
of tokens. -/
theorem isDirective_iff_mem_rootStatements (tokens : List Token) {id callee : NodeId}
    {arguments : List NodeId} {isDirective : Bool}
    (h : (ofTokens tokens).1.kind? id = some (.call callee arguments isDirective)) :
    isDirective = true ↔ id ∈ (ofTokens tokens).1.rootStatements := by
  constructor
  · intro hdirective
    obtain ⟨fuel, hread⟩ := build_spec tokens
    have hplaced := (Parse.placesCalls_reach fuel).others .declarations _ _ _ hread
    have hall := hplaced.placed (sees_ofTokens tokens).sound id _ (Nat.zero_le _) h hdirective
    exact hall.resolve_right fun hnone => by cases hnone.1
  · intro hid
    obtain ⟨firsts, -, hplaces⟩ := rootStatements_inOrder tokens
    obtain ⟨token, -, kind, hnode, hkind⟩ := exists_of_forall₂ hplaces hid
    rw [kind?, hnode] at h
    cases h
    exact hkind

end Tree

end Braced
