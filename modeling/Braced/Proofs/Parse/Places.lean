import Braced.Proofs.Parse.Statement
import Braced.Proofs.Parse.Stays
import Braced.Proofs.Tree.Owned
import Mathlib.Data.Multiset.Bind
import Mathlib.Tactic.Abel

/-!
# Braced.Proofs.Parse.Places

Where reading puts the nodes and scopes that it makes.

While a part is read, some nodes and scopes have been made and have no place yet
(`Loose`): operands of an operator that is to come, a body whose function is not
there yet, scopes that are open.  `s.Leaves c P` says that `P` are all of them, but
for the scope `c` that is current.  Each operation uses some of what is loose, and
leaves what it makes; a node is given up only behind a fault.
-/

namespace Braced

/-! ## Trees that grow -/

namespace Tree

variable {t t' : Tree} {id : NodeId} {scope : ScopeId}

/-- Nodes and chains of scopes stay as they are. -/
structure Keeps (t t' : Tree) : Prop where
  nodes : t.KeepsNodes t'
  parents : ∀ id parent, t.scopes.parent? id = some parent → t'.scopes.parent? id = some parent

theorem IsPlain.mono (h : t.IsPlain id) (ht : t.Keeps t') : t'.IsPlain id := by
  obtain ⟨node, hnode, hbody⟩ := h
  exact ⟨node, ht.nodes _ _ hnode, hbody⟩

theorem IsStatement.mono (h : t.IsStatement scope id) (ht : t.Keeps t') :
    t'.IsStatement scope id := by
  obtain ⟨node, hnode, hclause, hbody⟩ := h
  exact ⟨node, ht.nodes _ _ hnode, hclause, fun body h => ht.parents _ _ (hbody body h)⟩

theorem IsClause.mono (h : t.IsClause scope id) (ht : t.Keeps t') : t'.IsClause scope id := by
  obtain ⟨node, hnode, hclause, hbody⟩ := h
  exact ⟨node, ht.nodes _ _ hnode, hclause, fun body h => ht.parents _ _ (hbody body h)⟩

theorem Sits.mono {kind : NodeKind} (h : t.Sits id kind) (ht : t.Keeps t') : t'.Sits id kind where
  parts := h.parts
  inner part hpart := (h.inner part hpart).mono ht
  body body hbody := by
    obtain ⟨scope, hscope, hnext⟩ := h.body body hbody
    exact ⟨scope, ht.parents _ _ hscope, fun next h => (hnext next h).mono ht⟩
  continues := h.continues

/-- A node without a scope may stand among the statements of any scope. -/
theorem IsPlain.isStatement (h : t.IsPlain id) (scope : ScopeId) : t.IsStatement scope id := by
  obtain ⟨node, hnode, hbody⟩ := h
  refine ⟨node, hnode, ?_, by simp [hbody]⟩
  cases hclause : node.kind.isClause with
  | false => rfl
  | true =>
    simp only [NodeKind.isClause, Bool.or_eq_true, decide_eq_true_eq] at hclause
    obtain ⟨body, hsome⟩ := hclause.elim NodeKind.exists_body_of_flow NodeKind.exists_body_of_flow
    rw [hbody] at hsome
    cases hsome

/-- Where nodes and scopes are in the same places, the account is the same. -/
theorem Accounted.congr {lost nodes : Multiset NodeId} {scopes : Multiset ScopeId}
    (h : t.Accounted lost nodes scopes) (hnodes : t'.nodes = t.nodes)
    (hsize : t'.scopes.size = t.scopes.size)
    (hparent : ∀ id, t'.scopes.parent? id = t.scopes.parent? id)
    (hstatements : ∀ id, t'.statements id = t.statements id) : t'.Accounted lost nodes scopes := by
  have hnode : ∀ id, t'.node? id = t.node? id := fun id => by rw [node?, hnodes, node?]
  have hkeeps : t.Keeps t' :=
    ⟨fun id node h => (hnode id).trans h, fun id parent h => (hparent id).trans h⟩
  have hstored : t'.stored = t.stored := by
    simp only [stored, Tree.scopeIds, hnodes, hsize, funext hstatements]
  refine ⟨?_, ?_, fun id hid => (h.lost id hid).mono hkeeps, fun id node h' => ?_,
    fun scope st hst => ?_, fun id body hbody st hst => ?_⟩
  · rw [hstored, Tree.nodeIds, hnodes]
    exact h.nodeIds
  · rw [Tree.scopeIds, hsize, bodies, hnodes]
    exact h.scopeIds
  · exact (h.sits id node (hnode id ▸ h')).mono hkeeps
  · exact (h.statements scope st (hstatements scope ▸ hst)).mono hkeeps
  · rw [body?, hnode] at hbody
    exact h.closed id body hbody st (hstatements body ▸ hst)

end Tree

/-! ## What is loose -/

/-- A node or a scope that has no place yet. -/
inductive Loose
  /-- A node without a scope. -/
  | plain (id : NodeId)
  /-- A node that is to be a statement of the scope. -/
  | statement (scope : ScopeId) (id : NodeId)
  /-- An `elif` or `else` that belongs to a statement of the scope. -/
  | clause (scope : ScopeId) (id : NodeId)
  /-- A scope that has been closed, inside of the other one. -/
  | body (scope id : ScopeId)
  /-- A scope that is still open, around the other one. -/
  | around (id inner : ScopeId)

namespace Loose

def nodes : Loose → Multiset NodeId
  | plain id | statement _ id | clause _ id => {id}
  | body _ _ | around _ _ => 0

def scopes : Loose → Multiset ScopeId
  | plain _ | statement _ _ | clause _ _ => 0
  | body _ id | around id _ => {id}

/-- What is loose is what it is said to be. -/
def Valid (t : Tree) : Loose → Prop
  | plain id => t.IsPlain id
  | statement scope id => t.IsStatement scope id
  | clause scope id => t.IsClause scope id
  | body scope id => t.scopes.parent? id = some scope
  | around id inner => t.scopes.parent? inner = some id

theorem Valid.mono {t t' : Tree} {x : Loose} (h : x.Valid t) (ht : t.Keeps t') : x.Valid t' := by
  cases x with
  | plain id => exact Tree.IsPlain.mono h ht
  | statement scope id => exact Tree.IsStatement.mono h ht
  | clause scope id => exact Tree.IsClause.mono h ht
  | body scope id => exact ht.parents _ _ h
  | around id inner => exact ht.parents _ _ h

/-- Nodes without scopes. -/
def plains (ids : List NodeId) : Multiset Loose :=
  (ids.map plain : List Loose)

/-- The clause that follows, if there is one. -/
def clauses (scope : ScopeId) (next : Option NodeId) : Multiset Loose :=
  (next.toList.map (clause scope) : List Loose)

@[simp] theorem plains_nil : plains [] = 0 := rfl

@[simp] theorem plains_cons (id : NodeId) (ids : List NodeId) :
    plains (id :: ids) = {plain id} + plains ids := rfl

theorem mem_plains {id : NodeId} {ids : List NodeId} : plain id ∈ plains ids ↔ id ∈ ids := by
  simp [plains]

theorem mem_clauses {scope : ScopeId} {id : NodeId} {next : Option NodeId} :
    clause scope id ∈ clauses scope next ↔ id ∈ next := by
  simp [clauses]

theorem bind_nodes_plains (ids : List NodeId) : (plains ids).bind nodes = ids := by
  induction ids with
  | nil => rfl
  | cons id ids ih =>
    rw [plains_cons, Multiset.add_bind, Multiset.singleton_bind, ih]
    rfl

theorem bind_scopes_plains (ids : List NodeId) : (plains ids).bind scopes = 0 := by
  induction ids with
  | nil => rfl
  | cons id ids ih =>
    rw [plains_cons, Multiset.add_bind, Multiset.singleton_bind, ih]
    rfl

theorem bind_nodes_clauses (scope : ScopeId) (next : Option NodeId) :
    (clauses scope next).bind nodes = next.toList := by
  cases next <;> rfl

theorem bind_scopes_clauses (scope : ScopeId) (next : Option NodeId) :
    (clauses scope next).bind scopes = 0 := by
  cases next <;> rfl

/-- What a new node is that has a scope. -/
def withBody (scope : ScopeId) (kind : NodeKind) (id : NodeId) : Loose :=
  if kind.isClause then .clause scope id else .statement scope id

@[simp] theorem plains_append (ids others : List NodeId) :
    plains (ids ++ others) = plains ids + plains others := by
  simp [plains]

end Loose

namespace Builder

variable {s s' : Builder} {P Q : Multiset Loose} {id : NodeId} {c scope : ScopeId}

/-- Something has been reported. -/
def Noted (s : Builder) : Prop :=
  s.diagnostics.toList ≠ []

theorem Extends.noted (h : s.Extends s') (hs : s.Noted) : s'.Noted :=
  fun hnil => hs (List.prefix_nil.mp (hnil ▸ h.diagnostics))

theorem noted_report (s : Builder) (fault : Fault) (position : Position) :
    (s.report fault position).Noted := by
  simp [Noted, report]

theorem noted_tooDeep (s : Builder) : (s.report (.expressionTooDeep maxExpressionDepth)
    s.current.position).skipToStatementEnd.Noted :=
  (extends_skipToStatementEnd _).noted (s.noted_report _ _)

theorem noted_of_expect {kind : TokenKind} (h : (s.expect kind).1 = none) :
    (s.expect kind).2.Noted := by
  unfold expect at h ⊢
  split at h
  · cases h
  · next hkind =>
    rw [if_neg hkind]
    exact (extends_advance _).noted (s.noted_report _ _)

theorem Extends.keeps (h : s.Extends s') : s.tree.Keeps s'.tree :=
  ⟨fun _ _ hnode => h.get?_node hnode, fun _ _ hparent => h.scopes.parent? hparent⟩

/-! ## What operations make -/

theorem node?_of_alloc (s : Builder) (position : Position) (kind : NodeKind) (id : NodeId) :
    (s.alloc position kind).2.tree.node? id
      = if id.index = s.nodes.size then some ⟨position, kind⟩ else s.tree.node? id :=
  Arena.get?_alloc_eq s.nodes _ id

theorem nodes_alloc (s : Builder) (position : Position) (kind : NodeKind) :
    (s.alloc position kind).2.tree.nodes.toList = s.tree.nodes.toList ++ [⟨position, kind⟩] :=
  Arena.toList_alloc ..

theorem nodeIds_alloc (s : Builder) (position : Position) (kind : NodeKind) :
    (s.alloc position kind).2.tree.nodeIds = s.tree.nodeIds ++ [(s.alloc position kind).1] := by
  have hsize : (s.alloc position kind).2.tree.nodes.size = s.nodes.size + 1 :=
    Arena.size_alloc s.nodes _
  rw [Tree.nodeIds, hsize, List.range_succ, List.map_append]
  rfl

theorem stored_alloc (s : Builder) (position : Position) (kind : NodeKind) :
    ((s.alloc position kind).2.tree.stored : Multiset NodeId) = kind.parts + s.tree.stored := by
  have hscopes : (s.alloc position kind).2.tree.scopeIds.flatMap
      (s.alloc position kind).2.tree.statements = s.tree.scopeIds.flatMap s.tree.statements := rfl
  simp only [Tree.stored, nodes_alloc, hscopes, List.flatMap_append, List.flatMap_singleton,
    ← Multiset.coe_add]
  abel

theorem bodies_alloc (s : Builder) (position : Position) (kind : NodeKind) :
    (s.alloc position kind).2.tree.bodies = s.tree.bodies ++ kind.body?.toList := by
  rw [Tree.bodies, nodes_alloc, List.filterMap_append]
  cases hbody : kind.body? <;> simp [Tree.bodies, hbody]

theorem scopeIds_enterScope (s : Builder) (position : Position) :
    (s.enterScope position).2.tree.scopeIds
      = s.tree.scopeIds ++ [(s.enterScope position).1] := by
  have hsize : (s.enterScope position).2.tree.scopes.size = s.scopes.size + 1 :=
    s.scopes.size_push _ _
  rw [Tree.scopeIds, hsize, List.range_succ, List.map_append]
  rfl

/-- A new scope has no statements, and neither has one that is not there. -/
theorem statements_enterScope (s : Builder) (position : Position) (id : ScopeId) :
    (s.enterScope position).2.tree.statements id = s.tree.statements id := by
  have hget : (s.enterScope position).2.scopes.get? id = _ :=
    s.scopes.get?_push (some s.scope) position id
  rw [Tree.statements, Tree.statements, show (s.enterScope position).2.tree.scopes.get? id = _ from hget]
  split
  · next hnew =>
    have hnone : s.tree.scopes.get? id = none := by
      rw [← Option.not_isSome_iff_eq_none, ScopeForest.get?_isSome_iff]
      exact hnew.not_lt
    rw [hnone]
    rfl
  · rfl

theorem stored_enterScope (s : Builder) (position : Position) :
    (s.enterScope position).2.tree.stored = s.tree.stored := by
  have hnew : s.tree.statements (s.enterScope position).1 = [] := by
    refine List.eq_nil_iff_forall_not_mem.mpr fun id hid => ?_
    exact Nat.lt_irrefl _ (Tree.mem_statements_lt hid)
  rw [Tree.stored, scopeIds_enterScope, funext (s.statements_enterScope position),
    List.flatMap_append, List.flatMap_singleton, hnew, List.append_nil]
  rfl

theorem statements_addStatement (s : Builder) (st : NodeId) (hs : s.scope.index < s.scopes.size)
    (id : ScopeId) : (s.addStatement st).tree.statements id =
      if id = s.scope then s.tree.statements id ++ [st] else s.tree.statements id := by
  have hget : (s.addStatement st).tree.scopes.get? id = _ := s.scopes.get?_modify s.scope id _
  rw [Tree.statements, Tree.statements, hget]
  by_cases hid : id = s.scope
  · obtain ⟨scope, hscope⟩ := Option.isSome_iff_exists.mp ((s.scopes.get?_isSome_iff s.scope).mpr hs)
    have hscope' : s.tree.scopes.get? s.scope = some scope := hscope
    simp [hid, hscope, hscope']
  · rw [if_neg (Ne.symm hid), if_neg hid]
    rfl

theorem stored_addStatement (s : Builder) (st : NodeId) (hs : s.scope.index < s.scopes.size) :
    ((s.addStatement st).tree.stored : Multiset NodeId) = {st} + s.tree.stored := by
  have hscopes : (s.addStatement st).tree.scopeIds = s.tree.scopeIds := by
    have hsize : (s.addStatement st).tree.scopes.size = s.tree.scopes.size :=
      s.scopes.size_addStatement _ _
    rw [Tree.scopeIds, hsize, Tree.scopeIds]
  have hmem : s.scope ∈ s.tree.scopeIds := Tree.mem_scopeIds.mpr hs
  obtain ⟨before, after, hsplit⟩ := List.append_of_mem hmem
  -- The scope is listed once, so the lists around it are about other scopes.
  have hnodup := s.tree.nodup_scopeIds
  rw [hsplit, List.nodup_middle, List.nodup_cons, List.mem_append, not_or] at hnodup
  have hother : ∀ ids : List ScopeId, s.scope ∉ ids →
      ids.flatMap (s.addStatement st).tree.statements = ids.flatMap s.tree.statements := by
    intro ids hids
    refine List.flatMap_congr fun id hid => ?_
    rw [s.statements_addStatement st hs, if_neg]
    rintro rfl
    exact hids hid
  have hnodes : (s.addStatement st).tree.nodes = s.tree.nodes := rfl
  rw [Tree.stored, Tree.stored, hscopes, hsplit, hnodes]
  simp only [List.flatMap_append, List.flatMap_cons, hother _ hnodup.1.1, hother _ hnodup.1.2,
    s.statements_addStatement st hs, if_true, ← Multiset.coe_add, Multiset.coe_singleton]
  abel

/-- **All nodes and scopes are in their places**, but for those in `P`, the current
scope `c`, and nodes that were given up behind a fault. -/
structure Leaves (s : Builder) (c : ScopeId) (P : Multiset Loose) : Prop where
  scope : s.scope = c
  loose : ∀ x ∈ P, x.Valid s.tree
  account : ∃ lost : Multiset NodeId, (lost ≠ 0 → s.Noted) ∧
    s.tree.Accounted lost (P.bind Loose.nodes) (P.bind Loose.scopes + {c})

namespace Leaves

/-! ## Operations that make nothing -/

theorem congr (h : s.Leaves c P) (hP : P = Q) : s.Leaves c Q := hP ▸ h

/-- An operation that leaves nodes and scopes in their places. -/
theorem of_eq (h : s.Leaves c P) (hextends : s.Extends s') (hnodes : s'.nodes = s.nodes)
    (hscope : s'.scope = s.scope) (hsize : s'.scopes.size = s.scopes.size)
    (hparent : ∀ id, s'.scopes.parent? id = s.scopes.parent? id)
    (hstatements : ∀ id, s'.tree.statements id = s.tree.statements id) : s'.Leaves c P := by
  obtain ⟨lost, hlost, haccount⟩ := h.account
  exact ⟨hscope.trans h.scope, fun x hx => (h.loose x hx).mono hextends.keeps, lost,
    fun hne => hextends.noted (hlost hne), haccount.congr hnodes hsize hparent hstatements⟩

/-- A node without a scope may be given up behind a fault. -/
theorem drop (h : s.Leaves c ({.plain id} + P)) (hnoted : s.Noted) : s.Leaves c P := by
  obtain ⟨lost, -, haccount⟩ := h.account
  have hplain : s.tree.IsPlain id := h.loose (.plain id) (by simp)
  refine ⟨h.scope, fun x hx => h.loose x (Multiset.mem_add.mpr (.inr hx)), {id} + lost,
    fun _ => hnoted, { haccount with nodeIds := ?_, scopeIds := ?_, lost := ?_ }⟩
  · have heq := haccount.nodeIds
    simp only [Multiset.add_bind, Multiset.singleton_bind, Loose.nodes] at heq
    rw [heq]
    abel
  · have heq := haccount.scopeIds
    simpa only [Multiset.add_bind, Multiset.singleton_bind, Loose.scopes, Multiset.zero_add]
      using heq
  · intro other hother
    rcases Multiset.mem_add.mp hother with hother | hother
    · exact Multiset.mem_singleton.mp hother ▸ hplain
    · exact haccount.lost other hother

/-- All of them may. -/
theorem drop_plains {ids : List NodeId} (h : s.Leaves c (Loose.plains ids + P)) (hnoted : s.Noted) :
    s.Leaves c P := by
  induction ids with
  | nil => simpa using h
  | cons id ids ih =>
    rw [Loose.plains_cons, Multiset.add_assoc] at h
    exact ih (h.drop hnoted)

/-- A node without a scope may become a statement. -/
theorem asStatement (h : s.Leaves c ({.plain id} + P)) (scope : ScopeId) :
    s.Leaves c ({.statement scope id} + P) where
  scope := h.scope
  loose x hx := by
    rcases Multiset.mem_add.mp hx with hx | hx
    · rw [Multiset.mem_singleton.mp hx]
      exact Tree.IsPlain.isStatement (h.loose (.plain id) (by simp)) scope
    · exact h.loose x (Multiset.mem_add.mpr (.inr hx))
  account := by simpa only [Multiset.add_bind, Multiset.singleton_bind, Loose.nodes, Loose.scopes]
    using h.account

/-! ## Operations that make something -/

/-- What a new node refers to is used, and the node is loose instead. -/
theorem alloc {kind : NodeKind} (h : s.Leaves c (Q + P)) (position : Position) (result : Loose)
    (hnodes : Q.bind Loose.nodes = kind.parts) (hscopes : Q.bind Loose.scopes = kind.body?.toList)
    (hresult : result.nodes = {(s.alloc position kind).1}) (hplace : result.scopes = 0)
    (hvalid : result.Valid (s.alloc position kind).2.tree)
    (hsits : ∀ id : NodeId, (∀ part ∈ kind.parts, part.index < id.index) → s.tree.Sits id kind) :
    (s.alloc position kind).2.Leaves c ({result} + P) := by
  obtain ⟨lost, hlost, haccount⟩ := h.account
  have hextends := s.extends_alloc position kind
  have hkeeps := hextends.keeps
  have hinRange : ∀ part ∈ kind.parts, part.index < s.tree.nodes.size := by
    intro part hpart
    rw [← Multiset.mem_coe, ← hnodes] at hpart
    refine Tree.mem_nodeIds.mp (Multiset.mem_coe.mp ?_)
    rw [haccount.nodeIds, Multiset.add_bind]
    simp only [Multiset.mem_add]
    exact .inl (.inl (.inl hpart))
  refine ⟨h.scope, fun x hx => ?_, lost, fun hne => hextends.noted (hlost hne),
    ⟨?_, ?_, fun id hid => (haccount.lost id hid).mono hkeeps, fun id node hid => ?_,
      fun scope st hst => (haccount.statements scope st hst).mono hkeeps,
      fun id body hbody st hst => ?_⟩⟩
  · rcases Multiset.mem_add.mp hx with hx | hx
    · exact Multiset.mem_singleton.mp hx ▸ hvalid
    · exact (h.loose x (Multiset.mem_add.mpr (.inr hx))).mono hkeeps
  · rw [nodeIds_alloc, ← Multiset.coe_add, stored_alloc, haccount.nodeIds, Multiset.add_bind,
      Multiset.add_bind, Multiset.singleton_bind, hnodes, hresult, Multiset.coe_singleton]
    abel
  · rw [bodies_alloc, ← Multiset.coe_add, ← hscopes, Multiset.add_bind, Multiset.singleton_bind,
      hplace, Multiset.zero_add]
    have heq := haccount.scopeIds
    rw [Multiset.add_bind] at heq
    refine Eq.trans heq ?_
    show _ = P.bind Loose.scopes + {c} + _
    abel
  · rw [node?_of_alloc] at hid
    split at hid
    · next hnew =>
      cases hid
      exact (hsits id fun part hpart => hnew ▸ hinRange part hpart).mono hkeeps
    · exact (haccount.sits id node hid).mono hkeeps
  · rw [Tree.body?, node?_of_alloc] at hbody
    split at hbody
    · next hnew =>
      obtain ⟨node, hst, -⟩ := haccount.statements body st hst
      exact hnew ▸ Tree.index_lt_of_node? hst
    · exact haccount.closed id body hbody st hst

/-- A new scope is current, and the one around it is still open. -/
theorem enterScope (h : s.Leaves c P) (position : Position) :
    (s.enterScope position).2.Leaves (s.enterScope position).1
      ({.around c (s.enterScope position).1} + P) := by
  obtain ⟨lost, hlost, haccount⟩ := h.account
  have hkeeps := (s.extends_enterScope position).keeps
  have hparent : (s.enterScope position).2.scopes.parent? (s.enterScope position).1 = some c := by
    rw [← h.scope]
    exact (s.scopes.parent?_push _ _ _).trans (if_pos rfl)
  refine ⟨rfl, fun x hx => ?_, lost, hlost,
    ⟨?_, ?_, fun id hid => (haccount.lost id hid).mono hkeeps,
      fun id node hid => (haccount.sits id node hid).mono hkeeps, fun scope st hst => ?_,
      fun id body hbody st hst => ?_⟩⟩
  · rcases Multiset.mem_add.mp hx with hx | hx
    · exact Multiset.mem_singleton.mp hx ▸ hparent
    · exact (h.loose x hx).mono hkeeps
  · rw [stored_enterScope, Multiset.add_bind, Multiset.singleton_bind, Loose.nodes,
      Multiset.zero_add]
    exact haccount.nodeIds
  · rw [scopeIds_enterScope, ← Multiset.coe_add, haccount.scopeIds, Multiset.add_bind,
      Multiset.singleton_bind, Multiset.coe_singleton]
    show _ = {c} + P.bind Loose.scopes + {(s.enterScope position).1} + s.tree.bodies
    abel
  · rw [statements_enterScope] at hst
    exact (haccount.statements scope st hst).mono hkeeps
  · rw [statements_enterScope] at hst
    exact haccount.closed id body hbody st hst

/-- A scope that is closed is the body of a node to come. -/
theorem exitScope (h : s.Leaves c ({.around scope c} + P)) :
    s.exitScope.Leaves scope ({.body scope c} + P) := by
  have hparent : s.scopes.parent? c = some scope := h.loose (.around scope c) (by simp)
  have hscope : s.exitScope.scope = scope := by rw [Builder.exitScope, h.scope, hparent]; rfl
  obtain ⟨lost, hlost, haccount⟩ := h.account
  refine ⟨hscope, fun x hx => ?_, lost, hlost, ?_⟩
  · rcases Multiset.mem_add.mp hx with hx | hx
    · exact Multiset.mem_singleton.mp hx ▸ hparent
    · exact h.loose x (Multiset.mem_add.mpr (.inr hx))
  · simp only [Multiset.add_bind, Multiset.singleton_bind, Loose.nodes, Loose.scopes] at haccount ⊢
    have hswap : {scope} + P.bind Loose.scopes + {c} = {c} + P.bind Loose.scopes + {scope} := by
      abel
    exact hswap ▸ haccount

/-- The current scope is there. -/
theorem inScope (h : s.Leaves c P) : s.scope.index < s.scopes.size := by
  obtain ⟨lost, -, haccount⟩ := h.account
  have hmem : s.scope ∈ (s.tree.scopeIds : Multiset ScopeId) := by
    rw [haccount.scopeIds, h.scope]
    simp
  exact Tree.mem_scopeIds.mp (Multiset.mem_coe.mp hmem)

/-- A statement of the current scope gets its place.  That scope has no node yet, so
nothing changes for those that have one. -/
theorem addStatement (h : s.Leaves c ({.statement c id} + P)) : (s.addStatement id).Leaves c P := by
  obtain ⟨lost, hlost, haccount⟩ := h.account
  have hs := h.inScope
  have hkeeps := (s.extends_addStatement id).keeps
  have hvalid : s.tree.IsStatement c id := h.loose (.statement c id) (by simp)
  have hopen : c ∉ s.tree.bodies := by
    have hnodup := Multiset.coe_nodup.mpr s.tree.nodup_scopeIds
    rw [haccount.scopeIds] at hnodup
    exact fun hmem => Multiset.disjoint_left.mp (Multiset.nodup_add.mp hnodup).2.2 (by simp) hmem
  refine ⟨h.scope, fun x hx => (h.loose x (Multiset.mem_add.mpr (.inr hx))).mono hkeeps, lost,
    hlost, ⟨?_, ?_, fun id hid => (haccount.lost id hid).mono hkeeps,
      fun id node hid => (haccount.sits id node hid).mono hkeeps, fun scope st hst => ?_,
      fun owner body hbody st hst => ?_⟩⟩
  · have heq := haccount.nodeIds
    rw [Multiset.add_bind, Multiset.singleton_bind, Loose.nodes] at heq
    rw [s.stored_addStatement id hs]
    refine Eq.trans heq ?_
    abel
  · have heq := haccount.scopeIds
    rw [Multiset.add_bind, Multiset.singleton_bind, Loose.scopes, Multiset.zero_add] at heq
    have hsize : (s.addStatement id).tree.scopes.size = s.tree.scopes.size :=
      s.scopes.size_addStatement _ _
    rw [Tree.scopeIds, hsize]
    exact heq
  · rw [s.statements_addStatement id hs] at hst
    split at hst
    · next hscope =>
      rcases List.mem_append.mp hst with hst | hst
      · exact (haccount.statements scope st hst).mono hkeeps
      · rw [List.mem_singleton.mp hst, hscope, h.scope]
        exact hvalid.mono hkeeps
    · exact (haccount.statements scope st hst).mono hkeeps
  · have hother : body ≠ s.scope := by
      rw [h.scope]
      rintro rfl
      exact hopen (Tree.mem_bodies_iff.mpr ⟨owner, hbody⟩)
    rw [s.statements_addStatement id hs, if_neg hother] at hst
    exact haccount.closed owner body hbody st hst

/-! ## New nodes -/

/-- What a node without a scope refers to becomes part of the node. -/
theorem allocPlain (kind : NodeKind) (h : s.Leaves c (Loose.plains kind.inner + P))
    (position : Position) (hbody : kind.body? = none) :
    (s.alloc position kind).2.Leaves c ({.plain (s.alloc position kind).1} + P) := by
  have hnext : kind.next? = none := by
    cases kind <;> first | rfl | cases hbody
  have hparts : kind.parts = kind.inner := by simp [NodeKind.parts, hnext]
  refine h.alloc position _ ?_ ?_ rfl rfl ⟨_, s.node?_alloc position kind, hbody⟩ fun id hlt => ?_
  · rw [hparts, Loose.bind_nodes_plains]
  · rw [hbody, Loose.bind_scopes_plains]
    rfl
  · exact {
      parts := hlt
      inner := fun part hpart => h.loose (.plain part)
        (Multiset.mem_add.mpr (.inl (Loose.mem_plains.mpr hpart)))
      body := by simp [hbody]
      continues := by simp [hnext] }

/-- A node that refers to nothing. -/
theorem allocLeaf (kind : NodeKind) (h : s.Leaves c P) (position : Position)
    (hinner : kind.inner = []) (hbody : kind.body? = none) :
    (s.alloc position kind).2.Leaves c ({.plain (s.alloc position kind).1} + P) :=
  allocPlain kind (h.congr (by simp [hinner])) position hbody

/-- What a node with a scope refers to becomes part of the node, with the scope and
the clause that follows. -/
theorem allocScoped (kind : NodeKind) {body : ScopeId}
    (h : s.Leaves c (Loose.plains kind.inner + {.body c body} + Loose.clauses c kind.next? + P))
    (position : Position) (hbody : kind.body? = some body)
    (hcontinues : kind.next?.isSome → kind.continues) :
    (s.alloc position kind).2.Leaves c ({Loose.withBody c kind (s.alloc position kind).1} + P) := by
  have hparent : s.tree.scopes.parent? body = some c := h.loose (.body c body) (by simp)
  have hnode := s.node?_alloc position kind
  have hkeeps := (s.extends_alloc position kind).keeps
  have hparent' : ∀ other ∈ kind.body?,
      (s.alloc position kind).2.tree.scopes.parent? other = some c := by
    rw [hbody]
    rintro other ⟨⟩
    exact hkeeps.parents _ _ hparent
  refine h.alloc position _ ?_ ?_ ?_ ?_ ?_ fun id hlt => ?_
  · simp only [Multiset.add_bind, Multiset.singleton_bind, Loose.bind_nodes_plains,
      Loose.bind_nodes_clauses, Loose.nodes, Multiset.add_zero, NodeKind.parts, Multiset.coe_add]
  · simp only [Multiset.add_bind, Multiset.singleton_bind, Loose.bind_scopes_plains,
      Loose.bind_scopes_clauses, Loose.scopes, hbody]
    rfl
  · unfold Loose.withBody
    split <;> rfl
  · unfold Loose.withBody
    split <;> rfl
  · unfold Loose.withBody
    split
    · next hclause => exact ⟨_, hnode, hclause, hparent'⟩
    · next hclause => exact ⟨_, hnode, by simpa using hclause, hparent'⟩
  · exact {
      parts := hlt
      inner := fun part hpart => h.loose (.plain part) (by simp [Loose.mem_plains.mpr hpart])
      body := by
        rw [hbody]
        rintro other ⟨⟩
        exact ⟨c, hparent, fun next hnext => h.loose (.clause c next)
          (by simp [Loose.mem_clauses.mpr hnext])⟩
      continues := hcontinues }

end Leaves

/-! ## Operations that make nothing -/

/-- Nodes, statements and scopes are in the same places. -/
structure SamePlaces (s s' : Builder) : Prop where
  extends_ : s.Extends s'
  nodes : s'.nodes = s.nodes
  scope : s'.scope = s.scope
  size : s'.scopes.size = s.scopes.size
  parent : ∀ id, s'.scopes.parent? id = s.scopes.parent? id
  statements : ∀ id, s'.tree.statements id = s.tree.statements id

theorem Leaves.of_same (h : s.Leaves c P) (hs : s.SamePlaces s') : s'.Leaves c P :=
  h.of_eq hs.extends_ hs.nodes hs.scope hs.size hs.parent hs.statements

theorem SamePlaces.of_eq (h : s.Extends s') (hnodes : s'.nodes = s.nodes)
    (hscope : s'.scope = s.scope) (hscopes : s'.scopes = s.scopes) : s.SamePlaces s' where
  extends_ := h
  nodes := hnodes
  scope := hscope
  size := by rw [hscopes]
  parent id := by rw [hscopes]
  statements id := by rw [Tree.statements, Tree.statements, tree, tree, hscopes]

theorem samePlaces_declare (s : Builder) (name : String) (kind : EntryKind) (position : Position) :
    s.SamePlaces (s.declare name kind position) := by
  have hextends := s.extends_declare name kind position
  unfold declare at hextends ⊢
  cases hinsert : s.scopes.insert s.scope name kind with
  | error fault => exact .of_eq (s.extends_report ..) rfl rfl rfl
  | ok found =>
    rw [hinsert] at hextends
    refine ⟨hextends, rfl, rfl, ScopeForest.size_of_insert hinsert,
      ScopeForest.parent?_of_insert hinsert, fun id => ?_⟩
    obtain ⟨table, -, heq⟩ := ScopeForest.insert_eq hinsert
    have hget : found.2.get? id = _ := heq ▸ s.scopes.get?_modify s.scope id _
    rw [Tree.statements, Tree.statements, tree, tree, hget]
    split
    · rw [Option.map_map]
      rfl
    · rfl

instance : Quiet SamePlaces where
  refl s := .of_eq (.refl s) rfl rfl rfl
  trans h h' := ⟨h.extends_.trans h'.extends_, h'.nodes.trans h.nodes, h'.scope.trans h.scope,
    h'.size.trans h.size, fun id => (h'.parent id).trans (h.parent id),
    fun id => (h'.statements id).trans (h.statements id)⟩
  advance s := by
    have hextends := s.extends_advance
    obtain ⟨current, ahead, heq⟩ := s.advance_snd
    rw [heq] at hextends ⊢
    exact .of_eq hextends rfl rfl rfl
  report s fault position := .of_eq (s.extends_report ..) rfl rfl rfl
  skipToStatementEnd s := .of_eq s.extends_skipToStatementEnd rfl rfl rfl
  declare s name kind position _ := s.samePlaces_declare name kind position
  resolveIdentifier s name position := by
    unfold resolveIdentifier
    split
    · exact .of_eq (.refl s) rfl rfl rfl
    · split
      · exact .of_eq (s.extends_report ..) rfl rfl rfl
      · exact s.samePlaces_declare ..
  addModule s name := by
    have hextends := s.extends_addModule name
    unfold addModule at hextends ⊢
    split
    · exact .of_eq (.of_eq rfl rfl rfl rfl) rfl rfl rfl
    · exact .of_eq (.refl s) rfl rfl rfl

end Builder

end Braced
