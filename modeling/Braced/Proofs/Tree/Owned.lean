import Braced.Proofs.Scope.Chain
import Braced.Tree
import Mathlib.Data.Multiset.AddSub

/-!
# Braced.Proofs.Tree.Owned

Where the nodes and scopes of a tree belong.

In a tree that is `Owned` every handle of a node stands in one place at most, in
an earlier node or in the statements of a scope, and every scope but the root is
the body of one node, which is found in the scope around it.  So the tree has no
sharing and no cycles, and all of its scopes are reached from the root.

This follows from a local account (`Tree.Accounted`): each node refers to nodes of
the right kind that come before it, and nodes and scopes are, each once, where they
are referred to, with nothing left over but plain nodes that were given up.
-/

namespace Braced

/-! ## What a node refers to -/

namespace NodeKind

/-- The nodes that belong to a node alone, but for the clause that follows it. -/
def inner : NodeKind → List NodeId
  | ident _ | type _ _ => []
  | declaration atom name values => atom.toList ++ name :: values
  | binary _ left right => [left, right]
  | unary _ operand => [operand]
  | primary value _ =>
    match value with
    | .name id | .call id => [id]
    | .int _ | .float _ | .string _ | .char _ => []
  | call callee arguments _ => callee :: arguments
  | function name result parameters _ _ =>
    name :: (result.toList ++ parameters.flatMap fun p => [p.name, p.type])
  | jump _ value => value.toList
  | flow _ condition _ _ => condition.toList

/-- The clause that follows a clause of a conditional. -/
def next? : NodeKind → Option NodeId
  | flow _ _ _ next => next
  | _ => none

/-- All nodes that a node refers to. -/
def parts (kind : NodeKind) : List NodeId :=
  kind.inner ++ kind.next?.toList

/-- The scope of a function or of a clause. -/
def body? : NodeKind → Option ScopeId
  | function _ _ _ body _ | flow _ _ body _ => some body
  | _ => none

/-- What a clause or a loop is. -/
def flow? : NodeKind → Option Flow
  | flow clause _ _ _ => some clause
  | _ => none

/-- Whether the node follows a clause of a conditional. -/
def isClause (kind : NodeKind) : Bool :=
  kind.flow? = some .elifClause || kind.flow? = some .elseClause

/-- Whether a clause may follow the node. -/
def continues (kind : NodeKind) : Bool :=
  kind.flow? = some .ifClause || kind.flow? = some .elifClause

/-- Every clause has a body. -/
theorem exists_body_of_flow {kind : NodeKind} {flow : Flow} (h : kind.flow? = some flow) :
    ∃ body, kind.body? = some body := by
  cases kind <;> cases h
  exact ⟨_, rfl⟩

end NodeKind

namespace Tree

variable {t t' : Tree} {id head next : NodeId} {scope body : ScopeId}

/-! ## Trees without sharing -/

/-- The handles of all nodes. -/
def nodeIds (t : Tree) : List NodeId :=
  (List.range t.nodes.size).map NodeId.mk

/-- The handles of all scopes. -/
def scopeIds (t : Tree) : List ScopeId :=
  (List.range t.scopes.size).map ScopeId.mk

/-- The handles of nodes that stand in nodes and among the statements of scopes,
once for each place. -/
def stored (t : Tree) : List NodeId :=
  (t.nodes.toList.flatMap fun node => node.kind.parts) ++ t.scopeIds.flatMap t.statements

/-- The scope of a function or of a clause. -/
def body? (t : Tree) (id : NodeId) : Option ScopeId :=
  (t.node? id).bind fun node => node.kind.body?

/-- What a clause or a loop is. -/
def flow? (t : Tree) (id : NodeId) : Option Flow :=
  (t.node? id).bind fun node => node.kind.flow?

/-- One node is the clause that follows the other one. -/
def Follows (t : Tree) (id next : NodeId) : Prop :=
  ∃ node, t.node? id = some node ∧ node.kind.next? = some next

/-- The node is found among the statements of a scope through `head`: it is that
statement itself, or it is an `elif` or `else` and that statement is the `if` which
it belongs to. -/
def FoundUnder (t : Tree) (head id : NodeId) : Prop :=
  (head = id ∧ t.flow? id ≠ some .elifClause ∧ t.flow? id ≠ some .elseClause) ∨
    ((t.flow? id = some .elifClause ∨ t.flow? id = some .elseClause) ∧
      t.flow? head = some .ifClause ∧ Relation.TransGen t.Follows head id)

/-- The scope is the root, or the body of a node that is found in a scope which is
reached. -/
inductive Reaches (t : Tree) : ScopeId → Prop
  | root : Reaches t .root
  | body {scope body : ScopeId} {head id : NodeId} (hscope : Reaches t scope)
      (hhead : head ∈ t.statements scope) (hid : t.FoundUnder head id)
      (hbody : t.body? id = some body) : Reaches t body

/-- Nodes and scopes form a tree: nothing is shared, what belongs to a node comes
before it, and every scope hangs under the root where its parent says. -/
structure Owned (t : Tree) : Prop where
  inRange : ∀ id ∈ t.stored, id.index < t.nodes.size
  once : t.stored.Nodup
  parts : ∀ id node, t.node? id = some node → ∀ part ∈ node.kind.parts, part.index < id.index
  statements : ∀ id body, t.body? id = some body → ∀ st ∈ t.statements body, st.index < id.index
  owner : ∀ scope : ScopeId, scope.index < t.scopes.size → scope ≠ .root →
    ∃! id, t.body? id = some scope
  reaches : ∀ scope : ScopeId, scope.index < t.scopes.size → t.Reaches scope
  parent : ∀ id body, t.body? id = some body → ∃ scope head,
    t.scopes.parent? body = some scope ∧ head ∈ t.statements scope ∧ t.FoundUnder head id

/-! ## Roles of nodes -/

/-- The node has no scope. -/
def IsPlain (t : Tree) (id : NodeId) : Prop :=
  ∃ node, t.node? id = some node ∧ node.kind.body? = none

/-- The node is a statement of the scope, and its own scope, if there is one, is
inside of that. -/
def IsStatement (t : Tree) (scope : ScopeId) (id : NodeId) : Prop :=
  ∃ node, t.node? id = some node ∧ node.kind.isClause = false ∧
    ∀ body ∈ node.kind.body?, t.scopes.parent? body = some scope

/-- The node is an `elif` or `else` whose own scope is inside of the scope. -/
def IsClause (t : Tree) (scope : ScopeId) (id : NodeId) : Prop :=
  ∃ node, t.node? id = some node ∧ node.kind.isClause = true ∧
    ∀ body ∈ node.kind.body?, t.scopes.parent? body = some scope

/-- What a node of this kind refers to is there before it, in the right roles. -/
structure Sits (t : Tree) (id : NodeId) (kind : NodeKind) : Prop where
  parts : ∀ part ∈ kind.parts, part.index < id.index
  inner : ∀ part ∈ kind.inner, t.IsPlain part
  body : ∀ body ∈ kind.body?, ∃ scope, t.scopes.parent? body = some scope ∧
    ∀ next ∈ kind.next?, t.IsClause scope next
  continues : kind.next?.isSome → kind.continues

/-! ## The account -/

/-- The scopes that belong to nodes, once for each node. -/
def bodies (t : Tree) : List ScopeId :=
  t.nodes.toList.filterMap fun node => node.kind.body?

/-- Nodes and scopes are referred to in the right places.  Each is referred to once,
but for the nodes that are lost and for the nodes and scopes that have no place yet. -/
structure Accounted (t : Tree) (lost nodes : Multiset NodeId) (scopes : Multiset ScopeId) :
    Prop where
  nodeIds : (t.nodeIds : Multiset NodeId) = nodes + lost + t.stored
  scopeIds : (t.scopeIds : Multiset ScopeId) = scopes + t.bodies
  lost : ∀ id ∈ lost, t.IsPlain id
  sits : ∀ id node, t.node? id = some node → t.Sits id node.kind
  statements : ∀ scope, ∀ st ∈ t.statements scope, t.IsStatement scope st
  closed : ∀ id body, t.body? id = some body → ∀ st ∈ t.statements body, st.index < id.index

@[simp] theorem mem_nodeIds : id ∈ t.nodeIds ↔ id.index < t.nodes.size := by
  cases id
  simp [nodeIds]

@[simp] theorem mem_scopeIds : scope ∈ t.scopeIds ↔ scope.index < t.scopes.size := by
  cases scope
  simp [scopeIds]

theorem nodup_nodeIds (t : Tree) : t.nodeIds.Nodup :=
  List.nodup_range.map fun _ _ h => NodeId.mk.inj h

theorem nodup_scopeIds (t : Tree) : t.scopeIds.Nodup :=
  List.nodup_range.map fun _ _ h => ScopeId.mk.inj h

theorem mem_nodes_toList {node : Node} : node ∈ t.nodes.toList ↔ ∃ id, t.node? id = some node := by
  constructor
  · intro h
    obtain ⟨n, hn⟩ := List.mem_iff_getElem?.mp h
    refine ⟨⟨n⟩, ?_⟩
    rw [← hn]
    exact Array.getElem?_toList.symm
  · rintro ⟨id, hid⟩
    exact Array.mem_toList_iff.mpr (Array.mem_of_getElem? hid)

theorem mem_stored_iff : id ∈ t.stored ↔
    (∃ owner node, t.node? owner = some node ∧ id ∈ node.kind.parts) ∨
      ∃ scope : ScopeId, scope.index < t.scopes.size ∧ id ∈ t.statements scope := by
  simp only [stored, List.mem_append, List.mem_flatMap, mem_nodes_toList, mem_scopeIds]
  refine or_congr_left ⟨?_, ?_⟩
  · rintro ⟨node, ⟨owner, howner⟩, hid⟩
    exact ⟨owner, node, howner, hid⟩
  · rintro ⟨owner, node, howner, hid⟩
    exact ⟨node, ⟨owner, howner⟩, hid⟩

theorem mem_bodies_iff : body ∈ t.bodies ↔ ∃ id, t.body? id = some body := by
  simp only [bodies, List.mem_filterMap, mem_nodes_toList, body?, Option.bind_eq_some_iff]
  constructor
  · rintro ⟨node, ⟨id, hid⟩, hbody⟩
    exact ⟨id, node, hid, hbody⟩
  · rintro ⟨id, node, hid, hbody⟩
    exact ⟨node, ⟨id, hid⟩, hbody⟩

theorem mem_statements_lt (h : id ∈ t.statements scope) : scope.index < t.scopes.size := by
  refine (t.scopes.get?_isSome_iff scope).mp ?_
  cases hscope : t.scopes.get? scope with
  | none => simp [statements, hscope] at h
  | some found => rfl

theorem index_lt_of_node? {node : Node} (h : t.node? id = some node) : id.index < t.nodes.size :=
  (Arena.get?_isSome_iff t.nodes id).mp (Option.isSome_of_eq_some h)

namespace Accounted

variable {lost : Multiset NodeId}

/-! ## What the account comes to -/

section

variable (h : t.Accounted lost 0 {.root})

include h

theorem inRange (hid : id ∈ t.stored) : id.index < t.nodes.size := by
  rw [← mem_nodeIds, ← Multiset.mem_coe, h.nodeIds]
  exact Multiset.mem_add.mpr (.inr hid)

theorem nodup_stored : t.stored.Nodup := by
  have hall := Multiset.coe_nodup.mpr t.nodup_nodeIds
  rw [h.nodeIds] at hall
  exact Multiset.coe_nodup.mp (Multiset.nodup_of_le (Multiset.le_add_left _ _) hall)

/-- What has a scope is not lost. -/
theorem mem_stored (hbody : t.body? id = some body) : id ∈ t.stored := by
  obtain ⟨node, hnode, hkind⟩ := Option.bind_eq_some_iff.mp hbody
  have hid : id ∈ (t.nodeIds : Multiset NodeId) := mem_nodeIds.mpr (index_lt_of_node? hnode)
  rw [h.nodeIds, Multiset.zero_add, Multiset.mem_add] at hid
  rcases hid with hlost | hstored
  · obtain ⟨other, hother, hplain⟩ := h.lost id hlost
    rw [hnode] at hother
    cases hother
    rw [hkind] at hplain
    cases hplain
  · exact hstored

/-- A node with a scope that stands in another node is the clause behind that one,
and their scopes are side by side. -/
theorem follows_of_mem_parts {owner : NodeId} {node : Node} (hbody : t.body? id = some body)
    (howner : t.node? owner = some node) (hpart : id ∈ node.kind.parts) :
    t.Follows owner id ∧ (t.flow? owner = some .ifClause ∨ t.flow? owner = some .elifClause) ∧
      (t.flow? id = some .elifClause ∨ t.flow? id = some .elseClause) ∧
      ∃ around, t.body? owner = some around ∧
        t.scopes.parent? around = t.scopes.parent? body := by
  have hsits := h.sits owner node howner
  obtain ⟨part, hid, hkind⟩ := Option.bind_eq_some_iff.mp hbody
  have hnext : node.kind.next? = some id := by
    rcases List.mem_append.mp hpart with hinner | hnext
    · obtain ⟨other, hother, hplain⟩ := hsits.inner id hinner
      rw [hid] at hother
      cases hother
      rw [hkind] at hplain
      cases hplain
    · exact Option.mem_toList.mp hnext
  have hcontinues := hsits.continues (by rw [hnext]; rfl)
  simp only [NodeKind.continues, Bool.or_eq_true, decide_eq_true_eq] at hcontinues
  obtain ⟨around, haround⟩ : ∃ around, node.kind.body? = some around :=
    hcontinues.elim NodeKind.exists_body_of_flow NodeKind.exists_body_of_flow
  obtain ⟨scope, hscope, hclauses⟩ := hsits.body around haround
  obtain ⟨other, hother, hclause, hparent⟩ := hclauses id hnext
  rw [hid] at hother
  cases hother
  refine ⟨⟨node, howner, hnext⟩, ?_, ?_, around, ?_, ?_⟩
  · simpa [flow?, howner] using hcontinues
  · simpa [flow?, hid, NodeKind.isClause] using hclause
  · simpa [body?, howner] using haround
  · rw [hscope, hparent body hkind]

/-- **A node with a scope is found in the scope around its own.**  The node stands
among statements or behind another clause, and with that one it comes later. -/
theorem exists_head {id : NodeId} {body : ScopeId} (hbody : t.body? id = some body) :
    ∃ scope head, t.scopes.parent? body = some scope ∧ head ∈ t.statements scope ∧
      t.FoundUnder head id := by
  rcases mem_stored_iff.mp (h.mem_stored hbody) with ⟨owner, node, howner, hpart⟩ | ⟨scope, -, hst⟩
  · obtain ⟨hfollows, hcontinues, hclause, around, haround, hparent⟩ :=
      h.follows_of_mem_parts hbody howner hpart
    have hlt : id.index < owner.index := (h.sits owner node howner).parts id hpart
    have hsize := index_lt_of_node? howner
    obtain ⟨scope, head, hscope, hhead, hfound⟩ := exists_head haround
    refine ⟨scope, head, hparent ▸ hscope, hhead, .inr ⟨hclause, ?_⟩⟩
    rcases hfound with ⟨rfl, helif, -⟩ | ⟨-, hif, hchain⟩
    · exact ⟨hcontinues.resolve_right helif, .single hfollows⟩
    · exact ⟨hif, hchain.tail hfollows⟩
  · obtain ⟨node, hnode, hkind⟩ := Option.bind_eq_some_iff.mp hbody
    obtain ⟨other, hother, hclause, hparent⟩ := h.statements scope id hst
    rw [hnode] at hother
    cases hother
    have hflow : t.flow? id = node.kind.flow? := by rw [flow?, hnode, Option.bind_some]
    rw [NodeKind.isClause, ← hflow, Bool.or_eq_false_iff, decide_eq_false_iff_not,
      decide_eq_false_iff_not] at hclause
    exact ⟨scope, id, hparent body hkind, hst, .inl ⟨rfl, hclause⟩⟩
termination_by t.nodes.size - id.index

theorem existsUnique_owner (hscope : scope.index < t.scopes.size) (hroot : scope ≠ .root) :
    ∃! id, t.body? id = some scope := by
  have hall := Multiset.coe_nodup.mpr t.nodup_scopeIds
  rw [h.scopeIds] at hall
  have hmem : scope ∈ (t.scopeIds : Multiset ScopeId) := mem_scopeIds.mpr hscope
  rw [h.scopeIds, Multiset.mem_add, Multiset.mem_singleton, or_iff_right hroot] at hmem
  obtain ⟨id, hid⟩ := mem_bodies_iff.mp hmem
  refine ⟨id, hid, fun other hother => ?_⟩
  -- Bodies are listed in the order of their nodes, and none of them twice.
  have hbodies : t.bodies.Nodup :=
    Multiset.coe_nodup.mp (Multiset.nodup_of_le (Multiset.le_add_left _ _) hall)
  rw [bodies, List.Nodup, List.pairwise_filterMap, List.pairwise_iff_getElem] at hbodies
  have hdistinct : ∀ {i j : NodeId}, t.body? i = some scope → t.body? j = some scope →
      ¬ i.index < j.index := by
    intro i j hi hj hlt
    obtain ⟨node, hnode, hkind⟩ := Option.bind_eq_some_iff.mp hi
    obtain ⟨node', hnode', hkind'⟩ := Option.bind_eq_some_iff.mp hj
    obtain ⟨hi', hget⟩ := Array.getElem?_eq_some_iff.mp hnode
    obtain ⟨hj', hget'⟩ := Array.getElem?_eq_some_iff.mp hnode'
    refine hbodies i.index j.index hi' hj' hlt scope ?_ scope ?_ rfl
    · rw [← hkind, ← hget]
      rfl
    · rw [← hkind', ← hget']
      rfl
  have hindex : other.index = id.index :=
    Nat.le_antisymm (Nat.not_lt.mp (hdistinct hid hother)) (Nat.not_lt.mp (hdistinct hother hid))
  cases other
  cases id
  exact congrArg NodeId.mk hindex

/-- Scopes are reached from the root inwards. -/
theorem reaches (hordered : t.scopes.Ordered) {scope : ScopeId}
    (hscope : scope.index < t.scopes.size) : t.Reaches scope := by
  by_cases hroot : scope = .root
  · exact hroot ▸ .root
  · obtain ⟨id, hid, -⟩ := h.existsUnique_owner hscope hroot
    obtain ⟨around, head, hparent, hhead, hfound⟩ := h.exists_head hid
    have hlt := hordered scope around hparent
    exact .body (reaches hordered (Nat.lt_trans hlt hscope)) hhead hfound hid
termination_by scope.index

/-- **A tree whose account comes out is owned.** -/
theorem owned (hordered : t.scopes.Ordered) : t.Owned where
  inRange _ := h.inRange
  once := h.nodup_stored
  parts id node hnode := (h.sits id node hnode).parts
  statements := h.closed
  owner _ := h.existsUnique_owner
  reaches _ := h.reaches hordered
  parent _ _ := h.exists_head

end

/-- Where no node is lost, each is in its place. -/
theorem count_stored (h : t.Accounted 0 0 {.root}) (hid : id.index < t.nodes.size) :
    t.stored.count id = 1 := by
  have heq := h.nodeIds
  rw [Multiset.add_zero, Multiset.zero_add] at heq
  rw [(Multiset.coe_eq_coe.mp heq).symm.count_eq id]
  exact List.count_eq_one_of_mem t.nodup_nodeIds (mem_nodeIds.mpr hid)

end Accounted

end Tree

end Braced
