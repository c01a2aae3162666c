import Braced.Proofs.Tree.Owned
import Braced.Proofs.Tree.Uses

/-!
# Braced.Proofs.Tree.Tables

What the scopes of a tree declare, and what their tables list.

`t.declared? id` is what a statement declares, which only its own node tells, and
`t.Lists scope declared` says that the table of a scope has these bindings, in this
order, and no others.  A node agrees (`Tree.Agrees`) if the table of each scope in it
lists what is declared there.  Where the top-level statements of a tree agree and its
scopes belong to its nodes, all nodes that have a scope agree (`Tree.Accounted.agrees`).
-/

namespace Braced

/-! ## Declared names -/

/-- A name that is declared, by the node that carries it, and what it is declared as. -/
structure Declared where
  name : NodeId
  kind : EntryKind
  deriving DecidableEq, Repr

/-- What a parameter declares. -/
def Parameter.declared (p : Parameter) : Declared :=
  ⟨p.name, .declaration⟩

namespace NodeKind

/-- What a statement declares in the scope it stands in. -/
def declared? : NodeKind → Option Declared
  | declaration (some _) name _ => some ⟨name, .declaration⟩
  | function name _ _ _ _ => some ⟨name, .function⟩
  | _ => none

/-- The parameters of a function; there are none of anything else. -/
def parameters : NodeKind → List Parameter
  | function _ _ parameters _ _ => parameters
  | _ => []

/-- The module that a function is imported from. -/
def importedFrom? : NodeKind → Option String
  | function _ _ _ _ (.imported module) => some module
  | _ => none

/-- Only what has a scope is followed by a clause. -/
theorem next?_of_body? {kind : NodeKind} (h : kind.body? = none) : kind.next? = none := by
  cases kind <;> first | rfl | cases h

end NodeKind

namespace Tree

variable {t : Tree} {id head next : NodeId} {kind : NodeKind} {scope body : ScopeId}
  {ids : List NodeId} {parameters : List Parameter}

def declared? (t : Tree) (id : NodeId) : Option Declared :=
  (t.kind? id).bind NodeKind.declared?

/-- The variable that a statement declares, with its type. -/
def typed? (t : Tree) (id : NodeId) : Option Declared :=
  (t.declared? id).filter (·.kind = .declaration)

def importedFrom? (t : Tree) (id : NodeId) : Option String :=
  (t.kind? id).bind NodeKind.importedFrom?

/-- What a function or a block declares in its scope: its parameters and then the
variables of its statements. -/
def declaredIn (t : Tree) (parameters : List Parameter) (body : ScopeId) : List Declared :=
  parameters.map Parameter.declared ++ (t.statements body).filterMap t.typed?

/-- The entry of a name that is declared, if its node carries one. -/
def entryOf? (t : Tree) (d : Declared) : Option Entry :=
  (t.ident? d.name).map (⟨·, d.kind⟩)

/-- What the table of a scope binds is what is declared, in the same order, each name as
what it is declared as. -/
def Lists (t : Tree) (scope : ScopeId) (declared : List Declared) : Prop :=
  (t.scopes.bound scope).map some = declared.map t.entryOf?

/-! ## Bindings and entries -/

theorem bindings_eq (t : Tree) (id : NodeId) :
    t.bindings id = ((t.declared? id).bind t.entryOf?).toList := by
  rw [bindings, declared?]
  rcases t.kind? id with _ | kind
  · rfl
  · cases kind with
    | declaration type name values =>
      cases type with
      | none => rfl
      | some type => cases hname : t.ident? name <;> simp [NodeKind.declared?, entryOf?, hname]
    | function name => cases hname : t.ident? name <;> simp [NodeKind.declared?, entryOf?, hname]
    | _ => rfl

/-- Statements whose names are there bind what they declare. -/
theorem map_some_bindings (h : ∀ id ∈ ids, ∀ d ∈ t.declared? id, (t.entryOf? d).isSome) :
    (ids.flatMap t.bindings).map some = (ids.filterMap t.declared?).map t.entryOf? := by
  induction ids with
  | nil => rfl
  | cons id ids ih =>
    rw [List.forall_mem_cons] at h
    rw [List.flatMap_cons, List.map_append, ih h.2, bindings_eq]
    cases hdeclared : t.declared? id with
    | none => rw [List.filterMap_cons_none hdeclared]; rfl
    | some d =>
      rw [List.filterMap_cons_some hdeclared, List.map_cons]
      obtain ⟨e, he⟩ := Option.isSome_iff_exists.mp (h.1 d hdeclared)
      rw [Option.bind_some, he]
      rfl

/-- Parameters whose names are there bind what they declare. -/
theorem map_some_parameterBindings (h : ∀ p ∈ parameters, (t.entryOf? p.declared).isSome) :
    (t.parameterBindings parameters).map some =
      (parameters.map Parameter.declared).map t.entryOf? := by
  induction parameters with
  | nil => rfl
  | cons p parameters ih =>
    rw [List.forall_mem_cons] at h
    obtain ⟨name, hname⟩ : ∃ name, t.ident? p.name = some name :=
      Option.isSome_iff_exists.mp (by simpa [entryOf?, Parameter.declared] using h.1)
    rw [parameterBindings, List.flatMap_cons, List.map_append, List.map_cons, List.map_cons,
      show (parameters.flatMap _).map some = _ from ih h.2]
    simp [entryOf?, Parameter.declared, hname]

theorem typed?_eq (h : ∀ d ∈ t.declared? id, d.kind = .declaration) :
    t.typed? id = t.declared? id := by
  rw [typed?]
  cases hdeclared : t.declared? id with
  | none => rfl
  | some d => simp [h d hdeclared]

/-! ## Agreement -/

/-- In the node and in all that is in it, the table of each scope lists what is declared
there. -/
inductive Agrees (t : Tree) : NodeId → Prop
  | plain {id : NodeId} {kind : NodeKind} (hkind : t.kind? id = some kind)
      (hbody : kind.body? = none) : Agrees t id
  | block {id : NodeId} {kind : NodeKind} {body : ScopeId} (hkind : t.kind? id = some kind)
      (hbody : kind.body? = some body) (hlists : t.Lists body (t.declaredIn kind.parameters body))
      (hstatements : ∀ st ∈ t.statements body, Agrees t st)
      (hnext : ∀ next ∈ kind.next?, Agrees t next) : Agrees t id

namespace Agrees

/-- What agrees in a node with a scope. -/
theorem inside (h : t.Agrees id) (hkind : t.kind? id = some kind)
    (hbody : kind.body? = some body) :
    t.Lists body (t.declaredIn kind.parameters body) ∧ (∀ st ∈ t.statements body, t.Agrees st) ∧
      ∀ next ∈ kind.next?, t.Agrees next := by
  cases h with
  | plain hkind' hplain =>
    rw [hkind] at hkind'
    cases hkind'
    rw [hbody] at hplain
    cases hplain
  | block hkind' hbody' hlists hstatements hnext =>
    rw [hkind] at hkind'
    cases hkind'
    rw [hbody] at hbody'
    cases hbody'
    exact ⟨hlists, hstatements, hnext⟩

theorem of_mem (h : t.Agrees id) (hbody : t.body? id = some body) {st : NodeId}
    (hst : st ∈ t.statements body) : t.Agrees st := by
  obtain ⟨node, hnode, hbody⟩ := Option.bind_eq_some_iff.mp hbody
  exact (h.inside (by rw [kind?, hnode]; rfl) hbody).2.1 st hst

theorem follows (h : t.Agrees id) (hfollows : t.Follows id next) : t.Agrees next := by
  obtain ⟨node, hnode, hnext⟩ := hfollows
  obtain ⟨body, hbody⟩ : ∃ body, node.kind.body? = some body := by
    cases hbody : node.kind.body? with
    | none =>
      rw [NodeKind.next?_of_body? hbody] at hnext
      cases hnext
    | some body => exact ⟨body, rfl⟩
  exact (h.inside (by rw [kind?, hnode]; rfl) hbody).2.2 next hnext

/-- A clause agrees if the conditional does that it belongs to. -/
theorem foundUnder (h : t.Agrees head) (hid : t.FoundUnder head id) : t.Agrees id := by
  rcases hid with ⟨rfl, -⟩ | ⟨-, -, hchain⟩
  · exact h
  · induction hchain with
    | single hfollows => exact h.follows hfollows
    | tail _ hfollows ih => exact ih.follows hfollows

end Agrees

/-- From the top level the statements of all scopes that are reached agree. -/
theorem Reaches.agrees (h : t.Reaches scope) (hroot : ∀ st ∈ t.rootStatements, t.Agrees st) :
    ∀ st ∈ t.statements scope, t.Agrees st := by
  induction h with
  | root => exact hroot
  | body _ hhead hid hbody ih => exact fun st hst => ((ih _ hhead).foundUnder hid).of_mem hbody hst

/-- **Every node that has a scope agrees**, if the top-level statements do. -/
theorem Accounted.agrees {lost : Multiset NodeId} (h : t.Accounted lost 0 {.root})
    (hordered : t.scopes.Ordered) (hroot : ∀ st ∈ t.rootStatements, t.Agrees st)
    (hbody : t.body? id = some body) : t.Agrees id := by
  obtain ⟨scope, head, -, hhead, hid⟩ := h.exists_head hbody
  exact ((h.reaches hordered (mem_statements_lt hhead)).agrees hroot head hhead).foundUnder hid

/-! ## Statements -/

/-- A statement that agrees, and the name that it declares, if any, is there. -/
structure IsItem (t : Tree) (id : NodeId) : Prop where
  agrees : t.Agrees id
  named : ∀ d ∈ t.declared? id, (t.entryOf? d).isSome

/-- A statement that may stand in the scope: outside of the root it declares variables
only, and it is not an import. -/
structure Belongs (t : Tree) (scope : ScopeId) (id : NodeId) : Prop extends t.IsItem id where
  declares : scope ≠ .root → ∀ d ∈ t.declared? id, d.kind = .declaration
  own : t.importedFrom? id = none

/-- What declares nothing and has no scope may stand anywhere. -/
theorem Belongs.plain (hkind : t.kind? id = some kind) (hbody : kind.body? = none)
    (hdeclared : kind.declared? = none) : t.Belongs scope id where
  agrees := .plain hkind hbody
  named := by simp [declared?, hkind, hdeclared]
  declares := by simp [declared?, hkind, hdeclared]
  own := by
    rw [importedFrom?, hkind, Option.bind_some]
    cases kind <;> first | rfl | cases hbody

/-- **The root lists what its statements declare**, if it binds what they bind. -/
theorem lists_root (hitems : ∀ id ∈ t.rootStatements, t.IsItem id)
    (hbound : t.scopes.bound .root = t.rootStatements.flatMap t.bindings) :
    t.Lists .root (t.rootStatements.filterMap t.declared?) := by
  rw [Lists, hbound]
  exact map_some_bindings fun id hid => (hitems id hid).named

/-- **A function or a block lists what is declared in it**, if its scope binds what its
parameters and its statements bind. -/
theorem lists_body (hbody : body ≠ .root)
    (hparameters : ∀ p ∈ parameters, (t.entryOf? p.declared).isSome)
    (hstatements : ∀ id ∈ t.statements body, t.Belongs body id)
    (hbound : t.scopes.bound body =
      t.parameterBindings parameters ++ (t.statements body).flatMap t.bindings) :
    t.Lists body (t.declaredIn parameters body) := by
  have hvariables : (t.statements body).filterMap t.typed? =
      (t.statements body).filterMap t.declared? :=
    List.filterMap_congr fun id hid => typed?_eq ((hstatements id hid).declares hbody)
  rw [Lists, hbound, declaredIn, hvariables, List.map_append, List.map_append,
    map_some_parameterBindings hparameters,
    map_some_bindings fun id hid => (hstatements id hid).named]

end Tree

end Braced
