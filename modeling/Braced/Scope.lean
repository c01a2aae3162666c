import Braced.Arena
import Braced.Scope.Table

/-!
# Braced.Scope

Scopes, each with the names it knows, its statements and the scope around it.

A scope is entered into the forest after the one around it, so a chain of
enclosing scopes is never longer than the forest is large. Walks along a chain
use that as their bound.
-/

namespace Braced

/-- The handle of a node of a tree. -/
structure NodeId where
  index : Nat
  deriving DecidableEq, Repr, Inhabited

instance : Handle NodeId := ⟨NodeId.mk, NodeId.index, fun _ => rfl⟩

/-- The handle of a scope. -/
structure ScopeId where
  index : Nat
  deriving DecidableEq, Repr, Inhabited

instance : Handle ScopeId := ⟨ScopeId.mk, ScopeId.index, fun _ => rfl⟩

structure Scope where
  position : Position
  table : SymbolTable
  /-- The statements directly in the scope, in the order of the source. -/
  statements : Array NodeId
  /-- The scope around this one, unless it is an outermost one. -/
  parent : Option ScopeId
  deriving Repr, Inhabited

/-- All scopes, the outermost of each chain before those inside of it. -/
structure ScopeForest where
  scopes : Arena ScopeId Scope
  deriving Repr, Inhabited

namespace ScopeForest

def empty : ScopeForest := ⟨.empty⟩

def size (f : ScopeForest) : Nat :=
  f.scopes.size

def get? (f : ScopeForest) (id : ScopeId) : Option Scope :=
  f.scopes.get? id

/-- Adds a scope with no names and no statements. -/
def push (f : ScopeForest) (parent : Option ScopeId) (position : Position) :
    ScopeId × ScopeForest :=
  let (id, scopes) := f.scopes.alloc ⟨position, .empty, #[], parent⟩
  (id, ⟨scopes⟩)

/-- Appends a statement to a scope. -/
def addStatement (f : ScopeForest) (id : ScopeId) (statement : NodeId) : ScopeForest :=
  ⟨f.scopes.modify id fun s => { s with statements := s.statements.push statement }⟩

/-- The names of a scope, and none for a scope that is not there. -/
def table (f : ScopeForest) (id : ScopeId) : SymbolTable :=
  ((f.get? id).map Scope.table).getD .empty

/-- The scope around a scope. -/
def parent? (f : ScopeForest) (id : ScopeId) : Option ScopeId :=
  (f.get? id).bind Scope.parent

/-- Adds a name to a scope. -/
def insert (f : ScopeForest) (id : ScopeId) (name : String) (kind : EntryKind) :
    Except Fault (Entry × ScopeForest) :=
  ((f.table id).insert name kind).map fun (entry, table) =>
    (entry, ⟨f.scopes.modify id fun s => { s with table }⟩)

/-- The entry for a name in one scope. -/
def lookupLocal (f : ScopeForest) (id : ScopeId) (name : String) : Option Entry :=
  (f.table id).lookup name

/-- The entry for a name in the nearest of a chain of scopes that has one;
    `fuel` bounds how many scopes are looked at. -/
def lookupUp (f : ScopeForest) (name : String) : (fuel : Nat) → ScopeId → Option Entry
  | 0, _ => none
  | fuel + 1, id =>
    (f.lookupLocal id name).or ((f.parent? id).bind (f.lookupUp name fuel))

/-- The entry for a name in the nearest scope that has one, from the given scope
    outwards. -/
def lookup (f : ScopeForest) (id : ScopeId) (name : String) : Option Entry :=
  f.lookupUp name f.size id

/-- The number of scopes around a scope; `fuel` bounds how many are counted. -/
def depthUp (f : ScopeForest) : (fuel : Nat) → ScopeId → Nat
  | 0, _ => 0
  | fuel + 1, id =>
    match f.parent? id with
    | some parent => f.depthUp fuel parent + 1
    | none => 0

/-- The number of scopes around a scope. -/
def depth (f : ScopeForest) (id : ScopeId) : Nat :=
  f.depthUp f.size id

@[simp] theorem size_empty : empty.size = 0 := rfl

@[simp] theorem size_push (f : ScopeForest) (parent : Option ScopeId) (position : Position) :
    (f.push parent position).2.size = f.size + 1 := by
  simp [push, size]

@[simp] theorem size_addStatement (f : ScopeForest) (id : ScopeId) (statement : NodeId) :
    (f.addStatement id statement).size = f.size := by
  simp [addStatement, size]

/-- Adding a name leaves the number of scopes as it is. -/
theorem size_of_insert {f g : ScopeForest} {id : ScopeId} {name : String} {kind : EntryKind}
    {entry : Entry} (h : f.insert id name kind = .ok (entry, g)) : g.size = f.size := by
  unfold insert at h
  cases hi : (f.table id).insert name kind with
  | error e => simp [hi, Except.map] at h
  | ok r =>
    simp only [hi, Except.map, Except.ok.injEq, Prod.mk.injEq] at h
    rw [← h.2]
    simp [size]

end ScopeForest

end Braced
