import Braced.Diagnostic

/-!
# Braced.Scope.Table

The names that one scope knows, in the order in which they came.

A name can be there for several reasons, but it is bound at most once: an entry
that binds is refused when another one binds the same name, and any other entry
is made once. Tables stay small, so they are searched from the front.
-/

namespace Braced

/-- Why a name is in a table. -/
inductive EntryKind
  | declaration
  | function
  /-- The name is bound in an enclosing scope and used in this one. -/
  | reference
  /-- The name of a module that functions are imported from. -/
  | module
  deriving DecidableEq, Repr

/-- Whether an entry of the kind gives the name a meaning. -/
def EntryKind.isBinding : EntryKind → Bool
  | declaration | function => true
  | reference | module => false

structure Entry where
  name : String
  kind : EntryKind
  deriving DecidableEq, Repr

namespace Entry

/-- Whether the entry binds `name`. -/
def binds (e : Entry) (name : String) : Bool :=
  e.name = name && e.kind.isBinding

/-- Whether the entry keeps one of the given kind for `name` from being
    added. -/
def blocks (e : Entry) (name : String) (kind : EntryKind) : Bool :=
  e.name = name && (e.kind = kind || (kind.isBinding && e.kind.isBinding))

end Entry

/-- The entries of a scope, the earliest first. -/
structure SymbolTable where
  entries : List Entry
  deriving DecidableEq, Repr

namespace SymbolTable

def empty : SymbolTable := ⟨[]⟩

instance : Inhabited SymbolTable := ⟨empty⟩

def size (t : SymbolTable) : Nat :=
  t.entries.length

/-- Adds an entry at the end, and gives the entry that the table then has. A
    second binding of a name is a fault; any other entry that is there already
    is left as it is. -/
def insert (t : SymbolTable) (name : String) (kind : EntryKind) :
    Except Fault (Entry × SymbolTable) :=
  match t.entries.find? (·.blocks name kind) with
  | some present =>
    if kind.isBinding then .error (.redeclaration name) else .ok (present, t)
  | none => .ok (⟨name, kind⟩, ⟨t.entries ++ [⟨name, kind⟩]⟩)

/-- The entry that binds a name, or else the first one of that name. -/
def lookup (t : SymbolTable) (name : String) : Option Entry :=
  (t.entries.find? (·.binds name)).or (t.entries.find? (·.name = name))

/-- The entry of a name with the given kind. -/
def lookupKind (t : SymbolTable) (name : String) (kind : EntryKind) : Option Entry :=
  t.entries.find? fun e => e.name = name && e.kind = kind

@[simp] theorem lookup_empty (name : String) : empty.lookup name = none := rfl

/-- What is found under a name has that name. -/
theorem name_of_lookup {t : SymbolTable} {name : String} {e : Entry}
    (h : t.lookup name = some e) : e.name = name := by
  simp only [lookup, Option.or_eq_some_iff] at h
  rcases h with h | ⟨-, h⟩
  · have := List.find?_some h
    simp only [Entry.binds, Bool.and_eq_true, decide_eq_true_eq] at this
    exact this.1
  · simpa using List.find?_some h

end SymbolTable

end Braced
