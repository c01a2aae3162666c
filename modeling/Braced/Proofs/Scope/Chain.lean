import Braced.Proofs.Parse.Extends
import Mathlib.Logic.Relation

/-!
# Braced.Proofs.Scope.Chain

The scopes around a scope, and what is found when a name is looked for there.

Each scope comes after the one around it (`ScopeForest.Ordered`), so the bound on
a walk outwards is never felt: a name is found exactly if some scope on the chain
has an entry for it (`ScopeForest.lookup_isSome_iff`).
-/

namespace Braced

namespace SymbolTable

/-- The table has an entry that gives `name` a meaning. -/
def Binds (t : SymbolTable) (name : String) : Prop :=
  ∃ e ∈ t.entries, e.name = name ∧ e.kind.isBinding

theorem lookup_isSome_iff (t : SymbolTable) (name : String) :
    (t.lookup name).isSome ↔ ∃ e ∈ t.entries, e.name = name := by
  have hweak : (t.entries.find? (·.binds name)).isSome → ∃ e ∈ t.entries, e.name = name := by
    rw [List.find?_isSome]
    rintro ⟨e, he, hbinds⟩
    simp only [Entry.binds, Bool.and_eq_true, decide_eq_true_eq] at hbinds
    exact ⟨e, he, hbinds.1⟩
  have hname : (t.entries.find? (·.name = name)).isSome ↔ ∃ e ∈ t.entries, e.name = name := by
    simp only [List.find?_isSome, decide_eq_true_eq]
  rw [lookup, Option.isSome_or, Bool.or_eq_true, hname]
  exact ⟨fun h => h.elim hweak id, .inr⟩

/-- What is found is in the table. -/
theorem mem_of_lookup {t : SymbolTable} {name : String} {e : Entry} (h : t.lookup name = some e) :
    e ∈ t.entries := by
  rw [lookup, Option.or_eq_some_iff] at h
  exact h.elim List.mem_of_find?_eq_some fun h => List.mem_of_find?_eq_some h.2

/-- Adding an entry adds at most that one. -/
theorem mem_of_insert {t t' : SymbolTable} {name : String} {kind : EntryKind} {entry e : Entry}
    (h : t.insert name kind = .ok (entry, t')) (he : e ∈ t'.entries) :
    e ∈ t.entries ∨ e = ⟨name, kind⟩ := by
  unfold insert at h
  split at h
  · split at h
    · cases h
    · cases h
      exact .inl he
  · cases h
    simpa using he

end SymbolTable

namespace ScopeForest

variable {f g : ScopeForest} {id outer : ScopeId}

/-! ## The scopes around a scope -/

/-- `outer` is `id` or one of the scopes around it. -/
def Encloses (f : ScopeForest) (outer id : ScopeId) : Prop :=
  Relation.ReflTransGen (fun inner around => f.parent? inner = some around) id outer

/-- `outer` is one of the scopes around `id`. -/
def Surrounds (f : ScopeForest) (outer id : ScopeId) : Prop :=
  Relation.TransGen (fun inner around => f.parent? inner = some around) id outer

theorem Surrounds.encloses (h : f.Surrounds outer id) : f.Encloses outer id :=
  Relation.TransGen.to_reflTransGen h

/-- A scope on the chain is the innermost one, or on the chain of its parent. -/
theorem encloses_iff : f.Encloses outer id ↔
    outer = id ∨ ∃ parent, f.parent? id = some parent ∧ f.Encloses outer parent :=
  Relation.ReflTransGen.cases_head_iff.trans (or_congr_left eq_comm)

/-- Each scope comes after the one around it. -/
def Ordered (f : ScopeForest) : Prop :=
  ∀ id parent, f.parent? id = some parent → parent.index < id.index

/-! ## Looking for a name -/

theorem lookupUp_isSome_iff (hf : f.Ordered) (name : String) {fuel : Nat}
    (hfuel : id.index < fuel) : (f.lookupUp name fuel id).isSome ↔
      ∃ outer, f.Encloses outer id ∧ (f.lookupLocal outer name).isSome := by
  induction fuel generalizing id with
  | zero => exact absurd hfuel (Nat.not_lt_zero _)
  | succ fuel ih =>
    have hchain : ∀ outer, f.Encloses outer id ↔
        outer = id ∨ ∃ parent, f.parent? id = some parent ∧ f.Encloses outer parent :=
      fun _ => encloses_iff
    simp only [lookupUp, Option.isSome_or, Bool.or_eq_true, hchain, or_and_right, exists_or,
      exists_eq_left]
    refine or_congr_right ?_
    cases hparent : f.parent? id with
    | none => simp
    | some parent =>
      have hlt := hf id parent hparent
      simpa using ih (by omega)

/-- **A name is found exactly if some scope on the chain has an entry for it.** -/
theorem lookup_isSome_iff (hf : f.Ordered) (hid : id.index < f.size) (name : String) :
    (f.lookup id name).isSome ↔
      ∃ outer, f.Encloses outer id ∧ ∃ e ∈ (f.table outer).entries, e.name = name := by
  simp only [lookup, lookupUp_isSome_iff hf name hid, lookupLocal,
    SymbolTable.lookup_isSome_iff]

/-! ## Changes -/

theorem Grows.parent? (h : f.Grows g) {parent : ScopeId} (hparent : f.parent? id = some parent) :
    g.parent? id = some parent := by
  obtain ⟨scope, hscope, heq⟩ := Option.bind_eq_some_iff.mp hparent
  obtain ⟨scope', hscope', hgrows⟩ := h id scope hscope
  rw [ScopeForest.parent?, hscope', Option.bind_some, hgrows.parent, heq]

theorem Grows.surrounds (h : f.Grows g) (hsurrounds : f.Surrounds outer id) :
    g.Surrounds outer id :=
  Relation.TransGen.mono (fun _ _ hparent => h.parent? hparent) _ _ hsurrounds

theorem Grows.encloses (h : f.Grows g) (hencloses : f.Encloses outer id) : g.Encloses outer id :=
  Relation.ReflTransGen.mono (fun _ _ hparent => h.parent? hparent) _ _ hencloses

theorem Grows.table (h : f.Grows g) (id : ScopeId) :
    (f.table id).entries <+: (g.table id).entries := by
  cases hscope : f.get? id with
  | none => simp [ScopeForest.table, hscope, SymbolTable.empty]
  | some scope =>
    obtain ⟨scope', hscope', hgrows⟩ := h id scope hscope
    simpa [ScopeForest.table, hscope, hscope'] using hgrows.table

theorem Grows.binds (h : f.Grows g) {name : String} (hbinds : (f.table id).Binds name) :
    (g.table id).Binds name := by
  obtain ⟨e, he, hname⟩ := hbinds
  exact ⟨e, (h.table id).subset he, hname⟩

theorem parent?_push (f : ScopeForest) (parent : Option ScopeId) (position : Position)
    (id : ScopeId) : (f.push parent position).2.parent? id =
      if id.index = f.size then parent else f.parent? id := by
  rw [parent?, get?_push]
  split
  · rfl
  · rfl

theorem table_push (f : ScopeForest) (parent : Option ScopeId) (position : Position)
    (id : ScopeId) : (f.push parent position).2.table id =
      if id.index = f.size then .empty else f.table id := by
  rw [table, get?_push]
  split
  · rfl
  · rfl

/-- A change inside of one scope that leaves it in its place leaves all chains as
they are. -/
theorem parent?_modify (f : ScopeForest) (change : Scope → Scope)
    (hchange : ∀ scope, (change scope).parent = scope.parent) (id other : ScopeId) :
    parent? ⟨f.scopes.modify id change⟩ other = f.parent? other := by
  rw [parent?, get?_modify]
  split
  · simp only [parent?, Option.bind_map, Function.comp_def, hchange]
  · rfl

theorem parent?_addStatement (f : ScopeForest) (id other : ScopeId) (statement : NodeId) :
    (f.addStatement id statement).parent? other = f.parent? other :=
  f.parent?_modify _ (fun _ => by rfl) id other

theorem table_addStatement (f : ScopeForest) (id other : ScopeId) (statement : NodeId) :
    (f.addStatement id statement).table other = f.table other := by
  rw [table, addStatement, get?_modify]
  split
  · simp only [table, Option.map_map, Function.comp_def]
  · rfl

/-- Adding a name to one scope changes only the table of that scope, and that as
the table itself says. -/
theorem insert_eq {name : String} {kind : EntryKind} {entry : Entry}
    (h : f.insert id name kind = .ok (entry, g)) :
    ∃ table, (f.table id).insert name kind = .ok (entry, table) ∧
      g = ⟨f.scopes.modify id fun scope => { scope with table }⟩ := by
  unfold insert at h
  cases hinsert : (f.table id).insert name kind with
  | error fault => rw [hinsert] at h; cases h
  | ok found =>
    rw [hinsert] at h
    cases h
    exact ⟨found.2, rfl, rfl⟩

theorem parent?_of_insert {name : String} {kind : EntryKind} {entry : Entry}
    (h : f.insert id name kind = .ok (entry, g)) (other : ScopeId) :
    g.parent? other = f.parent? other := by
  obtain ⟨table, -, rfl⟩ := insert_eq h
  exact f.parent?_modify _ (fun _ => by rfl) id other

/-- Adding a name adds at most an entry for it, and only to that scope. -/
theorem mem_table_of_insert {name : String} {kind : EntryKind} {entry e : Entry}
    (h : f.insert id name kind = .ok (entry, g)) {other : ScopeId}
    (he : e ∈ (g.table other).entries) :
    e ∈ (f.table other).entries ∨ other = id ∧ e = ⟨name, kind⟩ := by
  obtain ⟨table, hinsert, rfl⟩ := insert_eq h
  rw [ScopeForest.table, get?_modify] at he
  split at he
  · next heq =>
    subst heq
    cases hscope : f.get? id with
    | none => simp [hscope, SymbolTable.empty] at he
    | some scope =>
      rw [hscope] at he
      exact (SymbolTable.mem_of_insert hinsert he).imp_right fun h => ⟨rfl, h⟩
  · exact .inl he

end ScopeForest

end Braced
