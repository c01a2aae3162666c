import Braced.Proofs.Scope.Resolve
import Braced.Proofs.Scope.Surroundings
import Mathlib.Data.List.Forall2
import Mathlib.Data.List.Nodup

/-!
# Braced.Proofs.Scope.Around

What the scopes around a scope bind.

`f.Around id frames` lists the bindings of each scope from `id` outwards, as far as
there are any yet.  While scopes grow, so do the frames, each at its end
(`ScopeForest.Around.grows`), and in each of them a name is bound at most once
(`Builder.Leads.distinct`).
-/

namespace Braced

/-- A table that takes an entry binds what it bound before, and the new name if the
entry binds it. -/
theorem SymbolTable.filter_of_insert {t t' : SymbolTable} {name : String}
    {kind : EntryKind} {entry : Entry} (h : t.insert name kind = .ok (entry, t')) :
    t'.entries.filter (·.kind.isBinding) = t.entries.filter (·.kind.isBinding) ++
        (if kind.isBinding then [⟨name, kind⟩] else []) ∧
      (kind.isBinding → ∀ e ∈ t.entries, e.kind.isBinding → e.name ≠ name) := by
  unfold SymbolTable.insert at h
  split at h
  · split at h
    · cases h
    · next hkind =>
      cases h
      simp [hkind]
  · next hnone =>
    cases h
    refine ⟨by simp [List.filter_append, List.filter_cons], fun hkind e he hbinding hname => ?_⟩
    have hblocks := List.find?_eq_none.mp hnone e he
    simp [Entry.blocks, hname, hkind, hbinding] at hblocks

namespace ScopeForest

variable {f g : ScopeForest} {id outer : ScopeId} {frames : List (List Entry)}

/-- What a scope binds, in the order in which it does. -/
def bound (f : ScopeForest) (id : ScopeId) : List Entry :=
  (f.table id).entries.filter (·.kind.isBinding)

/-- From the scope `id` outwards, these are the bindings of each scope. -/
inductive Around (f : ScopeForest) : ScopeId → List (List Entry) → Prop
  | outermost {id : ScopeId} (h : f.parent? id = none) : Around f id [f.bound id]
  | inner {id parent : ScopeId} {frames : List (List Entry)} (h : f.parent? id = some parent)
      (hframes : Around f parent frames) : Around f id (f.bound id :: frames)

theorem binds_iff (f : ScopeForest) (id : ScopeId) (name : String) :
    (f.table id).Binds name ↔ ∃ e ∈ f.bound id, e.name = name := by
  simp only [SymbolTable.Binds, bound, List.mem_filter]
  exact ⟨fun ⟨e, he, hname, hkind⟩ => ⟨e, ⟨he, hkind⟩, hname⟩,
    fun ⟨e, ⟨he, hkind⟩, hname⟩ => ⟨e, he, hname, hkind⟩⟩

/-- Each scope on the chain has its bindings among the frames. -/
theorem Around.mem_of_encloses (h : f.Around id frames) (hencloses : f.Encloses outer id) :
    f.bound outer ∈ frames := by
  induction h with
  | outermost hparent =>
    rcases encloses_iff.mp hencloses with rfl | ⟨parent, hsome, -⟩
    · exact List.mem_singleton_self _
    · rw [hparent] at hsome
      cases hsome
  | inner hparent _ ih =>
    rcases encloses_iff.mp hencloses with rfl | ⟨parent, hsome, houter⟩
    · exact List.mem_cons_self
    · rw [hparent] at hsome
      cases hsome
      exact List.mem_cons_of_mem _ (ih houter)

/-- The last frame is that of the root. -/
theorem Around.getLast? (h : f.Around id frames) (hroot : f.Encloses .root id)
    (hf : f.Ordered) : frames.getLast? = some (f.bound .root) := by
  induction h with
  | outermost hparent =>
    rcases encloses_iff.mp hroot with rfl | ⟨parent, hsome, -⟩
    · rfl
    · rw [hparent] at hsome
      cases hsome
  | inner hparent hframes ih =>
    rcases encloses_iff.mp hroot with rfl | ⟨parent, hsome, houter⟩
    · exact absurd (hf _ _ hparent) (Nat.not_lt_zero _)
    · rw [hparent] at hsome
      cases hsome
      rw [List.getLast?_cons, ih houter]
      rfl

/-- Each frame is what some scope binds. -/
theorem Around.exists_bound (h : f.Around id frames) {frame : List Entry}
    (hframe : frame ∈ frames) :
    ∃ outer, frame = f.bound outer := by
  induction h with
  | outermost => exact ⟨_, List.mem_singleton.mp hframe⟩
  | inner _ _ ih =>
    rcases List.mem_cons.mp hframe with rfl | hframe
    · exact ⟨_, rfl⟩
    · exact ih hframe

/-- Only the scope itself and those before it matter. -/
theorem Around.congr (h : f.Around id frames) (hf : f.Ordered)
    (hsame : ∀ outer : ScopeId, outer.index ≤ id.index → g.get? outer = f.get? outer) :
    g.Around id frames := by
  have hbound : ∀ outer : ScopeId, outer.index ≤ id.index → g.bound outer = f.bound outer :=
    fun outer hle => by rw [bound, table, hsame outer hle, bound, table]
  have hparent : ∀ outer : ScopeId, outer.index ≤ id.index → g.parent? outer = f.parent? outer :=
    fun outer hle => by rw [parent?, hsame outer hle, parent?]
  induction h with
  | @outermost id h =>
    rw [← hbound id (Nat.le_refl _)]
    exact .outermost ((hparent id (Nat.le_refl _)).trans h)
  | @inner id parent frames h _ ih =>
    have hlt := hf _ _ h
    rw [← hbound id (Nat.le_refl _)]
    refine .inner ((hparent id (Nat.le_refl _)).trans h) (ih ?_ ?_ ?_)
    · exact fun outer hle => hsame outer (by omega)
    · exact fun outer hle => hbound outer (by omega)
    · exact fun outer hle => hparent outer (by omega)

/-- What a scope binds stays bound. -/
theorem Grows.bound (h : f.Grows g) (id : ScopeId) : f.bound id <+: g.bound id :=
  (h.table id).filter _

/-- When scopes grow, the frames grow with them. -/
theorem Around.grows (h : f.Around id frames) (hgrows : f.Grows g)
    (hid : id.index < f.size) (hf : f.Ordered) :
    ∃ later, g.Around id later ∧ List.Forall₂ (· <+: ·) frames later := by
  induction h with
  | @outermost id h =>
    refine ⟨_, .outermost ?_, .cons (hgrows.bound id) .nil⟩
    obtain ⟨scope, hscope⟩ := Option.isSome_iff_exists.mp ((f.get?_isSome_iff id).mpr hid)
    obtain ⟨scope', hscope', hsame⟩ := hgrows id scope hscope
    rw [parent?, hscope, Option.bind_some] at h
    rw [parent?, hscope', Option.bind_some, hsame.parent, h]
  | @inner id parent frames h _ ih =>
    obtain ⟨later, hlater, hprefix⟩ := ih (Nat.lt_trans (hf _ _ h) hid)
    exact ⟨_, .inner (hgrows.parent? h) hlater, .cons (hgrows.bound id) hprefix⟩

/-! ## Changes -/

/-- A new scope binds nothing. -/
theorem bound_push (f : ScopeForest) (parent : Option ScopeId) (position : Position)
    (id : ScopeId) : (f.push parent position).2.bound id =
      if id.index = f.size then [] else f.bound id := by
  rw [bound, table_push]
  split
  · rfl
  · rfl

theorem bound_addStatement (f : ScopeForest) (id other : ScopeId) (statement : NodeId) :
    (f.addStatement id statement).bound other = f.bound other := by
  rw [bound, table_addStatement, bound]

/-- Adding a name to a scope adds at most a binding of it, and only to that scope. -/
theorem bound_of_insert {name : String} {kind : EntryKind} {entry : Entry}
    (h : f.insert id name kind = .ok (entry, g)) (hid : id.index < f.size) (other : ScopeId) :
    g.bound other =
      if other = id then f.bound id ++ (if kind.isBinding then [⟨name, kind⟩] else [])
      else f.bound other := by
  obtain ⟨table, hinsert, rfl⟩ := insert_eq h
  obtain ⟨scope, hscope⟩ := Option.isSome_iff_exists.mp ((f.get?_isSome_iff id).mpr hid)
  by_cases hother : other = id
  · subst hother
    rw [if_pos rfl, bound, bound, ← (SymbolTable.filter_of_insert hinsert).1, ScopeForest.table,
      get?_modify, if_pos rfl, hscope]
    rfl
  · rw [if_neg hother, bound, ScopeForest.table, get?_modify, if_neg (Ne.symm hother)]
    rfl

/-- A scope that takes a binding did not bind the name before. -/
theorem ne_of_insert {name : String} {kind : EntryKind} {entry e : Entry}
    (h : f.insert id name kind = .ok (entry, g)) (hkind : kind.isBinding) (he : e ∈ f.bound id) :
    e.name ≠ name := by
  obtain ⟨table, hinsert, -⟩ := insert_eq h
  rw [bound, List.mem_filter] at he
  exact (SymbolTable.filter_of_insert hinsert).2 hkind e he.1 he.2

/-- No scope binds a name twice. -/
def Distinct (f : ScopeForest) : Prop :=
  ∀ id, ((f.bound id).map Entry.name).Nodup

/-- Where no scope binds a name twice, what one binds under a name is a single entry. -/
theorem Distinct.filter_eq (hf : f.Distinct) {e : Entry} (he : e ∈ f.bound id) :
    (f.bound id).filter (·.name = e.name) = [e] := by
  have hnodup := hf id
  have hiff : ∀ e' ∈ f.bound id, decide (e'.name = e.name) = (e' == e) := by
    intro e' he'
    rw [Bool.eq_iff_iff]
    simp only [decide_eq_true_eq, beq_iff_eq]
    exact ⟨List.inj_on_of_nodup_map hnodup he' he, congrArg Entry.name⟩
  rw [List.filter_congr hiff, List.filter_beq,
    List.count_eq_one_of_mem (List.Nodup.of_map _ hnodup) he]
  rfl

theorem Distinct.insert (hf : f.Distinct) {name : String} {kind : EntryKind} {entry : Entry}
    (h : f.insert id name kind = .ok (entry, g)) (hid : id.index < f.size) : g.Distinct := by
  intro other
  rw [bound_of_insert h hid]
  split
  · split
    · next hkind =>
      rw [List.map_append, List.nodup_append]
      refine ⟨hf id, by simp, fun a ha b hb => ?_⟩
      obtain ⟨e, he, rfl⟩ := List.mem_map.mp ha
      obtain rfl : b = name := by simpa using hb
      exact ne_of_insert h hkind he
    · rw [List.append_nil]
      exact hf id
  · exact hf other

end ScopeForest

namespace Builder

variable {s s' : Builder}

/-! ## The builder -/

theorem Sound.distinct_declare (hs : s.Sound) (h : s.scopes.Distinct) (name : String)
    (kind : EntryKind) (position : Position) : (s.declare name kind position).scopes.Distinct := by
  unfold Builder.declare
  cases hinsert : s.scopes.insert s.scope name kind with
  | error fault => exact h
  | ok found => exact h.insert hinsert hs.scope

/-- No operation binds a name twice. -/
theorem Operation.distinct (h : Operation s s') (hs : s.Sound) (hscopes : s.scopes.Distinct) :
    s'.scopes.Distinct := by
  cases h with
  | advance =>
    obtain ⟨current, ahead, heq⟩ := s.advance_snd
    rw [heq]
    exact hscopes
  | addStatement id =>
    intro other
    have hbound : (s.addStatement id).scopes.bound other = s.scopes.bound other :=
      s.scopes.bound_addStatement s.scope other id
    rw [hbound]
    exact hscopes other
  | declare name kind position => exact hs.distinct_declare hscopes name kind position
  | resolveIdentifier name position =>
    unfold Builder.resolveIdentifier
    split
    · exact hscopes
    · split
      · exact hscopes
      · exact hs.distinct_declare hscopes name .reference position
  | addModule name =>
    unfold Builder.addModule
    split
    · exact hscopes
    · exact hscopes
  | enterScope position =>
    intro other
    have hbound : (s.enterScope position).2.scopes.bound other = _ :=
      s.scopes.bound_push (some s.scope) position other
    rw [hbound]
    split
    · exact List.nodup_nil
    · exact hscopes other
  | report | skipToStatementEnd | alloc | exitScope | setLoopDepth | setExpressionDepth =>
    exact hscopes

/-- **No scope binds a name twice**, whatever operations have led to it. -/
theorem Leads.distinct {tokens : List Token} (h : Leads (ofTokens tokens) s) :
    s.scopes.Distinct := by
  induction h with
  | refl =>
    intro id
    have hbound : (ofTokens tokens).scopes.bound id = _ :=
      ScopeForest.empty.bound_push none _ id
    rw [hbound]
    split
    · exact List.nodup_nil
    · exact List.nodup_nil
  | tail hleads hstep ih => exact hstep.distinct (Leads.sound hleads) ih

/-- The scopes that are open have bound what is declared in these surroundings. -/
structure Sees (s : Builder) (around : Surroundings Entry) : Prop where
  sound : s.Sound
  distinct : s.scopes.Distinct
  around : s.scopes.Around s.scope around.frames

end Builder

end Braced
