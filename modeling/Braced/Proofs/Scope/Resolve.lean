import Braced.Proofs.Parse.Stays
import Braced.Proofs.Scope.Chain

/-!
# Braced.Proofs.Scope.Resolve

When a name counts as undeclared.

A use of an outer name is noted in the scope that uses it, and later uses find
that note.  This hides nothing: whatever operations lead to a builder, each note
stands for a binding further out (`Builder.Sound`), so a name is refused exactly if
no scope around it binds it.
-/

namespace Braced

/-- What holds of the scopes of a builder and the names in them. -/
structure ScopeForest.Sound (f : ScopeForest) : Prop where
  ordered : f.Ordered
  rooted : ∀ id : ScopeId, id.index < f.size → f.Encloses .root id
  /-- What is noted as an outer name is bound further out. -/
  reference : ∀ id, ∀ e ∈ (f.table id).entries, e.kind = .reference →
    ∃ outer, f.Surrounds outer id ∧ (f.table outer).Binds e.name
  /-- Modules are not among the names of a scope. -/
  module : ∀ id, ∀ e ∈ (f.table id).entries, e.kind ≠ .module

namespace ScopeForest

variable {f : ScopeForest}

/-- A scope that nothing is around, and that has no names yet. -/
theorem sound_first (position : Position) : (empty.push none position).2.Sound := by
  have hparent : ∀ id, (empty.push none position).2.parent? id = none := by
    intro id
    rw [parent?_push]
    split
    · rfl
    · rfl
  have htable : ∀ id, (empty.push none position).2.table id = .empty := by
    intro id
    rw [table_push]
    split
    · rfl
    · rfl
  refine ⟨fun id around h => ?_, fun id hid => ?_, fun id e he => ?_, fun id e he => ?_⟩
  · rw [hparent] at h
    cases h
  · have hroot : id = .root := by
      cases id
      exact congrArg ScopeId.mk (Nat.lt_one_iff.mp hid)
    exact hroot ▸ .refl
  · rw [htable] at he
    cases he
  · rw [htable] at he
    cases he

/-- A new scope inside of one that is there has no names yet. -/
theorem Sound.push (hf : f.Sound) {parent : ScopeId} (hparent : parent.index < f.size)
    (position : Position) : (f.push (some parent) position).2.Sound := by
  have hgrows := f.grows_push (some parent) position
  have hentries : ∀ id, ∀ e ∈ ((f.push (some parent) position).2.table id).entries,
      e ∈ (f.table id).entries := by
    intro id e he
    rw [table_push] at he
    split at he
    · cases he
    · exact he
  refine ⟨fun id around h => ?_, fun id hid => ?_, fun id e he hkind => ?_, fun id e he => ?_⟩
  · rw [parent?_push] at h
    split at h
    · next hnew =>
      cases h
      exact hnew ▸ hparent
    · exact hf.ordered id around h
  · rw [size_push] at hid
    by_cases hnew : id.index = f.size
    · refine .head (b := parent) ?_ (hgrows.encloses (hf.rooted parent hparent))
      rw [parent?_push, if_pos hnew]
    · exact hgrows.encloses (hf.rooted id (by omega))
  · obtain ⟨outer, hsurrounds, hbinds⟩ := hf.reference id e (hentries id e he) hkind
    exact ⟨outer, hgrows.surrounds hsurrounds, hgrows.binds hbinds⟩
  · exact hf.module id e (hentries id e he)

/-- Nothing is around the root. -/
theorem Ordered.not_surrounds_root (hf : f.Ordered) (outer : ScopeId) :
    ¬ f.Surrounds outer .root := by
  intro h
  obtain ⟨parent, hparent, -⟩ := Relation.TransGen.head'_iff.mp h
  exact Nat.not_lt_zero _ (hf _ _ hparent)

/-- Where scopes only grow in their places, what has to be seen to are the new
entries. -/
theorem Sound.of_grows {g : ScopeForest} (hf : f.Sound) (hgrows : f.Grows g)
    (hsize : g.size = f.size) (hparent : ∀ id, g.parent? id = f.parent? id)
    (hentries : ∀ id, ∀ e ∈ (g.table id).entries, e ∈ (f.table id).entries ∨
      e.kind ≠ .module ∧ (e.kind = .reference →
        ∃ outer, f.Surrounds outer id ∧ (f.table outer).Binds e.name)) :
    g.Sound where
  ordered id parent h := hf.ordered id parent (hparent id ▸ h)
  rooted id hid := hgrows.encloses (hf.rooted id (hsize ▸ hid))
  reference id e he hkind := by
    have hold : ∃ outer, f.Surrounds outer id ∧ (f.table outer).Binds e.name := by
      rcases hentries id e he with hold | ⟨-, hnew⟩
      · exact hf.reference id e hold hkind
      · exact hnew hkind
    obtain ⟨outer, hsurrounds, hbinds⟩ := hold
    exact ⟨outer, hgrows.surrounds hsurrounds, hgrows.binds hbinds⟩
  module id e he := by
    rcases hentries id e he with hold | ⟨hnew, -⟩
    · exact hf.module id e hold
    · exact hnew

end ScopeForest

namespace Builder

variable {s s' : Builder} {name : String}

/-! ## Sequences of operations -/

/-- One of the operations that reading is made of. Names are only declared with a
meaning; those that are used and not declared come in by `resolveIdentifier`. -/
inductive Operation : Builder → Builder → Prop
  | advance (s : Builder) : Operation s s.advance.2
  | report (s : Builder) (fault : Fault) (position : Position) :
      Operation s (s.report fault position)
  | skipToStatementEnd (s : Builder) : Operation s s.skipToStatementEnd
  | alloc (s : Builder) (position : Position) (kind : NodeKind) :
      Operation s (s.alloc position kind).2
  | addStatement (s : Builder) (id : NodeId) : Operation s (s.addStatement id)
  | declare (s : Builder) (name : String) (kind : EntryKind) (position : Position)
      (hkind : kind.isBinding) : Operation s (s.declare name kind position)
  | resolveIdentifier (s : Builder) (name : String) (position : Position) :
      Operation s (s.resolveIdentifier name position)
  | addModule (s : Builder) (name : String) : Operation s (s.addModule name)
  | enterScope (s : Builder) (position : Position) : Operation s (s.enterScope position).2
  | exitScope (s : Builder) : Operation s s.exitScope
  | setLoopDepth (s : Builder) (depth : Nat) : Operation s (s.setLoopDepth depth)
  | setExpressionDepth (s : Builder) (depth : Nat) :
      Operation s { s with expressionDepth := depth }

/-- Operations lead from one builder to the other. -/
def Leads : Builder → Builder → Prop :=
  Relation.ReflTransGen Operation

/-- All readings are made of operations. -/
instance : Respected Leads where
  refl _ := .refl
  trans := .trans
  advance s := .single (.advance s)
  report s fault position := .single (.report s fault position)
  skipToStatementEnd s := .single (.skipToStatementEnd s)
  alloc s position kind := .single (.alloc s position kind)
  addStatement s id := .single (.addStatement s id)
  declare s name kind position h := .single (.declare s name kind position h)
  resolveIdentifier s name position := .single (.resolveIdentifier s name position)
  addModule s name := .single (.addModule s name)
  enterScope s position := .single (.enterScope s position)
  exitScope s := .single (.exitScope s)
  setLoopDepth s depth := .single (.setLoopDepth s depth)
  setExpressionDepth s depth := .single (.setExpressionDepth s depth)

/-- What every operation respects holds wherever operations lead. -/
theorem Leads.respects {R : Builder → Builder → Prop} [hR : Respected R] (h : Leads s s') :
    R s s' := by
  induction h with
  | refl => exact hR.refl s
  | tail _ hstep ih =>
    refine hR.trans ih ?_
    cases hstep with
    | advance => exact hR.advance _
    | report => exact hR.report ..
    | skipToStatementEnd => exact hR.skipToStatementEnd _
    | alloc => exact hR.alloc ..
    | addStatement => exact hR.addStatement ..
    | declare name kind position hkind => exact hR.declare _ _ _ _ hkind
    | resolveIdentifier => exact hR.resolveIdentifier ..
    | addModule => exact hR.addModule ..
    | enterScope => exact hR.enterScope ..
    | exitScope => exact hR.exitScope _
    | setLoopDepth => exact hR.setLoopDepth ..
    | setExpressionDepth => exact hR.setExpressionDepth ..

/-! ## What operations keep of the names -/

/-- Names are where they belong, and there is an open scope. -/
structure Sound (s : Builder) : Prop where
  scopes : s.scopes.Sound
  scope : s.scope.index < s.scopes.size

/-- A scope around, or the current one, binds the name. -/
def Visible (s : Builder) (name : String) : Prop :=
  ∃ outer, s.scopes.Encloses outer s.scope ∧ (s.scopes.table outer).Binds name

/-- A name is found exactly if it is bound: what is noted besides stands for a
binding. -/
theorem Sound.visible_iff (hs : s.Sound) (name : String) :
    s.Visible name ↔ (s.scopes.lookup s.scope name).isSome := by
  rw [ScopeForest.lookup_isSome_iff hs.scopes.ordered hs.scope]
  constructor
  · rintro ⟨outer, hencloses, e, he, hname, -⟩
    exact ⟨outer, hencloses, e, he, hname⟩
  · rintro ⟨outer, hencloses, e, he, rfl⟩
    cases hkind : e.kind with
    | declaration => exact ⟨outer, hencloses, e, he, rfl, by rw [hkind]; rfl⟩
    | function => exact ⟨outer, hencloses, e, he, rfl, by rw [hkind]; rfl⟩
    | reference =>
      obtain ⟨around, hsurrounds, hbinds⟩ := hs.scopes.reference outer e he hkind
      exact ⟨around, hencloses.trans hsurrounds.encloses, hbinds⟩
    | module => exact absurd hkind (hs.scopes.module outer e he)

/-- Nothing but scopes matters. -/
theorem Sound.of_eq (hs : s.Sound) (hscopes : s'.scopes = s.scopes) (hscope : s'.scope = s.scope) :
    s'.Sound := by
  constructor
  · rw [hscopes]
    exact hs.scopes
  · rw [hscopes, hscope]
    exact hs.scope

theorem Sound.declare (hs : s.Sound) {kind : EntryKind} (position : Position)
    (hmodule : kind ≠ .module) (hreference : kind = .reference →
      ∃ outer, s.scopes.Surrounds outer s.scope ∧ (s.scopes.table outer).Binds name) :
    (s.declare name kind position).Sound := by
  unfold Builder.declare
  cases hinsert : s.scopes.insert s.scope name kind with
  | error fault => exact hs.of_eq rfl rfl
  | ok found =>
    have hsize := ScopeForest.size_of_insert hinsert
    refine ⟨hs.scopes.of_grows (ScopeForest.grows_of_insert hinsert) hsize
      (ScopeForest.parent?_of_insert hinsert) fun id e he => ?_, hsize.symm ▸ hs.scope⟩
    rcases ScopeForest.mem_table_of_insert hinsert he with hold | ⟨rfl, rfl⟩
    · exact .inl hold
    · exact .inr ⟨hmodule, hreference⟩

theorem Sound.resolveIdentifier (hs : s.Sound) (name : String) (position : Position) :
    (s.resolveIdentifier name position).Sound := by
  unfold Builder.resolveIdentifier
  split
  · exact hs
  · next hlocal =>
    split
    · exact hs.of_eq rfl rfl
    · next hfound =>
      -- The name is bound somewhere, and the scope itself has no entry for it.
      have hvisible : s.Visible name := by
        rw [hs.visible_iff, Option.isSome_iff_ne_none]
        simpa using hfound
      obtain ⟨outer, hencloses, hbinds⟩ := hvisible
      refine hs.declare position (by decide) fun _ => ⟨outer, ?_, hbinds⟩
      rcases Relation.reflTransGen_iff_eq_or_transGen.mp hencloses with rfl | hsurrounds
      · obtain ⟨e, he, hname, -⟩ := hbinds
        exact absurd ((SymbolTable.lookup_isSome_iff _ name).mpr ⟨e, he, hname⟩) hlocal
      · exact hsurrounds

theorem Sound.enterScope (hs : s.Sound) (position : Position) :
    (s.enterScope position).2.Sound where
  scopes := hs.scopes.push hs.scope position
  scope := by
    show s.scopes.size < (s.scopes.push _ _).2.size
    rw [ScopeForest.size_push]
    exact Nat.lt_succ_self _

theorem Sound.exitScope (hs : s.Sound) : s.exitScope.Sound := by
  refine ⟨hs.scopes, ?_⟩
  show ((s.scopes.parent? s.scope).getD s.scope).index < s.scopes.size
  cases hparent : s.scopes.parent? s.scope with
  | none => exact hs.scope
  | some parent => exact Nat.lt_trans (hs.scopes.ordered _ _ hparent) hs.scope

/-- Each operation keeps names where they belong. -/
theorem Operation.sound (h : Operation s s') (hs : s.Sound) : s'.Sound := by
  cases h with
  | advance =>
    obtain ⟨current, ahead, heq⟩ := s.advance_snd
    rw [heq]
    exact hs.of_eq rfl rfl
  | report => exact hs.of_eq rfl rfl
  | skipToStatementEnd => exact hs.of_eq rfl rfl
  | alloc => exact hs.of_eq rfl rfl
  | addStatement id =>
    have hsize := s.scopes.size_addStatement s.scope id
    refine ⟨hs.scopes.of_grows (s.scopes.grows_addStatement _ _) hsize
      (fun other => s.scopes.parent?_addStatement s.scope other id) fun other e he => .inl ?_,
      hsize.symm ▸ hs.scope⟩
    rwa [show (s.addStatement id).scopes.table other = _ from
      s.scopes.table_addStatement s.scope other id] at he
  | declare name kind position hkind =>
    exact hs.declare position (by rintro rfl; cases hkind) (by rintro rfl; cases hkind)
  | resolveIdentifier name position => exact hs.resolveIdentifier name position
  | addModule name =>
    unfold Builder.addModule
    split
    · exact hs.of_eq rfl rfl
    · exact hs
  | enterScope position => exact hs.enterScope position
  | exitScope => exact hs.exitScope
  | setLoopDepth => exact hs.of_eq rfl rfl
  | setExpressionDepth => exact hs.of_eq rfl rfl

theorem sound_ofTokens (tokens : List Token) : (ofTokens tokens).Sound where
  scopes := ScopeForest.sound_first _
  scope := Nat.zero_lt_one

/-- Names are where they belong whatever operations have led to a builder. -/
theorem Leads.sound {tokens : List Token} (h : Leads (ofTokens tokens) s) : s.Sound := by
  induction h with
  | refl => exact sound_ofTokens tokens
  | tail _ hstep ih => exact hstep.sound ih

/-- Reading a list of tokens is a sequence of operations. -/
theorem leads_build (tokens : List Token) : Leads (ofTokens tokens) (Tree.build tokens) := by
  obtain ⟨fuel, hread⟩ := Tree.build_spec tokens
  exact Goal.reach_keeps fuel .declarations _ _ _ hread

/-! ## When a name is refused -/

/-- Noting an outer name is never refused. -/
theorem diagnostics_declare_reference (s : Builder) (name : String) (position : Position) :
    (s.declare name .reference position).diagnostics = s.diagnostics := by
  unfold declare
  cases hinsert : s.scopes.insert s.scope name .reference with
  | ok found => rfl
  | error fault =>
    exfalso
    unfold ScopeForest.insert SymbolTable.insert at hinsert
    split at hinsert
    · cases hinsert
    · cases hinsert

theorem Sound.diagnostics_resolveIdentifier (hs : s.Sound) (name : String) (position : Position) :
    (s.Visible name ∧ (s.resolveIdentifier name position).diagnostics = s.diagnostics) ∨
      (¬ s.Visible name ∧ (s.resolveIdentifier name position).diagnostics
        = s.diagnostics.push ⟨.undeclaredIdentifier name, position⟩) := by
  unfold Builder.resolveIdentifier
  split
  · next hlocal =>
    obtain ⟨e, he, hname⟩ := (SymbolTable.lookup_isSome_iff _ name).mp hlocal
    have hfound : (s.scopes.lookup s.scope name).isSome :=
      (ScopeForest.lookup_isSome_iff hs.scopes.ordered hs.scope name).mpr ⟨_, .refl, e, he, hname⟩
    exact .inl ⟨(hs.visible_iff name).mpr hfound, rfl⟩
  · split
    · next hmissing =>
      refine .inr ⟨?_, rfl⟩
      rw [hs.visible_iff, Bool.not_eq_true, Option.isSome_eq_false_iff]
      exact hmissing
    · next hfound =>
      refine .inl ⟨?_, s.diagnostics_declare_reference name position⟩
      rw [hs.visible_iff, Option.isSome_iff_ne_none]
      simpa using hfound

end Builder

end Braced
