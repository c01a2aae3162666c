import Braced.Proofs.Parse.Keeps

/-!
# Braced.Proofs.Parse.Extends

What a builder keeps of an earlier one (`Builder.Extends`): tokens are passed
from the front and the end is never passed, nodes and diagnostics are only added,
and a scope keeps its place, its parent and all it holds.

Every operation respects this, and so does every reading
(`Goal.reach_extends`).
-/

namespace Braced

/-! ## Scopes -/

/-- What stays of a scope: names and statements are only added to it. -/
structure Scope.Grows (a b : Scope) : Prop where
  position : b.position = a.position
  parent : b.parent = a.parent
  table : a.table.entries <+: b.table.entries
  statements : a.statements.toList <+: b.statements.toList

namespace Scope.Grows

theorem refl (a : Scope) : a.Grows a :=
  ⟨rfl, rfl, List.prefix_rfl, List.prefix_rfl⟩

theorem trans {a b c : Scope} (h : a.Grows b) (h' : b.Grows c) : a.Grows c :=
  ⟨h'.position.trans h.position, h'.parent.trans h.parent, h.table.trans h'.table,
    h.statements.trans h'.statements⟩

end Scope.Grows

/-- Adding a name leaves all that a table held in its place. -/
theorem SymbolTable.prefix_of_insert {t t' : SymbolTable} {name : String}
    {kind : EntryKind} {entry : Entry} (h : t.insert name kind = .ok (entry, t')) :
    t.entries <+: t'.entries := by
  unfold SymbolTable.insert at h
  split at h
  · split at h
    · cases h
    · cases h
      exact List.prefix_rfl
  · cases h
    exact List.prefix_append ..

namespace ScopeForest

/-- Every scope of `f` is still there in `g`, and has only grown. -/
def Grows (f g : ScopeForest) : Prop :=
  ∀ id scope, f.get? id = some scope → ∃ scope', g.get? id = some scope' ∧ scope.Grows scope'

theorem Grows.refl (f : ScopeForest) : f.Grows f :=
  fun _ scope h => ⟨scope, h, .refl scope⟩

theorem Grows.trans {f g k : ScopeForest} (h : f.Grows g) (h' : g.Grows k) : f.Grows k := by
  intro id scope hs
  obtain ⟨scope', hs', hgrows⟩ := h id scope hs
  obtain ⟨scope'', hs'', hgrows'⟩ := h' id scope' hs'
  exact ⟨scope'', hs'', hgrows.trans hgrows'⟩

theorem get?_isSome_iff (f : ScopeForest) (id : ScopeId) :
    (f.get? id).isSome ↔ id.index < f.size :=
  Arena.get?_isSome_iff f.scopes id

/-- A forest that has grown has no fewer scopes. -/
theorem Grows.size_le {f g : ScopeForest} (h : f.Grows g) : f.size ≤ g.size := by
  cases hsize : f.size with
  | zero => exact Nat.zero_le _
  | succ n =>
    have hlast : (f.get? ⟨n⟩).isSome := (f.get?_isSome_iff ⟨n⟩).mpr (by rw [hsize]; exact n.lt_succ_self)
    obtain ⟨scope, hscope⟩ := Option.isSome_iff_exists.mp hlast
    obtain ⟨scope', hscope', -⟩ := h _ scope hscope
    have hlt := (g.get?_isSome_iff ⟨n⟩).mp (by rw [hscope']; rfl)
    exact hlt

/-- Adding a scope changes none of those that are there. -/
theorem get?_push (f : ScopeForest) (parent : Option ScopeId) (position : Position) (id : ScopeId) :
    (f.push parent position).2.get? id =
      if id.index = f.size then some ⟨position, .empty, #[], parent⟩ else f.get? id :=
  Arena.get?_alloc_eq f.scopes _ id

theorem grows_push (f : ScopeForest) (parent : Option ScopeId) (position : Position) :
    f.Grows (f.push parent position).2 := by
  intro id scope hs
  have hlt : id.index < f.size := (f.get?_isSome_iff id).mp (by rw [hs]; rfl)
  refine ⟨scope, ?_, .refl scope⟩
  rw [get?_push, if_neg (by omega), hs]

/-- Changing one scope leaves the others as they are. -/
theorem get?_modify (f : ScopeForest) (id other : ScopeId) (change : Scope → Scope) :
    get? ⟨f.scopes.modify id change⟩ other =
      if id = other then (f.get? other).map change else f.get? other := by
  have hindex : Handle.index id = Handle.index other ↔ id = other := by
    cases id
    cases other
    simp [Handle.index]
  simp only [get?, Arena.get?_modify, hindex]

/-- A change that lets one scope grow lets the forest grow. -/
theorem grows_modify (f : ScopeForest) (id : ScopeId) (change : Scope → Scope)
    (h : ∀ scope, f.get? id = some scope → scope.Grows (change scope)) :
    f.Grows ⟨f.scopes.modify id change⟩ := by
  intro other scope hs
  rw [get?_modify]
  by_cases hid : id = other
  · subst hid
    exact ⟨change scope, by rw [if_pos rfl, hs]; rfl, h scope hs⟩
  · exact ⟨scope, by rw [if_neg hid, hs], .refl scope⟩

theorem grows_addStatement (f : ScopeForest) (id : ScopeId) (statement : NodeId) :
    f.Grows (f.addStatement id statement) :=
  f.grows_modify id _ fun scope _ =>
    ⟨rfl, rfl, List.prefix_rfl, by rw [Array.toList_push]; exact List.prefix_append ..⟩

theorem grows_of_insert {f g : ScopeForest} {id : ScopeId} {name : String} {kind : EntryKind}
    {entry : Entry} (h : f.insert id name kind = .ok (entry, g)) : f.Grows g := by
  unfold insert at h
  cases hi : (f.table id).insert name kind with
  | error fault => rw [hi] at h; cases h
  | ok found =>
    rw [hi] at h
    cases h
    refine f.grows_modify id _ fun scope hs => ⟨rfl, rfl, ?_, List.prefix_rfl⟩
    have htable : f.table id = scope.table := by rw [table, hs]; rfl
    rw [← htable]
    exact SymbolTable.prefix_of_insert hi

end ScopeForest

/-! ## Builders -/

namespace Builder

/-- The tokens that have not been passed, with the end. -/
def rest (s : Builder) : List Token :=
  s.current :: s.ahead

/-- The tokens that can still be passed: those in front of the end. -/
def upcoming (s : Builder) : List Token :=
  s.rest.takeWhile (·.kind ≠ .eof)

/-- There is an end to the tokens. -/
def Terminated (s : Builder) : Prop :=
  ∃ t ∈ s.rest, t.kind = .eof

/-- What a later builder keeps of `s`. -/
structure Extends (s s' : Builder) : Prop where
  tokens : ∃ passed, s.rest = passed ++ s'.rest ∧ ∀ t ∈ passed, t.kind ≠ .eof
  nodes : s.nodes.toList <+: s'.nodes.toList
  scopes : s.scopes.Grows s'.scopes
  diagnostics : s.diagnostics.toList <+: s'.diagnostics.toList

namespace Extends

theorem refl (s : Builder) : s.Extends s :=
  ⟨⟨[], rfl, by simp⟩, List.prefix_rfl, .refl _, List.prefix_rfl⟩

theorem trans {s s' s'' : Builder} (h : s.Extends s') (h' : s'.Extends s'') : s.Extends s'' := by
  obtain ⟨passed, hrest, hpassed⟩ := h.tokens
  obtain ⟨passed', hrest', hpassed'⟩ := h'.tokens
  refine ⟨⟨passed ++ passed', ?_, ?_⟩, h.nodes.trans h'.nodes, h.scopes.trans h'.scopes,
    h.diagnostics.trans h'.diagnostics⟩
  · rw [hrest, hrest', List.append_assoc]
  · intro t ht
    rcases List.mem_append.mp ht with ht | ht
    · exact hpassed t ht
    · exact hpassed' t ht

/-- Where only depths, modules and the open scope differ, all is kept. -/
theorem of_eq {s s' : Builder} (hrest : s'.rest = s.rest) (hnodes : s'.nodes = s.nodes)
    (hscopes : s'.scopes = s.scopes) (hdiagnostics : s'.diagnostics = s.diagnostics) :
    s.Extends s' := by
  refine ⟨⟨[], by rw [hrest]; rfl, by simp⟩, ?_, ?_, ?_⟩
  · exact hnodes ▸ List.prefix_rfl
  · rw [hscopes]
    exact .refl _
  · exact hdiagnostics ▸ List.prefix_rfl

end Extends

/-! ## What each operation keeps -/

theorem extends_advance (s : Builder) : s.Extends s.advance.2 := by
  unfold advance
  split
  · next t ahead hahead =>
    split
    · exact .refl s
    · next hkind =>
      refine ⟨⟨[s.current], ?_, ?_⟩, List.prefix_rfl, .refl _, List.prefix_rfl⟩
      · simp only [rest, hahead]
        rfl
      · intro t ht
        rw [List.mem_singleton.mp ht]
        exact hkind
  · exact .refl s

theorem extends_report (s : Builder) (fault : Fault) (position : Position) :
    s.Extends (s.report fault position) := by
  refine ⟨⟨[], rfl, by simp⟩, List.prefix_rfl, .refl _, ?_⟩
  simp only [report, Array.toList_push]
  exact List.prefix_append ..

/-- What is dropped of a statement comes before its end. -/
theorem dropStatement_eq (current : Token) (ahead : List Token) :
    ∃ passed, current :: ahead =
        passed ++ (dropStatement current ahead).1 :: (dropStatement current ahead).2 ∧
      ∀ t ∈ passed, endsStatement t.kind = false ∧ t.kind ≠ .eof := by
  induction ahead generalizing current with
  | nil => exact ⟨[], rfl, by simp⟩
  | cons next ahead ih =>
    unfold dropStatement
    split
    · exact ⟨[], rfl, by simp⟩
    · next hkind =>
      obtain ⟨passed, heq, hpassed⟩ := ih next
      refine ⟨current :: passed, by rw [List.cons_append, ← heq], ?_⟩
      intro t ht
      rcases List.mem_cons.mp ht with rfl | ht
      · simpa using hkind
      · exact hpassed t ht

theorem extends_skipToStatementEnd (s : Builder) : s.Extends s.skipToStatementEnd := by
  obtain ⟨passed, heq, hpassed⟩ := dropStatement_eq s.current s.ahead
  exact ⟨⟨passed, heq, fun t ht => (hpassed t ht).2⟩, List.prefix_rfl, .refl _, List.prefix_rfl⟩

theorem extends_alloc (s : Builder) (position : Position) (kind : NodeKind) :
    s.Extends (s.alloc position kind).2 := by
  refine ⟨⟨[], rfl, by simp⟩, ?_, .refl _, List.prefix_rfl⟩
  have hnodes : (s.alloc position kind).2.nodes.toList = s.nodes.toList ++ [⟨position, kind⟩] :=
    Arena.toList_alloc ..
  rw [hnodes]
  exact List.prefix_append ..

theorem extends_enterScope (s : Builder) (position : Position) :
    s.Extends (s.enterScope position).2 :=
  ⟨⟨[], rfl, by simp⟩, List.prefix_rfl, s.scopes.grows_push _ _, List.prefix_rfl⟩

theorem extends_exitScope (s : Builder) : s.Extends s.exitScope :=
  .of_eq rfl rfl rfl rfl

/-- Where the scope that was opened is still the open one, the one around it is open
again behind it. -/
theorem Extends.scope_exitScope {s s' : Builder} {position : Position}
    (h : (s.enterScope position).2.Extends s') (hscope : s'.scope = (s.enterScope position).1) :
    s'.exitScope.scope = s.scope := by
  have hnew : (s.enterScope position).2.scopes.get? (s.enterScope position).1
      = some ⟨position, .empty, #[], some s.scope⟩ :=
    (s.scopes.get?_push _ _ _).trans (if_pos rfl)
  obtain ⟨scope, hget, hgrows⟩ := h.scopes _ _ hnew
  have hparent : s'.scopes.parent? s'.scope = some s.scope := by
    rw [hscope, ScopeForest.parent?, hget]
    exact hgrows.parent
  rw [exitScope, hparent]
  rfl

theorem extends_addStatement (s : Builder) (id : NodeId) : s.Extends (s.addStatement id) :=
  ⟨⟨[], rfl, by simp⟩, List.prefix_rfl, s.scopes.grows_addStatement _ _, List.prefix_rfl⟩

theorem extends_declare (s : Builder) (name : String) (kind : EntryKind) (position : Position) :
    s.Extends (s.declare name kind position) := by
  unfold declare
  split
  · next scopes hinsert =>
    exact ⟨⟨[], rfl, by simp⟩, List.prefix_rfl, ScopeForest.grows_of_insert hinsert, List.prefix_rfl⟩
  · exact extends_report ..

theorem extends_resolveIdentifier (s : Builder) (name : String) (position : Position) :
    s.Extends (s.resolveIdentifier name position) := by
  unfold resolveIdentifier
  split
  · exact .refl s
  · split
    · exact extends_report ..
    · exact extends_declare ..

theorem extends_addModule (s : Builder) (name : String) : s.Extends (s.addModule name) := by
  unfold addModule
  split
  · exact .of_eq rfl rfl rfl rfl
  · exact .refl s

instance : Respected Extends where
  refl := .refl
  trans := .trans
  advance := extends_advance
  report := extends_report
  skipToStatementEnd := extends_skipToStatementEnd
  alloc := extends_alloc
  enterScope := extends_enterScope
  exitScope := extends_exitScope
  addStatement := extends_addStatement
  declare s name kind position _ := s.extends_declare name kind position
  resolveIdentifier := extends_resolveIdentifier
  addModule := extends_addModule
  setLoopDepth _ _ := .of_eq rfl rfl rfl rfl
  setExpressionDepth _ _ := .of_eq rfl rfl rfl rfl

theorem extends_expect (s : Builder) (kind : TokenKind) : s.Extends (s.expect kind).2 :=
  Still.expect s kind

theorem extends_accept (s : Builder) (kind : TokenKind) : s.Extends (s.accept kind).2 :=
  Still.accept s kind

end Builder

/-- **Reading only adds to a builder, and never passes the end of the tokens.** -/
theorem Goal.reach_extends {book : RuleBook} (fuel : Nat) (goal : Goal α) (s : Builder) :
    (Goal.reach book fuel goal).Ensures s fun _ s' => s.Extends s' :=
  Goal.reach_keeps fuel goal s

/-! ## Consequences -/

namespace Builder.Extends

variable {s s' : Builder}

/-- The tokens in front of the end are passed from the first one on. -/
theorem upcoming_eq (h : s.Extends s') : ∃ passed, s.upcoming = passed ++ s'.upcoming := by
  obtain ⟨passed, hrest, hpassed⟩ := h.tokens
  refine ⟨passed, ?_⟩
  rw [upcoming, hrest, List.takeWhile_append_of_pos (by simpa using hpassed)]
  rfl

theorem terminated (h : s.Extends s') (hs : s.Terminated) : s'.Terminated := by
  obtain ⟨passed, hrest, hpassed⟩ := h.tokens
  obtain ⟨t, ht, hkind⟩ := hs
  rw [hrest] at ht
  rcases List.mem_append.mp ht with ht | ht
  · exact absurd hkind (hpassed t ht)
  · exact ⟨t, ht, hkind⟩

/-- A node stays under its handle. -/
theorem get?_node (h : s.Extends s') {id : NodeId} {node : Node}
    (hnode : s.nodes.get? id = some node) : s'.nodes.get? id = some node := by
  obtain ⟨later, hlater⟩ := h.nodes
  simp only [Arena.get?, Arena.toList, ← Array.getElem?_toList] at hnode hlater ⊢
  rw [← hlater, List.getElem?_append_left (List.getElem?_eq_some_iff.mp hnode).1, hnode]

end Builder.Extends

end Braced
