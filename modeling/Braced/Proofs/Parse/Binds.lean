import Braced.Proofs.Parse.Places
import Braced.Proofs.Tree.Uses

/-!
# Braced.Proofs.Parse.Binds

What reading a part binds, and what the names stand for that it uses.

`s.Binds es ids uses s'` says that the scope that is open has got the bindings `es` and
the statements `ids`, and that, unless something has been reported, the uses resolve
in every later tree, in the surroundings that the scopes of `s` make up.

The relation composes; the second part has what the first one binds around it.
-/

namespace Braced

/-! ## Trees that grow -/

namespace Tree

variable {t t' t'' : Tree} {first first' : Nat} {id : NodeId}

theorem KeepsNodes.kind? (h : t.KeepsNodes t') {kind : NodeKind} (hid : t.kind? id = some kind) :
    t'.kind? id = some kind := by
  obtain ⟨node, hnode, rfl⟩ := Option.map_eq_some_iff.mp hid
  rw [Tree.kind?, h id node hnode]
  rfl

theorem ident?_of_kind {name : String} (h : t.kind? id = some (.ident name)) :
    t.ident? id = some name := by
  obtain ⟨⟨position, kind⟩, hnode, rfl⟩ := Option.map_eq_some_iff.mp h
  rw [ident?, hnode]

/-- Nodes stay, scopes grow, and of those that are there the ones from `first` on keep
their statements. -/
structure Becomes (first : Nat) (t t' : Tree) : Prop where
  nodes : t.KeepsNodes t'
  scopes : t.scopes.Grows t'.scopes
  statements : ∀ id : ScopeId, first ≤ id.index → id.index < t.scopes.size →
    t'.statements id = t.statements id

theorem Becomes.trans (h : t.Becomes first t') (h' : t'.Becomes first t'') :
    t.Becomes first t'' where
  nodes id node hnode := h'.nodes id node (h.nodes id node hnode)
  scopes := h.scopes.trans h'.scopes
  statements id hid hlt := (h'.statements id hid (Nat.lt_of_lt_of_le hlt h.scopes.size_le)).trans
    (h.statements id hid hlt)

theorem Becomes.of_le (h : t.Becomes first t') (hfirst : first ≤ first') : t.Becomes first' t' where
  nodes := h.nodes
  scopes := h.scopes
  statements id hid hlt := h.statements id (Nat.le_trans hfirst hid) hlt

/-- The uses resolve in every tree that this one becomes. -/
def Settled (t : Tree) (first : Nat) (uses : Tree → Use → Prop) : Prop :=
  ∀ t', t.Becomes first t' → ∀ u, uses t' u → u.Resolves t'

theorem Settled.mono {uses : Tree → Use → Prop} (h : t.Settled first uses)
    (ht : t.Becomes first t') : t'.Settled first uses :=
  fun _ ht' => h _ (ht.trans ht')

theorem Settled.of_le {uses : Tree → Use → Prop} (h : t.Settled first' uses)
    (hfirst : first ≤ first') : t.Settled first uses :=
  fun _ ht => h _ (ht.of_le hfirst)

end Tree

/-- The uses in a part of a tree that stands in a scope, in certain surroundings. -/
abbrev Uses := ScopeId → Surroundings Entry → Tree → Use → Prop

namespace Uses

def none : Uses := fun _ _ _ _ => False

/-- The uses in one part and in another one that stands behind the bindings `es`. -/
def both (es : List Entry) (first second : Uses) : Uses :=
  fun scope around t u => first scope around t u ∨ second scope (around.declare es) t u

/-- One mention. -/
def mention (m : Mention) : Uses :=
  fun scope around _ u => u = ⟨m, scope, around⟩

/-- The mentions in some expressions. -/
def expressions (ids : List NodeId) : Uses :=
  fun scope around t u => ∃ id ∈ ids, ∃ fuel, ∃ m ∈ t.mentions fuel id, u = ⟨m, scope, around⟩

/-- The mentions in an operand. -/
def operand : Primary → Uses
  | .name name => fun scope around t u =>
    ∃ text ∈ t.ident? name, u = ⟨.variable text, scope, around⟩
  | .call call => .expressions [call]
  | _ => .none

/-- The uses in statements that come one after the other. -/
def statements : List NodeId → Uses
  | [] => .none
  | id :: ids => fun scope around t u =>
    t.UsedBy scope (around.declare (t.bindings id)) id u ∨
      statements ids scope (around.declare (t.bindings id)) t u

/-- The uses in a block, behind parameters. -/
def block (parameters : List Parameter) (body : ScopeId) : Uses := fun _ around t u =>
  statements (t.statements body) body (around.enter.declare (t.parameterBindings parameters)) t u

/-- The uses in the clauses from a node on, if there is one. -/
def clauses (next : Option NodeId) : Uses := fun scope around t u =>
  ∃ id ∈ next, ∃ fuel, u ∈ t.clauseUses fuel scope around id

variable {ids others : List NodeId} {scope : ScopeId} {around : Surroundings Entry} {t : Tree}
  {u : Use}

theorem statements_append (h : statements (ids ++ others) scope around t u) :
    statements ids scope around t u ∨
      statements others scope (around.declare (ids.flatMap t.bindings)) t u := by
  induction ids generalizing around with
  | nil => exact .inr (by simpa using h)
  | cons id ids ih =>
    rcases h with h | h
    · exact .inl (.inl h)
    · refine (ih h).imp .inr fun h => ?_
      rwa [Surroundings.declare_declare] at h

/-- What is found along some statements is used by them. -/
theorem statements_of_along {f : Surroundings Entry → NodeId → List Use}
    (hf : ∀ around id, u ∈ f around id → t.UsedBy scope around id u)
    (h : u ∈ Surroundings.along t.bindings f around ids) : statements ids scope around t u := by
  induction ids generalizing around with
  | nil => cases h
  | cons id ids ih =>
    rcases List.mem_append.mp h with h | h
    · exact .inl (hf _ _ h)
    · exact .inr (ih h)

end Uses

namespace Builder

variable {s s' s'' : Builder} {es es' : List Entry} {ids ids' : List NodeId}
  {uses uses' : Uses} {around : Surroundings Entry}

/-! ## Surroundings that are seen -/

theorem Leads.sound_of (h : Leads s s') (hs : s.Sound) : s'.Sound := by
  induction h with
  | refl => exact hs
  | tail _ hstep ih => exact hstep.sound ih

theorem Leads.distinct_of (h : Leads s s') (hs : s.Sound) (hscopes : s.scopes.Distinct) :
    s'.scopes.Distinct := by
  induction h with
  | refl => exact hscopes
  | tail hleads hstep ih => exact hstep.distinct (Leads.sound_of hleads hs) ih

/-- Outside of all blocks there is what the root has bound. -/
theorem Sees.outside_eq (h : s.Sees around) : around.outside = s.scopes.bound .root := by
  have hlast := h.around.getLast? (h.sound.scopes.rooted _ h.sound.scope) h.sound.scopes.ordered
  simpa [Surroundings.frames] using hlast

/-- A variable that is bound around resolves from there on. -/
theorem Sees.resolves_variable (h : s.Sees around) {name : String}
    (hbound : ∃ frame ∈ around.frames, ∃ e ∈ frame, e.name = name) {t : Tree}
    (ht : s.scopes.Grows t.scopes) : Use.Resolves ⟨.variable name, s.scope, around⟩ t where
  binding := by
    obtain ⟨inner, frame, outer, hframes, hinner, e, he, hname⟩ :=
      Surroundings.exists_innermost (p := fun e : Entry => decide (e.name = name))
        (by simpa using hbound)
    obtain ⟨id, rfl⟩ := h.around.exists_bound (show frame ∈ around.frames by simp [hframes])
    have hname : e.name = name := by simpa using hname
    refine ⟨outer.length, e, ?_, by simp⟩
    have hfilter := h.distinct.filter_eq he
    rw [hname] at hfilter
    show Surroundings.innermost _ around.frames = _
    rw [hframes, Surroundings.innermost_append hinner, Surroundings.innermost_cons hfilter]
  scopes := h.around.grows ht h.sound.scope h.sound.scopes.ordered
  outside := h.outside_eq ▸ ht.bound .root

/-- A call of a function of the root resolves from there on. -/
theorem Sees.resolves_function (h : s.Sees around) {name : String}
    (hbound : ⟨name, .function⟩ ∈ around.outside) {t : Tree}
    (ht : s.scopes.Grows t.scopes) : Use.Resolves ⟨.function name, s.scope, around⟩ t where
  binding := by
    obtain ⟨id, hid⟩ := h.around.exists_bound
      (show around.outside ∈ around.frames by simp [Surroundings.frames])
    refine ⟨0, ⟨name, .function⟩, ?_, by simp⟩
    have hfilter := h.distinct.filter_eq (hid ▸ hbound)
    rw [← hid] at hfilter
    exact Surroundings.innermost_cons hfilter []
  scopes := h.around.grows ht h.sound.scope h.sound.scopes.ordered
  outside := h.outside_eq ▸ ht.bound .root

/-- In a new scope there is nothing in the innermost block. -/
theorem Sees.enterScope (h : s.Sees around) (position : Position) :
    (s.enterScope position).2.Sees around.enter where
  sound := h.sound.enterScope position
  distinct := Leads.distinct_of (.single (.enterScope s position)) h.sound h.distinct
  around := by
    have hparent : (s.enterScope position).2.scopes.parent? (s.enterScope position).1
        = some s.scope :=
      (s.scopes.parent?_push _ _ _).trans (if_pos rfl)
    have hbound : (s.enterScope position).2.scopes.bound (s.enterScope position).1 = [] :=
      (s.scopes.bound_push _ _ _).trans (if_pos rfl)
    rw [Surroundings.frames_enter, ← hbound]
    refine .inner hparent (h.around.congr h.sound.scopes.ordered fun outer hle => ?_)
    exact (s.scopes.get?_push _ _ _).trans
      (if_neg (Nat.ne_of_lt (Nat.lt_of_le_of_lt hle h.sound.scope)))

/-! ## What a part adds -/

/-- A part that was read has added bindings and statements to the scope that is open,
changed no other scope that was there, and its uses resolve. -/
structure Binds (s : Builder) (es : List Entry) (ids : List NodeId) (uses : Uses) (s' : Builder) :
    Prop where
  extends_ : s.Extends s'
  leads : Leads s s'
  scope : s'.scope = s.scope
  others : ∀ id, id.index < s.scopes.size → id ≠ s.scope → s'.scopes.get? id = s.scopes.get? id
  bound : s.Sound → ¬ s'.Noted → s'.scopes.bound s.scope = s.scopes.bound s.scope ++ es
  statements : s.Sound → s'.tree.statements s.scope = s.tree.statements s.scope ++ ids
  settled : ¬ s'.Noted → ∀ around, s.Sees around →
    s'.tree.Settled s.scopes.size (uses s.scope around)

/-- Nothing is bound, stated or used. -/
abbrev Calm (s s' : Builder) : Prop :=
  s.Binds [] [] .none s'

namespace Binds

/-- The scopes around are seen to have bound what they had, and `es`. -/
theorem sees (h : s.Binds es ids uses s') (hs : s.Sees around) (hs' : ¬ s'.Noted) :
    s'.Sees (around.declare es) where
  sound := Leads.sound_of h.leads hs.sound
  distinct := Leads.distinct_of h.leads hs.sound hs.distinct
  around := by
    obtain ⟨frame, outer, hframes, hdeclare⟩ := around.frames_declare es
    have haround := hs.around
    rw [hframes] at haround
    rw [hdeclare, h.scope]
    have hbound := h.bound hs.sound hs'
    cases haround with
    | outermost hparent =>
      rw [← hbound]
      refine .outermost ?_
      obtain ⟨scope, hscope⟩ :=
        Option.isSome_iff_exists.mp ((s.scopes.get?_isSome_iff s.scope).mpr hs.sound.scope)
      obtain ⟨scope', hscope', hsame⟩ := h.extends_.scopes s.scope scope hscope
      rw [ScopeForest.parent?, hscope, Option.bind_some] at hparent
      rw [ScopeForest.parent?, hscope', Option.bind_some, hsame.parent, hparent]
    | @inner _ parent _ hparent houter =>
      have hlt := hs.sound.scopes.ordered _ _ hparent
      rw [← hbound]
      refine .inner (h.extends_.scopes.parent? hparent)
        (houter.congr hs.sound.scopes.ordered fun id hle => ?_)
      refine h.others id (Nat.lt_of_le_of_lt hle (Nat.lt_trans hlt hs.sound.scope)) ?_
      rintro rfl
      omega

/-- What is settled in a scope that was opened later stays. -/
theorem becomes (h : s.Binds es ids uses s') {first : Nat} (hfirst : s.scope.index < first) :
    s.tree.Becomes first s'.tree where
  nodes := h.extends_.keepsNodes
  scopes := h.extends_.scopes
  statements id hid hlt := by
    have hother : id ≠ s.scope := by
      rintro rfl
      omega
    rw [Tree.statements, Tree.statements,
      show s'.tree.scopes.get? id = _ from h.others id hlt hother]
    rfl

/-- **What is read one after the other is bound one after the other**, and the second
part is read where the first one has bound its names. -/
theorem trans (h : s.Binds es ids uses s') (h' : s'.Binds es' ids' uses' s'') :
    s.Binds (es ++ es') (ids ++ ids') (uses.both es uses') s'' where
  extends_ := h.extends_.trans h'.extends_
  leads := h.leads.trans h'.leads
  scope := h'.scope.trans h.scope
  others id hid hother := by
    have hid' := Nat.lt_of_lt_of_le hid h.extends_.scopes.size_le
    exact (h'.others id hid' (h.scope ▸ hother)).trans (h.others id hid hother)
  bound hs hs' := by
    have hbound' := h'.bound (Leads.sound_of h.leads hs) hs'
    rw [h.scope] at hbound'
    rw [hbound', h.bound hs fun hnoted => hs' (h'.extends_.noted hnoted), List.append_assoc]
  statements hs := by
    have hstatements' := h'.statements (Leads.sound_of h.leads hs)
    rw [h.scope] at hstatements'
    rw [hstatements', h.statements hs, List.append_assoc]
  settled hs' around hsees := by
    have hclean : ¬ s'.Noted := fun hnoted => hs' (h'.extends_.noted hnoted)
    have hlater : s'.tree.Becomes s.scopes.size s''.tree :=
      h'.becomes (by rw [h.scope]; exact hsees.sound.scope)
    have hfirst := (h.settled hclean around hsees).mono hlater
    have hsecond := (h'.settled hs' _ (h.sees hsees hclean)).of_le h.extends_.scopes.size_le
    rw [h.scope] at hsecond
    intro t ht u hu
    rcases hu with hu | hu
    · exact hfirst t ht u hu
    · exact hsecond t ht u hu

/-- The uses may be told in another way that holds of every later tree. -/
theorem imp (h : s.Binds es ids uses s')
    (huses : ∀ t, s'.tree.Becomes s.scopes.size t → s.Sound → ∀ around u,
      uses' s.scope around t u → uses s.scope around t u) : s.Binds es ids uses' s' :=
  { h with
    settled := fun hs' around hsees t ht u hu =>
      h.settled hs' around hsees t ht u (huses t ht hsees.sound around u hu) }

theorem then_calm (h : s.Binds es ids uses s') (h' : s'.Calm s'') : s.Binds es ids uses s'' := by
  have hboth := h.trans h'
  rw [List.append_nil, List.append_nil] at hboth
  exact hboth.imp fun _ _ _ _ _ => .inl

theorem after_calm (h : s.Calm s') (h' : s'.Binds es ids uses s'') : s.Binds es ids uses s'' := by
  have hboth := h.trans h'
  rw [List.nil_append, List.nil_append] at hboth
  refine hboth.imp fun _ _ _ around _ hu => .inr ?_
  rwa [Surroundings.declare_nil]

/-- Behind a report nothing is said of bindings and uses. -/
theorem of_noted (h : s.Binds es ids uses s') (hs' : s'.Noted) : s.Binds es' ids uses' s' :=
  { h with
    bound := fun _ hclean => absurd hs' hclean
    settled := fun hclean => absurd hs' hclean }

end Binds

/-! ## Operations -/

theorem Binds.of_scopes_eq (h : s.Extends s') (hleads : Leads s s') (hscope : s'.scope = s.scope)
    (hscopes : s'.scopes = s.scopes) : s.Calm s' where
  extends_ := h
  leads := hleads
  scope := hscope
  others _ _ _ := by rw [hscopes]
  bound _ _ := by rw [hscopes, List.append_nil]
  statements _ := by rw [Tree.statements, Tree.statements, tree, tree, hscopes, List.append_nil]
  settled _ _ _ _ _ _ hu := hu.elim

theorem calm_refl (s : Builder) : s.Calm s :=
  .of_scopes_eq (.refl s) .refl rfl rfl

theorem calm_atDepth (s : Builder) (depth : Nat) : s.Calm (s.atDepth depth) :=
  .of_scopes_eq (.of_eq rfl rfl rfl rfl) (Respected.setExpressionDepth s depth) rfl rfl

theorem calm_exitExpression (s : Builder) (levels : Nat) : s.Calm (s.exitExpression levels) :=
  s.calm_atDepth _

theorem calm_setLoopDepth (s : Builder) (depth : Nat) : s.Calm (s.setLoopDepth depth) :=
  .of_scopes_eq (.of_eq rfl rfl rfl rfl) (Respected.setLoopDepth s depth) rfl rfl

theorem calm_alloc (s : Builder) (position : Position) (kind : NodeKind) :
    s.Calm (s.alloc position kind).2 :=
  .of_scopes_eq (s.extends_alloc position kind) (Plain.alloc s position kind) rfl rfl

/-- Adding a name binds it, if that is what it is added for, or is reported. -/
theorem bound_declare (hs : s.Sound) (name : String) (kind : EntryKind) (position : Position)
    (hclean : ¬ (s.declare name kind position).Noted) :
    (s.declare name kind position).scopes.bound s.scope
      = s.scopes.bound s.scope ++ (if kind.isBinding then [⟨name, kind⟩] else []) := by
  unfold declare at hclean ⊢
  cases hinsert : s.scopes.insert s.scope name kind with
  | error fault =>
    rw [hinsert] at hclean
    exact absurd (noted_report s fault position) hclean
  | ok found => exact (ScopeForest.bound_of_insert hinsert hs.scope s.scope).trans (if_pos rfl)

theorem binds_declare (s : Builder) (name : String) {kind : EntryKind} (hkind : kind.isBinding)
    (position : Position) : s.Binds [⟨name, kind⟩] [] .none (s.declare name kind position) where
  extends_ := s.extends_declare name kind position
  leads := Quiet.declare s name kind position hkind
  scope := (s.stays_declare name kind position).scope
  others := (s.stays_declare name kind position).others
  bound hs hclean := by rw [s.bound_declare hs name kind position hclean, if_pos hkind]
  statements _ := by
    rw [(s.samePlaces_declare name kind position).statements, List.append_nil]
  settled _ _ _ _ _ _ hu := hu.elim

/-- A name that was added is bound for what comes after it. -/
theorem binds_declare_mention (s : Builder) (name : String) {kind : EntryKind}
    (hkind : kind.isBinding) (position : Position) :
    s.Binds [⟨name, kind⟩] [] (.both [⟨name, kind⟩] .none (.mention (.variable name)))
      (s.declare name kind position) :=
  have h := s.binds_declare name hkind position
  { h with
    settled := fun hclean around hsees t ht u hu => by
      rcases hu with hu | hu
      · exact hu.elim
      · cases hu
        obtain ⟨frame, outer, hframes, hdeclare⟩ := around.frames_declare [⟨name, kind⟩]
        rw [← h.scope]
        exact (h.sees hsees hclean).resolves_variable
          ⟨_, hdeclare ▸ List.mem_cons_self, ⟨name, kind⟩, by simp, rfl⟩ ht.scopes }

/-- A variable that is not refused is bound in some scope around. -/
theorem binds_resolveIdentifier (s : Builder) (name : String) (position : Position) :
    s.Binds [] [] (.mention (.variable name)) (s.resolveIdentifier name position) where
  extends_ := s.extends_resolveIdentifier name position
  leads := Still.resolveIdentifier s name position
  scope := (s.stays_resolveIdentifier name position).scope
  others := (s.stays_resolveIdentifier name position).others
  bound hs hclean := by
    rw [List.append_nil]
    unfold resolveIdentifier at hclean ⊢
    split
    · rfl
    · split
      · rfl
      · next hlocal hfound =>
        rw [if_neg hlocal, if_neg hfound] at hclean
        rw [s.bound_declare hs name .reference position hclean]
        exact List.append_nil _
  statements _ := by
    have hsame : s.SamePlaces (s.resolveIdentifier name position) := Still.resolveIdentifier ..
    rw [hsame.statements, List.append_nil]
  settled hclean around hsees t ht u hu := by
    cases hu
    refine hsees.resolves_variable ?_
      ((s.extends_resolveIdentifier name position).scopes.trans ht.scopes)
    rcases hsees.sound.diagnostics_resolveIdentifier name position with ⟨hvisible, -⟩ | ⟨-, hpush⟩
    · obtain ⟨outer, hencloses, hbinds⟩ := hvisible
      exact ⟨_, hsees.around.mem_of_encloses hencloses, (s.scopes.binds_iff outer name).mp hbinds⟩
    · exact absurd (by simp [Noted, hpush]) hclean

instance : Still Calm where
  refl := calm_refl
  trans h h' := h.then_calm h'
  advance s := by
    have hextends := s.extends_advance
    have hleads : Leads s s.advance.2 := Still.advance s
    obtain ⟨current, ahead, heq⟩ := s.advance_snd
    rw [heq] at hextends hleads ⊢
    exact .of_scopes_eq hextends hleads rfl rfl
  report s fault position :=
    .of_scopes_eq (s.extends_report fault position) (Still.report s fault position) rfl rfl
  skipToStatementEnd s :=
    .of_scopes_eq s.extends_skipToStatementEnd (Still.skipToStatementEnd s) rfl rfl
  resolveIdentifier s name position :=
    (s.binds_resolveIdentifier name position).imp fun _ _ _ _ _ hu => hu.elim
  addModule s name := by
    have hextends := s.extends_addModule name
    have hleads : Leads s (s.addModule name) := Still.addModule s name
    unfold addModule at hextends hleads ⊢
    split
    · next modules hinsert =>
      rw [hinsert] at hextends hleads
      exact .of_scopes_eq hextends hleads rfl rfl
    · exact calm_refl s

/-- A call that is not refused is of a function that the root has bound. -/
theorem mem_bound_of_resolveFunction {name : String} {position : Position}
    (hclean : ¬ (s.resolveFunction name position).Noted) :
    ⟨name, .function⟩ ∈ s.scopes.bound .root := by
  unfold resolveFunction at hclean
  split at hclean
  · exact absurd (noted_report _ _ _) hclean
  · next entry hfound =>
    split at hclean
    · next hkind =>
      have hname := SymbolTable.name_of_lookup hfound
      have hmem := SymbolTable.mem_of_lookup hfound
      rw [ScopeForest.bound, List.mem_filter]
      obtain ⟨name', kind'⟩ := entry
      cases hname
      cases hkind
      exact ⟨hmem, rfl⟩
    · exact absurd (noted_report _ _ _) hclean

/-- A call that is not refused resolves. -/
theorem binds_resolveFunction (s : Builder) (name : String) (position : Position) :
    s.Binds [] [] (.mention (.function name)) (s.resolveFunction name position) :=
  { (Still.resolveFunction s name position : s.Calm (s.resolveFunction name position)) with
    settled := fun hclean around hsees t ht u hu => by
      cases hu
      have hgrows : s.scopes.Grows (s.resolveFunction name position).scopes :=
        (Still.resolveFunction s name position : s.Extends _).scopes
      refine hsees.resolves_function ?_ (hgrows.trans ht.scopes)
      rw [hsees.outside_eq]
      exact mem_bound_of_resolveFunction hclean }

/-- A statement is appended to the scope that is open. -/
theorem binds_addStatement (s : Builder) (id : NodeId) :
    s.Binds [] [id] .none (s.addStatement id) where
  extends_ := s.extends_addStatement id
  leads := Plain.addStatement s id
  scope := rfl
  others := (Plain.addStatement (R := Stays) s id).others
  bound _ _ := by
    rw [List.append_nil]
    exact s.scopes.bound_addStatement s.scope s.scope id
  statements hs := by rw [s.statements_addStatement id hs.scope, if_pos rfl]
  settled _ _ _ _ _ _ hu := hu.elim

/-! ## Blocks -/

/-- **What is read in a scope of its own** binds nothing in the scope around it, and is
used in a new block, whose statements are the ones that were read. -/
theorem Binds.block {position : Position} (h : (s.enterScope position).2.Binds es ids uses s')
    (huses : ∀ t, s'.tree.KeepsNodes t → t.statements (s.enterScope position).1 = ids →
      ∀ around u, uses' s.scope around t u → uses (s.enterScope position).1 around.enter t u) :
    s.Binds [] [] uses' s'.exitScope := by
  have hextends := ((s.extends_enterScope position).trans h.extends_).trans s'.extends_exitScope
  have hsize : (s.enterScope position).2.scopes.size = s.scopes.size + 1 := s.scopes.size_push _ _
  -- the scopes that were there before are the same ones
  have hold : ∀ id : ScopeId, id.index < s.scopes.size →
      s'.exitScope.scopes.get? id = s.scopes.get? id := by
    intro id hid
    have hother : id ≠ (s.enterScope position).2.scope := by
      rintro rfl
      exact Nat.lt_irrefl _ hid
    exact (h.others id (by omega) hother).trans
      ((s.scopes.get?_push _ _ _).trans (if_neg (Nat.ne_of_lt hid)))
  have hstatements : s.Sound → s'.tree.statements (s.enterScope position).1 = ids := by
    intro hs
    have hnone : s.tree.statements (s.enterScope position).1 = [] :=
      List.eq_nil_iff_forall_not_mem.mpr fun id hid =>
        Nat.lt_irrefl _ (Tree.mem_statements_lt hid)
    have hnew := h.statements (hs.enterScope position)
    rw [statements_enterScope] at hnew
    refine Eq.trans hnew ?_
    rw [show (s.enterScope position).2.scope = (s.enterScope position).1 from rfl, hnone]
    rfl
  refine ⟨hextends, ((Relation.ReflTransGen.single (.enterScope s position)).trans h.leads).trans
      (.single (.exitScope s')), h.extends_.scope_exitScope h.scope, fun id hid _ => hold id hid,
      fun hs _ => ?_, fun hs => ?_, fun hclean around hsees t ht u hu => ?_⟩
  · rw [ScopeForest.bound, ScopeForest.table, hold _ hs.scope, List.append_nil]
    rfl
  · rw [Tree.statements, show s'.exitScope.tree.scopes.get? s.scope = _ from hold _ hs.scope,
      List.append_nil]
    rfl
  · have hsettled : s'.tree.Settled s.scopes.size _ :=
      (h.settled hclean _ (hsees.enterScope position)).of_le (by omega)
    have hlt : (s.enterScope position).1.index < s'.scopes.size :=
      Nat.lt_of_lt_of_le (hsees.sound.enterScope position).scope h.extends_.scopes.size_le
    exact hsettled t ht u (huses t ht.nodes ((ht.statements _ (Nat.le_refl _) hlt).trans
      (hstatements hsees.sound)) around u hu)

end Builder

end Braced
