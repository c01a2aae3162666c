import Braced.Proofs.Compile
import Braced.Proofs.Parse.Directives
import Braced.Proofs.Parse.Follows
import Braced.Proofs.Parse.Named

/-!
# Braced.Proofs.Parse.Callees

What calls are of.

A call is looked up in the table of the root, as it is when the name of the call has been
read.  So each call that is added is of a name that the root has bound to a function by
then (`Builder.Calls`).  The root takes a name once: before a function of it is declared,
no call has been of its name, and so all of them come behind (`Tree.Heads`).  Since the
root binds what its statements bind, the function is one of them.
-/

namespace Braced

/-! ## Calls and the table of the root -/

namespace Builder

variable {s s' s'' : Builder} {first first' : Nat} {callee : NodeId} {position : Position}

/-- A node that is new since the node `first` was added is a name at the place, and the root
binds the name to a function, unless something has been reported. -/
structure CalleeAt (s : Builder) (first : Nat) (callee : NodeId) (position : Position) :
    Prop where
  first_le : first ≤ callee.index
  named : ∃ name, s.tree.node? callee = some ⟨position, .ident name⟩ ∧
    (¬ s.Noted → ⟨name, .function⟩ ∈ s.scopes.bound .root)

theorem CalleeAt.extends_ (h : s.CalleeAt first callee position) (hs : s.Extends s')
    (hfirst : first' ≤ first) : s'.CalleeAt first' callee position where
  first_le := Nat.le_trans hfirst h.first_le
  named := by
    obtain ⟨name, hnode, hbound⟩ := h.named
    exact ⟨name, hs.keepsNodes _ _ hnode, fun hclean =>
      (hs.scopes.bound .root).subset (hbound fun hnoted => hclean (hs.noted hnoted))⟩

/-- Each call that is new in `s'` comes with its name, and the root binds that to a
function. -/
structure Calls (s s' : Builder) : Prop where
  extends_ : s.Extends s'
  callee : ∀ id position callee arguments isDirective, s.nodes.size ≤ id.index →
    s'.tree.node? id = some ⟨position, .call callee arguments isDirective⟩ →
    s'.CalleeAt s.nodes.size callee position

theorem Extends.size_nodes_le (h : s.Extends s') : s.nodes.size ≤ s'.nodes.size := by
  have hlength := h.nodes.length_le
  rwa [Arena.toList, Array.length_toList, Arena.toList, Array.length_toList] at hlength

theorem Calls.trans (h : s.Calls s') (h' : s'.Calls s'') : s.Calls s'' where
  extends_ := h.extends_.trans h'.extends_
  callee id position callee arguments isDirective hid hnode := by
    by_cases hold : id.index < s'.nodes.size
    · rw [h'.extends_.node?_of_lt hold] at hnode
      exact (h.callee _ _ _ _ _ hid hnode).extends_ h'.extends_ (Nat.le_refl _)
    · have hnew := h'.callee _ _ _ _ _ (Nat.le_of_not_lt hold) hnode
      exact hnew.extends_ (.refl _) h.extends_.size_nodes_le

/-- A node may be added, and if it is a call, behind its name. -/
theorem Calls.alloc (h : s.Calls s') (position : Position) {kind : NodeKind}
    (hkind : ∀ callee arguments isDirective, kind = .call callee arguments isDirective →
      s'.CalleeAt s.nodes.size callee position) : s.Calls (s'.alloc position kind).2 where
  extends_ := h.extends_.trans (s'.extends_alloc position kind)
  callee id at_ callee arguments isDirective hid hnode := by
    have hadds := s'.extends_alloc position kind
    rw [s'.node?_of_alloc position kind id] at hnode
    split at hnode
    · cases hnode
      exact (hkind _ _ _ rfl).extends_ hadds (Nat.le_refl _)
    · exact (h.callee _ _ _ _ _ hid hnode).extends_ hadds (Nat.le_refl _)

theorem calls_of_nodes (h : Leads s s') (hnodes : s'.nodes = s.nodes) : s.Calls s' where
  extends_ := h.extends_
  callee id position callee arguments isDirective hid hnode := by
    have hlt : id.index < s'.nodes.size :=
      Tree.lt_size_of_isSome (t := s'.tree) (Option.isSome_iff_exists.mpr ⟨_, hnode⟩)
    rw [hnodes] at hlt
    omega

theorem Calls.refl (s : Builder) : s.Calls s :=
  calls_of_nodes .refl rfl

instance : Modest Calls :=
  .of_nodes calls_of_nodes .trans
    (fun s position kind h => (Calls.refl s).alloc position fun _ _ _ hkind => by
      rw [hkind] at h
      cases h)
    fun s position name => (Calls.refl s).alloc position fun _ _ _ hkind => by cases hkind

instance : Opening Calls :=
  .of_nodes calls_of_nodes

/-- The name of a call that was not refused is there for the call. -/
theorem calleeAt_alloc (s : Builder) (name : String) (position : Position) :
    ((s.resolveFunction name position).alloc position (.ident name)).2.CalleeAt s.nodes.size
      ((s.resolveFunction name position).alloc position (.ident name)).1 position where
  first_le := (Still.resolveFunction s name position : s.Extends _).size_nodes_le
  named := by
    refine ⟨name, node?_alloc _ position _, fun hclean => ?_⟩
    have hgrows : s.scopes.Grows (s.resolveFunction name position).scopes :=
      (Still.resolveFunction s name position : s.Extends _).scopes
    exact (hgrows.bound .root).subset (mem_bound_of_resolveFunction hclean)

end Builder

/-! ## Calls behind the names of functions -/

namespace Tree

/-- The node is a name, and all calls of the name come behind it. -/
structure Heads (t : Tree) (id : NodeId) (name : String) : Prop where
  named : ∃ position, t.node? id = some ⟨position, .ident name⟩
  lt : ∀ call position callee arguments isDirective,
    t.node? call = some ⟨position, .call callee arguments isDirective⟩ →
    t.ident? callee = some name → id.index < callee.index

/-- The node is there, and if it is a function, all calls of its name come behind that. -/
def CalledBehind (t : Tree) (id : NodeId) : Prop :=
  ∃ node, t.node? id = some node ∧ ∀ name result parameters body origin,
    node.kind = .function name result parameters body origin → ∃ text, t.Heads name text

end Tree

namespace Builder

variable {s s' : Builder} {tokens : List Token}

/-- What is read later adds calls behind all names that are there. -/
theorem Calls.heads (hs : s.Calls s') {id : NodeId} {name : String} (h : s.tree.Heads id name) :
    s'.tree.Heads id name where
  named := by
    obtain ⟨position, hnode⟩ := h.named
    exact ⟨position, hs.extends_.keepsNodes _ _ hnode⟩
  lt call position callee arguments isDirective hnode hname := by
    obtain ⟨_, hthere⟩ := h.named
    have hid : id.index < s.nodes.size :=
      Tree.lt_size_of_isSome (t := s.tree) (by rw [hthere]; rfl)
    by_cases hcall : call.index < s.nodes.size
    · -- a callee in front of `id` would have been there before, and so would the call of it
      rw [hs.extends_.node?_of_lt hcall] at hnode
      refine Nat.lt_of_not_le fun hle => ?_
      rw [Tree.ident?, hs.extends_.node?_of_lt (Nat.lt_of_le_of_lt hle hid)] at hname
      exact Nat.not_lt_of_le hle (h.lt _ _ _ _ _ hnode hname)
    · have hcallee := hs.callee _ _ _ _ _ (Nat.le_of_not_lt hcall) hnode
      exact Nat.lt_of_lt_of_le hid hcallee.first_le

theorem Calls.calledBehind (hs : s.Calls s') {id : NodeId} (h : s.tree.CalledBehind id) :
    s'.tree.CalledBehind id := by
  obtain ⟨node, hnode, hheads⟩ := h
  refine ⟨node, hs.extends_.keepsNodes _ _ hnode, fun name _ _ _ _ hkind => ?_⟩
  obtain ⟨text, hheads⟩ := hheads name _ _ _ _ hkind
  exact ⟨text, hs.heads hheads⟩

/-- A name that is added was not bound before in the scope that is open. -/
theorem ne_of_declare {name : String} {kind : EntryKind} {position : Position}
    (hkind : kind.isBinding) (hclean : ¬ (s.declare name kind position).Noted) {e : Entry}
    (he : e ∈ s.scopes.bound s.scope) : e.name ≠ name := by
  unfold declare at hclean
  cases hinsert : s.scopes.insert s.scope name kind with
  | error fault =>
    rw [hinsert] at hclean
    exact absurd (noted_report s fault position) hclean
  | ok found => exact ScopeForest.ne_of_insert hinsert hkind he

/-- Before the root takes the name of a function, no call has been of it. -/
theorem heads_alloc (hcalls : (ofTokens tokens).Calls s) (hroot : s.scope = .root) {name : String}
    {position : Position} (hclean : ¬ (s.declare name .function position).Noted) :
    ((s.declare name .function position).alloc position (.ident name)).2.tree.Heads
      ((s.declare name .function position).alloc position (.ident name)).1 name where
  named := ⟨position, node?_alloc _ position _⟩
  lt call at_ callee arguments isDirective hnode hname := by
    exfalso
    have hdeclare := s.extends_declare name .function position
    rw [node?_of_alloc, Tree.node?, show (s.declare name .function position).tree.nodes = s.nodes
      from (Quiet.declare s name .function position rfl : s.SamePlaces _).nodes] at hnode
    split at hnode
    · cases hnode
    · -- the root would have bound the name for the call, and could not take it again
      obtain ⟨name', hnode', hbound⟩ := (hcalls.callee _ _ _ _ _ (Nat.zero_le _) hnode).named
      have hkept := (hdeclare.trans (extends_alloc _ position (.ident name))).keepsNodes _ _ hnode'
      rw [Tree.ident?, hkept] at hname
      cases hname
      have hmem := hbound fun hnoted => hclean (hdeclare.noted hnoted)
      exact ne_of_declare rfl hclean (hroot ▸ hmem) rfl

end Builder

namespace Parse

open Builder Tree.Expression Tree.Statement

variable {reach : Reach} {s : Builder} {tokens : List Token}

section

variable (hr : ∀ {α : Type} (goal : Goal α), Keeps Calls (reach goal))

include hr

theorem calls_call (isStatement : Bool) : Keeps Calls (call reach isStatement) := by
  intro s
  rw [call, ensures_bind, Parse.expect, ensures_act]
  have h₁ : s.Calls (s.expect .identifier).2 := Moves.expect s .identifier
  cases (s.expect .identifier).1 with
  | none => exact (ensures_pure _).mpr h₁
  | some token =>
    simp only [ensures_bind, resolveFunction, ensures_change, alloc, ensures_act]
    have h₂ := (h₁.trans (Still.resolveFunction _ token.identifierName token.position)).trans
      (Tame.name _ token.position token.identifierName)
    have hcallee := calleeAt_alloc (s.expect .identifier).2 token.identifierName token.position
    refine (keeps_argumentList hr _).imp fun found s₃ h₃ => ?_
    cases found with
    | none => exact (ensures_pure _).mpr (h₂.trans h₃)
    | some arguments =>
      simp only [ensures_bind, ensures_look, ensures_act, ensures_pure]
      refine (h₂.trans h₃).alloc token.position fun callee _ _ hkind => ?_
      cases hkind
      exact hcallee.extends_ h₃.extends_ h₁.extends_.size_nodes_le

/-- All calls of a function of the root come behind its name. -/
theorem heads_signatureOf (hcalls : (ofTokens tokens).Calls s) (hroot : s.scope = .root)
    (token : Token) : (signatureOf reach token).Ensures s fun found s' => s.Calls s' ∧
      (¬ s'.Noted → ∃ name, s'.tree.Heads found.name name) := by
  simp only [signatureOf, ensures_bind, Parse.declare, ensures_change, alloc, ensures_act]
  have hname : s.Calls ((s.declare token.identifierName .function token.position).alloc
      token.position (.ident token.identifierName)).2 :=
    Calls.trans (Quiet.declare _ _ _ _ rfl) (Tame.name _ _ _)
  refine (keeps_expect (R := Calls) _).imp fun _ s₁ h₁ => ?_
  refine (keeps_enterScope (R := Calls) s₁).imp fun _ s₂ h₂ => ?_
  refine (keeps_parameterList hr s₂).imp fun _ s₃ h₃ => ?_
  refine (keeps_resultType hr s₃).imp fun _ s₄ h₄ => (ensures_pure _).mpr ?_
  have hrest := ((h₁.trans h₂).trans h₃).trans h₄
  refine ⟨hname.trans hrest, fun hclean => ⟨token.identifierName, hrest.heads ?_⟩⟩
  refine heads_alloc hcalls hroot fun hnoted => hclean ?_
  exact ((extends_alloc _ _ _).trans hrest.extends_).noted hnoted

theorem heads_signature (hcalls : (ofTokens tokens).Calls s) (hroot : s.scope = .root) :
    (signature reach).Ensures s fun found s' => s.Calls s' ∧
      (¬ s'.Noted → ∀ signature ∈ found, ∃ name, s'.tree.Heads signature.name name) := by
  rw [signature, ensures_bind, Parse.expect, ensures_act]
  have h₁ : s.Calls (s.expect .identifier).2 := Moves.expect s .identifier
  have hscope : (s.expect .identifier).2.scope = s.scope :=
    (Moves.expect s .identifier : s.Stays _).scope
  cases (s.expect .identifier).1 with
  | none => exact (ensures_pure _).mpr ⟨h₁, fun _ _ h => by cases h⟩
  | some token =>
    rw [ensures_bind]
    refine (heads_signatureOf hr (hcalls.trans h₁) (hscope.trans hroot) token).imp
      fun found s₂ hlater => (ensures_pure _).mpr ?_
    obtain ⟨h₂, hheads⟩ := hlater
    refine ⟨h₁.trans h₂, fun hclean other hother => ?_⟩
    cases hother
    exact hheads hclean

/-- What is found, if anything, is no function, or all calls of it come behind its name. -/
def FoundBehind (found : Option NodeId) (s : Builder) : Prop :=
  ¬ s.Noted → ∀ id ∈ found, s.tree.CalledBehind id

omit hr in
theorem FoundBehind.calls {found : Option NodeId} {s' : Builder} (h : FoundBehind found s)
    (hs : s.Calls s') : FoundBehind found s' := fun hclean id hid =>
  hs.calledBehind (h (fun hnoted => hclean (hs.extends_.noted hnoted)) id hid)

omit hr in
/-- A function is found whose name was added before. -/
theorem foundBehind_alloc {s₀ : Builder} {name : NodeId}
    (hheads : ¬ s₀.Noted → ∃ text, s₀.tree.Heads name text) (hs : s₀.Calls s) (position : Position)
    (result : Option NodeId) (parameters : List Parameter) (body : ScopeId) (origin : Origin) :
    FoundBehind (some (s.alloc position (.function name result parameters body origin)).1)
      (s.alloc position (.function name result parameters body origin)).2 := by
  intro hclean id hid
  cases hid
  have hadds : s₀.Calls (s.alloc position (.function name result parameters body origin)).2 :=
    hs.alloc position fun _ _ _ hkind => by cases hkind
  obtain ⟨text, hheads⟩ := hheads fun hnoted => hclean (hadds.extends_.noted hnoted)
  refine ⟨_, s.node?_alloc position _, fun _ _ _ _ _ hkind => ?_⟩
  cases hkind
  exact ⟨text, hadds.heads hheads⟩

theorem foundBehind_function (hcalls : (ofTokens tokens).Calls s) (hroot : s.scope = .root) :
    (function reach).Ensures s FoundBehind := by
  rw [function, ensures_bind, currentPosition, ensures_look, ensures_bind]
  refine ((keeps_refuseNested (R := Calls) s).and (keeps_refuseNested (R := Stays) s)).imp
    fun _ s₁ hkept => ?_
  obtain ⟨h₁, hstays⟩ := hkept
  rw [ensures_bind]
  refine (heads_signature hr (hcalls.trans h₁) (hstays.scope.trans hroot)).imp
    fun found s₂ hlater => ?_
  obtain ⟨-, hheads⟩ := hlater
  cases found with
  | none => exact (ensures_pure _).mpr fun _ _ h => by cases h
  | some found =>
    simp only [ensures_bind, ensures_look, ensures_change]
    refine (keeps_blockBody hr _).imp fun _ s₃ h₃ => ?_
    simp only [exitScope, ensures_change, alloc, ensures_act, ensures_pure]
    have hbody := ((Opening.setLoopDepth s₂ 0 : s₂.Calls _).trans h₃).trans
      (Opening.setLoopDepth s₃ s₂.loopDepth)
    exact foundBehind_alloc (fun hclean => hheads hclean found rfl)
      (hbody.trans (Opening.exitScope _)) _ _ _ _ _

theorem foundBehind_foreignImport (hcalls : (ofTokens tokens).Calls s) (hroot : s.scope = .root) :
    (foreignImport reach).Ensures s FoundBehind := by
  simp only [foreignImport, closedSignature, ensures_bind, Parse.advance, Parse.expect,
    Parse.addModule, ensures_act, ensures_change]
  -- whatever is kept by passing tokens is kept up to the signature
  have hmoves : ∀ {R : Builder → Builder → Prop} [hR : Moves R] name,
      R s (((((((s.advance.2.expect .kwForeign).2.expect .kwFrom).2.expect .openParen).2.expect
        .identifier).2.addModule name).expect .comma).2) := by
    intro R hR name
    have hbefore := hR.trans (hR.trans (hR.trans (hR.trans (hR.advance s)
      (Moves.expect _ .kwForeign)) (Moves.expect _ .kwFrom)) (Moves.expect _ .openParen))
      (Moves.expect _ .identifier)
    exact hR.trans (hR.trans hbefore (hR.addModule _ name)) (Moves.expect _ .comma)
  refine (heads_signature hr (hcalls.trans (hmoves _))
    ((hmoves (R := Stays) _).scope.trans hroot)).imp fun found s₂ hlater => ?_
  obtain ⟨-, hheads⟩ := hlater
  cases found with
  | none => exact (ensures_pure _).mpr ((ensures_pure _).mpr fun _ _ h => by cases h)
  | some found =>
    simp only [exitScope, ensures_bind, ensures_change, alloc, ensures_act, ensures_pure]
    have hclose := (Opening.exitScope s₂ : s₂.Calls _).trans (Moves.expect _ .closeParen)
    exact foundBehind_alloc (fun hclean => hheads hclean found rfl)
      (hclose.trans (Moves.expect _ .semicolon)) _ _ _ _ _

end

end Parse

namespace Goal

open Builder Parse

variable {s : Builder} {tokens : List Token}

/-- **Calls come with their names**, and the root binds these to functions, along any
reading. -/
theorem reach_calls (fuel : Nat) (goal : Goal α) (s : Builder) :
    (reach .standard fuel goal).Ensures s fun _ s' => s.Calls s' := by
  refine reach_keeps_with (fun fuel hr => ⟨keepsNaming hr (calls_call hr), ?_⟩) fuel goal s
  have hnode : ∀ {position name result parameters body origin},
      Keeps Calls (alloc position (.function name result parameters body origin)) :=
    keeps_act fun s => (Calls.refl s).alloc _ fun _ _ _ hkind => by cases hkind
  exact keepsOpening_of hr (keeps_function hr (keeps_signature hr) hnode)
    (keeps_foreignImport (keeps_signature hr) hnode)

/-- All calls of a function that is declared in the root come behind its name. -/
theorem reach_declaration_foundBehind (hcalls : (ofTokens tokens).Calls s) (h : s.InRoot)
    (fuel : Nat) : (reach .standard fuel (.production .declaration)).Ensures s FoundBehind := by
  have hother : ∀ {found : Option NodeId} {s' : Builder},
      Found (fun node => ∀ name result parameters body origin,
        node.kind ≠ .function name result parameters body origin) found s' →
      FoundBehind found s' := by
    intro found s' hfound _ id hid
    obtain ⟨node, hnode, hkind⟩ := hfound id hid
    exact ⟨node, hnode, fun _ _ _ _ _ heq => absurd heq (hkind _ _ _ _ _)⟩
  have hkeeps : ∀ fuel {α : Type} (goal : Goal α), Keeps Calls (reach .standard fuel goal) :=
    fun fuel _ goal s => reach_calls fuel goal s
  refine reach_declaration_of (fun _ _ _ h => by cases h)
    (fun _ s' hfound => hfound.calls (Moves.expect s' .semicolon)) (fun fuel => ?_) (fun _ => ?_)
    (fun fuel => foundBehind_function (hkeeps fuel) hcalls h.scope)
    (fun fuel => foundBehind_foreignImport (hkeeps fuel) hcalls h.scope) fuel
  · refine (found_call (reach_stays fuel) fun _ _ => ?_).imp fun _ _ => hother
    simp
  · refine (found_variableStatement fun _ _ _ => ?_).imp fun _ _ => hother
    simp

/-- All calls of functions that are added to the root come behind their names. -/
theorem reach_declarations_calledBehind (fuel : Nat) :
    (reach .standard fuel .declarations).Ensures (ofTokens tokens) fun _ s' =>
      (ofTokens tokens).Calls s' ∧
        (¬ s'.Noted → ∀ id ∈ s'.tree.rootStatements, s'.tree.CalledBehind id) := by
  refine Ensures.imp (reach_declarations_of (I := fun s => s.InRoot ∧ (ofTokens tokens).Calls s ∧
    (¬ s.Noted → ∀ id ∈ s.tree.rootStatements, s.tree.CalledBehind id)) (fun fuel s hs _ => ?_) fuel
    ⟨inRoot_ofTokens tokens, .refl _, fun _ _ hid => by cases hid⟩) fun _ _ h => h.2
  obtain ⟨hroot, hcalls, hbehind⟩ := hs
  refine (((reach_declaration_inRoot hroot fuel).and (reach_calls fuel _ s)).and
    (reach_declaration_foundBehind hcalls hroot fuel)).imp
    fun found s' hlater => ?_
  obtain ⟨⟨⟨hroot', hextends, hsame⟩, hcalls'⟩, hfound⟩ := hlater
  have hold : ¬ s'.Noted → ∀ id ∈ s'.tree.rootStatements, s'.tree.CalledBehind id := by
    intro hclean id hid
    rw [hsame] at hid
    exact hcalls'.calledBehind (hbehind (fun hnoted => hclean (hextends.noted hnoted)) id hid)
  cases found with
  | none => exact ⟨hroot', hcalls.trans hcalls', hold⟩
  | some id =>
    have hadds : s'.Calls (s'.addStatement id) := Collects.addStatement s' id
    refine ⟨hroot'.addStatement id, (hcalls.trans hcalls').trans hadds,
      fun hclean other hother => ?_⟩
    have hclean' : ¬ s'.Noted := fun hnoted => hclean (hadds.extends_.noted hnoted)
    rw [Option.elim_some, hroot'.rootStatements_addStatement, List.mem_append,
      List.mem_singleton] at hother
    rcases hother with hother | rfl
    · exact hadds.calledBehind (hold hclean' other hother)
    · exact hadds.calledBehind (hfound hclean' other rfl)

end Goal

/-! ## What a call reports -/

namespace Builder

variable {s : Builder} {tokens : List Token}

/-- The root knows names of variables and of functions. -/
theorem Leads.kind_of_mem_root (h : Leads (ofTokens tokens) s) {e : Entry}
    (he : e ∈ (s.scopes.table .root).entries) : e.kind = .declaration ∨ e.kind = .function := by
  cases hkind : e.kind with
  | declaration => exact .inl rfl
  | function => exact .inr rfl
  | reference =>
    obtain ⟨outer, hsurrounds, -⟩ := h.sound.scopes.reference .root e he hkind
    exact absurd hsurrounds (h.sound.scopes.ordered.not_surrounds_root outer)
  | module => exact absurd hkind (h.sound.scopes.module .root e he)

/-- The root knows a name as one thing. -/
theorem Leads.eq_of_mem_root (h : Leads (ofTokens tokens) s) {e e' : Entry}
    (he : e ∈ (s.scopes.table .root).entries) (he' : e' ∈ (s.scopes.table .root).entries)
    (hname : e.name = e'.name) : e = e' := by
  have hbound : ∀ e ∈ (s.scopes.table .root).entries, e ∈ s.scopes.bound .root := by
    intro e he
    refine List.mem_filter.mpr ⟨he, ?_⟩
    rcases h.kind_of_mem_root he with hkind | hkind <;> simp [hkind, EntryKind.isBinding]
  exact List.inj_on_of_nodup_map (h.distinct .root) (hbound e he) (hbound e' he') hname

/-- **A call reports what its name is in the root**: a name that the root does not know, a
name that it knows as a variable, and nothing else. -/
theorem Leads.resolveFunction_exact (h : Leads (ofTokens tokens) s) (name : String)
    (position : Position) : ∃ faults : List Diagnostic,
      s.resolveFunction name position = { s with diagnostics := s.diagnostics ++ faults } ∧
      (faults = [⟨.undeclaredFunction name, position⟩] ↔
        ∀ e ∈ (s.scopes.table .root).entries, e.name ≠ name) ∧
      (faults = [⟨.notCallable name, position⟩] ↔
        ⟨name, .declaration⟩ ∈ (s.scopes.table .root).entries) ∧
      (faults = [] ↔ ⟨name, .function⟩ ∈ (s.scopes.table .root).entries) := by
  unfold resolveFunction ScopeForest.lookupLocal
  cases hfound : (s.scopes.table .root).lookup name with
  | none =>
    have hnone : ∀ e ∈ (s.scopes.table .root).entries, e.name ≠ name := by
      intro e he hname
      have hsome := (SymbolTable.lookup_isSome_iff _ name).mpr ⟨e, he, hname⟩
      rw [hfound] at hsome
      cases hsome
    refine ⟨[⟨.undeclaredFunction name, position⟩], ?_, iff_of_true rfl hnone,
      iff_of_false (by simp) fun hmem => hnone _ hmem rfl,
      iff_of_false (by simp) fun hmem => hnone _ hmem rfl⟩
    simp [report]
  | some e =>
    have he := SymbolTable.mem_of_lookup hfound
    obtain rfl := SymbolTable.name_of_lookup hfound
    obtain ⟨name, kind⟩ := e
    rcases h.kind_of_mem_root he with hkind | hkind
    · obtain rfl : kind = .declaration := hkind
      refine ⟨[⟨.notCallable name, position⟩], by simp [report],
        iff_of_false (by simp) fun hnone => hnone _ he rfl, iff_of_true rfl he,
        iff_of_false (by simp) fun hmem => ?_⟩
      cases h.eq_of_mem_root he hmem rfl
    · obtain rfl : kind = .function := hkind
      refine ⟨[], by simp, iff_of_false (by simp) fun hnone => hnone _ he rfl,
        iff_of_false (by simp) fun hmem => ?_, iff_of_true rfl he⟩
      cases h.eq_of_mem_root he hmem rfl

end Builder

namespace Parse

open Builder Tree.Expression

variable {s : Builder} {reach : Reach}

/-- What is read of a call behind its name. -/
def callBehind (reach : Reach) (isStatement : Bool) (token : Token) : Parse (Option NodeId) := do
  let callee ← alloc token.position (.ident token.identifierName)
  match ← argumentList reach with
  | none => return none
  | some found =>
    let isDirective := isStatement && (← look Builder.atRoot)
    return some (← alloc token.position (.call callee found isDirective))

/-- A call is read by looking its name up in the root, and going on behind it. -/
theorem call_eq_callBehind (hkind : s.current.kind = .identifier) (isStatement : Bool) :
    call reach isStatement s = callBehind reach isStatement s.current
      (s.advance.2.resolveFunction s.current.identifierName s.current.position) := by
  have hexpect : s.expect .identifier = (some s.current, s.advance.2) := by
    rw [Builder.expect, if_pos hkind, ← s.advance_fst]
  simp only [call, Bind.bind, StateT.bind, Parse.expect, act, hexpect, resolveFunction, change,
    Option.bind_some]
  rfl

/-- Behind the name of a call, fault is found with what is there. -/
theorem faultsIn_callBehind (hr : ∀ {α : Type} (goal : Goal α), Keeps Follows (reach goal))
    (isStatement : Bool) (token : Token) :
    (callBehind reach isStatement token).Ensures s fun _ s' => s.FaultsIn s' := by
  rw [callBehind, ensures_bind, alloc, ensures_act, ensures_bind]
  have hname : s.FaultsIn (s.alloc token.position (.ident token.identifierName)).2 := .of_eq rfl
  refine (keeps_argumentList hr _).imp fun found s₁ h₁ => ?_
  have hfaults := hname.trans (s.extends_alloc _ _) h₁.faults
  cases found with
  | none => exact (ensures_pure _).mpr hfaults
  | some found =>
    simp only [ensures_bind, ensures_look, alloc, ensures_act, ensures_pure]
    exact hfaults

end Parse

/-! ## Targets -/

namespace Tree

open Parse

variable {t : Tree} {name : String} {f n : NodeId}

/-- A statement of the root is a function of the name, which the node `n` carries. -/
structure Defines (t : Tree) (name : String) (f n : NodeId) : Prop where
  mem : f ∈ t.rootStatements
  kind : ∃ result parameters body origin,
    t.kind? f = some (.function n result parameters body origin)
  named : t.ident? n = some name

theorem Defines.mem_bindings (h : t.Defines name f n) : ⟨name, .function⟩ ∈ t.bindings f := by
  obtain ⟨result, parameters, body, origin, hkind⟩ := h.kind
  simp [bindings, hkind, h.named]

/-- What is bound as a function is one. -/
theorem defines_of_mem_bindings (hf : f ∈ t.rootStatements)
    (h : ⟨name, .function⟩ ∈ t.bindings f) : ∃ n, t.Defines name f n := by
  unfold bindings at h
  split at h
  · simp at h
  · next n result parameters body origin hkind =>
    have hname : t.ident? n = some name := by simpa using h
    exact ⟨n, hf, ⟨result, parameters, body, origin, hkind⟩, hname⟩
  · cases h

/-- Where the root binds a name once, a single statement defines it. -/
theorem Defines.unique (hnodup : (t.rootBindings.map Entry.name).Nodup) {g m : NodeId}
    (hf : t.Defines name f n) (hg : t.Defines name g m) : g = f ∧ m = n := by
  obtain rfl : g = f := by
    rw [rootBindings, List.map_flatMap, List.nodup_flatMap] at hnodup
    refine Classical.byContradiction fun hne => ?_
    have hsymm : Std.Symm (Function.onFun List.Disjoint fun f => (t.bindings f).map Entry.name) :=
      ⟨fun _ _ hdisjoint => hdisjoint.symm⟩
    exact hnodup.2.forall hg.mem hf.mem hne (List.mem_map_of_mem hg.mem_bindings)
      (List.mem_map_of_mem hf.mem_bindings)
  obtain ⟨_, _, _, _, hfunction⟩ := hf.kind
  obtain ⟨_, _, _, _, hother⟩ := hg.kind
  rw [hfunction] at hother
  cases hother
  exact ⟨rfl, rfl⟩

/-- All calls of a function come behind its name. -/
theorem Defines.heads (hf : t.Defines name f n) (h : t.CalledBehind f) : t.Heads n name := by
  obtain ⟨result, parameters, body, origin, hkind⟩ := hf.kind
  obtain ⟨node, hnode, hheads⟩ := h
  rw [kind?, hnode] at hkind
  obtain ⟨text, hheads⟩ := hheads n result parameters body origin (Option.some.inj hkind)
  obtain ⟨position, hposition⟩ := hheads.named
  have hnamed := hf.named
  rw [ident?, hposition] at hnamed
  cases hnamed
  exact hheads

/-- In the tree of tokens with which nothing is wrong, each call comes with a name that the
root binds to a function, and behind the names of the functions of the root. -/
theorem calls_ofTokens {tokens : List Token} (h : (ofTokens tokens).2 = []) :
    (∀ id position callee arguments isDirective,
      (ofTokens tokens).1.node? id = some ⟨position, .call callee arguments isDirective⟩ →
      ∃ name, (ofTokens tokens).1.node? callee = some ⟨position, .ident name⟩ ∧
        ⟨name, .function⟩ ∈ (ofTokens tokens).1.scopes.bound .root) ∧
    ∀ id ∈ (ofTokens tokens).1.rootStatements, (ofTokens tokens).1.CalledBehind id := by
  obtain ⟨fuel, hread⟩ := build_spec tokens
  obtain ⟨hcalls, hbehind⟩ := Goal.reach_declarations_calledBehind fuel _ _ hread
  have hclean : ¬ (build tokens).Noted := fun hnoted => hnoted h
  refine ⟨fun id position callee arguments isDirective hnode => ?_, hbehind hclean⟩
  obtain ⟨name, hcallee, hbound⟩ := (hcalls.callee _ _ _ _ _ (Nat.zero_le _) hnode).named
  exact ⟨name, hcallee, hbound hclean⟩

/-- **Every call of an accepted source is of a function of the root**, the only one of its
name, and behind the name of the function. -/
theorem exists_defines {lx : Lexicon} {source : List UInt8} (h : ofSource lx source = .ok t)
    {tokens : List Token} (htokens : Token.ofSource lx source = .ok tokens) {id callee : NodeId}
    {position : Position} {arguments : List NodeId} {isDirective : Bool}
    (hcall : t.node? id = some ⟨position, .call callee arguments isDirective⟩) :
    ∃ name f n, t.node? callee = some ⟨position, .ident name⟩ ∧ t.Defines name f n ∧
      (∀ g m, t.Defines name g m → g = f ∧ m = n) ∧
      ∃ first second, [first, second].Sublist tokens ∧
        first.kind = .identifier ∧ t.node? n = some ⟨first.position, .ident name⟩ ∧
        second.kind = .identifier ∧ second.naming = (position, name) := by
  have hroot := bound_root h
  have hnodup := nodup_rootBindings h
  obtain ⟨_, htokens', rfl, hclean⟩ := tokens_of_ofSource h
  cases htokens.symm.trans htokens'
  obtain ⟨hcalls, hbehind⟩ := calls_ofTokens hclean
  obtain ⟨name, hcallee, hbound⟩ := hcalls _ _ _ _ _ hcall
  rw [hroot] at hbound
  obtain ⟨f, hf, hbinds⟩ := List.mem_flatMap.mp hbound
  obtain ⟨n, hdefines⟩ := defines_of_mem_bindings hf hbinds
  have hheads := hdefines.heads (hbehind f hf)
  have hlt := hheads.lt id position callee arguments isDirective hcall (by rw [ident?, hcallee])
  obtain ⟨place, hplace⟩ := hheads.named
  obtain ⟨first, second, hsublist, hfirst, hnaming, hsecond, hnaming'⟩ :=
    names_follow tokens hplace hcallee hlt
  obtain ⟨rfl, -⟩ := Prod.mk.inj hnaming
  exact ⟨name, f, n, hcallee, hdefines, fun g m hg => hdefines.unique hnodup hg, first, second,
    hsublist, hfirst, hplace, hsecond, hnaming'⟩

end Tree

namespace Goal

variable {s : Builder}

/-- A name in front of a parenthesis is read as a call. -/
theorem refers_call (h : s.peekKind 1 = .openParen) :
    (production .identifierStatement).Refers s (.call true) s := by
  intro reach _ hnone
  have hstep : (production .identifierStatement).step .standard reach s =
      Tree.Statement.identifierStatement reach s := rfl
  rw [hstep]
  simp [Tree.Statement.identifierStatement, Bind.bind, StateT.bind, Parse.look, h, hnone]

/-- Tokens that begin with a name and a parenthesis are read as a call first. -/
theorem readIn_call (tokens : List Token)
    (hkind : (Builder.ofTokens tokens).current.kind = .identifier)
    (hnext : (Builder.ofTokens tokens).peekKind 1 = .openParen) :
    ReadIn tokens (.call true) (Builder.ofTokens tokens) :=
  (readIn_identifierStatement tokens hkind).refer (refers_call hnext)

end Goal

namespace Tree

open Parse

/-- **Calls always have a target.**  Wherever a call is read of any list of tokens, it begins
with a name.  It reports by itself that the name is undeclared if the root has no entry for
it then, that it cannot be called if the root has it as a variable, and nothing if the root
has it as a function; what else is wrong with the call is wrong behind its name.  In the tree
of every source that is accepted, each call is of a name that exactly one statement of the
root declares as a function, and the token of that name comes in front of the call's. -/
theorem calls_have_targets :
    (∀ (tokens : List Token) (isStatement : Bool) (s : Builder),
      Goal.ReadIn tokens (.call isStatement) s →
      ∃ (faults : List Diagnostic) (behind : Builder), s.current.kind = .identifier ∧
        behind = { s.advance.2 with diagnostics := s.diagnostics ++ faults } ∧
        (Goal.call isStatement).run .standard s =
          callBehind (fun goal => goal.run .standard) isStatement s.current behind ∧
        Gives ((Goal.call isStatement).run .standard) s (fun _ s' => behind.FaultsIn s') ∧
        (faults = [⟨.undeclaredFunction s.current.identifierName, s.current.position⟩] ↔
          ∀ e ∈ (s.scopes.table .root).entries, e.name ≠ s.current.identifierName) ∧
        (faults = [⟨.notCallable s.current.identifierName, s.current.position⟩] ↔
          ⟨s.current.identifierName, .declaration⟩ ∈ (s.scopes.table .root).entries) ∧
        (faults = [] ↔
          ⟨s.current.identifierName, .function⟩ ∈ (s.scopes.table .root).entries) ∧
        ∀ e ∈ (s.scopes.table .root).entries, e.kind = .declaration ∨ e.kind = .function) ∧
    ∀ (lx : Lexicon) (source : List UInt8) (t : Tree), ofSource lx source = .ok t →
      ∃ tokens, Token.ofSource lx source = .ok tokens ∧
        ∀ id position callee arguments isDirective,
          t.node? id = some ⟨position, .call callee arguments isDirective⟩ →
          ∃ name f n, t.node? callee = some ⟨position, .ident name⟩ ∧ t.Defines name f n ∧
            (∀ g m, t.Defines name g m → g = f ∧ m = n) ∧
            ∃ first second, [first, second].Sublist tokens ∧
              first.kind = .identifier ∧ t.node? n = some ⟨first.position, .ident name⟩ ∧
              second.kind = .identifier ∧ second.naming = (position, name) := by
  refine ⟨fun tokens isStatement s hread => ?_, fun lx source t h => ?_⟩
  · have hkind : s.current.kind = .identifier := hread.kind_eq_identifier rfl
    have hleads : Builder.Leads (Builder.ofTokens tokens) s.advance.2 :=
      hread.leads.tail (.advance s)
    obtain ⟨faults, hresolve, hexact⟩ :=
      hleads.resolveFunction_exact s.current.identifierName s.current.position
    obtain ⟨current, ahead, hadvance⟩ := s.advance_snd
    have hrun := (Goal.run_eq_step hread.fits.2).trans (call_eq_callBehind hkind isStatement)
    rw [hresolve, hadvance] at hrun
    rw [hadvance] at hexact ⊢
    obtain ⟨hundeclared, hvariable, hfunction⟩ := hexact
    refine ⟨faults, _, hkind, rfl, hrun, ?_, hundeclared, hvariable, hfunction,
      fun _ => hread.leads.kind_of_mem_root⟩
    obtain ⟨found, s', hfound, -⟩ := Goal.run_gives hread.fits.2
    refine ⟨found, s', hfound, ?_⟩
    rw [hrun] at hfound
    have hfollows : ∀ {α : Type} (goal : Goal α),
        Parse.Keeps Builder.Follows (goal.run .standard) :=
      fun goal s _ _ hread => Goal.reach_follows _ goal s _ _ hread
    exact faultsIn_callBehind hfollows isStatement s.current _ _ hfound
  · obtain ⟨tokens, htokens, -⟩ := tokens_of_ofSource h
    exact ⟨tokens, htokens, fun _ _ _ _ _ hcall => exists_defines h htokens hcall⟩

/-- The tokens `f();` are a call, which reports that `f` is undeclared.  In the source
`f:(){}g:(){f:int=1;f();}` a call of `f` stands behind a variable of that name, and is of
the function. -/
theorem calls_have_targets_shadowed :
    (∃ (s : Builder) (faults : List Diagnostic), Goal.ReadIn
        [⟨.identifier, .identifier "f", ⟨1, 1⟩⟩, ⟨.openParen, .none, ⟨1, 2⟩⟩,
          ⟨.closeParen, .none, ⟨1, 3⟩⟩, ⟨.semicolon, .none, ⟨1, 4⟩⟩] (.call true) s ∧
      faults = [⟨.undeclaredFunction "f", ⟨1, 1⟩⟩] ∧
      (Goal.call true).run .standard s = callBehind (fun goal => goal.run .standard) true s.current
        { s.advance.2 with diagnostics := s.diagnostics ++ faults }) ∧
    ∃ t, ofSource .standard [102, 58, 40, 41, 123, 125, 103, 58, 40, 41, 123, 102, 58, 105, 110,
        116, 61, 49, 59, 102, 40, 41, 59, 125] = .ok t ∧
      t.node? ⟨8⟩ = some ⟨⟨1, 20⟩, .call ⟨7⟩ [] false⟩ ∧
      ∃ f n, t.Defines "f" f n ∧ ∀ g m, t.Defines "f" g m → g = f ∧ m = n := by
  constructor
  · have hread := Goal.readIn_call [⟨.identifier, .identifier "f", ⟨1, 1⟩⟩,
      ⟨.openParen, .none, ⟨1, 2⟩⟩, ⟨.closeParen, .none, ⟨1, 3⟩⟩,
      ⟨.semicolon, .none, ⟨1, 4⟩⟩] rfl rfl
    obtain ⟨faults, _, -, rfl, hrun, -, hundeclared, -⟩ := calls_have_targets.1 _ _ _ hread
    have hnone : faults = [⟨.undeclaredFunction "f", ⟨1, 1⟩⟩] :=
      hundeclared.mpr fun _ he => by cases he
    exact ⟨_, faults, hread, hnone, hrun⟩
  · refine exists_ok_of_toOption (fun t => (t.node? ⟨8⟩, t.ident? ⟨7⟩))
      (some ⟨⟨1, 20⟩, .call ⟨7⟩ [] false⟩, some "f") (by decide +kernel) fun t hsource hread => ?_
    obtain ⟨hcall, hname⟩ := Prod.mk.inj hread
    obtain ⟨tokens, -, htargets⟩ := calls_have_targets.2 _ _ t hsource
    obtain ⟨name, f, n, hcallee, hdefines, hunique, -⟩ := htargets _ _ _ _ _ hcall
    rw [ident?, hcallee] at hname
    cases hname
    exact ⟨hcall, f, n, hdefines, hunique⟩

end Tree

end Braced
