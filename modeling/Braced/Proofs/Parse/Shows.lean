import Braced.Proofs.Parse.Below
import Braced.Proofs.Parse.Resolves
import Braced.Proofs.Tree.Tables
import Braced.Proofs.Tree.Writes

/-!
# Braced.Proofs.Parse.Shows

What holds of every later tree when a part has been read.

A name is bound when it is read, and the statement that declares it is added to its
scope behind that, when all of it has been read.  In between other scopes are opened,
filled and closed.  A scope that was closed is not written to again, so what its table
lists then is told of every later tree (`Builder.Shows.close`).  The modules are noted
in the order of their imports (`Builder.Imports`).
-/

namespace Braced

/-! ## Trees that grow -/

namespace Tree

variable {t t' t'' : Tree} {first first' : Nat} {id : NodeId}

/-- Nodes stay as they are, and so do the scopes from `first` on. -/
structure KeepsFrom (first : Nat) (t t' : Tree) : Prop where
  nodes : t.KeepsNodes t'
  scopes : ∀ id : ScopeId, first ≤ id.index → id.index < t.scopes.size →
    t'.scopes.get? id = t.scopes.get? id

namespace KeepsFrom

theorem trans (h : t.KeepsFrom first t') (h' : t'.KeepsFrom first t'') :
    t.KeepsFrom first t'' where
  nodes := h.nodes.trans h'.nodes
  scopes id hid hlt := by
    have hsome := (t.scopes.get?_isSome_iff id).mpr hlt
    rw [← h.scopes id hid hlt] at hsome ⊢
    exact h'.scopes id hid ((t'.scopes.get?_isSome_iff id).mp hsome)

theorem of_le (h : t.KeepsFrom first t') (hfirst : first ≤ first') : t.KeepsFrom first' t' where
  nodes := h.nodes
  scopes id hid := h.scopes id (Nat.le_trans hfirst hid)

end KeepsFrom

theorem WritesParameters.named {parameters : List Parameter} {ps : List Piece}
    (h : t.WritesParameters parameters ps) : ∀ p ∈ parameters, (t.entryOf? p.declared).isSome := by
  have hnamed : ∀ {p : Parameter} {position : Position} {text : String},
      t.node? p.name = some ⟨position, .ident text⟩ → (t.entryOf? p.declared).isSome := by
    intro p position text hname
    simp [entryOf?, Parameter.declared, ident?, hname]
  induction h with
  | nil => simp
  | last hname => simpa using hnamed hname
  | cons hname _ _ ih => exact List.forall_mem_cons.mpr ⟨hnamed hname, ih⟩

/-- The name and the parameters in a signature that is written are there. -/
theorem WritesSignature.named {name : NodeId} {parameters : List Parameter}
    {result : Option NodeId} {ps : List Piece} (h : t.WritesSignature name parameters result ps) :
    (t.ident? name).isSome ∧ ∀ p ∈ parameters, (t.entryOf? p.declared).isSome := by
  cases h with
  | signature hname hps => exact ⟨by simp [ident?, hname], hps.named⟩

/-- A line declares one variable at most, whose name is there. -/
theorem WritesLine.belongs {ps : List Piece} (h : t.WritesLine id ps) (scope : ScopeId) :
    t.Belongs scope id := by
  cases h with
  | @declared name type values _ _ _ _ _ hnode hname =>
    have hkind : t.kind? id = some (.declaration type name values) := by rw [kind?, hnode]; rfl
    have hentry : ∀ d ∈ t.declared? id, (t.entryOf? d).isSome ∧ d.kind = .declaration := by
      rw [declared?, hkind, Option.bind_some]
      cases type with
      | none => simp [NodeKind.declared?]
      | some type => simp [NodeKind.declared?, entryOf?, ident?, hname]
    exact {
      agrees := .plain hkind rfl
      named := fun d hd => (hentry d hd).1
      declares := fun _ d hd => (hentry d hd).2
      own := by rw [importedFrom?, hkind]; rfl }
  | call hps =>
    cases hps with
    | call hnode => exact .plain (by rw [kind?, hnode]; rfl) rfl rfl

/-- The table of a function or a block lists what is declared there, and so do those of
all scopes in it. -/
structure Tabled (t : Tree) (parameters : List Parameter) (body : ScopeId) : Prop where
  lists : t.Lists body (t.declaredIn parameters body)
  statements : ∀ st ∈ t.statements body, t.Agrees st

theorem Tabled.agrees {kind : NodeKind} {body : ScopeId} (h : t.Tabled kind.parameters body)
    (hkind : t.kind? id = some kind) (hbody : kind.body? = some body)
    (hnext : ∀ next ∈ kind.next?, t.Agrees next) : t.Agrees id :=
  .block hkind hbody h.lists h.statements hnext

/-- A function declares its own name. -/
theorem Tabled.isItem {name : NodeId} {result : Option NodeId} {parameters : List Parameter}
    {body : ScopeId} {origin : Origin} (h : t.Tabled parameters body)
    (hkind : t.kind? id = some (.function name result parameters body origin))
    (hname : (t.ident? name).isSome) : t.IsItem id where
  agrees := h.agrees hkind rfl (by simp [NodeKind.next?])
  named := by simpa [declared?, hkind, NodeKind.declared?, entryOf?] using hname

/-- A clause or a loop may stand anywhere. -/
theorem Agrees.belongs {flow : Flow} {condition next : Option NodeId} {body scope : ScopeId}
    (h : t.Agrees id) (hkind : t.kind? id = some (.flow flow condition body next)) :
    t.Belongs scope id where
  agrees := h
  named := by simp [declared?, hkind, NodeKind.declared?]
  declares := by simp [declared?, hkind, NodeKind.declared?]
  own := by rw [importedFrom?, hkind]; rfl

end Tree

namespace Builder

variable {s s' s'' : Builder} {ids ids' : List NodeId} {es : List Entry} {uses : Uses}
  {P Q : Tree → Prop} {position : Position}

/-! ## What is told of later trees -/

theorem Faulty.noted (h : s.Faulty) : s.Noted := by
  obtain ⟨d, hd, -⟩ := h
  exact List.ne_nil_of_mem hd

/-- Some part was read, and these statements were added to the scope that is open. -/
def Adds (s : Builder) (ids : List NodeId) (s' : Builder) : Prop :=
  ∃ es uses, s.Binds es ids uses s'

theorem Binds.adds (h : s.Binds es ids uses s') : s.Adds ids s' :=
  ⟨es, uses, h⟩

theorem Adds.trans (h : s.Adds ids s') (h' : s'.Adds ids' s'') : s.Adds (ids ++ ids') s'' := by
  obtain ⟨es, uses, h⟩ := h
  obtain ⟨es', uses', h'⟩ := h'
  exact (h.trans h').adds

theorem Adds.extends_ (h : s.Adds ids s') : s.Extends s' := by
  obtain ⟨es, uses, h⟩ := h
  exact h.extends_

/-- What is read next changes no scope but the one that is open. -/
theorem Adds.keepsFrom (h : s.Adds ids s') {first : Nat} (hfirst : s.scope.index < first) :
    s.tree.KeepsFrom first s'.tree := by
  obtain ⟨es, uses, h⟩ := h
  refine ⟨h.extends_.keepsNodes, fun id hid hlt => h.others id hlt ?_⟩
  rintro rfl
  omega

/-- Some part was read, and unless something has been reported `P` holds of every later
tree. -/
structure Shows (s : Builder) (ids : List NodeId) (s' : Builder) (P : Tree → Prop) : Prop where
  adds : s.Adds ids s'
  holds : s.Sound → ¬ s'.Noted → ∀ t, s'.tree.KeepsFrom s.scopes.size t → P t

namespace Shows

theorem imp (h : s.Shows ids s' P) (hPQ : ∀ t, s'.tree.KeepsFrom s.scopes.size t → P t → Q t) :
    s.Shows ids s' Q where
  adds := h.adds
  holds hs hclean t ht := hPQ t ht (h.holds hs hclean t ht)

theorem trans (h : s.Shows ids s' P) (h' : s'.Shows ids' s'' Q) :
    s.Shows (ids ++ ids') s'' fun t => P t ∧ Q t where
  adds := h.adds.trans h'.adds
  holds hs hclean t ht := by
    obtain ⟨es, uses, hbinds⟩ := h.adds
    obtain ⟨es', uses', hbinds'⟩ := h'.adds
    have hlater : s'.tree.KeepsFrom s.scopes.size s''.tree :=
      h'.adds.keepsFrom (by rw [hbinds.scope]; exact hs.scope)
    refine ⟨h.holds hs (fun hnoted => hclean (hbinds'.extends_.noted hnoted)) t (hlater.trans ht),
      h'.holds (Leads.sound_of hbinds.leads hs) hclean t ?_⟩
    exact ht.of_le hbinds.extends_.scopes.size_le

/-- Nothing need be said of what was read. -/
theorem of_adds (h : s.Adds ids s') : s.Shows ids s' fun _ => True :=
  ⟨h, fun _ _ _ _ => trivial⟩

theorem then_adds (h : s.Shows ids s' P) (h' : s'.Adds [] s'') : s.Shows ids s'' P := by
  have hboth := h.trans (of_adds h')
  rw [List.append_nil] at hboth
  exact hboth.imp fun _ _ h => h.1

theorem after_adds (h : s.Adds [] s') (h' : s'.Shows ids s'' P) : s.Shows ids s'' P :=
  ((of_adds h).trans h').imp fun _ _ h => h.2

/-- A new node is still there in every later tree. -/
theorem alloc (h : s.Shows ids s' P) (position : Position) (kind : NodeKind)
    (hPQ : ∀ t, t.kind? (s'.alloc position kind).1 = some kind → P t → Q t) :
    s.Shows ids (s'.alloc position kind).2 Q :=
  (h.then_adds (s'.calm_alloc position kind).adds).imp fun t ht =>
    hPQ t (ht.nodes.kind? (s'.kind?_alloc position kind))

end Shows

/-! ## Statements and blocks -/

/-- A statement was read, if any, that may stand in the scope that is open. -/
def ShowsStatement (s : Builder) (found : Option NodeId) (s' : Builder) : Prop :=
  s.Shows [] s' fun t => ∀ id ∈ found, t.Belongs s.scope id

theorem ShowsStatement.none (h : s.Adds [] s') : s.ShowsStatement none s' :=
  (Shows.of_adds h).imp fun _ _ _ => by simp

/-- Clauses were read, if any, that agree. -/
def ShowsClauses (s : Builder) (found : Option NodeId) (s' : Builder) : Prop :=
  s.Shows [] s' fun t => ∀ id ∈ found, t.Agrees id

theorem ShowsClauses.none (h : s.Adds [] s') : s.ShowsClauses none s' :=
  (Shows.of_adds h).imp fun _ _ _ => by simp

/-- Statements were read and added to the scope that is open, where they may stand. -/
def ShowsStatements (s s' : Builder) : Prop :=
  ∃ ids, s.Shows ids s' fun t => ∀ id ∈ ids, t.Belongs s.scope id

theorem ShowsStatements.nil (s : Builder) : s.ShowsStatements s :=
  ⟨[], (Shows.of_adds (calm_refl s).adds).imp fun _ _ _ => by simp⟩

/-- The bindings and the statements of a scope that has been closed. -/
theorem Binds.closed (h : (s.enterScope position).2.Binds es ids uses s') (hs : s.Sound)
    (hclean : ¬ s'.Noted) {t : Tree} (ht : s'.tree.KeepsFrom s.scopes.size t) :
    t.scopes.bound (s.enterScope position).1 = es ∧
      t.statements (s.enterScope position).1 = ids := by
  have hs' := hs.enterScope position
  have hlt : (s.enterScope position).1.index < s'.scopes.size :=
    Nat.lt_of_lt_of_le hs'.scope h.extends_.scopes.size_le
  have hget := ht.scopes (s.enterScope position).1 (Nat.le_refl _) hlt
  -- when the scope was opened, there was nothing in it
  have hempty : (s.enterScope position).2.scopes.bound (s.enterScope position).1 = [] :=
    (s.scopes.bound_push _ _ _).trans (if_pos rfl)
  have hnone : (s.enterScope position).2.tree.statements (s.enterScope position).1 = [] := by
    have hold : s.tree.statements (s.enterScope position).1 = [] :=
      List.eq_nil_iff_forall_not_mem.mpr fun id hid =>
        Nat.lt_irrefl _ (Tree.mem_statements_lt hid)
    exact (statements_enterScope s position _).trans hold
  have hbound := h.bound hs' hclean
  have hstatements := h.statements hs'
  constructor
  · rw [ScopeForest.bound, ScopeForest.table, hget]
    rw [show (s.enterScope position).2.scope = (s.enterScope position).1 from rfl, hempty] at hbound
    exact hbound
  · rw [Tree.statements, hget]
    rw [show (s.enterScope position).2.scope = (s.enterScope position).1 from rfl, hnone]
      at hstatements
    exact hstatements

/-- **A scope that is closed lists what is declared in it**, when its parameters and then
its statements have been read. -/
theorem Shows.close {parameters : List Parameter} {s₁ s₂ s₃ : Builder}
    (hparameters : (s.enterScope position).2.Binds es [] .none s₁)
    (hes : ∀ t, s₁.tree.KeepsNodes t → t.parameterBindings parameters = es ∧
      ∀ p ∈ parameters, (t.entryOf? p.declared).isSome)
    (hbinds : Parse.BindsStatements s₁ s₂) (hshows : s₁.ShowsStatements s₂)
    (hcalm : s₂.Calm s₃) :
    s.Shows [] s₃.exitScope fun t => t.Tabled parameters (s.enterScope position).1 := by
  obtain ⟨es', ids, hbody, hes'⟩ := hbinds
  obtain ⟨ids', hadds, hshows⟩ := hshows
  have hall := (hparameters.trans hbody).then_calm hcalm
  have hblock : s.Binds [] [] .none s₃.exitScope := hall.block fun _ _ _ _ _ hu => hu.elim
  refine ⟨hblock.adds, fun hs hclean t ht => ?_⟩
  have hs₁ : s₁.Sound := Leads.sound_of hparameters.leads (hs.enterScope position)
  have hclean₂ : ¬ s₂.Noted := fun hnoted => hclean (hcalm.extends_.noted hnoted)
  have hkeeps₂ : s₂.tree.KeepsNodes t := hcalm.extends_.keepsNodes.trans ht.nodes
  obtain ⟨hbound, hstatements⟩ := hall.closed hs hclean ht
  rw [List.nil_append] at hstatements
  obtain rfl : ids' = ids := by
    obtain ⟨_, _, hadds⟩ := hadds
    exact List.append_cancel_left ((hadds.statements hs₁).symm.trans (hbody.statements hs₁))
  have hbelongs : ∀ id ∈ ids', t.Belongs (s.enterScope position).1 id := by
    rw [show (s.enterScope position).1 = s₁.scope from hparameters.scope.symm]
    refine hshows hs₁ hclean₂ t ?_
    have hlast : s₂.tree.KeepsFrom s₁.scopes.size s₃.tree :=
      hcalm.adds.keepsFrom (by rw [hbody.scope]; exact hs₁.scope)
    have hsize := ((s.extends_enterScope position).trans hparameters.extends_).scopes.size_le
    exact hlast.trans (Tree.KeepsFrom.of_le ht hsize)
  obtain ⟨hes, hnamed⟩ := hes t (hbody.extends_.keepsNodes.trans hkeeps₂)
  refine ⟨Tree.lists_body (enterScope_ne_root hs.scope position) hnamed ?_ ?_, ?_⟩
  · rwa [hstatements]
  · rw [hbound, hstatements, hes, hes' t hkeeps₂]
  · rw [hstatements]
    exact fun st hst => (hbelongs st hst).agrees

/-! ## Modules -/

/-- Where the modules were those of some imports, each once in the order of its first
one, they are so with these imports behind them. -/
def Imports (s : Builder) (names : List String) (s' : Builder) : Prop :=
  ∀ before : List String, s.modules.entries = before.eraseDups.map (⟨·, .module⟩) →
    s'.modules.entries = (before ++ names).eraseDups.map (⟨·, .module⟩)

theorem Imports.of_eq (h : s'.modules = s.modules) : s.Imports [] s' := by
  intro before hbefore
  rw [h, hbefore, List.append_nil]

theorem Imports.trans {names names' : List String} (h : s.Imports names s')
    (h' : s'.Imports names' s'') : s.Imports (names ++ names') s'' := by
  intro before hbefore
  rw [← List.append_assoc]
  exact h' _ (h before hbefore)

theorem imports_addModule (s : Builder) (name : String) : s.Imports [name] (s.addModule name) := by
  intro before hbefore
  have hblocked : (s.modules.entries.find? (·.blocks name .module)).isSome ↔ name ∈ before := by
    rw [hbefore, List.find?_isSome]
    simp [Entry.blocks, EntryKind.isBinding]
  rw [List.eraseDups_append]
  unfold addModule SymbolTable.insert
  cases hfind : s.modules.entries.find? (·.blocks name .module) with
  | some present =>
    have hmem := hblocked.mp (by rw [hfind]; rfl)
    simpa [List.removeAll, hmem, EntryKind.isBinding] using hbefore
  | none =>
    have hmem : name ∉ before := fun hmem => by simpa [hfind] using hblocked.mpr hmem
    simp [List.removeAll, List.eraseDups_cons, hmem, hbefore]

theorem modules_declare (s : Builder) (name : String) (kind : EntryKind) (position : Position) :
    (s.declare name kind position).modules = s.modules := by
  unfold declare
  split <;> rfl

/-- All operations but one leave the modules alone. -/
instance (modules : SymbolTable) : Steady fun s => s.modules = modules where
  advance {s} hs := by
    obtain ⟨current, ahead, heq⟩ := s.advance_snd
    rw [heq]
    exact hs
  report hs _ _ := hs
  skipToStatementEnd hs := hs
  declare {s} hs name kind position _ :=
    (s.modules_declare name kind position).trans hs
  resolveIdentifier {s} hs name position := by
    unfold resolveIdentifier
    split
    · exact hs
    · split
      · exact hs
      · exact (s.modules_declare ..).trans hs
  alloc hs _ _ := hs
  addStatement hs _ := hs
  enterScope hs _ := hs
  exitScope hs := hs
  setLoopDepth hs _ := hs
  setExpressionDepth hs _ := hs

@[simp] theorem modules_advance (s : Builder) : s.advance.2.modules = s.modules :=
  Steady.advance (P := fun s' => s'.modules = s.modules) rfl

@[simp] theorem modules_expect (s : Builder) (kind : TokenKind) :
    (s.expect kind).2.modules = s.modules :=
  Steady.expect (P := fun s' => s'.modules = s.modules) rfl kind

end Builder

end Braced
