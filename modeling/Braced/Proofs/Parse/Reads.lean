import Braced.Proofs.Parse.Enough
import Braced.Proofs.Tree.Writes
import Mathlib.Data.List.Forall2

/-!
# Braced.Proofs.Parse.Reads

What reading a part of the grammar adds to a builder.

`s.Reads s' ps ns ids` goes with the pieces `ps` that the part is written as: if
nothing is wrong with the grammar of the tokens, they match the tokens that were
passed, and between them they bear a mark for each new node.  `ns` are the places
of the functions that were found inside of blocks, and `ids` the statements that
were appended to the scope that is open.

The relation composes, and each operation of a builder gives an instance of it.
-/

namespace Braced

/-! ## Tokens -/

/-- Whether tokens of the kind carry a value. -/
def TokenKind.carries : TokenKind → Bool
  | intConst | floatConst | charConst | stringConst | identifier => true
  | _ => false

/-- Whether a token of the kind can carry the value. -/
def TokenValue.fits : TokenValue → TokenKind → Bool
  | int _, kind => kind = .intConst
  | float _, kind => kind = .floatConst
  | char _, kind => kind = .charConst
  | string _, kind => kind = .stringConst
  | identifier _, kind => kind = .identifier
  | none, kind => !kind.carries

namespace Token

/-- Value and kind of the token go together. -/
def Fits (t : Token) : Prop :=
  t.value.fits t.kind

theorem Fits.value_eq_none {t : Token} (h : t.Fits) (hkind : t.kind.carries = false) :
    t.value = .none := by
  rw [Fits] at h
  cases hvalue : t.value with
  | none => rfl
  | _ =>
    rw [hvalue] at h
    rw [of_decide_eq_true h] at hkind
    cases hkind

theorem Fits.value_eq_identifier {t : Token} (h : t.Fits) (hkind : t.kind = .identifier) :
    t.value = .identifier t.identifierName := by
  rw [Fits, hkind] at h
  rw [identifierName]
  cases hvalue : t.value with
  | identifier name => rfl
  | _ => simp [hvalue, TokenValue.fits, TokenKind.carries] at h

/-- A token that gives a constant is the one the constant is written as. -/
theorem Fits.token?_constant {t : Token} (h : t.Fits) {value : Primary}
    (hvalue : Tree.Expression.constant? t.value = some value) :
    value.token? = some (t.kind, t.value) := by
  rw [Fits] at h
  cases ht : t.value <;> rw [ht] at h hvalue <;> cases hvalue <;>
    rw [of_decide_eq_true h] <;> rfl

end Token

/-- The piece is written as the token, and what begins with it is there. -/
structure Piece.Matches (p : Piece) (t : Token) : Prop where
  kind : t.kind = p.kind
  value : t.value = p.value
  marks : ∀ m ∈ p.marks, m.position = t.position

/-- The nodes that are marked. -/
def Piece.marked (ps : List Piece) : List NodeId :=
  ps.flatMap fun p => p.marks.map Mark.id

@[simp] theorem Piece.marked_append (ps qs : List Piece) :
    marked (ps ++ qs) = marked ps ++ marked qs :=
  List.flatMap_append

theorem Piece.mem_marked_markFirst (m : Mark) {ps : List Piece} (h : ps ≠ []) (id : NodeId) :
    id ∈ marked (markFirst m ps) ↔ id = m.id ∨ id ∈ marked ps := by
  cases ps with
  | nil => exact absurd rfl h
  | cons p ps => simp [marked]

/-! ## Faults -/

/-- The place of a function that is defined inside a block. -/
def Diagnostic.nestedPosition? (d : Diagnostic) : Option Position :=
  match d.fault with
  | .nestedFunction _ => some d.position
  | _ => none

namespace Builder

/-- Something is wrong with the grammar of the tokens that were passed. -/
def Faulty (s : Builder) : Prop :=
  ∃ d ∈ s.diagnostics.toList, d.fault.faultClass = .syntactic

/-- The places of the functions inside of blocks, in the order in which they
were found. -/
def nestedPositions (s : Builder) : List Position :=
  s.diagnostics.toList.filterMap Diagnostic.nestedPosition?

theorem Extends.faulty {s s' : Builder} (h : s.Extends s') (hs : s.Faulty) : s'.Faulty := by
  obtain ⟨d, hd, hclass⟩ := hs
  exact ⟨d, h.diagnostics.subset hd, hclass⟩

theorem faulty_report (s : Builder) (fault : Fault) (h : fault.faultClass = .syntactic)
    (position : Position) : (s.report fault position).Faulty :=
  ⟨⟨fault, position⟩, by simp [report], h⟩

theorem nestedPositions_report (s : Builder) (fault : Fault) (position : Position) :
    (s.report fault position).nestedPositions
      = s.nestedPositions ++ (Diagnostic.nestedPosition? ⟨fault, position⟩).toList := by
  rw [nestedPositions, nestedPositions, report, Array.toList_push, List.filterMap_append]
  cases h : Diagnostic.nestedPosition? ⟨fault, position⟩ <;> simp [h]

/-! ## Reading -/

/-- The tokens come to an end, and their values go with their kinds. -/
structure Proper (s : Builder) : Prop where
  terminated : s.Terminated
  fits : ∀ t ∈ s.rest, t.Fits

/-- The scope that is open is there. -/
def InScope (s : Builder) : Prop :=
  s.scope.index < s.scopes.size

/-- The tokens that were passed match the pieces, which mark all new nodes. -/
def Spells (s s' : Builder) (ps : List Piece) : Prop :=
  ∃ passed, s.rest = passed ++ s'.rest ∧ List.Forall₂ Piece.Matches ps passed ∧
    ∀ id : NodeId, s.nodes.size ≤ id.index → id.index < s'.nodes.size → id ∈ Piece.marked ps

/-- What reading has added to `s`. -/
structure Reads (s s' : Builder) (ps : List Piece) (ns : List Position) (ids : List NodeId) :
    Prop where
  extends_ : s.Extends s'
  scope : s'.scope = s.scope
  statements : ∀ id js, s.tree.HasStatements id js →
    s'.tree.HasStatements id (js ++ if id = s.scope then ids else [])
  nested : s'.nestedPositions = s.nestedPositions ++ ns
  spells : ¬s'.Faulty → s.Proper → s.Spells s' ps

theorem Extends.proper {s s' : Builder} (h : s.Extends s') (hs : s.Proper) : s'.Proper := by
  refine ⟨h.terminated hs.terminated, fun t ht => hs.fits t ?_⟩
  obtain ⟨passed, hpassed, -⟩ := h.tokens
  rw [hpassed]
  exact List.mem_append_right _ ht

theorem Extends.keepsNodes {s s' : Builder} (h : s.Extends s') : s.tree.KeepsNodes s'.tree :=
  fun _ _ hnode => h.get?_node hnode

namespace Reads

variable {s s' s'' : Builder} {ps qs : List Piece} {ns ms : List Position} {ids js : List NodeId}

theorem refl (s : Builder) : s.Reads s [] [] [] where
  extends_ := .refl s
  scope := rfl
  statements id js h := by simpa using h
  nested := (List.append_nil _).symm
  spells _ _ := ⟨[], rfl, .nil, fun _ hle hlt => absurd hlt (Nat.not_lt_of_le hle)⟩

/-- **What is read one after the other is written one after the other.** -/
theorem trans (h : s.Reads s' ps ns ids) (h' : s'.Reads s'' qs ms js) :
    s.Reads s'' (ps ++ qs) (ns ++ ms) (ids ++ js) where
  extends_ := h.extends_.trans h'.extends_
  scope := h'.scope.trans h.scope
  statements id ks hks := by
    have hboth := h'.statements id _ (h.statements id ks hks)
    rw [h.scope] at hboth
    split at hboth
    · next hid => rwa [if_pos hid, ← List.append_assoc]
    · next hid =>
      rw [if_neg hid]
      simpa only [hid, if_false, List.append_nil] using hboth
  nested := by rw [h'.nested, h.nested, List.append_assoc]
  spells hclean hs := by
    obtain ⟨passed, hrest, hmatch, hmarked⟩ :=
      h.spells (fun hfaulty => hclean (h'.extends_.faulty hfaulty)) hs
    obtain ⟨passed', hrest', hmatch', hmarked'⟩ := h'.spells hclean (h.extends_.proper hs)
    refine ⟨passed ++ passed', by rw [hrest, hrest', List.append_assoc],
      List.rel_append hmatch hmatch', fun id hle hlt => ?_⟩
    rw [Piece.marked_append, List.mem_append]
    rcases Nat.lt_or_ge id.index s'.nodes.size with hold | hnew
    · exact .inl (hmarked id hle hold)
    · exact .inr (hmarked' id hnew hlt)

theorem then_quiet (h : s.Reads s' ps ns ids) (h' : s'.Reads s'' [] [] []) :
    s.Reads s'' ps ns ids := by
  simpa only [List.append_nil] using h.trans h'

/-- Once something is wrong with the grammar, nothing is said about pieces. -/
theorem any (h : s.Reads s' ps ns ids) (hs' : s'.Faulty) (qs : List Piece) :
    s.Reads s' qs ns ids :=
  { h with spells := fun hclean _ => absurd hs' hclean }

theorem inScope (h : s.Reads s' ps ns ids) (hs : s.InScope) : s'.InScope := by
  rw [InScope, h.scope]
  exact Nat.lt_of_lt_of_le hs h.extends_.scopes.size_le

/-- The statements of scopes behind the one that is open stay as they are. -/
theorem keepsStatements (h : s.Reads s' ps ns ids) {first : Nat} (hfirst : s.scope.index < first) :
    s.tree.KeepsStatements first s'.tree := by
  intro id js hid hjs
  have hother : id ≠ s.scope := by
    rintro rfl
    omega
  simpa [hother] using h.statements id js hjs

/-- **A node is marked where its part begins.** -/
theorem mark (h : s.Reads s' ps ns ids) (hps : ps ≠ []) {position : Position}
    (hposition : position = s.current.position) (kind : NodeKind) :
    s.Reads (s'.alloc position kind).2
      (Piece.markFirst ⟨(s'.alloc position kind).1, position⟩ ps) ns ids where
  extends_ := h.extends_.trans (s'.extends_alloc position kind)
  scope := h.scope
  statements := h.statements
  nested := h.nested
  spells hclean hs := by
    obtain ⟨passed, hrest, hmatch, hmarked⟩ := h.spells hclean hs
    have hrest' : s.rest = passed ++ (s'.alloc position kind).2.rest := hrest
    cases hmatch with
    | nil => exact absurd rfl hps
    | @cons p t ps passed hpt hmatch =>
      have ht : s.current = t := (List.cons.inj hrest).1
      refine ⟨t :: passed, hrest', .cons ⟨hpt.kind, hpt.value, ?_⟩ hmatch, ?_⟩
      · intro m hm
        rcases List.mem_cons.mp hm with rfl | hm
        · rw [hposition, ht]
        · exact hpt.marks m hm
      · intro id hle hlt
        rw [Piece.mem_marked_markFirst _ hps]
        have hsize : (s'.alloc position kind).2.nodes.size = s'.nodes.size + 1 :=
          Arena.size_alloc s'.nodes _
        rcases Nat.lt_or_ge id.index s'.nodes.size with hold | hnew
        · exact .inr (hmarked id hle hold)
        · have hid : id.index = s'.nodes.size := by omega
          exact .inl (congrArg NodeId.mk hid)

end Reads

/-! ## Scopes of blocks -/

theorem get?_enterScope (s : Builder) (position : Position) :
    (s.enterScope position).2.scopes.get? (s.enterScope position).1
      = some ⟨position, .empty, #[], some s.scope⟩ :=
  (s.scopes.get?_push _ _ _).trans (if_pos rfl)

theorem HasStatements.lt_size {s : Builder} {id : ScopeId} {ids : List NodeId}
    (h : s.tree.HasStatements id ids) : id.index < s.scopes.size := by
  obtain ⟨scope, hscope, -⟩ := h
  rw [← ScopeForest.get?_isSome_iff]
  exact Option.isSome_iff_exists.mpr ⟨scope, hscope⟩

/-- A new scope changes no statements. -/
theorem HasStatements.enterScope {s : Builder} {id : ScopeId} {ids : List NodeId}
    (h : s.tree.HasStatements id ids) (position : Position) :
    (s.enterScope position).2.tree.HasStatements id ids := by
  have hlt := HasStatements.lt_size h
  obtain ⟨scope, hscope, hids⟩ := h
  refine ⟨scope, ?_, hids⟩
  have hold := s.scopes.get?_push (some s.scope) position id
  rw [if_neg (Nat.ne_of_lt hlt)] at hold
  exact hold.trans hscope

theorem inScope_enterScope (s : Builder) (position : Position) :
    (s.enterScope position).2.InScope := by
  rw [InScope, ← ScopeForest.get?_isSome_iff]
  exact Option.isSome_iff_exists.mpr ⟨_, s.get?_enterScope position⟩

namespace Reads

variable {s s' : Builder} {ps : List Piece} {ns : List Position} {ids : List NodeId}
  {position : Position}

/-- **What is read in a scope of its own** is appended to that scope, and the
scope that was open before gets nothing. -/
theorem block (h : (s.enterScope position).2.Reads s' ps ns ids) :
    s.Reads s'.exitScope ps ns [] where
  extends_ := ((s.extends_enterScope position).trans h.extends_).trans s'.extends_exitScope
  scope := h.extends_.scope_exitScope h.scope
  statements id js hjs := by
    have hother : id ≠ (s.enterScope position).2.scope := by
      rintro rfl
      exact absurd (HasStatements.lt_size hjs) (Nat.lt_irrefl _)
    have hlater := h.statements id js (HasStatements.enterScope hjs position)
    rw [if_neg hother, List.append_nil] at hlater
    rw [ite_self, List.append_nil]
    exact hlater
  nested := h.nested
  spells hclean hs := h.spells hclean ⟨hs.terminated, hs.fits⟩

/-- The scope of a block has the statements that were found in the block. -/
theorem hasStatements_block (h : (s.enterScope position).2.Reads s' ps ns ids) :
    s'.exitScope.tree.HasStatements (s.enterScope position).1 ids := by
  have hempty : (s.enterScope position).2.tree.HasStatements (s.enterScope position).1 [] :=
    ⟨_, s.get?_enterScope position, rfl⟩
  have hids := h.statements _ _ hempty
  rw [if_pos (show (s.enterScope position).1 = (s.enterScope position).2.scope from rfl)] at hids
  exact hids

end Reads

/-! ## Operations that pass no tokens -/

section Quiet

variable {s : Builder}

/-- An operation that changes neither tokens, nodes nor statements reads
nothing. -/
theorem Reads.of_quiet {s' : Builder} (h : s.Extends s') (hrest : s'.rest = s.rest)
    (hscope : s'.scope = s.scope) (hnodes : s'.nodes = s.nodes)
    (hstatements : ∀ id ids, s.tree.HasStatements id ids → s'.tree.HasStatements id ids)
    (hnested : s'.nestedPositions = s.nestedPositions) : s.Reads s' [] [] [] where
  extends_ := h
  scope := hscope
  statements id js hjs := by simpa using hstatements id js hjs
  nested := by rw [hnested, List.append_nil]
  spells _ _ := by
    refine ⟨[], hrest.symm, .nil, fun id hle hlt => ?_⟩
    rw [hnodes] at hlt
    exact absurd hlt (Nat.not_lt_of_le hle)

theorem reads_report {fault : Fault} (h : ∀ name, fault ≠ .nestedFunction name)
    (position : Position) : s.Reads (s.report fault position) [] [] [] := by
  refine .of_quiet (s.extends_report ..) rfl rfl rfl (fun _ _ h => h) ?_
  rw [nestedPositions_report]
  cases fault with
  | nestedFunction name => exact absurd rfl (h name)
  | _ => exact List.append_nil _

/-- A function inside of a block is noted with its place. -/
theorem reads_report_nested (name : String) (position : Position) :
    s.Reads (s.report (.nestedFunction name) position) [] [position] [] where
  extends_ := s.extends_report ..
  scope := rfl
  statements id js hjs := by
    rw [ite_self, List.append_nil]
    exact hjs
  nested := nestedPositions_report ..
  spells _ _ := ⟨[], rfl, .nil, fun _ hle hlt => absurd hlt (Nat.not_lt_of_le hle)⟩

theorem reads_atDepth (depth : Nat) : s.Reads (s.atDepth depth) [] [] [] :=
  .of_quiet (.of_eq rfl rfl rfl rfl) rfl rfl rfl (fun _ _ h => h) rfl

theorem reads_exitExpression (levels : Nat) : s.Reads (s.exitExpression levels) [] [] [] :=
  reads_atDepth _

theorem reads_setLoopDepth (depth : Nat) : s.Reads (s.setLoopDepth depth) [] [] [] :=
  .of_quiet (.of_eq rfl rfl rfl rfl) rfl rfl rfl (fun _ _ h => h) rfl

theorem reads_addModule (name : String) : s.Reads (s.addModule name) [] [] [] := by
  unfold addModule
  split
  · exact .of_quiet (.of_eq rfl rfl rfl rfl) rfl rfl rfl (fun _ _ h => h) rfl
  · exact .refl s

/-- Names are kept apart from statements. -/
theorem HasStatements.of_insert {t : Tree} {scopes : ScopeForest} {scope : ScopeId} {name : String}
    {kind : EntryKind} {entry : Entry} (h : t.scopes.insert scope name kind = .ok (entry, scopes))
    {id : ScopeId} {ids : List NodeId} (hids : t.HasStatements id ids) :
    Tree.HasStatements { t with scopes } id ids := by
  obtain ⟨found, hfound, rfl⟩ := hids
  unfold ScopeForest.insert at h
  cases hinsert : (t.scopes.table scope).insert name kind with
  | error fault =>
    rw [hinsert] at h
    cases h
  | ok result =>
    rw [hinsert] at h
    cases h
    refine ⟨if scope = id then { found with table := result.2 } else found, ?_, by split <;> rfl⟩
    refine (t.scopes.get?_modify scope id _).trans ?_
    split
    · rw [hfound]
      rfl
    · exact hfound

theorem fault_of_insert {f : ScopeForest} {scope : ScopeId} {name : String} {kind : EntryKind}
    {fault : Fault} (h : f.insert scope name kind = .error fault) : fault = .redeclaration name := by
  unfold ScopeForest.insert at h
  cases hinsert : (f.table scope).insert name kind with
  | ok result =>
    rw [hinsert] at h
    cases h
  | error fault' =>
    rw [hinsert] at h
    cases h
    unfold SymbolTable.insert at hinsert
    split at hinsert
    · split at hinsert
      · cases hinsert
        rfl
      · cases hinsert
    · cases hinsert

theorem reads_declare (name : String) (kind : EntryKind) (position : Position) :
    s.Reads (s.declare name kind position) [] [] [] := by
  have hextends := s.extends_declare name kind position
  unfold declare at hextends ⊢
  split
  · next scopes hinsert =>
    simp only [hinsert] at hextends
    exact .of_quiet hextends rfl rfl rfl (fun _ _ => HasStatements.of_insert (t := s.tree) hinsert) rfl
  · next fault hinsert =>
    rw [fault_of_insert hinsert]
    exact reads_report (by simp) position

theorem reads_resolveIdentifier (name : String) (position : Position) :
    s.Reads (s.resolveIdentifier name position) [] [] [] := by
  unfold resolveIdentifier
  split
  · exact .refl s
  · split
    · exact reads_report (by simp) position
    · exact reads_declare ..

theorem reads_resolveFunction (name : String) (position : Position) :
    s.Reads (s.resolveFunction name position) [] [] [] := by
  unfold resolveFunction
  split
  · exact reads_report (by simp) position
  · split
    · exact .refl s
    · exact reads_report (by simp) position

/-- A statement is appended to the scope that is open. -/
theorem reads_addStatement (id : NodeId) : s.Reads (s.addStatement id) [] [] [id] where
  extends_ := s.extends_addStatement id
  scope := rfl
  statements other js hjs := by
    obtain ⟨scope, hscope, rfl⟩ := hjs
    have hmodify := s.scopes.get?_modify s.scope other
      fun scope => { scope with statements := scope.statements.push id }
    by_cases hother : other = s.scope
    · rw [if_pos hother.symm, show s.scopes.get? other = some scope from hscope] at hmodify
      rw [if_pos hother]
      exact ⟨_, hmodify, Array.toList_push⟩
    · rw [if_neg (Ne.symm hother), show s.scopes.get? other = some scope from hscope] at hmodify
      rw [if_neg hother, List.append_nil]
      exact ⟨_, hmodify, rfl⟩
  nested := (List.append_nil _).symm
  spells _ _ := ⟨[], rfl, .nil, fun _ hle hlt => absurd hlt (Nat.not_lt_of_le hle)⟩

end Quiet

/-! ## Operations that pass tokens -/

section Passing

variable {s : Builder} {kind : TokenKind}

/-- Where only tokens are passed, nothing else changes. -/
theorem Reads.of_passing {s' : Builder} {ps : List Piece} (h : s.Extends s')
    (htree : s'.tree = s.tree) (hscope : s'.scope = s.scope)
    (hdiagnostics : s'.diagnostics = s.diagnostics)
    (hspells : ¬s'.Faulty → s.Proper → ∃ passed, s.rest = passed ++ s'.rest ∧
      List.Forall₂ Piece.Matches ps passed) : s.Reads s' ps [] [] where
  extends_ := h
  scope := hscope
  statements id js hjs := by rwa [htree, ite_self, List.append_nil]
  nested := by rw [nestedPositions, hdiagnostics, List.append_nil, nestedPositions]
  spells hclean hs := by
    obtain ⟨passed, hrest, hmatch⟩ := hspells hclean hs
    have hnodes : s'.nodes = s.nodes := congrArg Tree.nodes htree
    refine ⟨passed, hrest, hmatch, fun id hle hlt => ?_⟩
    rw [hnodes] at hlt
    exact absurd hlt (Nat.not_lt_of_le hle)

theorem tree_advance (s : Builder) : s.advance.2.tree = s.tree := by
  unfold advance
  split
  · split <;> rfl
  · rfl

theorem scope_advance (s : Builder) : s.advance.2.scope = s.scope := by
  unfold advance
  split
  · split <;> rfl
  · rfl

theorem diagnostics_advance (s : Builder) : s.advance.2.diagnostics = s.diagnostics := by
  unfold advance
  split
  · split <;> rfl
  · rfl

/-- The token that is passed matches its piece. -/
theorem reads_advance (h : s.current.kind ≠ .eof) {value : TokenValue}
    (hvalue : s.current.Fits → s.current.value = value) :
    s.Reads s.advance.2 [⟨s.current.kind, value, []⟩] [] [] := by
  refine .of_passing s.extends_advance s.tree_advance s.scope_advance s.diagnostics_advance
    fun _ hs => ⟨[s.current], rest_advance hs.terminated h, .cons ⟨rfl, ?_, by simp⟩ .nil⟩
  exact hvalue (hs.fits _ (List.mem_cons_self ..))

/-- Whatever is passed is written in some way. -/
theorem exists_reads_advance (s : Builder) : ∃ ps, s.Reads s.advance.2 ps [] [] := by
  by_cases h : s.current.kind = .eof
  · have hsame : s.advance.2 = s := by
      unfold advance
      split
      · rw [if_pos h]
      · rfl
    exact ⟨[], by rw [hsame]; exact .refl s⟩
  · exact ⟨_, reads_advance h fun _ => rfl⟩

theorem reads_advance_bare (h : s.current.kind = kind) (hcarries : kind.carries = false)
    (hend : kind ≠ .eof) : s.Reads s.advance.2 [.bare kind] [] [] := by
  subst h
  exact reads_advance hend fun hfits => hfits.value_eq_none hcarries

theorem reads_advance_name (h : s.current.kind = .identifier) :
    s.Reads s.advance.2 [.name s.current.identifierName []] [] [] := by
  have hreads := reads_advance (s := s) (by rw [h]; decide) fun hfits => hfits.value_eq_identifier h
  rw [h] at hreads
  exact hreads

/-- The token of a constant is passed. -/
theorem reads_advance_constant {constant : Primary} {value : TokenValue}
    (hconstant : Tree.Expression.constant? s.current.value = some constant)
    (htoken : constant.token? = some (kind, value)) :
    s.Reads s.advance.2 [⟨kind, value, []⟩] [] [] := by
  refine .of_passing s.extends_advance s.tree_advance s.scope_advance s.diagnostics_advance
    fun _ hs => ?_
  have hfits := (hs.fits _ (List.mem_cons_self ..)).token?_constant hconstant
  rw [htoken] at hfits
  cases hfits
  refine ⟨[s.current], rest_advance hs.terminated ?_, .cons ⟨rfl, rfl, by simp⟩ .nil⟩
  intro hend
  rw [hend] at htoken
  cases constant <;> cases htoken

/-- Once something is wrong, it does not matter what is passed. -/
theorem reads_advance_faulty (hs : s.Faulty) (ps : List Piece) : s.Reads s.advance.2 ps [] [] := by
  have hs' : s.advance.2.Faulty := s.extends_advance.faulty hs
  exact .of_passing s.extends_advance s.tree_advance s.scope_advance s.diagnostics_advance
    fun hclean _ => absurd hs' hclean

theorem reads_skipToStatementEnd (hs : s.Faulty) (ps : List Piece) :
    s.Reads s.skipToStatementEnd ps [] [] :=
  .of_passing s.extends_skipToStatementEnd rfl rfl rfl
    fun hclean _ => absurd (s.extends_skipToStatementEnd.faulty hs) hclean

/-! ### Tokens that are expected -/

theorem faulty_reportUnexpected (s : Builder) (kind : TokenKind) :
    (s.reportUnexpected kind).Faulty :=
  s.faulty_report _ rfl _

/-- A token that is missing is a fault, and whatever stands there is passed. -/
theorem reads_reportUnexpected (s : Builder) (kind : TokenKind) (ps : List Piece) :
    s.Reads (s.reportUnexpected kind).advance.2 ps [] [] ∧
      (s.reportUnexpected kind).advance.2.Faulty := by
  have hfaulty := s.faulty_reportUnexpected kind
  have hreport : s.Reads (s.reportUnexpected kind) [] [] [] := reads_report (by simp) _
  exact ⟨hreport.trans (reads_advance_faulty hfaulty ps), (extends_advance _).faulty hfaulty⟩

theorem expect_of_eq (h : s.current.kind = kind) :
    s.expect kind = (some s.current, s.advance.2) := by
  rw [expect, if_pos h, ← advance_fst]

theorem expect_of_ne (h : s.current.kind ≠ kind) :
    s.expect kind = (none, (s.reportUnexpected kind).advance.2) := by
  rw [expect, if_neg h]

theorem reads_expect (hcarries : kind.carries = false) (hend : kind ≠ .eof) :
    s.Reads (s.expect kind).2 [.bare kind] [] [] := by
  by_cases h : s.current.kind = kind
  · rw [expect_of_eq h]
    exact reads_advance_bare h hcarries hend
  · rw [expect_of_ne h]
    exact (s.reads_reportUnexpected kind _).1

theorem reads_expect_name : s.Reads (s.expect .identifier).2
    [.name s.current.identifierName []] [] [] := by
  by_cases h : s.current.kind = .identifier
  · rw [expect_of_eq h]
    exact reads_advance_name h
  · rw [expect_of_ne h]
    exact (s.reads_reportUnexpected _ _).1

/-- A name that may be missing is then no characters at all. -/
theorem reads_expect_nameD : s.Reads (s.expect .identifier).2
    [.name (((s.expect .identifier).1.map Token.identifierName).getD "") []] [] [] := by
  by_cases h : s.current.kind = .identifier
  · rw [expect_of_eq h]
    exact reads_advance_name h
  · rw [expect_of_ne h]
    exact (s.reads_reportUnexpected _ _).1

/-- A token that was not there is a fault. -/
theorem faulty_expect (h : (s.expect kind).1 = none) : (s.expect kind).2.Faulty := by
  by_cases hkind : s.current.kind = kind
  · rw [expect_of_eq hkind] at h
    cases h
  · rw [expect_of_ne hkind]
    exact (s.reads_reportUnexpected kind []).2

theorem reads_expectClosing (hcarries : kind.carries = false) (hend : kind ≠ .eof) :
    s.Reads (s.expectClosing kind).2 [.bare kind] [] [] := by
  unfold expectClosing
  split
  · have hreport : s.Reads (s.reportUnexpected kind) [] [] [] := reads_report (by simp) _
    exact hreport.any (s.faulty_reportUnexpected kind) _
  · exact reads_expect hcarries hend

theorem accept_cases (s : Builder) (kind : TokenKind) :
    (s.accept kind = (true, s.advance.2) ∧ s.current.kind = kind) ∨
      (s.accept kind = (false, s) ∧ s.current.kind ≠ kind) := by
  unfold accept
  split
  · next h => exact .inl ⟨rfl, h⟩
  · next h => exact .inr ⟨rfl, h⟩

end Passing

end Builder

end Braced
