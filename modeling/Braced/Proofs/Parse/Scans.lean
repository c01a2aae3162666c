import Braced.Proofs.Parse.Places
import Braced.Proofs.Tree.Denotes

/-!
# Braced.Proofs.Parse.Scans

The symbols that are passed while formulas are read.

`s.Scans s' us` says that between `s` and `s'` the symbols `us` were passed, unless
something was wrong with the grammar of the tokens.  What was noted before `s` does not
matter.  In any case things were only added, and no expression that takes more levels than
there are (`Builder.Bounds`).  The relation composes, and each operation of a builder gives
an instance of it.
-/

namespace Braced

/-! ## Tokens as symbols -/

/-- What the token is read as. -/
def Token.symbol (t : Token) : Symbol :=
  if t.kind = .identifier then (Atom.name t.identifierName).symbol
  else if t.kind.carries then
    ((Tree.Expression.constant? t.value).bind Primary.token?).getD (t.kind, t.value)
  else .bare t.kind

/-- A token whose value goes with its kind is read as it is. -/
theorem Token.Fits.symbol_eq {t : Token} (h : t.Fits) : t.symbol = (t.kind, t.value) := by
  unfold symbol
  split
  · next hkind => rw [h.value_eq_identifier hkind, hkind, Atom.symbol]
  · split
    · next hcarries =>
      cases hvalue : Tree.Expression.constant? t.value with
      | none => rfl
      | some value => rw [Option.bind_some, h.token?_constant hvalue, Option.getD_some]
    · next hcarries => rw [h.value_eq_none (by simpa using hcarries), Symbol.bare]

theorem Token.symbol_bare {t : Token} {kind : TokenKind} (h : t.kind = kind)
    (hcarries : kind.carries = false) : t.symbol = .bare kind := by
  have hname : t.kind ≠ .identifier := by
    rintro hname
    rw [← h, hname] at hcarries
    cases hcarries
  rw [symbol, if_neg hname, h, hcarries, if_neg Bool.false_ne_true]

theorem Token.symbol_name {t : Token} (h : t.kind = .identifier) :
    t.symbol = (Atom.name t.identifierName).symbol :=
  if_pos h

/-- A token that gives a constant is read as that constant. -/
theorem Token.symbol_constant {t : Token} {value : Primary} (hname : t.kind ≠ .identifier)
    (hcarries : t.kind.carries) (hvalue : Tree.Expression.constant? t.value = some value) :
    ∃ a : Atom, t.symbol = a.symbol ∧ ∀ tree : Tree, tree.atom? value = some a := by
  rw [symbol, if_neg hname, if_pos hcarries, hvalue, Option.bind_some]
  generalize t.value = v at hvalue
  cases v <;> cases hvalue <;> exact ⟨_, rfl, fun _ => rfl⟩

namespace Builder

variable {s s' s'' : Builder} {us vs : List Symbol}

/-! ## What stays bounded -/

/-- No expression in the tree takes more levels than there are. -/
def Bounded (s : Builder) : Prop :=
  ∀ id, s.tree.IsExpression id → ∃ e, s.tree.Denotes id e ∧ e.demand ≤ maxExpressionDepth

/-- Things were only added to `s`, and no expression that takes too many levels. -/
structure Bounds (s s' : Builder) : Prop where
  extends_ : s.Extends s'
  bounded : s.Bounded → s'.Bounded

namespace Bounds

theorem trans (h : s.Bounds s') (h' : s'.Bounds s'') : s.Bounds s'' :=
  ⟨h.extends_.trans h'.extends_, fun hs => h'.bounded (h.bounded hs)⟩

/-- Where no expression is new, none takes too many levels. -/
theorem of_old (h : s.Extends s')
    (hold : ∀ id, s'.tree.IsExpression id → s.tree.IsExpression id) : s.Bounds s' := by
  refine ⟨h, fun hs id hid => ?_⟩
  obtain ⟨e, he, hdemand⟩ := hs id (hold id hid)
  exact ⟨e, he.mono h.keepsNodes, hdemand⟩

theorem of_nodes (h : s.Extends s') (hnodes : s'.nodes = s.nodes) : s.Bounds s' :=
  of_old h fun id hid => by rwa [Tree.IsExpression, Tree.node?, tree, hnodes] at hid

end Bounds

theorem node?_alloc_cases {position : Position} {kind : NodeKind} {id : NodeId} {node : Node}
    (h : (s.alloc position kind).2.tree.node? id = some node) :
    id = (s.alloc position kind).1 ∧ node = ⟨position, kind⟩ ∨ s.tree.node? id = some node := by
  have heq := Arena.get?_alloc_eq s.nodes ⟨position, kind⟩ id
  rw [show (s.nodes.alloc ⟨position, kind⟩).2.get? id = some node from h] at heq
  split at heq
  · next hindex =>
    obtain ⟨index⟩ := id
    exact .inl ⟨congrArg NodeId.mk hindex, Option.some.inj heq⟩
  · exact .inr heq.symm

/-- An expression that takes no more levels than there are may be added. -/
theorem bounds_alloc (s : Builder) {position : Position} {kind : NodeKind} {e : Formula}
    (h : (s.alloc position kind).2.tree.Denotes (s.alloc position kind).1 e)
    (hdemand : e.demand ≤ maxExpressionDepth) : s.Bounds (s.alloc position kind).2 := by
  refine ⟨s.extends_alloc position kind, fun hs id hid => ?_⟩
  obtain ⟨node, hnode, hkind⟩ := hid
  obtain ⟨rfl, -⟩ | hold := node?_alloc_cases hnode
  · exact ⟨e, h, hdemand⟩
  · obtain ⟨e', he', hdemand'⟩ := hs id ⟨node, hold, hkind⟩
    exact ⟨e', he'.mono (s.extends_alloc position kind).keepsNodes, hdemand'⟩

theorem bounds_alloc_other (s : Builder) (position : Position) {kind : NodeKind}
    (h : kind.isExpression = false) : s.Bounds (s.alloc position kind).2 := by
  refine .of_old (s.extends_alloc position kind) fun id hid => ?_
  obtain ⟨node, hnode, hkind⟩ := hid
  obtain ⟨-, rfl⟩ | hold := node?_alloc_cases hnode
  · rw [h] at hkind
    cases hkind
  · exact ⟨node, hold, hkind⟩

instance : Tame Bounds where
  refl s := .of_nodes (.refl s) rfl
  trans := .trans
  advance s := .of_nodes (Still.advance s) (Still.advance s : s.SamePlaces _).nodes
  report _ _ _ := .of_nodes (Still.report ..) rfl
  skipToStatementEnd s := .of_nodes (Still.skipToStatementEnd s) rfl
  resolveIdentifier s name position := .of_nodes (Still.resolveIdentifier ..)
    (Still.resolveIdentifier s name position : s.SamePlaces _).nodes
  addModule s name := .of_nodes (Still.addModule ..) (Still.addModule s name : s.SamePlaces _).nodes
  declare s name kind position h := .of_nodes (Quiet.declare _ _ _ _ h)
    (Quiet.declare s name kind position h : s.SamePlaces _).nodes
  add s position _ _ h := s.bounds_alloc_other position h
  addStatement s id := .of_nodes (s.extends_addStatement id) rfl
  name s position _ := s.bounds_alloc_other position rfl

instance : Opening Bounds where
  enterScope s position := .of_nodes (s.extends_enterScope position) rfl
  exitScope s := .of_nodes s.extends_exitScope rfl
  setLoopDepth _ _ := .of_nodes (.of_eq rfl rfl rfl rfl) rfl
  setExpressionDepth _ _ := .of_nodes (.of_eq rfl rfl rfl rfl) rfl

/-! ## Symbols that were passed -/

/-- How many faults of the grammar have been noted. -/
def syntaxFaults (s : Builder) : Nat :=
  s.diagnostics.toList.countP fun d => d.fault.faultClass = .syntactic

theorem Extends.syntaxFaults_le (h : s.Extends s') : s.syntaxFaults ≤ s'.syntaxFaults :=
  h.diagnostics.sublist.countP_le

theorem syntaxFaults_report (s : Builder) {fault : Fault} (h : fault.faultClass = .syntactic)
    (position : Position) : (s.report fault position).syntaxFaults = s.syntaxFaults + 1 := by
  simp [syntaxFaults, report, h]

/-- Between `s` and `s'` these symbols were passed, unless a fault of the grammar was
noted. -/
structure Scans (s s' : Builder) (us : List Symbol) : Prop where
  bounds : s.Bounds s'
  symbols : s'.syntaxFaults ≤ s.syntaxFaults → s.Terminated →
    ∃ passed, s.rest = passed ++ s'.rest ∧ us = passed.map Token.symbol

namespace Scans

theorem extends_ (h : s.Scans s' us) : s.Extends s' :=
  h.bounds.extends_

theorem of_rest (h : s.Bounds s') (hrest : s'.rest = s.rest) : s.Scans s' [] :=
  ⟨h, fun _ _ => ⟨[], by rw [hrest, List.nil_append], rfl⟩⟩

theorem refl (s : Builder) : s.Scans s [] :=
  .of_rest (Composes.refl s) rfl

theorem trans (h : s.Scans s' us) (h' : s'.Scans s'' vs) : s.Scans s'' (us ++ vs) where
  bounds := h.bounds.trans h'.bounds
  symbols hclean hs := by
    have hle := h.extends_.syntaxFaults_le
    have hle' := h'.extends_.syntaxFaults_le
    obtain ⟨passed, hrest, hus⟩ := h.symbols (by omega) hs
    obtain ⟨passed', hrest', hvs⟩ := h'.symbols (by omega) (h.extends_.terminated hs)
    exact ⟨passed ++ passed', by rw [hrest, hrest', List.append_assoc],
      by rw [hus, hvs, List.map_append]⟩

theorem then_quiet (h : s.Scans s' us) (h' : s'.Scans s'' []) : s.Scans s'' us := by
  simpa only [List.append_nil] using h.trans h'

/-- Once a fault was noted, nothing is said about symbols. -/
theorem of_fault (h : s.Bounds s') (hfault : s.syntaxFaults < s'.syntaxFaults) (us : List Symbol) :
    s.Scans s' us :=
  ⟨h, fun hclean _ => absurd hclean (Nat.not_le_of_lt hfault)⟩

end Scans

theorem scans_advance (h : s.current.kind ≠ .eof) : s.Scans s.advance.2 [s.current.symbol] :=
  ⟨Moves.advance s, fun _ hs => ⟨[s.current], rest_advance hs h, rfl⟩⟩

theorem scans_advance_bare {kind : TokenKind} (h : s.current.kind = kind)
    (hcarries : kind.carries = false) (hend : kind ≠ .eof) : s.Scans s.advance.2 [.bare kind] := by
  rw [← Token.symbol_bare h hcarries]
  exact scans_advance (h ▸ hend)

theorem syntaxFaults_reportUnexpected (s : Builder) (kind : TokenKind) :
    s.syntaxFaults < (s.reportUnexpected kind).syntaxFaults := by
  rw [reportUnexpected, s.syntaxFaults_report rfl]
  exact Nat.lt_succ_self _

/-- A token that is missing is a fault. -/
theorem syntaxFaults_expect {kind : TokenKind} (h : s.current.kind ≠ kind) :
    s.syntaxFaults < (s.expect kind).2.syntaxFaults := by
  rw [expect_of_ne h]
  exact Nat.lt_of_lt_of_le (s.syntaxFaults_reportUnexpected kind)
    (extends_advance _).syntaxFaults_le

theorem scans_expect (s : Builder) {kind : TokenKind} (hcarries : kind.carries = false)
    (hend : kind ≠ .eof) : s.Scans (s.expect kind).2 [.bare kind] := by
  by_cases h : s.current.kind = kind
  · rw [expect_of_eq h]
    exact scans_advance_bare h hcarries hend
  · exact .of_fault (Moves.expect s kind) (syntaxFaults_expect h) _

theorem scans_expectClosing (s : Builder) (kind : TokenKind) (hcarries : kind.carries = false)
    (hend : kind ≠ .eof) : s.Scans (s.expectClosing kind).2 [.bare kind] := by
  unfold expectClosing
  split
  · exact .of_fault (Moves.reportHere ..) (s.syntaxFaults_reportUnexpected kind) _
  · exact s.scans_expect hcarries hend

theorem scans_atDepth (s : Builder) (depth : Nat) : s.Scans (s.atDepth depth) [] :=
  .of_rest (Opening.setExpressionDepth s depth) rfl

/-- A name or a call may be added between symbols. -/
theorem scans_alloc_other (s : Builder) (position : Position) (kind : NodeKind)
    (h : kind.isExpression = false) : s.Scans (s.alloc position kind).2 [] :=
  .of_rest (s.bounds_alloc_other position h) rfl

end Builder

end Braced
