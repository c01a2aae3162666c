import Braced.Proofs.Parse.Progress
import Braced.Proofs.Parse.Scans

/-!
# Braced.Proofs.Parse.Forms

The formula that is read as an expression.

Unless something is wrong with the grammar, the symbols of the formula are those of the
tokens that were passed, and whether or not it is, the formula is layered and does not
take more levels than there are (`Builder.Forms`).  The operators behind an operand are
read with the formula in hand that what stands before them has made so far: it began at
some depth, and each of its operators has opened one level since.
-/

namespace Braced

namespace Builder

variable {s s' s'' : Builder} {us vs : List Symbol}

/-! ## What is found -/

/-- From `s` on the node was read as the formula, which began at that depth. -/
structure Forms (s : Builder) (depth : Nat) (s' : Builder) (id : NodeId) (e : Formula) : Prop where
  denotes : s'.tree.Denotes id e
  layered : e.Layered
  fits : depth + e.demand ≤ maxExpressionDepth
  scans : s.Scans s' e.symbols

/-- No operator that binds more strongly than `bound` comes next. -/
def StopsAt (s : Builder) (bound : Nat) : Prop :=
  ∀ power, RuleBook.standard.power? s.current.kind = some power → power.rank ≤ bound

/-- What was read from `s` on is an expression whose operators bind more strongly than
`bound`, as far as they do. -/
def FormsExpr (s : Builder) (depth bound : Nat) (found : Option NodeId) (s' : Builder) : Prop :=
  match found with
  | none => s.Bounds s'
  | some id => ∃ e, s.Forms depth s' id e ∧ bound < e.rank ∧ s'.StopsAt bound

/-- What was read from `s` on are arguments. -/
def FormsArguments (s : Builder) (found : Option (List NodeId)) (s' : Builder) : Prop :=
  match found with
  | none => s.Bounds s'
  | some ids => ∃ e es, s'.tree.DenotesAll ids (e :: es) ∧ Formula.AllLayered (e :: es) ∧
      (∀ e' ∈ e :: es, s.expressionDepth + e'.demand ≤ maxExpressionDepth) ∧
      s.Scans s' (e.symbols ++ Formula.listed es)

/-- The symbols of a call. -/
def callSymbols (callee : String) (arguments : List Formula) : List Symbol :=
  (Atom.name callee).symbol :: .bare .openParen ::
    ((Formula.listed arguments).tail ++ [.bare .closeParen])

/-- What was read from `s` on is a call. -/
def FormsCall (s : Builder) (isStatement : Bool) (found : Option NodeId) (s' : Builder) : Prop :=
  match found with
  | none => s.Bounds s'
  | some id => ∃ text es position callee ids isDirective,
      s'.tree.node? id = some ⟨position, .call callee ids isDirective⟩ ∧
      (isDirective → isStatement) ∧ s'.tree.ident? callee = some text ∧
      s'.tree.DenotesAll ids es ∧ Formula.AllLayered es ∧
      (∀ e ∈ es, s.expressionDepth + e.demand ≤ maxExpressionDepth) ∧
      s.Scans s' (callSymbols text es)

namespace Forms

variable {depth : Nat} {id : NodeId} {e : Formula}

/-- What comes later may change depths. -/
theorem then_quiet (h : s.Forms depth s' id e) (h' : s'.Scans s'' []) (htree : s''.tree = s'.tree) :
    s.Forms depth s'' id e :=
  ⟨htree ▸ h.denotes, h.layered, h.fits, h.scans.then_quiet h'⟩

theorem mono (h : s.Forms depth s' id e) (h' : s'.Extends s'') : s''.tree.Denotes id e :=
  h.denotes.mono h'.keepsNodes

end Forms

/-- A node that is added last makes a formula of what was read. -/
theorem Scans.forms (h : s.Scans s' us) {depth : Nat} {position : Position} {kind : NodeKind}
    {e : Formula} (hsymbols : e.symbols = us)
    (hdenotes : (s'.alloc position kind).2.tree.Denotes (s'.alloc position kind).1 e)
    (hlayered : e.Layered) (hfits : depth + e.demand ≤ maxExpressionDepth) :
    s.Forms depth (s'.alloc position kind).2 (s'.alloc position kind).1 e where
  denotes := hdenotes
  layered := hlayered
  fits := hfits
  scans := by
    rw [hsymbols]
    exact h.then_quiet (.of_rest (s'.bounds_alloc hdenotes (by omega)) rfl)

theorem FormsArguments.bounds {found : Option (List NodeId)} (h : s.FormsArguments found s') :
    s.Bounds s' := by
  cases found with
  | none => exact h
  | some ids =>
    obtain ⟨e, es, -, -, -, hscans⟩ := h
    exact hscans.bounds

theorem FormsCall.bounds {isStatement : Bool} {found : Option NodeId}
    (h : s.FormsCall isStatement found s') : s.Bounds s' := by
  cases found with
  | none => exact h
  | some id =>
    obtain ⟨_, _, _, _, _, _, -, -, -, -, -, -, hscans⟩ := h
    exact hscans.bounds

namespace FormsExpr

variable {depth bound : Nat} {found : Option NodeId}

theorem bounds (h : s.FormsExpr depth bound found s') : s.Bounds s' := by
  cases found with
  | none => exact h
  | some id =>
    obtain ⟨e, hforms, -⟩ := h
    exact hforms.scans.bounds

/-- Depths do not matter to what was found. -/
theorem exitExpression (h : s.FormsExpr depth bound found s') :
    s.FormsExpr depth bound found (s'.exitExpression 1) := by
  have hquiet : s'.Scans (s'.exitExpression 1) [] := s'.scans_atDepth _
  cases found with
  | none => exact h.trans hquiet.bounds
  | some id =>
    obtain ⟨e, hforms, hrank, hstops⟩ := h
    exact ⟨e, hforms.then_quiet hquiet rfl, hrank, hstops⟩

theorem after_quiet (h : s.Scans s' []) (h' : s'.FormsExpr depth bound found s'') :
    s.FormsExpr depth bound found s'' := by
  cases found with
  | none => exact h.bounds.trans h'
  | some id =>
    obtain ⟨e, hforms, hrank, hstops⟩ := h'
    exact ⟨e, ⟨hforms.denotes, hforms.layered, hforms.fits, h.trans hforms.scans⟩, hrank, hstops⟩

end FormsExpr

/-- No operator binds more strongly than those of multiplication. -/
theorem stopsAt_of_le (s : Builder) {bound : Nat} (h : Power.multiplicative.rank ≤ bound) :
    s.StopsAt bound :=
  fun power _ => Nat.le_trans power.rank_le h

end Builder

namespace Parse

open Builder Tree.Expression

/-- What the parts of expressions are known to form. -/
structure FormsExpressions (reach : Reach) : Prop where
  stays : ∀ {α : Type} (goal : Goal α), (reach goal).Keeps Stays
  unary : ∀ s : Builder, (reach (.production .unary)).Ensures s
    (s.FormsExpr s.expressionDepth Power.multiplicative.rank)
  primary : ∀ (s : Builder) (depth : Nat), s.expressionDepth = depth + 1 →
    depth < maxExpressionDepth → s.current.kind.carries →
    (reach (.production .primary)).Ensures s (s.FormsExpr depth Power.multiplicative.rank)
  prefixed : ∀ (s : Builder) (depth : Nat), s.expressionDepth = depth + 1 →
    RuleBook.standard.operand? s.current.kind = some .prefixed →
    (reach (.production .prefixed)).Ensures s (s.FormsExpr depth Power.multiplicative.rank)
  grouping : ∀ (s : Builder) (depth : Nat), s.expressionDepth = depth + 1 →
    s.current.kind = .openParen →
    (reach (.production .grouping)).Ensures s (s.FormsExpr depth Power.multiplicative.rank)
  expression : ∀ (power : Power) (s : Builder), (reach (.expression power)).Ensures s
    (s.FormsExpr s.expressionDepth power.rank)
  operators : ∀ (left : NodeId) (power : Power) (s₀ : Builder) (depth : Nat) (s : Builder)
    (e : Formula), s₀.Forms depth s left e → s.expressionDepth = depth + e.folds →
    power.rank < e.rank → s.StopsAt e.rank →
    (reach (.operators left power)).Ensures s (s₀.FormsExpr depth power.rank)
  binary : ∀ (left : NodeId) (power : Power) (s₀ : Builder) (depth : Nat) (s : Builder)
    (e : Formula), s₀.Forms depth s left e → s.expressionDepth = depth + e.folds + 1 →
    power.rank ≤ e.rank → RuleBook.standard.power? s.current.kind = some power →
    (reach (.binary left power)).Ensures s fun found s' =>
      match found with
      | none => s₀.Bounds s'
      | some id => ∃ e', s₀.Forms depth s' id e' ∧ e'.folds = e.folds + 1 ∧
          e'.rank = power.rank ∧ s'.StopsAt power.rank
  call : ∀ isStatement s, (reach (.call isStatement)).Ensures s (s.FormsCall isStatement)
  arguments : ∀ s : Builder, (reach .arguments).Ensures s s.FormsArguments

variable {reach : Reach} (hr : FormsExpressions reach) (s : Builder)

/-! ## Operators -/

include hr

theorem forms_expression (power : Power) :
    (expression reach power).Ensures s (s.FormsExpr s.expressionDepth power.rank) := by
  rw [expression, ensures_bind]
  refine ((hr.unary s).and (hr.stays _ s)).imp fun found s₁ hread => ?_
  obtain ⟨h₁, hstays⟩ := hread
  cases found with
  | none => exact (ensures_pure _).mpr h₁
  | some left =>
    obtain ⟨e, hforms, hrank, -⟩ := h₁
    have hfolds : e.folds = 0 := e.folds_eq_zero hrank
    have hpower := power.rank_le
    refine hr.operators left power s s.expressionDepth s₁ e hforms ?_ (by omega)
      (s₁.stopsAt_of_le (by omega))
    rw [hfolds]
    exact hstays.expressionDepth

theorem forms_operators (left : NodeId) (power : Power) {s₀ : Builder} {depth : Nat} {e : Formula}
    (h : s₀.Forms depth s left e) (hdepth : s.expressionDepth = depth + e.folds)
    (hrank : power.rank < e.rank) (hstops : s.StopsAt e.rank) :
    (operators .standard reach left power).Ensures s (s₀.FormsExpr depth power.rank) := by
  refine ensures_operators (fun hends => ⟨e, h, hrank, hends⟩)
    (h.scans.bounds.trans (Moves.tooDeep s)) fun next hnext _ => ?_
  have hbinary := hr.binary left next s₀ depth (s.atDepth (s.expressionDepth + 1)) e
    (h.then_quiet (s.scans_atDepth _) rfl) (by rw [← hdepth]; rfl) (hstops next hnext) hnext
  refine (hbinary.and (hr.stays _ _)).imp fun found s₁ hread => ?_
  obtain ⟨h₁, hstays⟩ := hread
  cases found with
  | none => exact h₁.trans (Opening.exitExpression s₁ 1)
  | some folded =>
    -- the operator that was read holds its level while the others are read
    obtain ⟨e', hforms, hfolds, hrank', hstops'⟩ := h₁
    have hdepth' : s₁.expressionDepth = depth + e'.folds := by
      have hsame : s₁.expressionDepth = s.expressionDepth + 1 := hstays.expressionDepth
      omega
    exact (hr.operators folded power s₀ depth s₁ e' hforms hdepth' (by omega)
      (hrank' ▸ hstops')).imp fun found s₂ h₂ => h₂.exitExpression

theorem forms_binary (left : NodeId) (power : Power) {s₀ : Builder} {depth : Nat} {e : Formula}
    (h : s₀.Forms depth s left e) (hdepth : s.expressionDepth = depth + e.folds + 1)
    (hrank : power.rank ≤ e.rank) (hpower : RuleBook.standard.power? s.current.kind = some power) :
    (binary reach left power).Ensures s fun found s' =>
      match found with
      | none => s₀.Bounds s'
      | some id => ∃ e', s₀.Forms depth s' id e' ∧ e'.folds = e.folds + 1 ∧
          e'.rank = power.rank ∧ s'.StopsAt power.rank := by
  obtain ⟨op, hop⟩ := exists_binaryOp_of_power hpower
  obtain ⟨hcarries, hend⟩ := BinaryOp.carries_token op
  have htoken := (BinaryOp.ofToken?_eq_some_iff _ _).mp hop
  obtain rfl : op.power = power := by
    rw [htoken, op.power_of_token] at hpower
    exact Option.some.inj hpower
  have hadvance : s.Scans s.advance.2 [.bare op.token] := scans_advance_bare htoken hcarries hend
  have hsame := s.stays_advance.expressionDepth
  rw [binary, ensures_bind, advance, ensures_act, advance_fst, hop, ensures_bind]
  refine (hr.expression op.power _).imp fun found s₁ h₁ => ?_
  cases found with
  | none => exact (ensures_pure _).mpr (h.scans.bounds.trans (hadvance.bounds.trans h₁))
  | some right =>
    obtain ⟨e', hforms, hrank', hstops⟩ := h₁
    simp only [ensures_bind, ensures_look, alloc, ensures_act, ensures_pure]
    generalize ((s₁.nodes.get? left).map Node.position).getD .start = position
    have hread := h.scans.trans (hadvance.trans hforms.scans)
    have hkeeps := s₁.extends_alloc position (.binary op left right)
    have hleft := h.mono ((hadvance.trans hforms.scans).extends_.trans hkeeps)
    refine ⟨.binary op e e', hread.forms rfl ?_ ⟨h.layered, hforms.layered, hrank, hrank'⟩ ?_,
      rfl, rfl, hstops⟩
    · exact ⟨position, left, right, s₁.node?_alloc _ _, hleft, hforms.mono hkeeps⟩
    · have hfits := h.fits
      have hfits' := hforms.fits
      rw [Formula.demand]
      omega

/-! ## Operands with operators -/

omit hr in
theorem carries_of_operand {kind : TokenKind}
    (h : RuleBook.standard.operand? kind = some .primary) : kind.carries := by
  cases kind <;> first | rfl | cases h

theorem forms_operand {depth : Nat} (hdepth : s.expressionDepth = depth + 1)
    (hlt : depth < maxExpressionDepth) :
    (operand .standard reach).Ensures s (s.FormsExpr depth Power.multiplicative.rank) := by
  rw [operand, ensures_bind, currentKind, ensures_look]
  split
  · next production hproduction =>
    rcases production_of_operand hproduction with rfl | rfl | ⟨rfl, hkind⟩
    · exact hr.primary s depth hdepth hlt (carries_of_operand hproduction)
    · exact hr.prefixed s depth hdepth hproduction
    · exact hr.grouping s depth hdepth hkind
  · simp only [currentPosition, report, ensures_bind, ensures_look, ensures_change]
    have hreport : s.Bounds (s.report (.expectedExpression s.current.kind) s.current.position) :=
      Moves.reportHere ..
    split
    · simp only [advance, ensures_bind, ensures_act, ensures_pure]
      exact hreport.trans (Moves.advance _)
    · exact (ensures_pure _).mpr hreport

theorem forms_unary : (unary .standard reach).Ensures s
    (s.FormsExpr s.expressionDepth Power.multiplicative.rank) :=
  ensures_unary (Moves.tooDeep s) fun hlt =>
    (forms_operand hr (s.atDepth (s.expressionDepth + 1)) rfl hlt).imp fun _ _ h₁ =>
      (h₁.after_quiet (s.scans_atDepth _)).exitExpression

theorem forms_prefixed {depth : Nat} (hdepth : s.expressionDepth = depth + 1)
    (h : RuleBook.standard.operand? s.current.kind = some .prefixed) :
    (prefixed reach).Ensures s (s.FormsExpr depth Power.multiplicative.rank) := by
  obtain ⟨hop, hcarries, hend⟩ := prefixOp_of_operand h
  have hadvance : s.Scans s.advance.2 [.bare s.current.kind] := scans_advance_bare rfl hcarries hend
  have hsame := s.stays_advance.expressionDepth
  rw [prefixed, ensures_bind, advance, ensures_act, advance_fst, ensures_bind]
  refine (hr.unary _).imp fun found s₁ h₁ => ?_
  cases found with
  | none => exact (ensures_pure _).mpr (hadvance.bounds.trans h₁)
  | some operand =>
    obtain ⟨e, hforms, hrank, -⟩ := h₁
    simp only [ensures_bind, alloc, ensures_act, ensures_pure]
    refine ⟨.unary (prefixOp s.current.kind) e, (hadvance.trans hforms.scans).forms
      (Formula.symbols_prefixed hop e) ?_ ⟨hforms.layered, .inr hrank⟩ ?_, Nat.lt_succ_self _,
      stopsAt_of_le _ (Nat.le_refl _)⟩
    · exact ⟨s.current.position, operand, s₁.node?_alloc _ _, hforms.mono (s₁.extends_alloc _ _)⟩
    · have hfits := hforms.fits
      rw [Formula.demand]
      omega

theorem forms_grouping {depth : Nat} (hdepth : s.expressionDepth = depth + 1)
    (h : s.current.kind = .openParen) :
    (grouping reach).Ensures s (s.FormsExpr depth Power.multiplicative.rank) := by
  have hadvance : s.Scans s.advance.2 [.bare .openParen] := scans_advance_bare h rfl (by decide)
  have hsame := s.stays_advance.expressionDepth
  rw [grouping, ensures_bind, advance, ensures_act, advance_fst, ensures_bind]
  refine (hr.expression .lowest _).imp fun found s₁ h₁ => ?_
  cases found with
  | none => exact (ensures_pure _).mpr (hadvance.bounds.trans h₁)
  | some operand =>
    obtain ⟨e, hforms, -, -⟩ := h₁
    simp only [ensures_bind, expectClosing, alloc, ensures_act, ensures_pure]
    have hclose := s₁.scans_expectClosing .closeParen rfl (by decide)
    have hlater := hclose.extends_.trans
      (extends_alloc _ s.current.position (.unary .nested operand))
    refine ⟨.unary .nested e, (hadvance.trans (hforms.scans.trans hclose)).forms
      (Formula.symbols_nested e) ?_ ⟨hforms.layered, .inl rfl⟩ ?_, Nat.lt_succ_self _,
      stopsAt_of_le _ (Nat.le_refl _)⟩
    · exact ⟨s.current.position, operand, node?_alloc _ _ _, hforms.mono hlater⟩
    · have hfits := hforms.fits
      rw [Formula.demand]
      omega

/-! ## Operands without operators -/

/-- What stands before the operator behind an operand: the formula of an operand node with
that value is known but for this operator. -/
def FormsPrimary (s : Builder) (depth : Nat) (found : Option Primary) (s' : Builder) : Prop :=
  match found with
  | none => s.Bounds s'
  | some value => ∃ us, ∃ e : Option Step → Formula, s.Scans s' us ∧
    ∀ step, (e step).symbols = us ++ stepSymbols step ∧ (e step).Layered ∧
      depth + (e step).demand ≤ maxExpressionDepth ∧
      Power.multiplicative.rank < (e step).rank ∧
      ∀ (t : Tree) (id : NodeId) (position : Position), s'.tree.KeepsNodes t →
        t.node? id = some ⟨position, .primary value step⟩ → t.Denotes id (e step)

omit hr in
theorem forms_atom {depth : Nat} {s' : Builder} {value : Primary} {a : Atom}
    (hlt : depth < maxExpressionDepth) (hscans : s.Scans s' [a.symbol])
    (ha : ∀ t : Tree, s'.tree.KeepsNodes t → t.atom? value = some a) :
    FormsPrimary s depth (some value) s' := by
  refine ⟨[a.symbol], fun step => .atom a step, hscans, fun step =>
    ⟨rfl, trivial, ?_, Nat.lt_succ_self _, fun t id position ht hnode => ?_⟩⟩
  · rw [Formula.demand]
    omega
  · exact ⟨position, value, hnode, ha t ht⟩

omit hr in
theorem forms_variableValue {depth : Nat} (hlt : depth < maxExpressionDepth)
    (hkind : s.current.kind = .identifier) :
    variableValue.Ensures s fun value s' => FormsPrimary s depth (some value) s' := by
  simp only [variableValue, ensures_bind, advance, resolveIdentifier, alloc, ensures_act,
    ensures_change, ensures_pure, advance_fst]
  have hend : s.current.kind ≠ .eof := by
    rw [hkind]
    decide
  have hadvance := scans_advance hend
  rw [Token.symbol_name hkind] at hadvance
  have hresolve : s.advance.2.Scans (s.advance.2.resolveIdentifier s.current.identifierName
      s.current.position) [] :=
    .of_rest (Still.resolveIdentifier ..) (rest_resolveIdentifier ..)
  have halloc := scans_alloc_other (s.advance.2.resolveIdentifier s.current.identifierName
    s.current.position) s.current.position (.ident s.current.identifierName) rfl
  refine forms_atom s hlt ((hadvance.then_quiet hresolve).then_quiet halloc) fun t ht => ?_
  have hname := ht _ _ (node?_alloc _ s.current.position (.ident s.current.identifierName))
  rw [Tree.atom?, Tree.ident?, hname]
  rfl

omit hr in
theorem forms_constantValue {depth : Nat} (hlt : depth < maxExpressionDepth)
    (hcarries : s.current.kind.carries) (hname : s.current.kind ≠ .identifier) :
    constantValue.Ensures s (FormsPrimary s depth) := by
  have hend : s.current.kind ≠ .eof := by
    intro hend
    rw [hend] at hcarries
    cases hcarries
  have hadvance := scans_advance hend
  refine ensures_constantValue (fun value hvalue => ?_) (hadvance.bounds.trans (Still.report ..))
  obtain ⟨a, hsymbol, ha⟩ := Token.symbol_constant hname hcarries hvalue
  rw [hsymbol] at hadvance
  exact forms_atom s hlt hadvance fun t _ => ha t

theorem forms_primaryValue {depth : Nat} (hdepth : s.expressionDepth = depth + 1)
    (hlt : depth < maxExpressionDepth) (hcarries : s.current.kind.carries) :
    (primaryValue reach).Ensures s (FormsPrimary s depth) := by
  refine ensures_primaryValue (fun _ _ => ?_) (forms_variableValue s hlt)
    (forms_constantValue s hlt hcarries)
  refine (hr.call false s).imp fun found s₁ h₁ => ?_
  cases found with
  | none => exact h₁
  | some call =>
    obtain ⟨text, es, position', callee, ids, isDirective, hcall, hdirective, hcallee, hall,
      hlayered, hfits, hscans⟩ := h₁
    obtain rfl : isDirective = false := by simpa using hdirective
    refine ⟨callSymbols text es, fun step => .call text es step, hscans, fun step =>
      ⟨?_, hlayered, ?_, Nat.lt_succ_self _, fun t id position ht hnode => ?_⟩⟩
    · simp [Formula.symbols, callSymbols]
    · have hle : Formula.demands es ≤ maxExpressionDepth - (depth + 1) :=
        Formula.demands_le fun e he => by
          have hfits := hfits e he
          omega
      rw [Formula.demand]
      omega
    · exact ⟨position, call, position', callee, ids, hnode, ht _ _ hcall,
        Tree.ident?_mono ht hcallee, hall.mono ht⟩

omit hr in
theorem forms_postfixStep :
    postfixStep.Ensures s fun step s' => s.Scans s' (stepSymbols step) := by
  refine ensures_postfixStep (.refl s) fun step hkind => scans_advance_bare hkind ?_ ?_
  · cases step <;> rfl
  · cases step <;> decide

theorem forms_primary {depth : Nat} (hdepth : s.expressionDepth = depth + 1)
    (hlt : depth < maxExpressionDepth) (hcarries : s.current.kind.carries) :
    (primary reach).Ensures s (s.FormsExpr depth Power.multiplicative.rank) := by
  rw [primary, ensures_bind, currentPosition, ensures_look, ensures_bind]
  refine (forms_primaryValue hr s hdepth hlt hcarries).imp fun found s₁ h₁ => ?_
  cases found with
  | none => exact (ensures_pure _).mpr h₁
  | some value =>
    obtain ⟨us, e, hscans, he⟩ := h₁
    rw [ensures_bind]
    refine (forms_postfixStep s₁).imp fun step s₂ h₂ => ?_
    obtain ⟨hsymbols, hlayered, hfits, hrank, hdenotes⟩ := he step
    simp only [ensures_bind, alloc, ensures_act, ensures_pure]
    refine ⟨e step, (hscans.trans h₂).forms hsymbols ?_ hlayered hfits, hrank,
      stopsAt_of_le _ (Nat.le_refl _)⟩
    have hkeeps := h₂.extends_.trans (s₂.extends_alloc s.current.position (.primary value step))
    exact hdenotes _ _ _ hkeeps.keepsNodes (s₂.node?_alloc _ _)

/-! ## Calls -/

theorem forms_arguments : (arguments reach).Ensures s s.FormsArguments := by
  rw [arguments, ensures_bind]
  refine ((hr.expression .lowest s).and (hr.stays _ s)).imp fun first s₁ hread => ?_
  obtain ⟨h₁, hstays⟩ := hread
  rw [ensures_bind, accept, ensures_act]
  rcases s₁.accept_cases .comma with ⟨haccept, hkind⟩ | ⟨haccept, -⟩
  · have hcomma : s₁.Scans s₁.advance.2 [.bare .comma] := scans_advance_bare hkind rfl (by decide)
    have hsame := s₁.stays_advance.expressionDepth
    rw [haccept, if_pos rfl, ensures_bind]
    refine (hr.arguments _).imp fun others s₂ h₂ => (ensures_pure _).mpr ?_
    cases first with
    | none => exact h₁.trans (hcomma.bounds.trans h₂.bounds)
    | some id =>
      obtain ⟨e, hforms, -, -⟩ := h₁
      cases others with
      | none => exact hforms.scans.bounds.trans (hcomma.bounds.trans h₂)
      | some ids =>
        obtain ⟨e', es, hall, hlayered, hfits, hscans⟩ := h₂
        have hlater := hcomma.trans hscans
        refine ⟨e, e' :: es, ⟨id, ids, rfl, hforms.mono hlater.extends_, hall⟩,
          ⟨hforms.layered, hlayered⟩, ?_, ?_⟩
        · rw [List.forall_mem_cons]
          refine ⟨hforms.fits, fun other hother => ?_⟩
          have hfits := hfits other hother
          rwa [hsame, hstays.expressionDepth] at hfits
        · exact hforms.scans.trans hlater
  · rw [haccept, if_neg Bool.false_ne_true]
    refine (ensures_pure _).mpr ?_
    cases first with
    | none => exact h₁
    | some id =>
      obtain ⟨e, hforms, -, -⟩ := h₁
      refine ⟨e, [], ⟨id, [], rfl, hforms.denotes, rfl⟩, ⟨hforms.layered, trivial⟩, ?_, ?_⟩
      · simpa using hforms.fits
      · rw [Formula.listed, List.append_nil]
        exact hforms.scans

omit hr in
/-- The parenthesis behind arguments that are all there. -/
theorem forms_closeArguments (ids : List NodeId) :
    (closeArguments (some ids)).Ensures s fun _ s' => s.Scans s' [.bare .closeParen] := by
  simp only [closeArguments, currentKind, ensures_bind, ensures_look, Option.isSome_some,
    Bool.true_or, if_true, expectClosing, ensures_act, ensures_pure]
  exact s.scans_expectClosing .closeParen rfl (by decide)

theorem forms_argumentList : (argumentList reach).Ensures s fun found s' =>
    match found with
    | none => s.Bounds s'
    | some ids => ∃ es, s'.tree.DenotesAll ids es ∧ Formula.AllLayered es ∧
        (∀ e ∈ es, s.expressionDepth + e.demand ≤ maxExpressionDepth) ∧
        s.Scans s' (.bare .openParen :: ((Formula.listed es).tail ++ [.bare .closeParen])) := by
  have hopen : s.Scans (s.expect .openParen).2 [.bare .openParen] :=
    s.scans_expect rfl (by decide)
  have hsame : (s.expect .openParen).2.expressionDepth = s.expressionDepth :=
    (Moves.expect s .openParen : s.Stays _).expressionDepth
  rw [argumentList, ensures_bind, expect, ensures_act, ensures_bind, currentKind, ensures_look]
  split
  · rw [ensures_bind]
    refine (forms_closeArguments _ []).imp fun _ s₁ h₁ => (ensures_pure _).mpr ?_
    exact ⟨[], rfl, trivial, by simp, hopen.trans h₁⟩
  · rw [ensures_bind]
    refine (hr.arguments _).imp fun found s₁ h₁ => ?_
    rw [ensures_bind]
    cases found with
    | none =>
      refine (keeps_closeArguments (R := Bounds) none s₁).imp fun _ s₂ h₂ => ?_
      exact (ensures_pure _).mpr (hopen.bounds.trans (h₁.trans h₂))
    | some ids =>
      obtain ⟨e, es, hall, hlayered, hfits, hscans⟩ := h₁
      refine (forms_closeArguments s₁ ids).imp fun _ s₂ h₂ => (ensures_pure _).mpr ?_
      refine ⟨e :: es, hall.mono h₂.extends_.keepsNodes, hlayered, ?_, ?_⟩
      · rwa [hsame] at hfits
      · exact hopen.trans (hscans.trans h₂)

theorem forms_call (isStatement : Bool) :
    (call reach isStatement).Ensures s (s.FormsCall isStatement) := by
  rw [call, ensures_bind, expect, ensures_act]
  by_cases hname : s.current.kind = .identifier
  · have hadvance := scans_advance (s := s) (by rw [hname]; decide)
    have hsame := s.stays_advance.expressionDepth
    rw [Token.symbol_name hname] at hadvance
    rw [expect_of_eq hname]
    simp only [ensures_bind, resolveFunction, ensures_change, alloc, ensures_act]
    have hresolve : s.advance.2.Scans (s.advance.2.resolveFunction s.current.identifierName
        s.current.position) [] := .of_rest (Still.resolveFunction ..) (rest_resolveFunction ..)
    have hdepth : (s.advance.2.resolveFunction s.current.identifierName
        s.current.position).expressionDepth = s.advance.2.expressionDepth :=
      (Still.resolveFunction s.advance.2 _ _ : s.advance.2.Stays _).expressionDepth
    generalize s.advance.2.resolveFunction s.current.identifierName s.current.position = s₁
      at hresolve hdepth
    have halloc := s₁.scans_alloc_other s.current.position
      (.ident s.current.identifierName) rfl
    have hbefore := (hadvance.then_quiet hresolve).then_quiet halloc
    refine (forms_argumentList hr _).imp fun found s₂ h₂ => ?_
    cases found with
    | none => exact (ensures_pure _).mpr (hbefore.bounds.trans h₂)
    | some ids =>
      obtain ⟨es, hall, hlayered, hfits, hscans⟩ := h₂
      simp only [ensures_bind, ensures_look, ensures_act, ensures_pure]
      generalize hdirective : (isStatement && s₂.atRoot) = isDirective
      have hcall := s₂.scans_alloc_other s.current.position
        (.call (s₁.alloc s.current.position (.ident s.current.identifierName)).1 ids
          isDirective) rfl
      have hcallee := (hscans.trans hcall).extends_.keepsNodes _ _
        (s₁.node?_alloc s.current.position (.ident s.current.identifierName))
      refine ⟨s.current.identifierName, es, s.current.position, _, ids, isDirective,
        s₂.node?_alloc _ _, ?_, ?_, hall.mono hcall.extends_.keepsNodes, hlayered, ?_, ?_⟩
      · rintro rfl
        exact (Bool.and_eq_true_iff.mp hdirective).1
      · rw [Tree.ident?, hcallee]
      · intro e he
        have hfits := hfits e he
        rwa [show (s₁.alloc _ _).2.expressionDepth = s₁.expressionDepth from rfl, hdepth, hsame]
          at hfits
      · exact hbefore.trans (hscans.then_quiet hcall)
  · rw [expect_of_ne hname]
    exact (ensures_pure _).mpr (expect_of_ne hname ▸ Moves.expect s .identifier)

/-! ## All parts together -/

omit hr in
/-- **What expressions form** with any number of steps. -/
theorem formsExpressions_reach (fuel : Nat) : FormsExpressions (Goal.reach .standard fuel) := by
  induction fuel with
  | zero =>
    constructor
    case stays => exact fun goal s => Goal.reach_stays 0 goal s
    all_goals intros; intro a s' ha; cases ha
  | succ fuel ih =>
    exact {
      stays := fun goal s => Goal.reach_stays (fuel + 1) goal s
      unary := forms_unary ih
      primary := fun s _ hdepth hlt hcarries => forms_primary ih s hdepth hlt hcarries
      prefixed := fun s _ hdepth h => forms_prefixed ih s hdepth h
      grouping := fun s _ hdepth h => forms_grouping ih s hdepth h
      expression := fun power s => forms_expression ih s power
      operators := fun left power _ _ s _ h hdepth hrank hstops =>
        forms_operators ih s left power h hdepth hrank hstops
      binary := fun left power _ _ s _ h hdepth hrank hpower =>
        forms_binary ih s left power h hdepth hrank hpower
      call := fun isStatement s => forms_call ih s isStatement
      arguments := forms_arguments ih }

end Parse

/-! ## What is read as an expression -/

namespace Goal

/-- A node is found, and what has been read passes a test. -/
theorem exists_of_any (read : Option (Option NodeId × Builder)) (p : Builder → Bool)
    (h : read.any fun r => r.1.isSome && p r.2) :
    ∃ id s', read = some (some id, s') ∧ p s' := by
  cases read with
  | none => cases h
  | some r =>
    obtain ⟨found, s'⟩ := r
    cases found with
    | none => cases h
    | some id => exact ⟨id, s', rfl, by simpa using h⟩

/-- Where none of the faults that were noted since is one of the grammar, there are no more
of these than before. -/
theorem syntaxFaults_le_of_clean {s s' : Builder} (h : s.Extends s')
    (hclean : ∀ d ∈ s'.diagnostics.toList.drop s.diagnostics.size,
      d.fault.faultClass ≠ .syntactic) : s'.syntaxFaults ≤ s.syntaxFaults := by
  obtain ⟨later, hlater⟩ := h.diagnostics
  rw [← hlater, ← Array.length_toList, List.drop_left] at hclean
  have hnone : later.countP (fun d => d.fault.faultClass = .syntactic) = 0 := by
    simpa [List.countP_eq_zero] using hclean
  rw [Builder.syntaxFaults, ← hlater, List.countP_append, hnone]
  exact Nat.le_refl _

/-- **Expressions are read by precedence, and to the left.**  Where an expression is found
and nothing is found wrong with the grammar, its node stands for one formula.  The symbols of
that formula are the tokens that were passed, each as it is when its value goes with its
kind.  The formula is layered: the left operand of an operator, if it is an operation without
parentheses around it, binds no less strongly than the operator, and the right operand more
strongly.  Its outermost operator binds more strongly than `power`, and the next token is no
operator that does.  No other layered formula has the same symbols. -/
theorem run_layered {power : Power} {s s' : Builder} {id : NodeId} (hs : s.Terminated)
    (hrun : (expression power).run .standard s = some (some id, s'))
    (hclean : ∀ d ∈ s'.diagnostics.toList.drop s.diagnostics.size,
      d.fault.faultClass ≠ .syntactic) :
    ∃ e passed, (∀ e', s'.tree.Denotes id e' ↔ e' = e) ∧
      s.rest = passed ++ s'.rest ∧ e.symbols = passed.map Token.symbol ∧
      ((∀ t ∈ passed, t.Fits) → e.symbols = passed.map fun t => (t.kind, t.value)) ∧
      e.Layered ∧ power.rank < e.rank ∧
      (∀ next, RuleBook.standard.power? s'.current.kind = some next → next.rank ≤ power.rank) ∧
      ∀ e', e'.Layered → e'.symbols = e.symbols → e' = e := by
  obtain ⟨e, hforms, hrank, hstops⟩ :=
    (Parse.formsExpressions_reach _).expression power s _ _ hrun
  obtain ⟨passed, hrest, hsymbols⟩ :=
    hforms.scans.symbols (syntaxFaults_le_of_clean hforms.scans.extends_ hclean) hs
  refine ⟨e, passed, fun e' => ⟨fun he' => he'.unique hforms.denotes, ?_⟩, hrest, hsymbols, ?_,
    hforms.layered, hrank, hstops, fun e' he' heq => he'.symbols_inj hforms.layered heq⟩
  · rintro rfl
    exact hforms.denotes
  · intro hfits
    rw [hsymbols]
    exact List.map_congr_left fun t ht => (hfits t ht).symbol_eq

/-- The expression `1 - 2 - 3 * 4` is the difference of `1 - 2` and `3 * 4`. -/
theorem run_layered_difference :
    let s := Builder.ofTokens [⟨.intConst, .int 1, ⟨1, 1⟩⟩, ⟨.dash, .none, ⟨1, 3⟩⟩,
      ⟨.intConst, .int 2, ⟨1, 5⟩⟩, ⟨.dash, .none, ⟨1, 7⟩⟩, ⟨.intConst, .int 3, ⟨1, 9⟩⟩,
      ⟨.star, .none, ⟨1, 11⟩⟩, ⟨.intConst, .int 4, ⟨1, 13⟩⟩]
    ∃ id s', (expression .lowest).run .standard s = some (some id, s') ∧
      s'.tree.Denotes id (.binary .subtract
        (.binary .subtract (.atom (.int 1) none) (.atom (.int 2) none))
        (.binary .multiply (.atom (.int 3) none) (.atom (.int 4) none))) := by
  intro s
  obtain ⟨id, s', hrun, hend⟩ := exists_of_any ((expression .lowest).run .standard s)
    (fun s' => s'.ahead.isEmpty && s'.diagnostics.isEmpty) (by decide +kernel)
  obtain ⟨hahead, hclean⟩ : s'.ahead = [] ∧ s'.diagnostics = #[] := by simpa using hend
  obtain ⟨e, passed, hdenotes, hrest, hsymbols, -, hlayered, -, -, hunique⟩ :=
    run_layered (Builder.terminated_ofTokens _) hrun (by simp [hclean])
  refine ⟨id, s', hrun, (hdenotes _).mpr (hunique _ ?_ ?_)⟩
  · simp [Formula.Layered, Formula.rank, BinaryOp.power, Power.rank]
  · have hpassed : passed = s.rest.dropLast := by
      rw [hrest, Builder.rest, hahead, List.dropLast_concat]
    rw [hsymbols, hpassed]
    decide

end Goal

end Braced
