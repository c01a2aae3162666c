import Braced.Proofs.Parse.Reads

/-!
# Braced.Proofs.Parse.Expression

Reading an expression gives a node that is written as the tokens that were
passed.

Each part of expressions has a condition of its own (`Builder.Finds`), which is
proved from those of the parts that it refers to.  The operators behind an
operand are special: what they give begins where the operand does, so their
condition is about the builder from before the operand.
-/

namespace Braced

namespace Builder

/-- The node is there and has that place. -/
def At (s : Builder) (id : NodeId) (position : Position) : Prop :=
  ∃ kind, s.tree.node? id = some ⟨position, kind⟩

/-- What was read from `s` on is a node that is written as the tokens that were
passed, and has the place of the first one.  Where there is no node, something is
wrong with the grammar. -/
def Finds (s : Builder) (writes : Tree → NodeId → List Piece → Prop) (found : Option NodeId)
    (s' : Builder) : Prop :=
  match found with
  | none => s'.Faulty ∧ s.Reads s' [] [] []
  | some id => ∃ ps, s.Reads s' ps [] [] ∧ writes s'.tree id ps ∧ s'.At id s.current.position

/-- What was read is an expression. -/
abbrev FindsExpr (s : Builder) : Option NodeId → Builder → Prop :=
  s.Finds fun t id => t.Writes (.expression id)

/-- What was read is a call. -/
abbrev FindsCall (s : Builder) : Option NodeId → Builder → Prop :=
  s.Finds fun t id => t.Writes (.call id)

theorem Extends.at {s s' : Builder} (h : s.Extends s') {id : NodeId} {position : Position}
    (hid : s.At id position) : s'.At id position := by
  obtain ⟨kind, hnode⟩ := hid
  exact ⟨kind, h.keepsNodes _ _ hnode⟩

theorem node?_alloc (s : Builder) (position : Position) (kind : NodeKind) :
    (s.alloc position kind).2.tree.node? (s.alloc position kind).1 = some ⟨position, kind⟩ :=
  Arena.get?_alloc s.nodes _

theorem at_alloc (s : Builder) (position : Position) (kind : NodeKind) :
    (s.alloc position kind).2.At (s.alloc position kind).1 position :=
  ⟨kind, s.node?_alloc position kind⟩

/-- A node that is there comes before the next one. -/
theorem lt_alloc (s : Builder) {id : NodeId} (h : (s.tree.node? id).isSome) (position : Position)
    (kind : NodeKind) : id.index < (s.alloc position kind).1.index :=
  (Arena.get?_isSome_iff s.nodes id).mp h

theorem keepsNodes_alloc (s : Builder) (position : Position) (kind : NodeKind) :
    s.tree.KeepsNodes (s.alloc position kind).2.tree :=
  (s.extends_alloc position kind).keepsNodes

/-- A node has been added to `s`, which then is `s'`. -/
structure Allocs (s : Builder) (position : Position) (kind : NodeKind) (id : NodeId)
    (s' : Builder) : Prop where
  node : s'.tree.node? id = some ⟨position, kind⟩
  lt : ∀ {other : NodeId}, (s.tree.node? other).isSome → other.index < id.index
  extends_ : s.Extends s'
  statements : ∀ first, s.tree.KeepsStatements first s'.tree
  mark : ∀ {s₀ : Builder} {ps : List Piece} {ns : List Position} {ids : List NodeId},
    s₀.Reads s ps ns ids → ps ≠ [] → position = s₀.current.position →
    s₀.Reads s' (Piece.markFirst ⟨id, position⟩ ps) ns ids

theorem allocs (s : Builder) (position : Position) (kind : NodeKind) :
    s.Allocs position kind (s.alloc position kind).1 (s.alloc position kind).2 where
  node := s.node?_alloc position kind
  lt h := s.lt_alloc h position kind
  extends_ := s.extends_alloc position kind
  statements _ _ _ _ h := h
  mark h hps hposition := h.mark hps hposition kind

/-- Nothing is found behind a fault. -/
theorem Reads.finds_none {s s' : Builder} {ps : List Piece} (h : s.Reads s' ps [] [])
    (hs' : s'.Faulty) (writes : Tree → NodeId → List Piece → Prop) : s.Finds writes none s' :=
  ⟨hs', h.any hs' []⟩

theorem Finds.reads {s s' : Builder} {writes : Tree → NodeId → List Piece → Prop}
    {found : Option NodeId} (h : s.Finds writes found s') : ∃ ps, s.Reads s' ps [] [] := by
  cases found with
  | none => exact ⟨[], h.2⟩
  | some id => exact ⟨_, h.choose_spec.1⟩

/-- What comes before and after may change only depths. -/
theorem Finds.of_quiet {s s₁ s' : Builder} {writes : Tree → NodeId → List Piece → Prop}
    {found : Option NodeId} (h : s₁.Finds writes found s') (h₁ : s.Reads s₁ [] [] [])
    (hcurrent : s₁.current = s.current) : s.Finds writes found s' := by
  cases found with
  | none => exact ⟨h.1, h₁.trans h.2⟩
  | some id =>
    obtain ⟨ps, hreads, hwrites, hat⟩ := h
    rw [hcurrent] at hat
    exact ⟨ps, h₁.trans hreads, hwrites, hat⟩

theorem Finds.then_quiet {s s' s'' : Builder} {writes : Tree → NodeId → List Piece → Prop}
    {found : Option NodeId} (h : s.Finds writes found s') (h' : s'.Reads s'' [] [] [])
    (htree : s''.tree = s'.tree) : s.Finds writes found s'' := by
  cases found with
  | none => exact ⟨h'.extends_.faulty h.1, h.2.then_quiet h'⟩
  | some id =>
    obtain ⟨ps, hreads, hwrites, hat⟩ := h
    refine ⟨ps, hreads.then_quiet h', ?_, h'.extends_.at hat⟩
    rwa [htree]

/-- An expression that would be too deep is a fault. -/
theorem reads_refuseExpression (s : Builder) :
    let s' := (s.report (.expressionTooDeep maxExpressionDepth)
      s.current.position).skipToStatementEnd
    s.Reads s' [] [] [] ∧ s'.Faulty := by
  have hfaulty := s.faulty_report (.expressionTooDeep maxExpressionDepth) rfl
    s.current.position
  exact ⟨(reads_report (by simp) _).trans (reads_skipToStatementEnd hfaulty []),
    (extends_skipToStatementEnd _).faulty hfaulty⟩

end Builder

namespace Parse

open Builder Tree.Expression

theorem ensures_alloc {s : Builder} {position : Position} {kind : NodeKind}
    {Q : NodeId → Builder → Prop} (h : ∀ id s', s.Allocs position kind id s' → Q id s') :
    (alloc position kind).Ensures s Q :=
  (ensures_act _).mpr (h _ _ (s.allocs position kind))

/-! ## Levels of an expression -/

section Levels

variable {book : RuleBook} {reach : Reach} {s : Builder} {Q : Option NodeId → Builder → Prop}

/-- An operand is read one level deeper, and the level is left behind it; or it is refused
together with the rest of its statement. -/
theorem ensures_unary
    (hrefused : Q none
      (s.report (.expressionTooDeep maxExpressionDepth) s.current.position).skipToStatementEnd)
    (hread : s.expressionDepth < maxExpressionDepth →
      (operand book reach).Ensures (s.atDepth (s.expressionDepth + 1)) fun found s' =>
        Q found (s'.exitExpression 1)) :
    (unary book reach).Ensures s Q := by
  rw [unary, ensures_bind, enterExpression, ensures_act]
  rcases s.enterExpression_cases with hdeeper | hdeeper
  · have hlt := s.lt_of_enterExpression (by rw [hdeeper])
    rw [hdeeper, if_pos rfl, ensures_bind]
    refine (hread hlt).imp fun found s' h => ?_
    simpa only [ensures_bind, ensures_pure, exitExpression, ensures_change] using h
  · rw [hdeeper, if_neg Bool.false_ne_true]
    exact (ensures_pure _).mpr hrefused

/-- Operators that bind more strongly than `power` are read one level deeper, and the level
is left behind the last of them; or they are refused like an operand. -/
theorem ensures_operators {left : NodeId} {power : Power}
    (hstop : (∀ next, book.power? s.current.kind = some next → next.rank ≤ power.rank) →
      Q (some left) s)
    (hrefused : Q none
      (s.report (.expressionTooDeep maxExpressionDepth) s.current.position).skipToStatementEnd)
    (hread : ∀ next, book.power? s.current.kind = some next → power.rank < next.rank →
      (reach (.binary left next)).Ensures (s.atDepth (s.expressionDepth + 1)) fun found s₁ =>
        found.elim (Q none (s₁.exitExpression 1)) fun folded =>
          (reach (.operators folded power)).Ensures s₁ fun found s₂ =>
            Q found (s₂.exitExpression 1)) :
    (operators book reach left power).Ensures s Q := by
  rw [operators, ensures_bind, currentKind, ensures_look]
  split
  · next hnone =>
    refine (ensures_pure _).mpr (hstop fun next hnext => ?_)
    rw [hnone] at hnext
    cases hnext
  · next next hnext =>
    split
    · next hle =>
      refine (ensures_pure _).mpr (hstop fun other hother => ?_)
      rw [hnext] at hother
      cases hother
      exact hle
    · next hlt =>
      rw [ensures_bind, enterExpression, ensures_act]
      rcases s.enterExpression_cases with hdeeper | hdeeper
      · rw [hdeeper, if_pos rfl, ensures_bind]
        refine (hread next hnext (Nat.lt_of_not_le hlt)).imp fun found s₁ h₁ => ?_
        cases found with
        | none =>
          have h₁ : Q none (s₁.exitExpression 1) := h₁
          simpa only [ensures_bind, ensures_pure, exitExpression, ensures_change] using h₁
        | some folded =>
          rw [ensures_bind]
          refine Ensures.imp h₁ fun found s₂ h₂ => ?_
          simpa only [ensures_bind, ensures_pure, exitExpression, ensures_change] using h₂
      · rw [hdeeper, if_neg Bool.false_ne_true]
        exact (ensures_pure _).mpr hrefused

end Levels

/-! ## What an operand is -/

section Operands

variable {reach : Reach} {s : Builder}

/-- A constant is the token itself, and what carries none is reported behind it. -/
theorem ensures_constantValue {Q : Option Primary → Builder → Prop}
    (hvalue : ∀ value, constant? s.current.value = some value → Q (some value) s.advance.2)
    (hnone : Q none (s.advance.2.report (.expectedExpression s.current.kind) s.current.position)) :
    constantValue.Ensures s Q := by
  rw [constantValue, ensures_bind, advance, ensures_act, advance_fst]
  split
  · next value hconstant => exact (ensures_pure _).mpr (hvalue value hconstant)
  · simpa only [report, ensures_bind, ensures_change, ensures_pure] using hnone

/-- A name is a call in front of a parenthesis, and a variable elsewhere; anything else has to be
a constant. -/
theorem ensures_primaryValue {Q : Option Primary → Builder → Prop}
    (hcall : s.current.kind = .identifier → s.peekKind 1 = .openParen →
      (reach (.call false)).Ensures s fun found s' => Q (found.map .call) s')
    (hvariable : s.current.kind = .identifier →
      variableValue.Ensures s fun value s' => Q (some value) s')
    (hconstant : s.current.kind ≠ .identifier → constantValue.Ensures s Q) :
    (primaryValue reach).Ensures s Q := by
  rw [primaryValue, ensures_bind, currentKind, ensures_look]
  split
  · next hname =>
    rw [ensures_bind, ensures_look]
    split
    · next hparen =>
      rw [ensures_bind]
      exact (hcall hname hparen).imp fun _ _ h => (ensures_pure _).mpr h
    · rw [ensures_bind]
      exact (hvariable hname).imp fun _ _ h => (ensures_pure _).mpr h
  · next hother => exact hconstant hother

/-- An operator behind an operand is passed. -/
theorem ensures_postfixStep {Q : Option Step → Builder → Prop} (hnone : Q none s)
    (hstep : ∀ step : Step, s.current.kind = step.token → Q (some step) s.advance.2) :
    postfixStep.Ensures s Q := by
  rw [postfixStep, ensures_bind, currentKind, ensures_look]
  split
  · exact (ensures_pure _).mpr hnone
  · next step hfound =>
    have hkind : s.current.kind = step.token := by
      generalize s.current.kind = kind at hfound
      cases kind <;> cases hfound <;> rfl
    simpa only [advance, ensures_bind, ensures_act, ensures_pure] using hstep step hkind

end Operands

/-- What the parts of expressions are known to find. -/
structure FindsExpressions (reach : Reach) : Prop where
  unary : ∀ s, (reach (.production .unary)).Ensures s s.FindsExpr
  primary : ∀ s, (reach (.production .primary)).Ensures s s.FindsExpr
  prefixed : ∀ s : Builder, RuleBook.standard.operand? s.current.kind = some .prefixed →
    (reach (.production .prefixed)).Ensures s s.FindsExpr
  grouping : ∀ s : Builder, s.current.kind = .openParen →
    (reach (.production .grouping)).Ensures s s.FindsExpr
  expression : ∀ power s, (reach (.expression power)).Ensures s s.FindsExpr
  operators : ∀ left power (s₀ s : Builder) ps, s₀.Reads s ps [] [] →
    s.tree.Writes (.expression left) ps → s.At left s₀.current.position →
    (reach (.operators left power)).Ensures s s₀.FindsExpr
  binary : ∀ left power (s₀ s : Builder) ps, s₀.Reads s ps [] [] →
    s.tree.Writes (.expression left) ps → s.At left s₀.current.position →
    RuleBook.standard.power? s.current.kind = some power →
    (reach (.binary left power)).Ensures s s₀.FindsExpr
  call : ∀ isStatement s, (reach (.call isStatement)).Ensures s s.FindsCall
  arguments : ∀ s, (reach .arguments).Ensures s fun found s' =>
    match found with
    | none => s'.Faulty ∧ s.Reads s' [] [] []
    | some ids => ids ≠ [] ∧ ∃ ps, s.Reads s' ps [] [] ∧ s'.tree.Writes (.arguments ids) ps

variable {reach : Reach} (hr : FindsExpressions reach) (s : Builder)

/-! ## Operators -/

include hr

theorem finds_expression (power : Power) : (expression reach power).Ensures s s.FindsExpr := by
  rw [expression, ensures_bind]
  refine (hr.unary s).imp fun found s₁ h₁ => ?_
  cases found with
  | none => exact (ensures_pure _).mpr h₁
  | some left =>
    obtain ⟨ps, hreads, hwrites, hat⟩ := h₁
    exact hr.operators left power s s₁ ps hreads hwrites hat

omit hr in
theorem exists_binaryOp_of_power {kind : TokenKind} {power : Power}
    (h : RuleBook.standard.power? kind = some power) :
    ∃ op, BinaryOp.ofToken? kind = some op := by
  cases kind <;> cases h <;> exact ⟨_, rfl⟩

omit hr in
theorem BinaryOp.carries_token (op : BinaryOp) : op.token.carries = false ∧ op.token ≠ .eof := by
  cases op <;> decide

theorem finds_binary (left : NodeId) (power : Power) {s₀ : Builder} {ps : List Piece}
    (h₀ : s₀.Reads s ps [] []) (hleft : s.tree.Writes (.expression left) ps)
    (hat : s.At left s₀.current.position)
    (hpower : RuleBook.standard.power? s.current.kind = some power) :
    (binary reach left power).Ensures s s₀.FindsExpr := by
  obtain ⟨op, hop⟩ := exists_binaryOp_of_power hpower
  obtain ⟨hcarries, hend⟩ := BinaryOp.carries_token op
  have htoken := (BinaryOp.ofToken?_eq_some_iff _ _).mp hop
  have h₁ : s.Reads s.advance.2 [.bare op.token] [] [] := reads_advance_bare htoken hcarries hend
  rw [binary, ensures_bind, advance, ensures_act, advance_fst, hop, ensures_bind]
  refine (hr.expression power _).imp fun found s₂ h₂ => ?_
  cases found with
  | none => exact (ensures_pure _).mpr (((h₀.trans h₁).trans h₂.2).finds_none h₂.1 _)
  | some right =>
    obtain ⟨qs, hreads, hright, -⟩ := h₂
    have hpassed : s₀.Reads s₂ (ps ++ .bare op.token :: qs) [] [] := h₀.trans (h₁.trans hreads)
    have hlater := h₁.extends_.trans hreads.extends_
    obtain ⟨kind, hnode⟩ := hlater.at hat
    simp only [ensures_bind, ensures_look, alloc, ensures_act, ensures_pure]
    have hposition : ((s₂.nodes.get? left).map Node.position).getD .start
        = s₀.current.position := by
      rw [show s₂.nodes.get? left = _ from hnode]
      rfl
    rw [hposition]
    have hkeeps := s₂.keepsNodes_alloc s₀.current.position (.binary op left right)
    refine ⟨_, hpassed.mark (by simp) rfl _, ?_, s₂.at_alloc _ _⟩
    have hleft₂ := hleft.mono hlater.keepsNodes
    exact .binary (s₂.node?_alloc _ _) (lt_alloc _ hleft₂.get?_isSome _ _)
      (lt_alloc _ hright.get?_isSome _ _) (hleft₂.mono hkeeps) (hright.mono hkeeps)

theorem finds_operators (left : NodeId) (power : Power) {s₀ : Builder} {ps : List Piece}
    (h₀ : s₀.Reads s ps [] []) (hleft : s.tree.Writes (.expression left) ps)
    (hat : s.At left s₀.current.position) :
    (operators .standard reach left power).Ensures s s₀.FindsExpr := by
  obtain ⟨hreads, hfaulty⟩ := s.reads_refuseExpression
  refine ensures_operators (fun _ => ⟨ps, h₀, hleft, hat⟩)
    ((h₀.trans hreads).finds_none hfaulty _) fun next hnext _ => ?_
  have h₁ := h₀.then_quiet (reads_atDepth (s.expressionDepth + 1))
  refine (hr.binary left next s₀ _ ps h₁ hleft hat hnext).imp fun found s₂ h₂ => ?_
  cases found with
  | none =>
    show s₀.FindsExpr none (s₂.exitExpression 1)
    exact (h₂.2.trans (reads_exitExpression 1)).finds_none h₂.1 _
  | some folded =>
    obtain ⟨qs, hreads, hfolded, hat₂⟩ := h₂
    exact (hr.operators folded power s₀ s₂ qs hreads hfolded hat₂).imp fun found s₃ h₃ =>
      h₃.then_quiet (reads_exitExpression 1) rfl

/-! ## Operands with operators -/

omit hr in
theorem production_of_operand {kind : TokenKind} {production : Production}
    (h : RuleBook.standard.operand? kind = some production) :
    production = .primary ∨ production = .prefixed ∨
      production = .grouping ∧ kind = .openParen := by
  cases kind <;> cases h <;> simp

omit hr in
theorem prefixOp_of_operand {kind : TokenKind}
    (h : RuleBook.standard.operand? kind = some .prefixed) :
    (prefixOp kind).token? = some kind ∧ kind.carries = false ∧ kind ≠ .eof := by
  cases kind <;> cases h <;> decide

theorem finds_operand : (operand .standard reach).Ensures s s.FindsExpr := by
  rw [operand, ensures_bind, currentKind, ensures_look]
  split
  · next production hproduction =>
    rcases production_of_operand hproduction with rfl | rfl | ⟨rfl, hkind⟩
    · exact hr.primary s
    · exact hr.prefixed s hproduction
    · exact hr.grouping s hkind
  · simp only [currentPosition, report, ensures_bind, ensures_look, ensures_change]
    have hfaulty := s.faulty_report (.expectedExpression s.current.kind) rfl s.current.position
    split
    · simp only [advance, ensures_bind, ensures_act, ensures_pure]
      have hadvance := reads_advance_faulty hfaulty []
      exact ((reads_report (by simp) _).trans hadvance).finds_none
        (hadvance.extends_.faulty hfaulty) _
    · exact (ensures_pure _).mpr ((reads_report (by simp) _).finds_none hfaulty _)

theorem finds_unary : (unary .standard reach).Ensures s s.FindsExpr := by
  refine ensures_unary (s.reads_refuseExpression.1.finds_none s.reads_refuseExpression.2 _)
    fun _ => (finds_operand hr _).imp fun found s₁ h₁ => ?_
  exact (h₁.of_quiet (reads_atDepth _) rfl).then_quiet (reads_exitExpression 1) rfl

theorem finds_prefixed (h : RuleBook.standard.operand? s.current.kind = some .prefixed) :
    (prefixed reach).Ensures s s.FindsExpr := by
  obtain ⟨hop, hcarries, hend⟩ := prefixOp_of_operand h
  have h₁ : s.Reads s.advance.2 [.bare s.current.kind] [] [] :=
    reads_advance_bare rfl hcarries hend
  rw [prefixed, ensures_bind, advance, ensures_act, advance_fst, ensures_bind]
  refine (hr.unary _).imp fun found s₂ h₂ => ?_
  cases found with
  | none => exact (ensures_pure _).mpr ((h₁.trans h₂.2).finds_none h₂.1 _)
  | some operand =>
    obtain ⟨ps, hreads, hwrites, -⟩ := h₂
    simp only [ensures_bind, alloc, ensures_act, ensures_pure]
    refine ⟨_, (h₁.trans hreads).mark (by simp) rfl _, ?_, s₂.at_alloc _ _⟩
    exact .prefixed (s₂.node?_alloc _ _) hop (lt_alloc _ hwrites.get?_isSome _ _)
      (hwrites.mono (s₂.keepsNodes_alloc _ _))

theorem finds_grouping (h : s.current.kind = .openParen) :
    (grouping reach).Ensures s s.FindsExpr := by
  have h₁ : s.Reads s.advance.2 [.bare .openParen] [] [] := reads_advance_bare h rfl (by decide)
  rw [grouping, ensures_bind, advance, ensures_act, advance_fst, ensures_bind]
  refine (hr.expression .lowest _).imp fun found s₂ h₂ => ?_
  cases found with
  | none => exact (ensures_pure _).mpr ((h₁.trans h₂.2).finds_none h₂.1 _)
  | some operand =>
    obtain ⟨ps, hreads, hwrites, -⟩ := h₂
    simp only [ensures_bind, expectClosing, alloc, ensures_act, ensures_pure]
    have h₃ : s₂.Reads (s₂.expectClosing .closeParen).2 [.bare .closeParen] [] [] :=
      reads_expectClosing rfl (by decide)
    have hwrites₃ := hwrites.mono h₃.extends_.keepsNodes
    refine ⟨_, (h₁.trans (hreads.trans h₃)).mark (by simp) rfl _, ?_, at_alloc _ _ _⟩
    exact .nested (node?_alloc _ _ _) (lt_alloc _ hwrites₃.get?_isSome _ _)
      (hwrites₃.mono (keepsNodes_alloc _ _ _))

/-! ## Operands without operators -/

omit hr in
theorem exists_token_of_constant {value : TokenValue} {constant : Primary}
    (h : constant? value = some constant) :
    ∃ kind tokenValue, constant.token? = some (kind, tokenValue) := by
  cases value <;> cases h <;> exact ⟨_, _, rfl⟩

/-- What stands before the operator behind an operand: the tree of an operand
node of that value is known but for the node itself. -/
def FindsPrimary (s : Builder) (found : Option Primary) (s' : Builder) : Prop :=
  match found with
  | none => s'.Faulty ∧ s.Reads s' [] [] []
  | some value => ∃ ps, s.Reads s' ps [] [] ∧ ps ≠ [] ∧
    ∀ (t : Tree) (id : NodeId) (position : Position) (step : Option Step),
      s'.tree.KeepsNodes t → t.node? id = some ⟨position, .primary value step⟩ →
      s'.nodes.size ≤ id.index →
      t.Writes (.expression id) (Piece.markFirst ⟨id, position⟩ ps ++ Tree.stepPieces step)

omit hr in
theorem finds_variableValue (hkind : s.current.kind = .identifier) :
    variableValue.Ensures s fun value s' => FindsPrimary s (some value) s' := by
  simp only [variableValue, ensures_bind, advance, resolveIdentifier, alloc, ensures_act,
    ensures_change, ensures_pure, advance_fst]
  have h₁ := (reads_advance_name hkind).then_quiet (reads_resolveIdentifier
    s.current.identifierName s.current.position)
  refine ⟨_, h₁.mark (by simp) rfl (.ident s.current.identifierName), by simp, ?_⟩
  intro t id position step ht hnode _
  exact .name hnode (ht _ _ (node?_alloc _ _ _))

omit hr in
theorem finds_constantValue : constantValue.Ensures s (FindsPrimary s) := by
  refine ensures_constantValue (fun value hvalue => ?_) ?_
  · obtain ⟨kind, tokenValue, htoken⟩ := exists_token_of_constant hvalue
    refine ⟨_, reads_advance_constant hvalue htoken, by simp, ?_⟩
    exact fun t id position step _ hnode _ => .constant hnode htoken
  · obtain ⟨ps, hadvance⟩ := s.exists_reads_advance
    have hfaulty := s.advance.2.faulty_report (.expectedExpression s.current.kind) rfl
      s.current.position
    exact ⟨hfaulty, (hadvance.trans (reads_report (by simp) _)).any hfaulty []⟩

theorem finds_primaryValue : (primaryValue reach).Ensures s (FindsPrimary s) := by
  refine ensures_primaryValue (fun _ _ => ?_) (finds_variableValue s) fun _ => finds_constantValue s
  refine (hr.call false s).imp fun found s₁ h₁ => ?_
  cases found with
  | none => exact h₁
  | some call =>
    obtain ⟨ps, hreads, hwrites, -⟩ := h₁
    refine ⟨ps, hreads, hwrites.ne_nil, fun t id position step ht hnode hsize => ?_⟩
    have hcall : call.index < s₁.nodes.size :=
      (Arena.get?_isSome_iff s₁.nodes call).mp hwrites.get?_isSome
    exact .called hnode (Nat.lt_of_lt_of_le hcall hsize) (hwrites.mono ht)

omit hr in
theorem finds_postfixStep : postfixStep.Ensures s fun step s' =>
    s.Reads s' (Tree.stepPieces step) [] [] ∧ s'.nodes.size = s.nodes.size := by
  refine ensures_postfixStep ⟨.refl s, rfl⟩ fun step hkind => ?_
  have hnodes : s.advance.2.nodes = s.nodes := congrArg Tree.nodes s.tree_advance
  refine ⟨reads_advance_bare hkind ?_ ?_, by rw [hnodes]⟩
  · cases step <;> rfl
  · cases step <;> decide

theorem finds_primary : (primary reach).Ensures s s.FindsExpr := by
  rw [primary, ensures_bind, currentPosition, ensures_look, ensures_bind]
  refine (finds_primaryValue hr s).imp fun found s₁ h₁ => ?_
  cases found with
  | none => exact (ensures_pure _).mpr h₁
  | some value =>
    obtain ⟨ps, hreads, hps, hwrites⟩ := h₁
    rw [ensures_bind]
    refine (finds_postfixStep s₁).imp fun step s₂ h₂ => ?_
    simp only [ensures_bind, alloc, ensures_act, ensures_pure]
    have hmark := (hreads.trans h₂.1).mark (by simp [hps]) rfl (.primary value step)
    rw [Piece.markFirst_append _ hps] at hmark
    refine ⟨_, hmark, ?_, s₂.at_alloc _ _⟩
    exact hwrites _ _ _ _ (h₂.1.extends_.trans (s₂.extends_alloc _ _)).keepsNodes
      (s₂.node?_alloc _ _) (Nat.le_of_eq h₂.2.symm)

/-! ## Calls -/

theorem finds_arguments : (arguments reach).Ensures s fun found s' =>
    match found with
    | none => s'.Faulty ∧ s.Reads s' [] [] []
    | some ids => ids ≠ [] ∧ ∃ ps, s.Reads s' ps [] [] ∧ s'.tree.Writes (.arguments ids) ps := by
  rw [arguments, ensures_bind]
  refine (hr.expression .lowest s).imp fun first s₁ h₁ => ?_
  rw [ensures_bind, accept, ensures_act]
  rcases s₁.accept_cases .comma with ⟨haccept, hkind⟩ | ⟨haccept, -⟩
  · have hcomma : s₁.Reads s₁.advance.2 [.bare .comma] [] [] :=
      reads_advance_bare hkind rfl (by decide)
    rw [haccept, if_pos rfl, ensures_bind]
    refine (hr.arguments _).imp fun others s₂ h₂ => (ensures_pure _).mpr ?_
    cases first with
    | none =>
      obtain ⟨qs, hothers⟩ : ∃ qs, s₁.advance.2.Reads s₂ qs [] [] := by
        cases others with
        | none => exact ⟨[], h₂.2⟩
        | some ids => exact ⟨_, h₂.2.choose_spec.1⟩
      have hlater := hcomma.trans hothers
      have hfaulty := hlater.extends_.faulty h₁.1
      exact ⟨hfaulty, (h₁.2.trans hlater).any hfaulty []⟩
    | some id =>
      obtain ⟨ps, hreads, hwrites, -⟩ := h₁
      cases others with
      | none => exact ⟨h₂.1, (hreads.trans (hcomma.trans h₂.2)).any h₂.1 []⟩
      | some ids =>
        obtain ⟨hne, qs, hothers, hwrites'⟩ := h₂
        obtain ⟨next, rest, rfl⟩ := List.exists_cons_of_ne_nil hne
        have hlater := hcomma.trans hothers
        exact ⟨by simp, _, hreads.trans hlater,
          .argument (hwrites.mono hlater.extends_.keepsNodes) hwrites'⟩
  · rw [haccept, if_neg Bool.false_ne_true]
    refine (ensures_pure _).mpr ?_
    cases first with
    | none => exact h₁
    | some id =>
      obtain ⟨ps, hreads, hwrites, -⟩ := h₁
      exact ⟨by simp, ps, hreads, .lastArgument hwrites⟩

omit hr in
/-- The parenthesis behind arguments that are all there. -/
theorem finds_closeArguments (ids : List NodeId) :
    (closeArguments (some ids)).Ensures s fun _ s' =>
      s.Reads s' [.bare .closeParen] [] [] := by
  simp only [closeArguments, currentKind, ensures_bind, ensures_look, Option.isSome_some,
    Bool.true_or, if_true, expectClosing, ensures_act, ensures_pure]
  exact reads_expectClosing rfl (by decide)

theorem finds_argumentList : (argumentList reach).Ensures s fun found s' =>
    match found with
    | none => s'.Faulty ∧ s.Reads s' [] [] []
    | some ids => ∃ ps, s.Reads s' (.bare .openParen :: (ps ++ [.bare .closeParen])) [] [] ∧
      s'.tree.Writes (.arguments ids) ps := by
  have hopen : s.Reads (s.expect .openParen).2 [.bare .openParen] [] [] :=
    reads_expect rfl (by decide)
  rw [argumentList, ensures_bind, expect, ensures_act, ensures_bind, currentKind, ensures_look]
  split
  · rw [ensures_bind]
    refine (finds_closeArguments _ []).imp fun _ s₂ h₂ => (ensures_pure _).mpr ?_
    exact ⟨[], hopen.trans h₂, .noArguments⟩
  · rw [ensures_bind]
    refine (hr.arguments _).imp fun found s₂ h₂ => ?_
    rw [ensures_bind]
    cases found with
    | none =>
      have hclose : (closeArguments none).Ensures s₂ fun _ s' => s₂.Reads s' [] [] [] := by
        simp only [closeArguments, currentKind, ensures_bind, ensures_look, Option.isSome_none,
          Bool.false_or, decide_eq_true_eq]
        split
        · simp only [expectClosing, ensures_bind, ensures_act, ensures_pure]
          exact (reads_expectClosing rfl (by decide)).any
            ((Still.expectClosing s₂ _ : s₂.Extends _).faulty h₂.1) []
        · exact (ensures_pure _).mpr (.refl s₂)
      refine hclose.imp fun _ s₃ h₃ => (ensures_pure _).mpr ?_
      have hfaulty := h₃.extends_.faulty h₂.1
      exact ⟨hfaulty, (hopen.trans (h₂.2.trans h₃)).any hfaulty []⟩
    | some ids =>
      obtain ⟨-, ps, hreads, hwrites⟩ := h₂
      refine (finds_closeArguments s₂ ids).imp fun _ s₃ h₃ => (ensures_pure _).mpr ?_
      exact ⟨ps, hopen.trans (hreads.trans h₃), hwrites.mono h₃.extends_.keepsNodes⟩

theorem finds_call (isStatement : Bool) : (call reach isStatement).Ensures s s.FindsCall := by
  rw [call, ensures_bind, expect, ensures_act]
  cases hfound : (s.expect .identifier).1 with
  | none => exact (ensures_pure _).mpr (reads_expect_name.finds_none (faulty_expect hfound) _)
  | some token =>
    obtain ⟨-, rfl⟩ := hasTokens_of_expect (by decide) hfound
    simp only [ensures_bind, resolveFunction, ensures_change, alloc, ensures_act]
    have h₁ := (reads_expect_name (s := s)).then_quiet (reads_resolveFunction
      s.current.identifierName s.current.position)
    have h₂ := h₁.mark (by simp) rfl (.ident s.current.identifierName)
    refine (finds_argumentList hr _).imp fun found s₃ h₃ => ?_
    cases found with
    | none =>
      exact (ensures_pure _).mpr ((h₂.trans h₃.2).finds_none h₃.1 _)
    | some ids =>
      obtain ⟨ps, hreads, hwrites⟩ := h₃
      simp only [ensures_bind, ensures_look, ensures_act, ensures_pure]
      refine ⟨_, (h₂.trans hreads).mark (by simp) rfl _, ?_, s₃.at_alloc _ _⟩
      have hcallee := hreads.extends_.keepsNodes _ _ (node?_alloc _ s.current.position
        (.ident s.current.identifierName))
      exact .call (s₃.node?_alloc _ _) (s₃.keepsNodes_alloc _ _ _ _ hcallee)
        (fun a ha => lt_alloc _ (hwrites.get?_isSome a ha) _ _) (hwrites.mono (s₃.keepsNodes_alloc _ _))

/-! ## All parts together -/

omit hr in
/-- **What expressions find** with any number of steps. -/
theorem findsExpressions_reach (fuel : Nat) :
    FindsExpressions (Goal.reach .standard fuel) := by
  induction fuel with
  | zero =>
    constructor <;> intros <;> intro a s' ha <;> cases ha
  | succ fuel ih =>
    exact {
      unary := finds_unary ih
      primary := finds_primary ih
      prefixed := finds_prefixed ih
      grouping := finds_grouping ih
      expression := fun power s => finds_expression ih s power
      operators := fun left power s₀ s ps h₀ hleft hat =>
        finds_operators ih s left power h₀ hleft hat
      binary := fun left power s₀ s ps h₀ hleft hat hpower =>
        finds_binary ih s left power h₀ hleft hat hpower
      call := fun isStatement s => finds_call ih s isStatement
      arguments := finds_arguments ih }

end Parse

end Braced
