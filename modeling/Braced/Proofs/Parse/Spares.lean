import Braced.Proofs.Parse.Progress

/-!
# Braced.Proofs.Parse.Spares

No expression takes the end of the statement that it stands in.

Whatever goes wrong in an expression, the tokens that are passed in it are none of
those that end a statement or a block (`Builder.Spares`).  So a statement whose
expression is broken off still finds its own end, and nothing behind it is lost.

A token is passed unseen only where it has been looked at before: an operator by its
power, an operand by what it leads into, a call by its name and its parenthesis
(`Goal.Stands`).
-/

namespace Braced

namespace Builder

/-- The tokens that were passed between `s` and `s'` end no statement and no block. -/
def Spares (s s' : Builder) : Prop :=
  ∃ passed, s.rest = passed ++ s'.rest ∧ ∀ t ∈ passed, endsStatement t.kind = false

variable {s s' s'' : Builder}

theorem spares_of_rest (h : s'.rest = s.rest) : s.Spares s' :=
  ⟨[], by rw [h, List.nil_append], by simp⟩

theorem Spares.trans (h : s.Spares s') (h' : s'.Spares s'') : s.Spares s'' := by
  obtain ⟨passed, hrest, hpassed⟩ := h
  obtain ⟨passed', hrest', hpassed'⟩ := h'
  refine ⟨passed ++ passed', by rw [hrest, hrest', List.append_assoc], fun t ht => ?_⟩
  rcases List.mem_append.mp ht with ht | ht
  · exact hpassed t ht
  · exact hpassed' t ht

instance : Composes Spares where
  refl _ := spares_of_rest rfl
  trans := .trans

/-! ## Operations that pass tokens -/

theorem spares_advance (h : endsStatement s.current.kind = false) : s.Spares s.advance.2 := by
  cases hahead : s.ahead with
  | nil => exact spares_of_rest (by simp [advance, hahead])
  | cons next ahead =>
    by_cases hend : s.current.kind = .eof
    · exact spares_of_rest (by simp [advance, hahead, hend])
    · exact ⟨[s.current], by simp [advance, rest, hahead, hend], by simpa using h⟩

theorem spares_skipToStatementEnd (s : Builder) : s.Spares s.skipToStatementEnd := by
  obtain ⟨passed, heq, hpassed⟩ := dropStatement_eq s.current s.ahead
  exact ⟨passed, heq, fun t ht => (hpassed t ht).1⟩

/-- What is expected and has not come is passed as well, unless it ends something. -/
theorem spares_expect {kind : TokenKind} (h : endsStatement s.current.kind = false) :
    s.Spares (s.expect kind).2 := by
  unfold expect
  split
  · exact spares_advance h
  · exact spares_advance (s := s.reportUnexpected kind) h

theorem spares_accept {kind : TokenKind} (h : endsStatement kind = false) :
    s.Spares (s.accept kind).2 := by
  unfold accept
  split
  · next hkind => exact spares_advance (hkind ▸ h)
  · exact spares_of_rest rfl

theorem spares_expectClosing {kind : TokenKind} (h : endsStatement kind = false) :
    s.Spares (s.expectClosing kind).2 := by
  unfold expectClosing
  split
  · exact spares_of_rest rfl
  · next hcurrent =>
    refine spares_expect ?_
    by_cases hkind : s.current.kind = kind
    · rw [hkind, h]
    · simpa [hkind] using hcurrent

theorem spares_tooDeep (s : Builder) : s.Spares
    (s.report (.expressionTooDeep maxExpressionDepth) s.current.position).skipToStatementEnd := by
  have hreport : s.Spares (s.report (.expressionTooDeep maxExpressionDepth) s.current.position) :=
    spares_of_rest rfl
  exact hreport.trans (spares_skipToStatementEnd _)

/-- The token that was seen ahead comes next. -/
theorem current_advance {kind : TokenKind} (hcurrent : s.current.kind ≠ .eof)
    (hnext : s.peekKind 1 = kind) (hkind : kind ≠ .eof) : s.advance.2.current.kind = kind := by
  cases hahead : s.ahead with
  | nil =>
    simp only [peekKind, hahead] at hnext
    exact absurd hnext.symm hkind
  | cons next ahead =>
    simp only [peekKind, hahead] at hnext
    simpa [advance, hahead, hcurrent] using hnext

end Builder

/-! ## Parts of expressions -/

/-- Where a part of an expression is read: a part that passes its first token unseen
stands in front of one that ends nothing. -/
def Goal.Stands : Goal α → Builder → Prop
  | production .unary, _ | expression _, _ | operators .., _ | arguments, _ => True
  | production .primary, s | production .prefixed, s | production .grouping, s | binary .., s =>
    Builder.endsStatement s.current.kind = false
  | call _, s => s.current.kind = .identifier ∧ s.peekKind 1 = .openParen
  | _, _ => False

namespace Parse

open Builder Tree.Expression

/-- The parts of expressions spare the ends of statements, each where it is read. -/
def SparesEnds (reach : Reach) : Prop :=
  ∀ {α : Type} (goal : Goal α) (s : Builder), goal.Stands s →
    (reach goal).Ensures s fun _ s' => s.Spares s'

variable {s : Builder}

theorem endsStatement_of_power {kind : TokenKind} {power : Power}
    (h : RuleBook.standard.power? kind = some power) : endsStatement kind = false := by
  cases kind <;> first | rfl | cases h

theorem endsStatement_of_operand {kind : TokenKind} {production : Production}
    (h : RuleBook.standard.operand? kind = some production) : endsStatement kind = false := by
  cases kind <;> first | rfl | cases h

theorem endsStatement_of_not_closesOperand {kind : TokenKind} (h : closesOperand kind = false) :
    endsStatement kind = false := by
  cases kind <;> first | rfl | cases h

theorem spares_alloc {position : Position} {kind : NodeKind} :
    Keeps Spares (alloc position kind) :=
  keeps_act fun _ => spares_of_rest rfl

variable {reach : Reach} (hr : SparesEnds reach)

include hr

theorem spares_expression (power : Power) : Keeps Spares (expression reach power) := by
  refine .bind (fun s => hr (.production .unary) s trivial) fun found => ?_
  cases found with
  | none => exact keeps_pure _
  | some left => exact fun s => hr (.operators left power) s trivial

theorem spares_operators (left : NodeId) (power : Power) :
    Keeps Spares (operators .standard reach left power) := by
  intro s
  refine ensures_operators (fun _ => spares_of_rest rfl) (spares_tooDeep s) fun next hnext _ => ?_
  -- the operator that was seen is still to come
  have hstands : (Goal.binary left next).Stands (s.atDepth (s.expressionDepth + 1)) :=
    endsStatement_of_power hnext
  refine (hr (.binary left next) _ hstands).imp fun found s₁ h₁ => ?_
  have hread : s.Spares s₁ := (spares_of_rest rfl : s.Spares (s.atDepth _)).trans h₁
  cases found with
  | none => exact hread.trans (spares_of_rest rfl)
  | some folded =>
    exact (hr (.operators folded power) s₁ trivial).imp fun result s₂ h₂ =>
      (hread.trans h₂).trans (spares_of_rest rfl)

theorem spares_binary (left : NodeId) (power : Power) (h : endsStatement s.current.kind = false) :
    (binary reach left power).Ensures s fun _ s' => s.Spares s' := by
  rw [binary, ensures_bind, advance, ensures_act]
  have hadvance := spares_advance h
  split
  · exact (ensures_pure _).mpr hadvance
  · rw [ensures_bind]
    refine (hr (.expression power) _ trivial).imp fun found s₁ h₁ => ?_
    cases found with
    | none => exact (ensures_pure _).mpr (hadvance.trans h₁)
    | some right =>
      rw [ensures_bind, ensures_look, ensures_bind]
      refine (spares_alloc s₁).imp fun id s₂ h₂ => ?_
      exact (ensures_pure _).mpr ((hadvance.trans h₁).trans h₂)

theorem spares_operand : Keeps Spares (operand .standard reach) := by
  intro s
  rw [operand, ensures_bind, currentKind, ensures_look]
  split
  · next production hproduction =>
    have hends := endsStatement_of_operand hproduction
    rcases production_of_operand hproduction with rfl | rfl | ⟨rfl, -⟩
    · exact hr (.production .primary) s hends
    · exact hr (.production .prefixed) s hends
    · exact hr (.production .grouping) s hends
  · simp only [currentPosition, report, ensures_bind, ensures_look, ensures_change]
    split
    · next hcloses =>
      simp only [advance, ensures_bind, ensures_act, ensures_pure]
      have hends := endsStatement_of_not_closesOperand (by simpa using hcloses)
      have hreport : s.Spares (s.report (.expectedExpression s.current.kind) s.current.position) :=
        spares_of_rest rfl
      exact hreport.trans (spares_advance hends)
    · exact (ensures_pure _).mpr (spares_of_rest rfl)

theorem spares_unary : Keeps Spares (unary .standard reach) := by
  intro s
  refine ensures_unary (spares_tooDeep s) fun _ => (spares_operand hr _).imp fun found s₁ h₁ => ?_
  have hdepth : s.Spares (s.atDepth (s.expressionDepth + 1)) := spares_of_rest rfl
  exact (hdepth.trans h₁).trans (spares_of_rest rfl)

theorem spares_prefixed (h : endsStatement s.current.kind = false) :
    (prefixed reach).Ensures s fun _ s' => s.Spares s' := by
  rw [prefixed, ensures_bind, advance, ensures_act, ensures_bind]
  refine (hr (.production .unary) _ trivial).imp fun found s₁ h₁ => ?_
  have hread := (spares_advance h).trans h₁
  cases found with
  | none => exact (ensures_pure _).mpr hread
  | some operand =>
    rw [ensures_bind]
    refine (spares_alloc s₁).imp fun id s₂ h₂ => ?_
    exact (ensures_pure _).mpr (hread.trans h₂)

theorem spares_grouping (h : endsStatement s.current.kind = false) :
    (grouping reach).Ensures s fun _ s' => s.Spares s' := by
  rw [grouping, ensures_bind, advance, ensures_act, ensures_bind]
  refine (hr (.expression .lowest) _ trivial).imp fun found s₁ h₁ => ?_
  have hread := (spares_advance h).trans h₁
  cases found with
  | none => exact (ensures_pure _).mpr hread
  | some operand =>
    simp only [ensures_bind, expectClosing, ensures_act]
    have hclose : s₁.Spares (s₁.expectClosing .closeParen).2 := spares_expectClosing rfl
    refine (spares_alloc _).imp fun id s₂ h₂ => ?_
    exact (ensures_pure _).mpr ((hread.trans hclose).trans h₂)

theorem spares_primaryValue (h : endsStatement s.current.kind = false) :
    (primaryValue reach).Ensures s fun _ s' => s.Spares s' := by
  have hadvance := spares_advance h
  refine ensures_primaryValue (fun hkind hparen => hr (.call false) s ⟨hkind, hparen⟩)
    (fun _ => ?_) fun _ => ?_
  · simp only [variableValue, advance, resolveIdentifier, alloc, ensures_bind, ensures_act,
      ensures_change, ensures_pure]
    exact hadvance.trans (spares_of_rest (by simp))
  · exact ensures_constantValue (fun _ _ => hadvance) (hadvance.trans (spares_of_rest rfl))

omit hr in
theorem spares_postfixStep : Keeps Spares postfixStep := by
  intro s
  refine ensures_postfixStep (spares_of_rest rfl) fun step hkind => spares_advance ?_
  rw [hkind]
  cases step <;> rfl

theorem spares_primary (h : endsStatement s.current.kind = false) :
    (primary reach).Ensures s fun _ s' => s.Spares s' := by
  rw [primary, ensures_bind, currentPosition, ensures_look, ensures_bind]
  refine (spares_primaryValue hr h).imp fun found s₁ h₁ => ?_
  cases found with
  | none => exact (ensures_pure _).mpr h₁
  | some value =>
    rw [ensures_bind]
    refine (spares_postfixStep s₁).imp fun step s₂ h₂ => ?_
    rw [ensures_bind]
    refine (spares_alloc s₂).imp fun id s₃ h₃ => ?_
    exact (ensures_pure _).mpr ((h₁.trans h₂).trans h₃)

theorem spares_arguments : Keeps Spares (arguments reach) := by
  refine .bind (fun s => hr (.expression .lowest) s trivial) fun first =>
    .bind (keeps_act fun _ => spares_accept rfl) fun more => .ite ?_ (keeps_pure _)
  exact .bind (fun s => hr .arguments s trivial) fun _ => keeps_pure _

omit hr in
theorem spares_closeArguments (found : Option (List NodeId)) :
    Keeps Spares (closeArguments found) := by
  refine keeps_look.bind fun kind => .ite ?_ (keeps_pure _)
  exact .bind (keeps_act fun _ => spares_expectClosing rfl) fun _ => keeps_pure _

theorem spares_argumentList (h : s.current.kind = .openParen) :
    (argumentList reach).Ensures s fun _ s' => s.Spares s' := by
  have hopen : s.Spares (s.expect .openParen).2 := spares_expect (by rw [h]; rfl)
  rw [argumentList, ensures_bind, expect, ensures_act, ensures_bind, currentKind, ensures_look]
  split
  · rw [ensures_bind]
    refine (spares_closeArguments _ _).imp fun _ s₁ h₁ => ?_
    exact (ensures_pure _).mpr (hopen.trans h₁)
  · rw [ensures_bind]
    refine (hr .arguments _ trivial).imp fun found s₁ h₁ => ?_
    rw [ensures_bind]
    refine (spares_closeArguments found s₁).imp fun _ s₂ h₂ => ?_
    exact (ensures_pure _).mpr ((hopen.trans h₁).trans h₂)

theorem spares_call (isStatement : Bool) (hname : s.current.kind = .identifier)
    (hparen : s.peekKind 1 = .openParen) :
    (call reach isStatement).Ensures s fun _ s' => s.Spares s' := by
  have hopen := current_advance (by rw [hname]; decide) hparen (by decide)
  have hadvance : s.Spares s.advance.2 := spares_advance (by rw [hname]; rfl)
  rw [call, ensures_bind, expect, ensures_act, expect_of_eq hname]
  simp only [resolveFunction, alloc, ensures_bind, ensures_change, ensures_act]
  generalize hcallee : ((s.advance.2.resolveFunction s.current.identifierName
    s.current.position).alloc s.current.position (.ident s.current.identifierName)).2 = s₁
  have hrest : s₁.rest = s.advance.2.rest := by rw [← hcallee]; simp
  have hkind : s₁.current.kind = .openParen := by rw [current_eq_of_rest hrest, hopen]
  refine (spares_argumentList hr hkind).imp fun found s₂ h₂ => ?_
  have hread := (hadvance.trans (spares_of_rest hrest)).trans h₂
  cases found with
  | none => exact (ensures_pure _).mpr hread
  | some arguments =>
    simp only [ensures_bind, ensures_look, ensures_act, ensures_pure]
    exact hread.trans (spares_of_rest rfl)

end Parse

/-! ## All parts together -/

namespace Goal

open Parse

/-- One step of reading part of an expression spares the ends of statements. -/
theorem step_spares {reach : Reach} (hr : SparesEnds reach) {s : Builder} :
    ∀ {α : Type} (goal : Goal α), goal.Stands s →
      (goal.step .standard reach).Ensures s fun _ s' => s.Spares s'
  | _, .production .unary, _ => spares_unary hr s
  | _, .production .primary, h => spares_primary hr h
  | _, .production .prefixed, h => spares_prefixed hr h
  | _, .production .grouping, h => spares_grouping hr h
  | _, .expression power, _ => spares_expression hr power s
  | _, .operators left power, _ => spares_operators hr left power s
  | _, .binary left power, h => spares_binary hr left power h
  | _, .call isStatement, ⟨hname, hparen⟩ => spares_call hr isStatement hname hparen
  | _, .arguments, _ => spares_arguments hr s

/-- **The parts of expressions spare the ends of statements**, however many references are
followed. -/
theorem sparesEnds_reach (fuel : Nat) : SparesEnds (Goal.reach .standard fuel) := by
  induction fuel with
  | zero =>
    intro α goal s hstands a s' ha
    cases ha
  | succ fuel ih => exact fun goal s hstands => step_spares ih goal hstands

/-- **Expressions leave the ends of statements alone.**  From any builder whose tokens come
to an end, an expression of any power, an operand and a call that begins with a name and a
parenthesis are read to an end, and whether they are found or not, no token has been passed
that ends a statement or a block. -/
theorem run_spares {s : Builder} (hs : s.Terminated) :
    (∀ power, Gives ((expression power).run .standard) s fun _ s' => s.Spares s') ∧
    Gives ((production .unary).run .standard) s (fun _ s' => s.Spares s') ∧
    ∀ isStatement, s.current.kind = .identifier → s.peekKind 1 = .openParen →
      Gives ((call isStatement).run .standard) s fun _ s' => s.Spares s' := by
  have hrun : ∀ goal : Goal (Option NodeId), goal.Stands s → goal.Fits s →
      Gives (goal.run .standard) s fun _ s' => s.Spares s' := by
    intro goal hstands hfits
    obtain ⟨found, s', hread, -⟩ := run_gives hfits
    exact ⟨found, s', hread, sparesEnds_reach _ goal s hstands found s' hread⟩
  refine ⟨fun power => ?_, ?_, fun isStatement hname hparen => ?_⟩
  · exact hrun (.expression power) trivial ⟨hs, by simp [needsToken]⟩
  · exact hrun (.production .unary) trivial ⟨hs, by simp [needsToken]⟩
  · refine hrun (.call isStatement) ⟨hname, hparen⟩ ⟨hs, fun _ => ?_⟩
    exact (s.hasTokens_iff).mpr (by rw [hname]; decide)

/-- The call `f(;` lacks an argument and a parenthesis, and leaves the semicolon. -/
theorem run_spares_unclosed :
    let s := Builder.ofTokens [⟨.identifier, .identifier "f", ⟨1, 1⟩⟩, ⟨.openParen, .none, ⟨1, 2⟩⟩,
      ⟨.semicolon, .none, ⟨1, 3⟩⟩]
    Gives ((call false).run .standard) s fun _ s' => s.Spares s' :=
  (run_spares (Builder.terminated_ofTokens _)).2.2 false rfl rfl

end Goal

end Braced
