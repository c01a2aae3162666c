import Braced.Proofs.Parse.Enough

/-!
# Braced.Proofs.Parse.Stays

What is the same again once a part of the grammar has been read.

Reading opens scopes, loops and levels of an expression, and there are many ways
out of a part that goes wrong.  On each of them all that was opened is closed
again (`Builder.Stays`): the same scope is open as before, at the same depths, and
only that scope and new ones have been written to.  So what surrounds a part can
rely on its own place.
-/

namespace Braced

namespace Builder

/-- What is open in `s'` is what was open in `s`, and in between things were only
added: to the tokens passed, the nodes, the faults, the modules, and the scope
that is open. -/
structure Stays (s s' : Builder) : Prop where
  extends_ : s.Extends s'
  scope : s'.scope = s.scope
  loopDepth : s'.loopDepth = s.loopDepth
  expressionDepth : s'.expressionDepth = s.expressionDepth
  modules : s.modules.entries <+: s'.modules.entries
  others : ∀ id, id.index < s.scopes.size → id ≠ s.scope → s'.scopes.get? id = s.scopes.get? id

namespace Stays

variable {s s' s'' : Builder}

theorem refl (s : Builder) : s.Stays s :=
  ⟨.refl s, rfl, rfl, rfl, List.prefix_rfl, fun _ _ _ => rfl⟩

theorem trans (h : s.Stays s') (h' : s'.Stays s'') : s.Stays s'' where
  extends_ := h.extends_.trans h'.extends_
  scope := h'.scope.trans h.scope
  loopDepth := h'.loopDepth.trans h.loopDepth
  expressionDepth := h'.expressionDepth.trans h.expressionDepth
  modules := h.modules.trans h'.modules
  others id hid hother := by
    have hid' : id.index < s'.scopes.size := Nat.lt_of_lt_of_le hid h.extends_.scopes.size_le
    have hother' : id ≠ s'.scope := h.scope ▸ hother
    exact (h'.others id hid' hother').trans (h.others id hid hother)

/-- An operation that leaves scopes, depths and modules alone. -/
theorem of_eq (h : s.Extends s') (hscope : s'.scope = s.scope) (hloop : s'.loopDepth = s.loopDepth)
    (hdepth : s'.expressionDepth = s.expressionDepth) (hmodules : s'.modules = s.modules)
    (hscopes : s'.scopes = s.scopes) : s.Stays s' :=
  ⟨h, hscope, hloop, hdepth, hmodules ▸ List.prefix_rfl, fun _ _ _ => by rw [hscopes]⟩

/-- An operation that writes to the open scope. -/
theorem of_modify {change : Scope → Scope}
    (h : s.Extends { s with scopes := ⟨s.scopes.scopes.modify s.scope change⟩ }) :
    s.Stays { s with scopes := ⟨s.scopes.scopes.modify s.scope change⟩ } where
  extends_ := h
  scope := rfl
  loopDepth := rfl
  expressionDepth := rfl
  modules := List.prefix_rfl
  others id _ hother := by
    have hmodify := s.scopes.get?_modify s.scope id change
    rwa [if_neg (Ne.symm hother)] at hmodify

end Stays

/-! ## Operations that open nothing -/

/-- Passing a token changes the tokens alone. -/
theorem advance_snd (s : Builder) :
    ∃ current ahead, s.advance.2 = { s with current, ahead } := by
  unfold advance
  split
  · split
    · exact ⟨s.current, s.ahead, rfl⟩
    · exact ⟨_, _, rfl⟩
  · exact ⟨s.current, s.ahead, rfl⟩

theorem stays_advance (s : Builder) : s.Stays s.advance.2 := by
  have hextends := s.extends_advance
  obtain ⟨current, ahead, hadvance⟩ := s.advance_snd
  rw [hadvance] at hextends ⊢
  exact .of_eq hextends rfl rfl rfl rfl rfl

theorem stays_report (s : Builder) (fault : Fault) (position : Position) :
    s.Stays (s.report fault position) :=
  .of_eq (s.extends_report ..) rfl rfl rfl rfl rfl

theorem stays_declare (s : Builder) (name : String) (kind : EntryKind) (position : Position) :
    s.Stays (s.declare name kind position) := by
  have hextends := s.extends_declare name kind position
  unfold declare at hextends ⊢
  cases hinsert : s.scopes.insert s.scope name kind with
  | error fault => exact stays_report ..
  | ok found =>
    rw [hinsert] at hextends
    unfold ScopeForest.insert at hinsert
    cases htable : (s.scopes.table s.scope).insert name kind with
    | error fault =>
      rw [htable] at hinsert
      cases hinsert
    | ok entry =>
      rw [htable] at hinsert
      cases hinsert
      exact .of_modify hextends

theorem stays_resolveIdentifier (s : Builder) (name : String) (position : Position) :
    s.Stays (s.resolveIdentifier name position) := by
  unfold resolveIdentifier
  split
  · exact .refl s
  · split
    · exact stays_report ..
    · exact stays_declare ..

theorem stays_addModule (s : Builder) (name : String) : s.Stays (s.addModule name) := by
  have hextends := s.extends_addModule name
  unfold addModule at hextends ⊢
  split
  · next modules hinsert =>
    exact ⟨.of_eq rfl rfl rfl rfl, rfl, rfl, rfl, SymbolTable.prefix_of_insert hinsert,
      fun _ _ _ => rfl⟩
  · exact .refl s

instance : Plain Stays where
  refl := .refl
  trans := .trans
  advance := stays_advance
  report := stays_report
  skipToStatementEnd s := .of_eq s.extends_skipToStatementEnd rfl rfl rfl rfl rfl
  alloc s _ _ := .of_eq (s.extends_alloc ..) rfl rfl rfl rfl rfl
  addStatement s _ := .of_modify (s.extends_addStatement _)
  declare s name kind position _ := s.stays_declare name kind position
  resolveIdentifier := stays_resolveIdentifier
  addModule := stays_addModule

/-! ## Opening and closing -/

namespace Stays

variable {s s' : Builder} {position : Position}

/-- Leaving a level of an expression undoes that one was entered. -/
theorem exitExpression (h : (s.atDepth (s.expressionDepth + 1)).Stays s') :
    s.Stays (s'.exitExpression 1) where
  extends_ := by
    have hbefore : s.Extends (s.atDepth (s.expressionDepth + 1)) := .of_eq rfl rfl rfl rfl
    exact hbefore.trans (h.extends_.trans (.of_eq rfl rfl rfl rfl))
  scope := h.scope
  loopDepth := h.loopDepth
  expressionDepth := by
    show s'.expressionDepth - 1 = s.expressionDepth
    rw [h.expressionDepth]
    rfl
  modules := h.modules
  others := h.others

/-- Behind a loop or a function as many loops are open as before. -/
theorem setLoopDepth {depth : Nat} (h : (s.setLoopDepth depth).Stays s') :
    s.Stays (s'.setLoopDepth s.loopDepth) where
  extends_ := by
    have hbefore : s.Extends (s.setLoopDepth depth) := .of_eq rfl rfl rfl rfl
    exact hbefore.trans (h.extends_.trans (.of_eq rfl rfl rfl rfl))
  scope := h.scope
  loopDepth := rfl
  expressionDepth := h.expressionDepth
  modules := h.modules
  others := h.others

/-- While a scope is open, those around it stay as they are. -/
theorem get?_enterScope (h : (s.enterScope position).2.Stays s') {id : ScopeId}
    (hid : id.index < s.scopes.size) : s'.scopes.get? id = s.scopes.get? id := by
  have hsize : (s.enterScope position).2.scopes.size = s.scopes.size + 1 :=
    s.scopes.size_push _ _
  have hother : id ≠ (s.enterScope position).2.scope := by
    rintro rfl
    exact Nat.lt_irrefl _ hid
  have hnew := s.scopes.get?_push (some s.scope) position id
  rw [if_neg (Nat.ne_of_lt hid)] at hnew
  exact (h.others id (by omega) hother).trans hnew

theorem exitScope (h : (s.enterScope position).2.Stays s') : s.Stays s'.exitScope where
  extends_ := ((s.extends_enterScope position).trans h.extends_).trans s'.extends_exitScope
  scope := h.extends_.scope_exitScope h.scope
  loopDepth := h.loopDepth
  expressionDepth := h.expressionDepth
  modules := h.modules
  others _ hid _ := h.get?_enterScope hid

end Stays

/-- A scope has been opened behind `s`, and is open in `s'`. -/
def Opens (s : Builder) (scope : ScopeId) (s' : Builder) : Prop :=
  ∃ s₁ position, s.Stays s₁ ∧ scope = (s₁.enterScope position).1 ∧
    (s₁.enterScope position).2.Stays s'

namespace Opens

variable {s s' s'' : Builder} {scope : ScopeId}

theorem trans (h : s.Opens scope s') (h' : s'.Stays s'') : s.Opens scope s'' := by
  obtain ⟨s₁, position, h₁, hscope, h₂⟩ := h
  exact ⟨s₁, position, h₁, hscope, h₂.trans h'⟩

theorem exitScope (h : s.Opens scope s') : s.Stays s'.exitScope := by
  obtain ⟨s₁, position, h₁, -, h₂⟩ := h
  exact h₁.trans h₂.exitScope

end Opens

end Builder

/-! ## Parts that open something -/

namespace Parse

open Builder

variable {book : RuleBook} {reach : Reach} (hr : ∀ {α : Type} (goal : Goal α), Keeps Stays (reach goal))

/-- A level of an expression is entered, and what follows leaves it again; or it is
refused. -/
theorem stays_enterExpression {m : Bool → Parse (Option NodeId)}
    (h : ∀ s : Builder, (m true).Ensures (s.atDepth (s.expressionDepth + 1)) fun _ s' => s.Stays s')
    (h' : m false = pure none) : Keeps Stays (enterExpression >>= m) := by
  intro s
  rw [ensures_bind, enterExpression, ensures_act]
  rcases s.enterExpression_cases with heq | heq
  · rw [heq]
    exact h s
  · rw [heq, h', ensures_pure]
    exact (s.stays_report ..).trans (Still.skipToStatementEnd _)

section Expressions

open Tree.Expression

include hr

theorem stays_operators (left : NodeId) (power : Power) :
    Keeps Stays (operators book reach left power) := by
  refine keeps_look.bind fun kind => ?_
  split
  · exact keeps_pure _
  · refine .ite (keeps_pure _) (stays_enterExpression (fun s => ?_) rfl)
    rw [if_pos rfl, ensures_bind]
    refine (hr _ _).imp fun found s₁ h₁ => ?_
    cases found with
    | none =>
      simp only [ensures_bind, exitExpression, ensures_change, ensures_pure]
      exact h₁.exitExpression
    | some folded =>
      rw [ensures_bind]
      refine (hr _ _).imp fun result s₂ h₂ => ?_
      simp only [ensures_bind, exitExpression, ensures_change, ensures_pure]
      exact (h₁.trans h₂).exitExpression

theorem stays_unary : Keeps Stays (unary book reach) := by
  refine stays_enterExpression (fun s => ?_) rfl
  rw [if_pos rfl, ensures_bind]
  refine (keeps_operand hr _).imp fun result s₁ h₁ => ?_
  simp only [ensures_bind, exitExpression, ensures_change, ensures_pure]
  exact h₁.exitExpression

end Expressions

section Statements

open Tree.Statement

include hr

/-- Behind a signature the scope of its parameters is open. -/
theorem opens_signature (s : Builder) : (signature reach).Ensures s fun found s' =>
    match found with
    | none => s.Stays s'
    | some found => s.Opens found.scope s' := by
  rw [signature, ensures_bind]
  refine (keeps_expect (R := Stays) s).imp fun found s₁ h₁ => ?_
  cases found with
  | none => exact (ensures_pure _).mpr h₁
  | some token =>
    simp only [signatureOf, ensures_bind, ensures_pure]
    refine (keeps_declare (R := Stays) rfl s₁).imp fun _ s₂ h₂ =>
      (keeps_alloc (R := Stays) s₂).imp fun name s₃ h₃ => (keeps_expect (R := Stays) s₃).imp fun _ s₄ h₄ => ?_
    have hbefore := h₁.trans (h₂.trans (h₃.trans h₄))
    rw [enterScope, ensures_act]
    refine (keeps_parameterList hr _).imp fun parameters s₅ h₅ => ?_
    have hresult : Keeps Stays (resultType reach) :=
      keeps_accept.bind fun _ => .ite (hr _) (keeps_pure _)
    refine (hresult s₅).imp fun result s₆ h₆ => ?_
    exact ⟨s₄, token.position, hbefore, rfl, h₅.trans h₆⟩

theorem stays_closedSignature : Keeps Stays (closedSignature reach) := by
  intro s
  rw [closedSignature, ensures_bind]
  refine (opens_signature hr s).imp fun found s₁ h₁ => ?_
  cases found with
  | none => exact (ensures_pure _).mpr h₁
  | some found =>
    simp only [ensures_bind, exitScope, ensures_change, ensures_pure]
    exact h₁.exitScope

theorem stays_function : Keeps Stays (function reach) := by
  refine keeps_look.bind fun position => keeps_refuseNested.bind fun _ => fun s => ?_
  rw [ensures_bind]
  refine (opens_signature hr s).imp fun found s₁ h₁ => ?_
  cases found with
  | none => exact (ensures_pure _).mpr h₁
  | some found =>
    simp only [ensures_bind, ensures_look, ensures_change, exitScope]
    refine (keeps_blockBody hr _).imp fun _ s₂ h₂ =>
      (keeps_alloc (R := Stays) _).imp fun id s₃ h₃ => ?_
    exact (ensures_pure _).mpr ((h₁.trans h₂.setLoopDepth).exitScope.trans h₃)

theorem stays_foreignImport : Keeps Stays (foreignImport reach) := by
  refine keeps_advance.bind fun mark => keeps_expect.bind fun _ => keeps_expect.bind fun _ =>
    keeps_expect.bind fun _ => keeps_expect.bind fun token =>
    keeps_addModule.bind fun _ => keeps_expect.bind fun _ =>
    (stays_closedSignature hr).bind fun found => keeps_expect.bind fun _ =>
    keeps_expect.bind fun _ => ?_
  cases found with
  | none => exact keeps_pure _
  | some found => exact keeps_alloc.bind fun _ => keeps_pure _

theorem stays_block : Keeps Stays (block reach) := by
  refine keeps_look.bind fun position => fun s => ?_
  rw [ensures_bind, enterScope, ensures_act, ensures_bind]
  refine (keeps_blockBody hr _).imp fun _ s₁ h₁ => ?_
  simp only [ensures_bind, exitScope, ensures_change, ensures_pure]
  exact h₁.exitScope

theorem stays_whileStatement : Keeps Stays (whileStatement reach) := by
  refine keeps_advance.bind fun token => (hr _).bind fun condition => fun s => ?_
  rw [ensures_bind, ensures_change, ensures_bind]
  refine (hr _ _).imp fun body s₁ h₁ => ?_
  rw [ensures_bind, ensures_change, ensures_bind]
  refine (keeps_alloc (R := Stays) _).imp fun id s₂ h₂ => (ensures_pure _).mpr ?_
  have hdepth : s₁.loopDepth - 1 = s.loopDepth := by
    rw [h₁.loopDepth]
    rfl
  rw [hdepth] at h₂
  exact h₁.setLoopDepth.trans h₂

theorem staysOpening : KeepsOpening Stays book reach where
  operators := stays_operators hr
  unary := stays_unary hr
  function := stays_function hr
  foreignImport := stays_foreignImport hr
  block := stays_block hr
  whileStatement := stays_whileStatement hr

end Statements

end Parse

/-! ## All parts together -/

/-- **Reading any part leaves open what was open**, whether it finds the part or
not. -/
theorem Goal.reach_stays {book : RuleBook} (fuel : Nat) (goal : Goal α) (s : Builder) :
    (Goal.reach book fuel goal).Ensures s fun _ s' => s.Stays s' :=
  Goal.reach_keeps_of Parse.staysOpening fuel goal s

/-- **Every part is read to an end, and leaves its surroundings as they were.**  From
any builder whose tokens come to an end, whatever they are, each part gives a result;
the same scope is then open, at the same depths, and all that was there has only been
added to.  A part that starts by passing a token has to stand in front of one.  In
particular the loop that is opened for a body is still open behind the body, so the
number of loops never goes below zero. -/
theorem Goal.run_stays {s : Builder} (hs : s.Terminated) :
    (∀ {α : Type} (goal : Goal α), (goal.needsToken → s.hasTokens) →
      ∃ a s', goal.run .standard s = some (a, s') ∧ s.Stays s') ∧
    ∃ body s', Goal.block.run .standard (s.setLoopDepth (s.loopDepth + 1)) = some (body, s') ∧
      s'.loopDepth = s.loopDepth + 1 := by
  have hrun : ∀ {s : Builder}, s.Terminated → ∀ {α : Type} (goal : Goal α),
      (goal.needsToken → s.hasTokens) →
      ∃ a s', goal.run .standard s = some (a, s') ∧ s.Stays s' := by
    intro s hs α goal htokens
    obtain ⟨a, s', hread, -⟩ := Goal.affords_reach _ goal s hs htokens (goal.cost_le_enoughFuel s)
    exact ⟨a, s', hread, Goal.reach_stays _ goal s a s' hread⟩
  refine ⟨hrun hs, ?_⟩
  obtain ⟨body, s', hread, hstays⟩ := hrun (s := s.setLoopDepth (s.loopDepth + 1)) hs .block
    (by simp [needsToken])
  exact ⟨body, s', hread, hstays.loopDepth⟩

/-- The block `{ if f (` breaks off inside of a call inside of a condition. -/
theorem Goal.run_stays_unfinished :
    let s := Builder.ofTokens [⟨.openCurly, .none, ⟨1, 1⟩⟩, ⟨.kwIf, .none, ⟨1, 3⟩⟩,
      ⟨.identifier, .identifier "f", ⟨1, 6⟩⟩, ⟨.openParen, .none, ⟨1, 8⟩⟩]
    ∃ body s', Goal.block.run .standard s = some (body, s') ∧ s.Stays s' :=
  (run_stays (Builder.terminated_ofTokens _)).1 .block (by decide)

end Braced
