import Braced.Proofs.Parse.Abandons
import Braced.Proofs.Parse.Shows
import Braced.Proofs.Tree.Jumps

/-!
# Braced.Proofs.Parse.Loops

The jumps that are reported are those with no loop around them.

The loops that are open are counted as they are read, and the count is put back to zero
for the body of a function.  So where the count goes with the bodies around a part, the
jumps in the part that are reported when it is read are the ones that the finished tree
has in no loop (`Builder.Loops`), whatever else is wrong with the part.  Most parts have
no such jumps and report none (`Builder.Aside`).
-/

namespace Braced

/-- The keyword and the place of a jump that was reported to have no loop around it. -/
def Diagnostic.misplaced? (d : Diagnostic) : Option (TokenKind × Position) :=
  match d.fault with
  | .misplacedLoopControl keyword => some (keyword, d.position)
  | _ => none

namespace Builder

variable {s s' s'' : Builder}

/-- The jumps among the nodes that need a loop. -/
def loopJumps (s : Builder) : List (TokenKind × Position) :=
  s.nodes.toList.filterMap Node.loopJump?

/-- The jumps that were reported to have no loop around them. -/
def misplaced (s : Builder) : List (TokenKind × Position) :=
  s.diagnostics.toList.filterMap Diagnostic.misplaced?

/-- The tokens come to an end, and the scope that is open is there. -/
structure Sited (s : Builder) : Prop where
  terminated : s.Terminated
  inScope : s.InScope

theorem Stays.sited (h : s.Stays s') (hs : s.Sited) : s'.Sited where
  terminated := h.extends_.terminated hs.terminated
  inScope := by
    rw [InScope, h.scope]
    exact Nat.lt_of_lt_of_le hs.inScope h.extends_.scopes.size_le

theorem Sited.enterScope (hs : s.Sited) (position : Position) :
    (s.enterScope position).2.Sited where
  terminated := hs.terminated
  inScope := by
    have hsize : (s.enterScope position).2.scopes.size = s.scopes.size + 1 := s.scopes.size_push _ _
    rw [InScope, hsize]
    exact Nat.lt_succ_self _

theorem Stays.keepsFrom (h : s.Stays s') {first : Nat} (hfirst : s.scope.index < first) :
    s.tree.KeepsFrom first s'.tree := by
  refine ⟨h.extends_.keepsNodes, fun id hid hlt => h.others id hlt ?_⟩
  rintro rfl
  omega

/-! ## Parts without jumps -/

/-- No statement, no jump that needs a loop and no report of one came between `s` and
`s'`. -/
structure Aside (s s' : Builder) : Prop where
  stays : s.Stays s'
  statements : ∀ id, s'.tree.statements id = s.tree.statements id
  loopJumps : s'.loopJumps = s.loopJumps
  misplaced : s'.misplaced = s.misplaced

instance : Composes Aside where
  refl s := ⟨.refl s, fun _ => rfl, rfl, rfl⟩
  trans h h' := ⟨h.stays.trans h'.stays, fun id => (h'.statements id).trans (h.statements id),
    h'.loopJumps.trans h.loopJumps, h'.misplaced.trans h.misplaced⟩

/-- What makes no node only has to be asked for its reports. -/
theorem SamePlaces.aside (h : s.SamePlaces s') (hstays : s.Stays s')
    (hmisplaced : s'.misplaced = s.misplaced) : s.Aside s' :=
  ⟨hstays, h.statements, by rw [Builder.loopJumps, h.nodes, Builder.loopJumps], hmisplaced⟩

theorem aside_report {fault : Fault}
    (h : ∀ position, (⟨fault, position⟩ : Diagnostic).misplaced? = none) (position : Position) :
    s.Aside (s.report fault position) := by
  refine SamePlaces.aside (Still.report s fault position) (s.stays_report ..) ?_
  simp [Builder.misplaced, report, h position]

theorem aside_advance (s : Builder) : s.Aside s.advance.2 :=
  SamePlaces.aside (Moves.advance s) s.stays_advance
    (by rw [Builder.misplaced, diagnostics_advance, Builder.misplaced])

theorem aside_expect (s : Builder) (kind : TokenKind) : s.Aside (s.expect kind).2 := by
  unfold expect
  split
  · exact s.aside_advance
  · exact Composes.trans (aside_report (fun _ => rfl) _) (aside_advance _)

theorem aside_accept (s : Builder) (kind : TokenKind) : s.Aside (s.accept kind).2 := by
  unfold accept
  split
  · exact s.aside_advance
  · exact Composes.refl s

theorem aside_alloc {kind : NodeKind} (h : kind.loopKeyword? = none) (position : Position) :
    s.Aside (s.alloc position kind).2 := by
  refine ⟨Plain.alloc s position kind, fun _ => rfl, ?_, rfl⟩
  have hnodes : (s.alloc position kind).2.nodes.toList = s.nodes.toList ++ [⟨position, kind⟩] :=
    Arena.toList_alloc ..
  simp [Builder.loopJumps, hnodes, Node.loopJump?, h]

theorem aside_addModule (s : Builder) (name : String) : s.Aside (s.addModule name) :=
  SamePlaces.aside (Moves.addModule s name) (s.stays_addModule name) (by
    unfold addModule
    split <;> rfl)

theorem Level.loopJumps_eq (h : s.Level s') : s'.loopJumps = s.loopJumps := by
  obtain ⟨added, hnodes, hadded⟩ := h.added
  have hnone : added.filterMap Node.loopJump? = [] := by
    rw [List.filterMap_eq_nil_iff]
    rintro ⟨position, kind⟩ hnode
    have hlevel := hadded _ hnode
    cases kind <;> first | rfl | cases hlevel
  rw [loopJumps, hnodes, List.filterMap_append, hnone, List.append_nil, loopJumps]

theorem Level.misplaced_eq (h : s.Level s') : s'.misplaced = s.misplaced := by
  obtain ⟨noted, hdiagnostics, hnoted⟩ := h.noted
  have hnone : noted.filterMap Diagnostic.misplaced? = [] := by
    rw [List.filterMap_eq_nil_iff]
    rintro ⟨fault, position⟩ hd
    have hlevel := hnoted _ hd
    cases fault <;> first | rfl | cases hlevel
  rw [misplaced, hdiagnostics, List.filterMap_append, hnone, List.append_nil, misplaced]

theorem Level.aside (h : s.Level s') (hstays : s.Stays s') : s.Aside s' :=
  ⟨hstays, h.statements, h.loopJumps_eq, h.misplaced_eq⟩

/-- That a statement was given up is no report of a jump. -/
theorem Abandons.aside (h : s.Abandons s') (hstays : s.Stays s') : s.Aside s' := by
  obtain ⟨s₁, position, h₁, -, htree, hdiagnostics⟩ := h.level
  have hnodes : s'.nodes = s₁.nodes := congrArg Tree.nodes htree
  refine ⟨hstays, fun id => ?_, ?_, ?_⟩
  · rw [htree, h₁.statements]
  · rw [loopJumps, hnodes, ← loopJumps, h₁.loopJumps_eq]
  · have hpush : s'.misplaced = s₁.misplaced := by
      simp [misplaced, hdiagnostics, Diagnostic.misplaced?]
    rw [hpush, h₁.misplaced_eq]

/-! ## Parts with jumps -/

/-- The statements `ids` were added to the scope that is open.  Among what stands around the
builder as its count of loops says, there are jumps that were added and, so far as no loop is
around them, reported, and of these and every later tree `P` holds. -/
structure Loops (s : Builder) (ids : List NodeId)
    (P : Tree → List Body → List LoopJump → Prop) (s' : Builder) : Prop where
  stays : s.Stays s'
  statements : s'.tree.statements s.scope = s.tree.statements s.scope ++ ids
  holds : ∀ around, Body.inLoop around = decide (0 < s.loopDepth) → ∃ js,
    s'.loopJumps = s.loopJumps ++ js.map LoopJump.site ∧
    s'.misplaced = s.misplaced ++ (js.filter LoopJump.isMisplaced).map LoopJump.site ∧
    ∀ t, s'.tree.KeepsFrom s.scopes.size t → P t around js

variable {ids ids' : List NodeId} {P Q : Tree → List Body → List LoopJump → Prop}

namespace Loops

theorem imp (h : s.Loops ids P s') (hPQ : ∀ t around js, P t around js → Q t around js) :
    s.Loops ids Q s' where
  stays := h.stays
  statements := h.statements
  holds around haround := by
    obtain ⟨js, hjs, hmisplaced, hP⟩ := h.holds around haround
    exact ⟨js, hjs, hmisplaced, fun t ht => hPQ t around js (hP t ht)⟩

/-- What has no jumps comes in front. -/
theorem after_aside (h : s.Aside s') (h' : s'.Loops ids P s'') : s.Loops ids P s'' where
  stays := h.stays.trans h'.stays
  statements := by
    rw [← h.statements, ← h.stays.scope]
    exact h'.statements
  holds around haround := by
    obtain ⟨js, hjs, hmisplaced, hP⟩ := h'.holds around (by rw [haround, h.stays.loopDepth])
    refine ⟨js, by rw [hjs, h.loopJumps], by rw [hmisplaced, h.misplaced], fun t ht => hP t ?_⟩
    exact ht.of_le h.stays.extends_.scopes.size_le

/-- Parts that come one after the other have their jumps in this order. -/
theorem trans (hs : s.Sited) (h : s.Loops ids P s') (h' : s'.Loops ids' Q s'') :
    s.Loops (ids ++ ids') (fun t around js => ∃ first second, js = first ++ second ∧
      P t around first ∧ Q t around second) s'' where
  stays := h.stays.trans h'.stays
  statements := by
    have hstatements := h'.statements
    rw [h.stays.scope] at hstatements
    rw [hstatements, h.statements, List.append_assoc]
  holds around haround := by
    obtain ⟨js, hjs, hmisplaced, hP⟩ := h.holds around haround
    obtain ⟨js', hjs', hmisplaced', hQ⟩ := h'.holds around (by rw [haround, h.stays.loopDepth])
    refine ⟨js ++ js', ?_, ?_, fun t ht => ⟨js, js', rfl, hP t (.trans ?_ ht), hQ t (ht.of_le ?_)⟩⟩
    · rw [hjs', hjs, List.map_append, List.append_assoc]
    · rw [hmisplaced', hmisplaced, List.filter_append, List.map_append, List.append_assoc]
    · refine h'.stays.keepsFrom ?_
      rw [h.stays.scope]
      exact hs.inScope
    · exact h.stays.extends_.scopes.size_le

/-- What has no jumps is a part by itself. -/
theorem of_aside (h : s.Aside s') : s.Loops [] (fun _ _ js => js = []) s' where
  stays := h.stays
  statements := by rw [h.statements, List.append_nil]
  holds _ _ := ⟨[], by simp [h.loopJumps], by simp [h.misplaced], fun _ _ => rfl⟩

theorem then_aside (hs : s.Sited) (h : s.Loops ids P s') (h' : s'.Aside s'') :
    s.Loops ids P s'' := by
  have hboth := trans hs h (.of_aside h')
  rw [List.append_nil] at hboth
  refine hboth.imp fun t around js hjs => ?_
  obtain ⟨first, _, rfl, hP, rfl⟩ := hjs
  rwa [List.append_nil]

/-- A new node that is no jump is in every later tree. -/
theorem alloc (hs : s.Sited) (h : s.Loops ids P s') {kind : NodeKind}
    (hkind : kind.loopKeyword? = none) (position : Position) :
    s.Loops ids (fun t around js => t.node? (s'.alloc position kind).1 = some ⟨position, kind⟩ ∧
      P t around js) (s'.alloc position kind).2 := by
  have hlater := h.then_aside hs (aside_alloc hkind position)
  refine ⟨hlater.stays, hlater.statements, fun around haround => ?_⟩
  obtain ⟨js, hjs, hmisplaced, hP⟩ := hlater.holds around haround
  exact ⟨js, hjs, hmisplaced, fun t ht => ⟨ht.nodes _ _ (s'.node?_alloc position kind), hP t ht⟩⟩

/-- Inside of a body the loops are counted from where it begins. -/
theorem within (body : Body) (h : (s.setLoopDepth (body.depth s.loopDepth)).Loops ids P s') :
    s.Loops ids (fun t around js => P t (body :: around) js) (s'.setLoopDepth s.loopDepth) where
  stays := h.stays.setLoopDepth
  statements := h.statements
  holds around haround := h.holds (body :: around) (body.inLoop_cons around haround)

/-- When a scope is closed, its statements are the ones that were added to it. -/
theorem close (hs : s.Sited) {position : Position} (h : (s.enterScope position).2.Loops ids P s') :
    s.Loops [] (fun t around js => t.statements (s.enterScope position).1 = ids ∧ P t around js)
      s'.exitScope := by
  have hsize : s.scopes.size < s'.scopes.size := by
    have hgrows := h.stays.extends_.scopes.size_le
    have hpush : (s.enterScope position).2.scopes.size = s.scopes.size + 1 :=
      s.scopes.size_push _ _
    omega
  have hbody : s'.tree.statements (s.enterScope position).1 = ids := by
    have hempty : (s.enterScope position).2.tree.statements (s.enterScope position).1 = [] := by
      rw [statements_enterScope]
      exact List.eq_nil_iff_forall_not_mem.mpr fun id hid =>
        Nat.lt_irrefl _ (Tree.mem_statements_lt hid)
    have hstatements := h.statements
    rwa [show (s.enterScope position).2.scope = (s.enterScope position).1 from rfl, hempty]
      at hstatements
  refine ⟨h.stays.exitScope, ?_, fun around haround => ?_⟩
  · have hkept : s'.exitScope.tree.scopes.get? s.scope = s.tree.scopes.get? s.scope :=
      h.stays.get?_enterScope hs.inScope
    rw [List.append_nil, Tree.statements, Tree.statements, hkept]
  · obtain ⟨js, hjs, hmisplaced, hP⟩ := h.holds around haround
    refine ⟨js, hjs, hmisplaced, fun t ht => ⟨?_, hP t (ht.of_le ?_)⟩⟩
    · have hkept := ht.scopes (s.enterScope position).1 (Nat.le_refl _) hsize
      rw [Tree.statements, hkept]
      exact hbody
    · exact (s.extends_enterScope position).scopes.size_le

end Loops

end Builder

/-! ## Parts of the grammar -/

namespace Parse

open Builder Tree.Statement

variable {s s' : Builder}

/-- Reading has nothing to do with jumps. -/
def Asides (m : Parse α) : Prop :=
  ∀ s, s.Sited → m.Ensures s fun _ s' => s.Aside s'

theorem Keeps.asides {m : Parse α} (h : Keeps Aside m) : Asides m :=
  fun s _ => h s

theorem Asides.bind {m : Parse α} {f : α → Parse β} (hm : Asides m) (hf : ∀ a, Asides (f a)) :
    Asides (m >>= f) := by
  intro s hs
  rw [ensures_bind]
  exact (hm s hs).imp fun a s₁ h₁ =>
    (hf a s₁ (h₁.stays.sited hs)).imp fun _ _ h₂ => Composes.trans h₁ h₂

theorem Asides.ite {c : Prop} [Decidable c] {m m' : Parse α} (hm : Asides m) (hm' : Asides m') :
    Asides (if c then m else m') := by
  split
  · exact hm
  · exact hm'

theorem asides_pure (a : α) : Asides (pure a : Parse α) := (keeps_pure a).asides

theorem asides_look {f : Builder → α} : Asides (look f) := keeps_look.asides

theorem asides_advance : Asides advance := (keeps_act aside_advance).asides

theorem asides_expect {kind : TokenKind} : Asides (expect kind) :=
  (keeps_act fun s => s.aside_expect kind).asides

theorem asides_accept {kind : TokenKind} : Asides (accept kind) :=
  (keeps_act fun s => s.aside_accept kind).asides

theorem asides_alloc {position : Position} {kind : NodeKind} (h : kind.loopKeyword? = none) :
    Asides (alloc position kind) :=
  (keeps_act fun _ => aside_alloc h position).asides

theorem asides_declare {name : String} {kind : EntryKind} {position : Position} :
    Asides (declare name kind position) :=
  (keeps_change fun s => (s.level_declare name kind position).aside
    (s.stays_declare name kind position)).asides

theorem asides_resolveIdentifier {name : String} {position : Position} :
    Asides (resolveIdentifier name position) :=
  (keeps_change fun s => (s.level_resolveIdentifier name position).aside
    (s.stays_resolveIdentifier name position)).asides

/-- An expression has no jumps, whether it is found or the statement is given up. -/
theorem GivesUp.asides {m : Parse (Option α)} (h : GivesUp m) (hstays : Keeps Stays m) :
    Asides m := by
  intro s hs
  refine ((h s hs.terminated).and (hstays s)).imp fun found s' h => ?_
  rcases h.1 with hlevel | ⟨-, habandons⟩
  · exact hlevel.aside h.2
  · exact habandons.aside h.2

/-- A statement was read, if any, whose jumps are known. -/
def LoopsStatement (s : Builder) (found : Option NodeId) (s' : Builder) : Prop :=
  s.Loops [] (fun t around js => t.LoopJumps around found.toList js) s'

/-- Statements were read, whose jumps are known, and added to the scope that is open. -/
def LoopsStatements (s s' : Builder) : Prop :=
  ∃ ids, s.Loops ids (fun t around js => t.LoopJumps around ids js) s'

/-- Where nothing is found there are no jumps. -/
theorem LoopsStatement.none (h : s.Aside s') : LoopsStatement s none s' :=
  (Loops.of_aside h).imp fun t around js hjs => by
    rw [hjs]
    exact .nil around

/-- How the jumps of every part are read. -/
structure LoopsParts (reach : Reach) : Prop where
  type : Asides (reach (.production .type))
  values : Asides (reach .values)
  parameters : Asides (reach .parameters)
  declaration : ∀ s, s.Sited → (reach (.production .declaration)).Ensures s (LoopsStatement s)
  statement : ∀ s, s.Sited → (reach (.production .statement)).Ensures s (LoopsStatement s)
  identifierStatement : ∀ s, s.Sited →
    (reach (.production .identifierStatement)).Ensures s (LoopsStatement s)
  variableStatement : ∀ s, s.Sited →
    (reach (.production .variableStatement)).Ensures s (LoopsStatement s)
  function : ∀ s, s.Sited → (reach (.production .function)).Ensures s (LoopsStatement s)
  foreignImport : ∀ s, s.Sited → (reach (.production .foreignImport)).Ensures s (LoopsStatement s)
  returnStatement : ∀ s, s.Sited →
    (reach (.production .returnStatement)).Ensures s (LoopsStatement s)
  loopControl : ∀ s, s.Sited → s.current.kind = .kwBreak ∨ s.current.kind = .kwContinue →
    (reach (.production .loopControl)).Ensures s (LoopsStatement s)
  ifStatement : ∀ s, s.Sited → (reach (.production .ifStatement)).Ensures s (LoopsStatement s)
  whileStatement : ∀ s, s.Sited →
    (reach (.production .whileStatement)).Ensures s (LoopsStatement s)
  elseClause : ∀ s, s.Sited → (reach .elseClause).Ensures s (LoopsStatement s)
  block : ∀ s, s.Sited → (reach .block).Ensures s fun body s' =>
    s.Loops [] (fun t around js => t.LoopJumps around (t.statements body) js) s'
  statements : ∀ s, s.Sited → (reach .statements).Ensures s fun _ s' => LoopsStatements s s'
  declarations : ∀ s, s.Sited → (reach .declarations).Ensures s fun _ s' => LoopsStatements s s'

section

variable {reach : Reach} (hr : LoopsParts reach) (hg : GivesUpExpressions reach)
  (hk : ∀ {α : Type} (goal : Goal α), Keeps Stays (reach goal))

include hg hk in
theorem asides_expression (power : Power) : Asides (reach (.expression power)) :=
  (hg.expression power).asides (hk _)

/-! ### Types, variables and signatures -/

theorem asides_type : Asides type := by
  refine asides_look.bind fun position => asides_accept.bind fun isConst =>
    asides_look.bind fun kind => ?_
  split
  · refine asides_look.bind fun here => .bind ?_ fun _ => asides_advance.bind fun _ => asides_pure _
    exact (keeps_change fun s => aside_report (fun _ => rfl) here).asides
  · exact asides_advance.bind fun _ => (asides_alloc rfl).bind fun _ => asides_pure _

include hr hg hk in
theorem asides_values : Asides (values reach) := by
  refine asides_accept.bind fun more => .ite ?_ (asides_pure _)
  exact (asides_expression hg hk .lowest).bind fun _ => hr.values.bind fun _ => asides_pure _

include hr in
theorem asides_declaredType (token : Token) : Asides (declaredType reach token) := by
  refine asides_accept.bind fun typed => .ite ?_ ?_
  · exact hr.type.bind fun _ => asides_declare.bind fun _ => asides_pure _
  · exact asides_resolveIdentifier.bind fun _ => asides_pure _

include hr in
theorem asides_parameter : Asides (parameter reach) := by
  refine asides_expect.bind fun token => asides_expect.bind fun _ => hr.type.bind fun atom => ?_
  split
  · exact asides_declare.bind fun _ => (asides_alloc rfl).bind fun _ => asides_pure _
  · exact asides_pure _

include hr in
theorem asides_parameters : Asides (parameters reach) := by
  refine (asides_parameter hr).bind fun first => asides_accept.bind fun more =>
    .ite ?_ (asides_pure _)
  exact hr.parameters.bind fun _ => asides_pure _

include hr in
theorem asides_parameterList : Asides (parameterList reach) := by
  refine asides_expect.bind fun _ => asides_look.bind fun kind => .ite ?_ ?_
  · exact asides_expect.bind fun _ => asides_pure _
  · exact hr.parameters.bind fun _ => asides_expect.bind fun _ => asides_pure _

include hr in
theorem asides_resultType : Asides (resultType reach) :=
  asides_accept.bind fun _ => .ite hr.type (asides_pure _)

/-- A signature was read, if any, and behind it its scope is open. -/
def AsideSignature (s : Builder) (found : Option Signature) (s' : Builder) : Prop :=
  match found with
  | none => s.Aside s'
  | some found => ∃ s₁ position, s.Aside s₁ ∧ found.scope = (s₁.enterScope position).1 ∧
      (s₁.enterScope position).2.Aside s'

include hr

theorem aside_signature (hs : s.Sited) : (signature reach).Ensures s (AsideSignature s) := by
  rw [signature, ensures_bind]
  refine (asides_expect s hs).imp fun found s₁ h₁ => ?_
  cases found with
  | none => exact (ensures_pure _).mpr h₁
  | some token =>
    have hs₁ := h₁.stays.sited hs
    simp only [signatureOf, ensures_bind, ensures_pure]
    refine (asides_declare s₁ hs₁).imp fun _ s₂ h₂ => ?_
    have hs₂ := h₂.stays.sited hs₁
    refine (asides_alloc rfl s₂ hs₂).imp fun name s₃ h₃ => ?_
    have hs₃ := h₃.stays.sited hs₂
    refine (asides_expect s₃ hs₃).imp fun _ s₄ h₄ => ?_
    have hs₄ := h₄.stays.sited hs₃
    have hbefore : s.Aside s₄ :=
      Composes.trans (Composes.trans h₁ h₂) (Composes.trans h₃ h₄)
    rw [enterScope, ensures_act]
    have hrest : Asides (do
        let _ ← parameterList reach
        resultType reach) := (asides_parameterList hr).bind fun _ => asides_resultType hr
    have hread := hrest _ (hs₄.enterScope token.position)
    rw [ensures_bind] at hread
    exact hread.imp fun parameters s₅ h₅ => h₅.imp fun result s₆ h₆ =>
      ⟨s₄, token.position, hbefore, rfl, h₆⟩

/-- A signature without a body has no statements. -/
theorem loops_closedSignature (hs : s.Sited) : (closedSignature reach).Ensures s fun found s' =>
    s.Loops [] (fun t _ js => js = [] ∧ ∀ sig ∈ found, t.statements sig.scope = []) s' := by
  rw [closedSignature, ensures_bind]
  refine (aside_signature hr hs).imp fun found s₁ h₁ => ?_
  cases found with
  | none => exact (ensures_pure _).mpr ((Loops.of_aside h₁).imp fun _ _ _ h => ⟨h, by simp⟩)
  | some sig =>
    obtain ⟨s₀, position, hbefore, hscope, hafter⟩ := h₁
    simp only [ensures_bind, exitScope, ensures_change, ensures_pure]
    have hclosed := (Loops.of_aside hafter).close (hbefore.stays.sited hs)
    refine (hclosed.after_aside hbefore).imp fun t around js h => ⟨h.2, ?_⟩
    rintro _ ⟨⟩
    rw [hscope]
    exact h.1

/-! ### Statements without blocks -/

omit hr in
/-- The statement that was read, if any, is a new node without jumps. -/
theorem loops_plain {m : Parse (Option NodeId)} (hs : s.Sited) (h : Asides m)
    (hplain : m.Ensures s fun found s' => ∀ id ∈ found, ∃ node, s'.tree.node? id = some node ∧
      node.kind.loopKeyword? = none ∧ node.kind.enclosure? = none) :
    m.Ensures s (LoopsStatement s) := by
  refine ((h s hs).and hplain).imp fun found s' h => ?_
  obtain ⟨haside, hplain⟩ := h
  cases found with
  | none => exact .none haside
  | some id =>
    obtain ⟨node, hnode, hkeyword, hbody⟩ := hplain id rfl
    refine ⟨haside.stays, by rw [haside.statements, List.append_nil], fun around _ => ?_⟩
    refine ⟨[], by simp [haside.loopJumps], by simp [haside.misplaced], fun t ht => ?_⟩
    exact .plain (ht.nodes id node hnode) hkeyword hbody (.nil around)

omit hr in
/-- A part whose last step adds its node. -/
theorem ensures_added {position : Position} {kind : NodeKind} (h : kind.loopKeyword? = none)
    (h' : kind.enclosure? = none) :
    (alloc position kind).Ensures s fun id s' => Ensures (pure (some id)) s' fun found s' =>
      ∀ id ∈ found, ∃ node, s'.tree.node? id = some node ∧ node.kind.loopKeyword? = none ∧
        node.kind.enclosure? = none := by
  simp only [alloc, ensures_act, ensures_pure]
  rintro id ⟨⟩
  exact ⟨_, s.node?_alloc position kind, h, h'⟩

theorem loops_variableStatement (hs : s.Sited) :
    (variableStatement reach).Ensures s (LoopsStatement s) := by
  refine loops_plain hs ?_ ?_
  · refine asides_expect.bind fun found => ?_
    cases found with
    | none => exact asides_pure _
    | some token =>
      exact (asides_declaredType hr token).bind fun _ => (asides_alloc rfl).bind fun _ =>
        hr.values.bind fun _ => (asides_alloc rfl).bind fun _ => asides_pure _
  · rw [variableStatement, ensures_bind]
    intro found s₁ _
    cases found with
    | none => exact (ensures_pure _).mpr (by simp)
    | some token =>
      simp only [ensures_bind]
      intro atom s₂ _ name s₃ _ values s₄ _
      exact ensures_added (by rfl) (by rfl)

omit hr in
include hg hk in
theorem loops_returnStatement (hs : s.Sited) :
    (returnStatement reach).Ensures s (LoopsStatement s) := by
  refine loops_plain hs ?_ ?_
  · refine asides_advance.bind fun token => .bind ?_ fun value => asides_expect.bind fun _ =>
      (asides_alloc rfl).bind fun _ => asides_pure _
    exact asides_look.bind fun kind => .ite (asides_pure _) (asides_expression hg hk .lowest)
  · rw [returnStatement]
    simp only [ensures_bind]
    intro token s₁ _ value s₂ _ _ s₃ _
    exact ensures_added (by rfl) (by rfl)

omit hr in
include hg hk in
/-- A call has no jumps, and is none. -/
theorem loops_call (he : ResolvesExpressions reach) (hs : s.Sited) :
    (reach (.call true)).Ensures s (LoopsStatement s) := by
  refine loops_plain hs ((hg.call true).asides (hk _)) ((he.call true s).imp ?_)
  intro found s' h id hid
  obtain ⟨callee, arguments, isDirective, hkind⟩ := h.2 id hid
  obtain ⟨⟨position, kind⟩, hnode, rfl⟩ := Option.map_eq_some_iff.mp hkind
  exact ⟨_, hnode, rfl, rfl⟩

include hg hk in
theorem loops_identifierStatement (he : ResolvesExpressions reach) (hs : s.Sited) :
    (identifierStatement reach).Ensures s (LoopsStatement s) := by
  rw [identifierStatement, ensures_bind, ensures_look, ensures_bind, ensures_look]
  split
  · rw [ensures_bind]
    refine (loops_call hg hk he hs).imp fun found s₁ h₁ => ?_
    simp only [ensures_bind, expect, ensures_act, ensures_pure]
    exact h₁.then_aside hs (s₁.aside_expect .semicolon)
  · split
    · exact hr.function s hs
    · rw [ensures_bind]
      refine (hr.variableStatement s hs).imp fun found s₁ h₁ => ?_
      simp only [ensures_bind, expect, ensures_act, ensures_pure]
      exact h₁.then_aside hs (s₁.aside_expect .semicolon)

omit hr in
/-- A token that nothing begins with is passed. -/
theorem asides_refusal {fault : Fault}
    (h : ∀ position, (⟨fault, position⟩ : Diagnostic).misplaced? = none) :
    Asides (do
      report fault (← currentPosition)
      let _ ← advance
      return (none : Option NodeId)) := by
  refine asides_look.bind fun position => .bind ?_ fun _ =>
    asides_advance.bind fun _ => asides_pure _
  exact (keeps_change fun s => aside_report h position).asides

theorem loops_declaration (hs : s.Sited) :
    (declaration .standard reach).Ensures s (LoopsStatement s) := by
  rw [declaration, ensures_bind, currentKind, ensures_look]
  split
  · next production hproduction =>
    rcases production_of_declaration hproduction with ⟨rfl, -⟩ | ⟨rfl, -⟩
    · exact hr.identifierStatement s hs
    · exact hr.foreignImport s hs
  · refine loops_plain hs (asides_refusal fun _ => rfl) ?_
    simp only [ensures_bind, ensures_pure]
    intro position s₁ _ _ s₂ _ _ s₃ _
    simp

theorem loops_statement (hs : s.Sited) :
    (statement .standard reach).Ensures s (LoopsStatement s) := by
  rw [statement, ensures_bind, currentKind, ensures_look]
  split
  · next production hproduction =>
    rcases production_of_statement hproduction with
      ⟨rfl, -⟩ | ⟨rfl, -⟩ | ⟨rfl, hkind⟩ | ⟨rfl, -⟩ | ⟨rfl, -⟩
    · exact hr.identifierStatement s hs
    · exact hr.returnStatement s hs
    · exact hr.loopControl s hs hkind
    · exact hr.ifStatement s hs
    · exact hr.whileStatement s hs
  · refine loops_plain hs (asides_refusal fun _ => rfl) ?_
    simp only [ensures_bind, ensures_pure]
    intro position s₁ _ _ s₂ _ _ s₃ _
    simp

/-! ### Jumps -/

omit hr in
/-- A keyword that needs a loop is reported where none is open. -/
theorem misplaced_refuseOutsideLoop (token : Token) :
    (refuseOutsideLoop token).Ensures s fun _ s' => s.SamePlaces s' ∧ s.Stays s' ∧
      s'.misplaced = s.misplaced ++
        if s.loopDepth = 0 then [(token.kind, token.position)] else [] := by
  rw [refuseOutsideLoop, ensures_bind, ensures_look]
  split
  · rw [report, ensures_change]
    refine ⟨Still.report .., s.stays_report .., ?_⟩
    simp [Builder.misplaced, Builder.report, Diagnostic.misplaced?]
  · exact (ensures_pure _).mpr ⟨Composes.refl s, .refl s, (List.append_nil _).symm⟩

omit hr in
/-- A jump is reported exactly where no loop is open. -/
theorem loops_loopControl
    (hkind : s.current.kind = .kwBreak ∨ s.current.kind = .kwContinue) :
    loopControl.Ensures s (LoopsStatement s) := by
  have hadvance := s.aside_advance
  rw [loopControl, ensures_bind, advance, ensures_act, advance_fst, ensures_bind]
  refine (misplaced_refuseOutsideLoop s.current).imp fun _ s₁ h₁ => ?_
  obtain ⟨hsame, hstays, hmisplaced⟩ := h₁
  simp only [ensures_bind, expect, ensures_act, alloc, ensures_pure]
  have hexpect := s₁.aside_expect .semicolon
  generalize hjump : (if s.current.kind = .kwBreak then Jump.breaking else .continuing) = jump
  generalize (s₁.expect .semicolon).2 = s₂ at hexpect
  have hkeyword : (NodeKind.jump jump none).loopKeyword? = some s.current.kind := by
    rcases hkind with hkind | hkind <;> (rw [hkind] at hjump ⊢; subst hjump; rfl)
  have hnode := s₂.node?_alloc s.current.position (.jump jump none)
  have hnodes : (s₂.alloc s.current.position (.jump jump none)).2.nodes.toList =
      s₂.nodes.toList ++ [⟨s.current.position, .jump jump none⟩] := Arena.toList_alloc ..
  have hbefore : s.Stays s₂ := hadvance.stays.trans (hstays.trans hexpect.stays)
  refine ⟨hbefore.trans (Plain.alloc ..), ?_, fun around haround =>
    ⟨[⟨s.current.kind, s.current.position, around⟩], ?_, ?_, fun t ht => ?_⟩⟩
  · have hstatements : s₂.tree.statements s.scope = s.tree.statements s.scope := by
      rw [hexpect.statements, hsame.statements, hadvance.statements]
    rw [List.append_nil]
    exact hstatements
  · have hjumps : s₂.loopJumps = s.loopJumps := by
      rw [hexpect.loopJumps, Builder.loopJumps, hsame.nodes, ← Builder.loopJumps,
        hadvance.loopJumps]
    rw [Builder.loopJumps, hnodes, List.filterMap_append, ← Builder.loopJumps, hjumps]
    simp [Node.loopJump?, hkeyword, LoopJump.site]
  · have hreported : s₂.misplaced = s.misplaced ++
        if s.loopDepth = 0 then [(s.current.kind, s.current.position)] else [] := by
      rw [hexpect.misplaced, hmisplaced, hadvance.misplaced, hadvance.stays.loopDepth]
    refine Eq.trans hreported (congrArg _ ?_)
    by_cases hdepth : s.loopDepth = 0
    · simp [hdepth, LoopJump.isMisplaced, haround, LoopJump.site]
    · have hpos : 0 < s.loopDepth := Nat.pos_of_ne_zero hdepth
      simp [hdepth, LoopJump.isMisplaced, haround, hpos]
  · exact .jump (ht.nodes _ _ hnode) hkeyword (.nil around)

/-! ### Blocks -/

omit hr in
/-- What was found is added behind the statements of its scope. -/
theorem loops_addFound (hs : s.Sited) {found : Option NodeId} {s₁ : Builder}
    (h : LoopsStatement s found s₁) : (addFound found).Ensures s₁ fun _ s₂ =>
      s.Loops found.toList (fun t around js => t.LoopJumps around found.toList js) s₂ := by
  cases found with
  | none => exact (ensures_pure _).mpr h
  | some id =>
    refine (ensures_change _ _).mpr ?_
    have hs₁ := h.stays.sited hs
    have hadded := s₁.statements_addStatement id hs₁.inScope s.scope
    rw [if_pos h.stays.scope.symm, h.statements, List.append_nil] at hadded
    refine ⟨h.stays.trans (Plain.addStatement s₁ id), hadded, fun around haround => ?_⟩
    obtain ⟨js, hjs, hmisplaced, hP⟩ := h.holds around haround
    refine ⟨js, hjs, hmisplaced, fun t ht => hP t (.trans ?_ ht)⟩
    refine (Plain.addStatement s₁ id : s₁.Stays _).keepsFrom ?_
    rw [h.stays.scope]
    exact hs.inScope

omit hr in
/-- Statements come one after the other. -/
theorem loops_cons (hs : s.Sited) {found : Option NodeId} {s₁ s₂ : Builder}
    (h : s.Loops found.toList (fun t around js => t.LoopJumps around found.toList js) s₁)
    (h' : LoopsStatements s₁ s₂) : LoopsStatements s s₂ := by
  obtain ⟨ids, h'⟩ := h'
  refine ⟨found.toList ++ ids, (h.trans hs h').imp fun t around js hjs => ?_⟩
  obtain ⟨first, second, rfl, hfirst, hsecond⟩ := hjs
  exact hfirst.append hsecond

omit hr in
theorem loopsStatements_nil (s : Builder) : LoopsStatements s s :=
  ⟨[], (Loops.of_aside (Composes.refl s)).imp fun t around js hjs => by
    rw [hjs]
    exact .nil around⟩

theorem loops_statements (hs : s.Sited) :
    (statements reach).Ensures s fun _ s' => LoopsStatements s s' := by
  rw [statements, ensures_bind, currentKind, ensures_look, ensures_bind, ensures_look]
  split
  · rw [ensures_bind]
    refine (hr.statement s hs).imp fun found s₁ h₁ => ?_
    rw [ensures_bind]
    refine (loops_addFound hs h₁).imp fun _ s₂ h₂ => ?_
    exact (hr.statements s₂ (h₂.stays.sited hs)).imp fun _ s₃ h₃ => loops_cons hs h₂ h₃
  · exact (ensures_pure _).mpr (loopsStatements_nil s)

theorem loops_declarations (hs : s.Sited) :
    (declarations reach).Ensures s fun _ s' => LoopsStatements s s' := by
  rw [declarations, ensures_bind, ensures_look]
  split
  · rw [ensures_bind]
    refine (hr.declaration s hs).imp fun found s₁ h₁ => ?_
    rw [ensures_bind]
    refine (loops_addFound hs h₁).imp fun _ s₂ h₂ => ?_
    exact (hr.declarations s₂ (h₂.stays.sited hs)).imp fun _ s₃ h₃ => loops_cons hs h₂ h₃
  · exact (ensures_pure _).mpr (loopsStatements_nil s)

theorem loops_blockBody (hs : s.Sited) :
    (blockBody reach).Ensures s fun _ s' => LoopsStatements s s' := by
  rw [blockBody, ensures_bind, expect, ensures_act, ensures_bind]
  have hopen := s.aside_expect .openCurly
  refine (hr.statements _ (hopen.stays.sited hs)).imp fun _ s₁ h₁ => ?_
  obtain ⟨ids, h₁⟩ := h₁
  simp only [expect, ensures_bind, ensures_act, ensures_pure]
  exact ⟨ids, (h₁.after_aside hopen).then_aside hs (s₁.aside_expect .closeCurly)⟩

theorem loops_block (hs : s.Sited) : (block reach).Ensures s fun body s' =>
    s.Loops [] (fun t around js => t.LoopJumps around (t.statements body) js) s' := by
  rw [block, ensures_bind, currentPosition, ensures_look, ensures_bind, enterScope, ensures_act,
    ensures_bind]
  refine (loops_blockBody hr (hs.enterScope s.current.position)).imp fun _ s₁ h₁ => ?_
  obtain ⟨ids, h₁⟩ := h₁
  simp only [ensures_bind, exitScope, ensures_change, ensures_pure]
  refine (h₁.close hs).imp fun t around js h => ?_
  rw [h.1]
  exact h.2

/-! ### Functions -/

omit hr in
theorem asides_refuseNested : Asides refuseNested := by
  refine asides_look.bind fun _ => .ite (asides_look.bind fun token => ?_) (asides_pure _)
  exact (keeps_change fun s => aside_report (fun _ => rfl) _).asides

omit hr in
/-- A node with a scope has the jumps that are in it, and behind them those of the clause
that follows. -/
theorem loops_enclosing (hs : s.Sited) {kind : NodeKind} {body : Body} {scope : ScopeId}
    (h : s.Loops [] (fun t around js => ∃ inner next, js = inner ++ next ∧
      t.LoopJumps (body :: around) (t.statements scope) inner ∧
      t.LoopJumps around kind.next?.toList next) s')
    (hbody : kind.enclosure? = some (body, scope)) (position : Position) :
    (alloc position kind).Ensures s' fun id s' =>
      Ensures (pure (some id)) s' (LoopsStatement s) := by
  simp only [alloc, ensures_act, ensures_pure]
  have hkeyword := Tree.LoopJumps.loopKeyword?_of_enclosure hbody
  refine (h.alloc hs hkeyword position).imp fun t around js hjs => ?_
  obtain ⟨hnode, inner, next, rfl, hinner, hnext⟩ := hjs
  have hblock : t.LoopJumps around [(s'.alloc position kind).1] (inner ++ next ++ []) :=
    .block hnode hbody hinner hnext (.nil around)
  rwa [List.append_nil] at hblock

theorem loops_function (hs : s.Sited) : (function reach).Ensures s (LoopsStatement s) := by
  rw [function, ensures_bind, currentPosition, ensures_look, ensures_bind]
  refine (asides_refuseNested s hs).imp fun _ s₁ h₁ => ?_
  have hs₁ := h₁.stays.sited hs
  rw [ensures_bind]
  refine (aside_signature hr hs₁).imp fun found s₂ h₂ => ?_
  cases found with
  | none => exact (ensures_pure _).mpr (.none (Composes.trans h₁ h₂))
  | some found =>
    obtain ⟨s₀, position, hbefore, hscope, hparameters⟩ := h₂
    have hs₀ := hbefore.stays.sited hs₁
    have hs₂ := hparameters.stays.sited (hs₀.enterScope position)
    rw [ensures_bind, ensures_look, ensures_bind, ensures_change, ensures_bind]
    refine (loops_blockBody hr (s := s₂.setLoopDepth 0) ⟨hs₂.terminated, hs₂.inScope⟩).imp
      fun _ s₃ h₃ => ?_
    obtain ⟨ids, h₃⟩ := h₃
    simp only [exitScope, ensures_bind, ensures_change]
    have hclosed := ((Loops.within .function h₃).after_aside hparameters).close hs₀
    refine loops_enclosing hs (((hclosed.after_aside hbefore).after_aside h₁).imp ?_) (by rfl) _
    rintro t around js ⟨hstatements, hjs⟩
    rw [← hscope] at hstatements
    exact ⟨js, [], (List.append_nil _).symm, hstatements ▸ hjs, .nil around⟩

theorem loops_foreignImport (hs : s.Sited) :
    (foreignImport reach).Ensures s (LoopsStatement s) := by
  rw [foreignImport]
  simp only [ensures_bind]
  refine (asides_advance s hs).imp fun mark s₁ h₁ => ?_
  have hhead : Asides (do
      let _ ← expect .kwForeign
      let _ ← expect .kwFrom
      let _ ← expect .openParen
      expect .identifier) :=
    asides_expect.bind fun _ => asides_expect.bind fun _ => asides_expect.bind fun _ =>
      asides_expect
  have hs₁ := h₁.stays.sited hs
  have hread := hhead s₁ hs₁
  simp only [ensures_bind] at hread
  refine hread.imp fun _ _ h => h.imp fun _ _ h => h.imp fun _ _ h => h.imp fun token s₂ h₂ => ?_
  have hs₂ := h₂.stays.sited hs₁
  have hmodule : Asides (do addModule ((token.map Token.identifierName).getD ""); expect .comma) :=
    Asides.bind (keeps_change fun s => s.aside_addModule _).asides fun _ => asides_expect
  have hnoted := hmodule s₂ hs₂
  simp only [ensures_bind] at hnoted
  refine hnoted.imp fun _ _ h => h.imp fun _ s₃ h₃ => ?_
  have hs₃ := h₃.stays.sited hs₂
  refine (loops_closedSignature hr hs₃).imp fun found s₄ h₄ => ?_
  have hs₄ := h₄.stays.sited hs₃
  refine (asides_expect s₄ hs₄).imp fun _ s₅ h₅ => ?_
  refine (asides_expect s₅ (h₅.stays.sited hs₄)).imp fun _ s₆ h₆ => ?_
  have hbefore := Composes.trans (Composes.trans h₁ h₂) h₃
  have hall := (h₄.then_aside hs₃ (Composes.trans h₅ h₆)).after_aside hbefore
  cases found with
  | none =>
    refine (ensures_pure _).mpr (hall.imp fun t around js h => ?_)
    rw [h.1]
    exact .nil around
  | some found =>
    rw [ensures_bind]
    refine loops_enclosing hs (hall.imp fun t around js h => ?_) (by rfl) _
    refine ⟨[], [], h.1, ?_, .nil around⟩
    rw [h.2 found rfl]
    exact .nil _

/-! ### Conditionals and loops -/

omit hr in
/-- A branch is in the same loops as what is around it. -/
theorem Loops.branch {body : ScopeId}
    (h : s.Loops [] (fun t around js => t.LoopJumps around (t.statements body) js) s') :
    s.Loops [] (fun t around js => t.LoopJumps (.branch :: around) (t.statements body) js) s' := by
  have hwithin := Loops.within (s := s) .branch h
  rwa [← h.stays.loopDepth] at hwithin

include hg hk in
/-- A clause with a condition has the jumps of its block, and then those of the clauses that
follow. -/
theorem loops_conditional (hs : s.Sited) {flow : Flow} (hflow : flow ≠ .whileLoop)
    (position : Position) :
    Ensures (do
      let condition ← reach (.expression .lowest)
      let body ← reach .block
      let next ← reach .elseClause
      return some (← alloc position (.flow flow condition body next))) s (LoopsStatement s) := by
  simp only [ensures_bind]
  refine (asides_expression hg hk .lowest s hs).imp fun condition s₁ h₁ => ?_
  have hs₁ := h₁.stays.sited hs
  refine (hr.block s₁ hs₁).imp fun body s₂ h₂ => ?_
  have hs₂ := h₂.stays.sited hs₁
  refine (hr.elseClause s₂ hs₂).imp fun next s₃ h₃ => ?_
  have hboth : s.Loops [] _ s₃ := ((Loops.branch h₂).trans hs₁ h₃).after_aside h₁
  have hbody : (NodeKind.flow flow condition body next).enclosure? = some (.branch, body) := by
    cases flow <;> first | rfl | exact absurd rfl hflow
  exact loops_enclosing hs hboth hbody position

include hg hk in
theorem loops_ifStatement (hs : s.Sited) : (ifStatement reach).Ensures s (LoopsStatement s) := by
  rw [ifStatement, ensures_bind]
  refine (asides_advance s hs).imp fun token s₁ h₁ => ?_
  refine (loops_conditional hr hg hk (h₁.stays.sited hs) (by decide) token.position).imp ?_
  exact fun found s₂ h₂ => h₂.after_aside h₁

include hg hk in
theorem loops_elseClause (hs : s.Sited) : (elseClause reach).Ensures s (LoopsStatement s) := by
  rw [elseClause, ensures_bind, currentKind, ensures_look]
  split
  · rw [ensures_bind]
    refine (asides_advance s hs).imp fun token s₁ h₁ => ?_
    refine (loops_conditional hr hg hk (h₁.stays.sited hs) (by decide) token.position).imp ?_
    exact fun found s₂ h₂ => h₂.after_aside h₁
  · rw [ensures_bind]
    refine (asides_advance s hs).imp fun token s₁ h₁ => ?_
    have hs₁ := h₁.stays.sited hs
    rw [ensures_bind]
    refine (hr.block s₁ hs₁).imp fun body s₂ h₂ => ?_
    rw [ensures_bind]
    refine loops_enclosing hs (((Loops.branch h₂).after_aside h₁).imp ?_) (by rfl) token.position
    exact fun t around js hjs => ⟨js, [], (List.append_nil _).symm, hjs, .nil around⟩
  · exact (ensures_pure _).mpr (.none (Composes.refl s))

include hg hk in
/-- Behind a loop as many loops are open as before. -/
theorem loops_whileStatement (hs : s.Sited) :
    (whileStatement reach).Ensures s (LoopsStatement s) := by
  rw [whileStatement, ensures_bind]
  refine (asides_advance s hs).imp fun token s₁ h₁ => ?_
  have hs₁ := h₁.stays.sited hs
  rw [ensures_bind]
  refine (asides_expression hg hk .lowest s₁ hs₁).imp fun condition s₂ h₂ => ?_
  have hs₂ := h₂.stays.sited hs₁
  rw [ensures_bind, ensures_change, ensures_bind]
  refine (hr.block (s₂.setLoopDepth (s₂.loopDepth + 1)) ⟨hs₂.terminated, hs₂.inScope⟩).imp
    fun body s₃ h₃ => ?_
  have hdepth : s₃.loopDepth - 1 = s₂.loopDepth := by
    rw [h₃.stays.loopDepth]
    rfl
  rw [ensures_bind, ensures_change, hdepth, ensures_bind]
  have hloop := Loops.within (s := s₂) .loop h₃
  refine loops_enclosing hs (((hloop.after_aside h₂).after_aside h₁).imp ?_) (by rfl) token.position
  exact fun t around js hjs => ⟨js, [], (List.append_nil _).symm, hjs, .nil around⟩

end

/-- **Jumps are read with the loops around them**, however many references are followed. -/
theorem loopsParts_reach (fuel : Nat) : LoopsParts (Goal.reach .standard fuel) := by
  induction fuel with
  | zero => constructor <;> intros <;> first | (intro _ _ _ _ h; cases h) | (intro _ _ h; cases h)
  | succ fuel ih =>
    have hg := givesUp_reach fuel
    have hk : ∀ {α : Type} (goal : Goal α), Keeps Stays (Goal.reach .standard fuel goal) :=
      fun goal => Goal.reach_stays fuel goal
    have he := resolvesExpressions_reach fuel
    exact {
      type := asides_type
      values := asides_values ih hg hk
      parameters := asides_parameters ih
      declaration := fun _ hs => loops_declaration ih hs
      statement := fun _ hs => loops_statement ih hs
      identifierStatement := fun _ hs => loops_identifierStatement ih hg hk he hs
      variableStatement := fun _ hs => loops_variableStatement ih hs
      function := fun _ hs => loops_function ih hs
      foreignImport := fun _ hs => loops_foreignImport ih hs
      returnStatement := fun _ hs => loops_returnStatement hg hk hs
      loopControl := fun _ _ hkind => loops_loopControl hkind
      ifStatement := fun _ hs => loops_ifStatement ih hg hk hs
      whileStatement := fun _ hs => loops_whileStatement ih hg hk hs
      elseClause := fun _ hs => loops_elseClause ih hg hk hs
      block := fun _ hs => loops_block ih hs
      statements := fun _ hs => loops_statements ih hs
      declarations := fun _ hs => loops_declarations ih hs }

end Parse

/-! ## The tree of all tokens -/

namespace Tree

open Builder

/-- **Loop control is checked exactly.**  The `break` and `continue` statements of the tree
of any tokens stand, in the order of the source, in the statements of its root and the blocks
in them; and whatever else is wrong with the tokens, those of them that are reported, in the
same order and each with its keyword and its place, are the ones that have no loop around
them up to the body of the innermost function. -/
theorem ofTokens_loopJumps (tokens : List Token) :
    ∃ js, (ofTokens tokens).1.LoopJumps [] (ofTokens tokens).1.rootStatements js ∧
      (ofTokens tokens).1.nodes.toList.filterMap Node.loopJump? = js.map LoopJump.site ∧
      (ofTokens tokens).2.filterMap Diagnostic.misplaced? =
        (js.filter LoopJump.isMisplaced).map LoopJump.site := by
  obtain ⟨fuel, hread⟩ := build_spec tokens
  have hs : (Builder.ofTokens tokens).Sited := ⟨terminated_ofTokens tokens, inScope_ofTokens tokens⟩
  obtain ⟨ids, h⟩ := (Parse.loopsParts_reach fuel).declarations _ hs _ _ hread
  obtain ⟨js, hjs, hmisplaced, hP⟩ := h.holds [] rfl
  have hroot : (ofTokens tokens).1.rootStatements = ids := h.statements
  refine ⟨js, ?_, hjs, hmisplaced⟩
  rw [hroot]
  exact hP (ofTokens tokens).1 ⟨fun _ _ hnode => hnode, fun _ _ _ => rfl⟩

/-- In `f:(){while 1{g:(){break;}continue;}break;}` the loop is around the second jump only:
the function in it starts outside of loops, and behind it the loop goes on. -/
example :
    let kinds : List TokenKind := [.identifier, .colon, .openParen, .closeParen, .openCurly,
      .kwWhile, .intConst, .openCurly, .identifier, .colon, .openParen, .closeParen, .openCurly,
      .kwBreak, .semicolon, .closeCurly, .kwContinue, .semicolon, .closeCurly, .kwBreak,
      .semicolon, .closeCurly]
    (ofTokens (kinds.mapIdx fun i kind => ⟨kind, .none, ⟨1, i⟩⟩)).2.filterMap
      Diagnostic.misplaced? = [(.kwBreak, ⟨1, 13⟩), (.kwBreak, ⟨1, 19⟩)] := by
  decide +kernel

end Tree

end Braced
