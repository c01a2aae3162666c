import Braced.Proofs.Parse.Expression

/-!
# Braced.Proofs.Parse.Statement

Reading statements and declarations gives nodes that are written as the tokens
that were passed, and every function inside of a block is noted.

The statements of a block stand in a scope that is opened for it, behind all
scopes that were there before.  So what has been read of a block stays as it is
while reading goes on in the scopes around it (`Builder.Reads.keepsBlock`).
-/

namespace Braced

namespace Builder

/-! ## What statements find -/

/-- What was read is a type. -/
abbrev FindsType (s : Builder) : Option NodeId → Builder → Prop :=
  s.Finds fun t id => t.WritesType id

/-- What was read is a statement or a declaration, whose blocks have scopes of
their own. -/
def FindsStmt (s : Builder) (part : NodeId → Tree.StmtPart) (found : Option NodeId)
    (s' : Builder) : Prop :=
  match found with
  | none => s'.Faulty ∧ s.Reads s' [] [] []
  | some id => ∃ ps ns, s.Reads s' ps ns [] ∧
    s'.tree.WritesBlock s'.Faulty s.scopes.size (part id) ps ns

/-- What was read is a function. It is noted unless it is at the top level. -/
def FindsFunction (s : Builder) (id : NodeId) (s' : Builder) : Prop :=
  ∃ ps ns, s.Reads s' ps (if s.scope = .root then ns else s.current.position :: ns) [] ∧
    s'.tree.WritesBlock s'.Faulty s.scopes.size (.function id) ps ns ∧
    s'.At id s.current.position

/-- What was read begins with a name: it is a function, or ends with a
semicolon. -/
def FindsNamed (s : Builder) (found : Option NodeId) (s' : Builder) : Prop :=
  match found with
  | none => s'.Faulty ∧ s.Reads s' [] [] []
  | some id => (∃ ps, s.Reads s' ps [] [] ∧ s'.tree.WritesLine id ps) ∨ s.FindsFunction id s'

/-- What was read is a block in the scope. -/
def FindsBlock (s : Builder) (body : ScopeId) (s' : Builder) : Prop :=
  ∃ ps ns ids, s.Reads s' (Tree.blockPieces ps) ns [] ∧ s.scopes.size ≤ body.index ∧
    s'.tree.HasStatements body ids ∧
    s'.tree.WritesBlock s'.Faulty s.scopes.size (.statements ids) ps ns

/-- What was read is a list of parts that have been appended to the scope that is
open. -/
def FindsList (s : Builder) (part : List NodeId → Tree.StmtPart) (s' : Builder) : Prop :=
  ∃ ps ns ids, s.Reads s' ps ns ids ∧
    s'.tree.WritesBlock s'.Faulty s.scopes.size (part ids) ps ns

/-- What was read is a signature, whose parameters stand in a scope that is left
open. -/
def FindsSignature (s : Builder) (found : Tree.Statement.Signature) (s' : Builder) : Prop :=
  ∃ s₁ position head tail, s.Reads s₁ head [] [] ∧ head ≠ [] ∧
    (s₁.enterScope position).2.Reads s' tail [] [] ∧ found.scope = (s₁.enterScope position).1 ∧
    s'.tree.WritesSignature found.name found.parameters found.result (head ++ tail)

/-! ## What is found stays -/

/-- **Blocks stay as they are** while reading goes on in scopes before theirs. -/
theorem Reads.keepsBlock {s s' : Builder} {ps : List Piece} {ns : List Position}
    {ids : List NodeId} (h : s.Reads s' ps ns ids) {first first' : Nat}
    (hfirst : s.scope.index < first) (hle : first' ≤ first) {part : Tree.StmtPart}
    {qs : List Piece} {ms : List Position} (hw : s.tree.WritesBlock s.Faulty first part qs ms) :
    s'.tree.WritesBlock s'.Faulty first' part qs ms :=
  hw.mono h.extends_.keepsNodes (h.keepsStatements hfirst) h.extends_.faulty hle

theorem Reads.size_le {s s' : Builder} {ps : List Piece} {ns : List Position}
    {ids : List NodeId} (h : s.Reads s' ps ns ids) : s.scopes.size ≤ s'.scopes.size :=
  h.extends_.scopes.size_le

/-- A new node changes no blocks. -/
theorem Allocs.keepsBlock {s s' : Builder} {position : Position} {kind : NodeKind} {id : NodeId}
    (h : s.Allocs position kind id s') {first : Nat} {part : Tree.StmtPart} {ps : List Piece}
    {ns : List Position} (hw : s.tree.WritesBlock s.Faulty first part ps ns) :
    s'.tree.WritesBlock s'.Faulty first part ps ns :=
  hw.mono h.extends_.keepsNodes (h.statements first) h.extends_.faulty (Nat.le_refl _)

/-- The scope of a block is not the root. -/
theorem enterScope_ne_root {s : Builder} (hs : s.InScope) (position : Position) :
    (s.enterScope position).2.scope ≠ .root := by
  intro h
  have hindex : s.scopes.size = 0 := congrArg ScopeId.index h
  rw [InScope] at hs
  omega

end Builder

namespace Parse

open Builder Tree.Statement

/-- What the parts of statements are known to find. -/
structure FindsStatements (reach : Reach) : Prop where
  type : ∀ s, (reach (.production .type)).Ensures s s.FindsType
  declaration : ∀ s : Builder, s.InScope → s.scope = .root →
    (reach (.production .declaration)).Ensures s (s.FindsStmt .item)
  statement : ∀ s : Builder, s.InScope → s.scope ≠ .root →
    (reach (.production .statement)).Ensures s (s.FindsStmt .statement)
  identifierStatement : ∀ s : Builder, s.InScope → s.current.kind = .identifier →
    (reach (.production .identifierStatement)).Ensures s s.FindsNamed
  variableStatement : ∀ s : Builder,
    (reach (.production .variableStatement)).Ensures s fun found s' =>
      match found with
      | none => s'.Faulty ∧ s.Reads s' [] [] []
      | some id => ∃ ps, s.Reads s' ps [] [] ∧
        s'.tree.WritesLine id (ps ++ [.bare .semicolon])
  function : ∀ s : Builder, s.InScope → s.current.kind = .identifier →
    (reach (.production .function)).Ensures s fun found s' =>
      ∃ id, found = some id ∧ s.FindsFunction id s'
  foreignImport : ∀ s : Builder, s.current.kind = .pound →
    (reach (.production .foreignImport)).Ensures s (s.FindsStmt .item)
  returnStatement : ∀ s : Builder, s.current.kind = .kwReturn →
    (reach (.production .returnStatement)).Ensures s (s.FindsStmt .statement)
  loopControl : ∀ s : Builder, s.current.kind = .kwBreak ∨ s.current.kind = .kwContinue →
    (reach (.production .loopControl)).Ensures s (s.FindsStmt .statement)
  ifStatement : ∀ s : Builder, s.InScope → s.current.kind = .kwIf →
    (reach (.production .ifStatement)).Ensures s (s.FindsStmt .statement)
  whileStatement : ∀ s : Builder, s.InScope → s.current.kind = .kwWhile →
    (reach (.production .whileStatement)).Ensures s (s.FindsStmt .statement)
  values : ∀ s : Builder, (reach .values).Ensures s fun ids s' =>
    ∃ ps, s.Reads s' ps [] [] ∧ s'.tree.Writes (.values ids) ps
  parameters : ∀ s : Builder, (reach .parameters).Ensures s fun found s' =>
    ∃ ps, s.Reads s' ps [] [] ∧ s'.tree.WritesParameters found ps ∧ (found = [] → s'.Faulty)
  elseClause : ∀ s : Builder, s.InScope → (reach .elseClause).Ensures s fun found s' =>
    ∃ ps ns, s.Reads s' ps ns [] ∧
      s'.tree.WritesBlock s'.Faulty s.scopes.size (.clauses found) ps ns
  block : ∀ s : Builder, s.InScope → (reach .block).Ensures s s.FindsBlock
  statements : ∀ s : Builder, s.InScope → s.scope ≠ .root →
    (reach .statements).Ensures s fun _ s' => s.FindsList .statements s'
  declarations : ∀ s : Builder, s.InScope → s.scope = .root →
    (reach .declarations).Ensures s fun _ s' => s.FindsList .items s'

theorem production_of_declaration {kind : TokenKind} {production : Production}
    (h : RuleBook.standard.declaration? kind = some production) :
    production = .identifierStatement ∧ kind = .identifier ∨
      production = .foreignImport ∧ kind = .pound := by
  cases kind <;> cases h <;> simp

theorem production_of_statement {kind : TokenKind} {production : Production}
    (h : RuleBook.standard.statement? kind = some production) :
    production = .identifierStatement ∧ kind = .identifier ∨
      production = .returnStatement ∧ kind = .kwReturn ∨
      production = .loopControl ∧ (kind = .kwBreak ∨ kind = .kwContinue) ∨
      production = .ifStatement ∧ kind = .kwIf ∨
      production = .whileStatement ∧ kind = .kwWhile := by
  cases kind <;> cases h <;> simp

variable {reach : Reach} (s : Builder)

theorem ensures_expect {s : Builder} {kind : TokenKind} (hcarries : kind.carries = false)
    (hend : kind ≠ .eof) {Q : Option Token → Builder → Prop}
    (h : ∀ found s', s.Reads s' [.bare kind] [] [] → Q found s') : (expect kind).Ensures s Q :=
  (ensures_act _).mpr (h _ _ (reads_expect hcarries hend))

/-! ## Types -/

/-- The keyword of a type, behind a `const` that has been passed or not. -/
theorem finds_typeName (s₁ : Builder) (isConst : Bool)
    (h₁ : s.Reads s₁ (if isConst then [.bare .kwConst] else []) [] []) :
    (typeName s.current.position isConst).Ensures s₁ s.FindsType := by
  rw [typeName, ensures_bind, currentKind, ensures_look]
  split
  · simp only [ensures_bind, currentPosition, ensures_look, report, ensures_change, advance,
      ensures_act, ensures_pure]
    have hfaulty := s₁.faulty_report (.expectedType s₁.current.kind) rfl
      s₁.current.position
    have hadvance := reads_advance_faulty hfaulty []
    exact (h₁.trans ((reads_report (by simp) _).trans hadvance)).finds_none
      (hadvance.extends_.faulty hfaulty) _
  · next atom hatom =>
    have hkind := (TypeAtom.ofToken?_eq_some_iff _ _).mp hatom
    have hadvance : s₁.Reads s₁.advance.2 [.bare atom.token] [] [] :=
      reads_advance_bare hkind (by cases atom <;> rfl) (by cases atom <;> decide)
    simp only [ensures_bind, advance, alloc, ensures_act, ensures_pure]
    refine ⟨_, (h₁.trans hadvance).mark (by simp) rfl _, ?_, at_alloc _ _ _⟩
    have hwrites := Tree.WritesType.type (node?_alloc s₁.advance.2 s.current.position
      (.type atom isConst))
    cases isConst <;> exact hwrites

theorem finds_type : type.Ensures s s.FindsType := by
  rw [type, ensures_bind, currentPosition, ensures_look, ensures_bind, accept, ensures_act]
  rcases s.accept_cases .kwConst with ⟨haccept, hkind⟩ | ⟨haccept, -⟩
  · rw [haccept]
    exact finds_typeName s _ true (reads_advance_bare hkind rfl (by decide))
  · rw [haccept]
    exact finds_typeName s s false (.refl s)

/-! ## Choosing by the first token -/

/-- A token that nothing begins with is a fault. -/
theorem reads_refusal (s : Builder) {fault : Fault} (hclass : fault.faultClass = .syntactic)
    (position : Position) :
    let s' := (s.report fault position).advance.2
    s'.Faulty ∧ s.Reads s' [] [] [] := by
  have hfaulty := s.faulty_report fault hclass position
  have hadvance := reads_advance_faulty hfaulty []
  have hreport : s.Reads (s.report fault position) [] [] [] := by
    refine reads_report ?_ position
    rintro name rfl
    cases hclass
  exact ⟨hadvance.extends_.faulty hfaulty, hreport.trans hadvance⟩

variable (hr : FindsStatements reach)

include hr

theorem finds_declaration (hs : s.InScope) (hroot : s.scope = .root) :
    (declaration .standard reach).Ensures s (s.FindsStmt .item) := by
  rw [declaration, ensures_bind, currentKind, ensures_look]
  split
  · next production hproduction =>
    rcases production_of_declaration hproduction with ⟨rfl, hkind⟩ | ⟨rfl, hkind⟩
    · refine (hr.identifierStatement s hs hkind).imp fun found s' h => ?_
      cases found with
      | none => exact h
      | some id =>
        rcases h with ⟨ps, hreads, hline⟩ | ⟨ps, ns, hreads, hfunction, -⟩
        · exact ⟨ps, [], hreads, .itemLine hline⟩
        · rw [if_pos hroot] at hreads
          exact ⟨ps, ns, hreads, .itemFunction hfunction⟩
    · exact hr.foreignImport s hkind
  · simp only [ensures_bind, currentPosition, ensures_look, report, ensures_change, advance,
      ensures_act, ensures_pure]
    exact reads_refusal s rfl _

theorem finds_statement (hs : s.InScope) (hroot : s.scope ≠ .root) :
    (statement .standard reach).Ensures s (s.FindsStmt .statement) := by
  rw [statement, ensures_bind, currentKind, ensures_look]
  split
  · next production hproduction =>
    rcases production_of_statement hproduction with ⟨rfl, hkind⟩ | ⟨rfl, hkind⟩ | ⟨rfl, hkind⟩ |
      ⟨rfl, hkind⟩ | ⟨rfl, hkind⟩
    · refine (hr.identifierStatement s hs hkind).imp fun found s' h => ?_
      cases found with
      | none => exact h
      | some id =>
        rcases h with ⟨ps, hreads, hline⟩ | ⟨ps, ns, hreads, hfunction, kind, hnode⟩
        · exact ⟨ps, [], hreads, .line hline⟩
        · rw [if_neg hroot] at hreads
          exact ⟨ps, _, hreads, .inner hnode hfunction⟩
    · exact hr.returnStatement s hkind
    · exact hr.loopControl s hkind
    · exact hr.ifStatement s hs hkind
    · exact hr.whileStatement s hs hkind
  · simp only [ensures_bind, currentPosition, ensures_look, report, ensures_change, advance,
      ensures_act, ensures_pure]
    exact reads_refusal s rfl _

/-! ## Variables -/

variable (he : FindsExpressions reach)

include he

theorem finds_values : (values reach).Ensures s fun ids s' =>
    ∃ ps, s.Reads s' ps [] [] ∧ s'.tree.Writes (.values ids) ps := by
  rw [values, ensures_bind, accept, ensures_act]
  rcases s.accept_cases .assignment with ⟨haccept, hkind⟩ | ⟨haccept, -⟩
  · have h₁ : s.Reads s.advance.2 [.bare .assignment] [] [] :=
      reads_advance_bare hkind rfl (by decide)
    rw [haccept, if_pos rfl, ensures_bind]
    refine (he.expression .lowest _).imp fun first s₂ h₂ => ?_
    rw [ensures_bind]
    refine (hr.values s₂).imp fun others s₃ h₃ => (ensures_pure _).mpr ?_
    obtain ⟨qs, hothers, hwrites'⟩ := h₃
    cases first with
    | none =>
      have hfaulty := hothers.extends_.faulty h₂.1
      exact ⟨qs, (h₁.trans (h₂.2.trans hothers)).any hfaulty qs, hwrites'⟩
    | some id =>
      obtain ⟨ps, hreads, hwrites, -⟩ := h₂
      exact ⟨.bare .assignment :: (ps ++ qs), h₁.trans (hreads.trans hothers),
        .value (hwrites.mono hothers.extends_.keepsNodes) hwrites'⟩
  · rw [haccept, if_neg Bool.false_ne_true]
    exact (ensures_pure _).mpr ⟨[], .refl s, .noValues⟩

omit he

omit hr in
/-- A type that may be missing where something is wrong. -/
theorem Finds.writesTypeAfter {s s₁ s' : Builder} {kind : TokenKind} {found : Option NodeId}
    (h : s.Reads s₁ [.bare kind] [] []) (h₁ : s₁.FindsType found s') :
    ∃ ps, s.Reads s' ps [] [] ∧ s'.tree.WritesTypeAfter kind found ps := by
  cases found with
  | none => exact ⟨[], (h.trans h₁.2).any h₁.1 [], .absent⟩
  | some id =>
    obtain ⟨ps, hreads, hwrites, -⟩ := h₁
    exact ⟨_, h.trans hreads, .present hwrites⟩

theorem finds_declaredType (token : Token) : (declaredType reach token).Ensures s fun found s' =>
    ∃ ps, s.Reads s' ps [] [] ∧ s'.tree.WritesTypeAfter .colon found ps := by
  rw [declaredType, ensures_bind, accept, ensures_act]
  rcases s.accept_cases .colon with ⟨haccept, hkind⟩ | ⟨haccept, -⟩
  · have h₁ : s.Reads s.advance.2 [.bare .colon] [] [] :=
      reads_advance_bare hkind rfl (by decide)
    rw [haccept, if_pos rfl, ensures_bind]
    refine (hr.type _).imp fun found s₂ h₂ => ?_
    simp only [ensures_bind, declare, ensures_change, ensures_pure]
    obtain ⟨ps, hreads, hwrites⟩ := Finds.writesTypeAfter h₁ h₂
    have hdeclare := s₂.reads_declare token.identifierName .declaration token.position
    exact ⟨ps, hreads.then_quiet hdeclare, hwrites.mono hdeclare.extends_.keepsNodes⟩
  · rw [haccept, if_neg Bool.false_ne_true]
    simp only [ensures_bind, resolveIdentifier, ensures_change, ensures_pure]
    exact ⟨[], reads_resolveIdentifier _ _, .absent⟩

theorem finds_variableStatement : (variableStatement reach).Ensures s fun found s' =>
    match found with
    | none => s'.Faulty ∧ s.Reads s' [] [] []
    | some id => ∃ ps, s.Reads s' ps [] [] ∧ s'.tree.WritesLine id (ps ++ [.bare .semicolon]) := by
  rw [variableStatement, ensures_bind, expect, ensures_act]
  cases hfound : (s.expect .identifier).1 with
  | none =>
    exact (ensures_pure _).mpr ⟨faulty_expect hfound, reads_expect_name.any (faulty_expect hfound) []⟩
  | some token =>
    obtain ⟨-, rfl⟩ := hasTokens_of_expect (by decide) hfound
    rw [ensures_bind]
    refine (finds_declaredType _ hr s.current).imp fun type s₂ h₂ => ?_
    obtain ⟨ps, htype, hwrites⟩ := h₂
    rw [ensures_bind]
    refine ensures_alloc fun name s₃ hname => ?_
    have h₃ := hname.mark (reads_expect_name.trans htype) (by simp) rfl
    rw [ensures_bind]
    refine (hr.values s₃).imp fun values s₄ h₄ => ?_
    obtain ⟨qs, hvalues, hwrites'⟩ := h₄
    rw [ensures_bind]
    refine ensures_alloc fun id s₅ hid => (ensures_pure _).mpr ?_
    refine ⟨_, hid.mark (h₃.trans hvalues) (by simp) rfl, ?_⟩
    have hlater := hvalues.extends_.trans hid.extends_
    have hline := Tree.WritesLine.declared hid.node (hlater.keepsNodes _ _ hname.node)
      (hwrites.mono (hname.extends_.trans hlater).keepsNodes) (hwrites'.mono hid.extends_.keepsNodes)
    simpa [Piece.name] using hline

omit hr in
/-- A semicolon behind a statement that begins with a name. -/
theorem finds_semicolon {found : Option NodeId} {s₁ : Builder}
    (h : match found with
      | none => s₁.Faulty ∧ s.Reads s₁ [] [] []
      | some id => ∃ ps, s.Reads s₁ ps [] [] ∧ s₁.tree.WritesLine id (ps ++ [.bare .semicolon])) :
    Ensures (do let _ ← expect .semicolon; return found) s₁ s.FindsNamed := by
  have hsemicolon : s₁.Reads (s₁.expect .semicolon).2 [.bare .semicolon] [] [] :=
    reads_expect rfl (by decide)
  simp only [ensures_bind, expect, ensures_act, ensures_pure]
  cases found with
  | none =>
    have hfaulty := hsemicolon.extends_.faulty h.1
    exact ⟨hfaulty, (h.2.trans hsemicolon).any hfaulty []⟩
  | some id =>
    obtain ⟨ps, hreads, hline⟩ := h
    exact .inl ⟨_, hreads.trans hsemicolon, hline.mono hsemicolon.extends_.keepsNodes⟩

include he in
theorem finds_identifierStatement (hs : s.InScope) (hkind : s.current.kind = .identifier) :
    (identifierStatement reach).Ensures s s.FindsNamed := by
  rw [identifierStatement, ensures_bind, ensures_look, ensures_bind, ensures_look]
  split
  · rw [ensures_bind]
    refine (he.call true s).imp fun found s₁ h₁ => finds_semicolon s ?_
    cases found with
    | none => exact h₁
    | some id =>
      obtain ⟨ps, hreads, hwrites, -⟩ := h₁
      exact ⟨ps, hreads, .call hwrites⟩
  · split
    · refine (hr.function s hs hkind).imp fun found s₁ h₁ => ?_
      obtain ⟨id, rfl, hfunction⟩ := h₁
      exact .inr hfunction
    · rw [ensures_bind]
      exact (hr.variableStatement s).imp fun found s₁ h₁ => finds_semicolon s h₁

/-! ## Signatures -/

theorem finds_parameter : (parameter reach).Ensures s fun found s' =>
    match found with
    | none => s'.Faulty ∧ s.Reads s' [] [] []
    | some p => ∃ ps, s.Reads s' ps [] [] ∧ s'.tree.WritesParameters [p] ps := by
  have hcolon : (s.expect .identifier).2.Reads ((s.expect .identifier).2.expect .colon).2
      [.bare .colon] [] [] := reads_expect rfl (by decide)
  have hhead := reads_expect_name.trans hcolon
  rw [parameter, ensures_bind, expect, ensures_act, ensures_bind, expect, ensures_act, ensures_bind]
  refine (hr.type _).imp fun atom s₃ h₃ => ?_
  cases hfound : (s.expect .identifier).1 with
  | none =>
    obtain ⟨ps, htype⟩ := h₃.reads
    have hfaulty := (hcolon.trans htype).extends_.faulty (faulty_expect hfound)
    exact (ensures_pure _).mpr ⟨hfaulty, (hhead.trans htype).any hfaulty []⟩
  | some token =>
    obtain ⟨-, rfl⟩ := hasTokens_of_expect (by decide) hfound
    cases atom with
    | none => exact (ensures_pure _).mpr ⟨h₃.1, (hhead.trans h₃.2).any h₃.1 []⟩
    | some type =>
      obtain ⟨ps, htype, hwrites, -⟩ := h₃
      simp only [ensures_bind, declare, ensures_change]
      have hdeclare := s₃.reads_declare s.current.identifierName .declaration s.current.position
      refine ensures_alloc fun name s₅ hname => (ensures_pure _).mpr ?_
      refine ⟨_, hname.mark (hhead.trans (htype.then_quiet hdeclare)) (by simp) rfl, ?_⟩
      exact .last hname.node (hwrites.mono
        (hdeclare.extends_.trans hname.extends_).keepsNodes)

theorem finds_parameters : (parameters reach).Ensures s fun found s' =>
    ∃ ps, s.Reads s' ps [] [] ∧ s'.tree.WritesParameters found ps ∧ (found = [] → s'.Faulty) := by
  rw [parameters, ensures_bind]
  refine (finds_parameter s hr).imp fun first s₁ h₁ => ?_
  rw [ensures_bind, accept, ensures_act]
  rcases s₁.accept_cases .comma with ⟨haccept, hkind⟩ | ⟨haccept, -⟩
  · have hcomma : s₁.Reads s₁.advance.2 [.bare .comma] [] [] :=
      reads_advance_bare hkind rfl (by decide)
    rw [haccept, if_pos rfl, ensures_bind]
    refine (hr.parameters _).imp fun others s₂ h₂ => (ensures_pure _).mpr ?_
    obtain ⟨qs, hothers, hwrites', hempty⟩ := h₂
    have hlater := hcomma.trans hothers
    cases first with
    | none =>
      have hfaulty := hlater.extends_.faulty h₁.1
      exact ⟨qs, (h₁.2.trans hlater).any hfaulty qs, hwrites', fun _ => hfaulty⟩
    | some p =>
      obtain ⟨ps, hreads, hwrites⟩ := h₁
      have hwrites₂ := hwrites.mono hlater.extends_.keepsNodes
      cases others with
      | nil => exact ⟨ps, (hreads.trans hlater).any (hempty rfl) ps, hwrites₂, by simp⟩
      | cons next others =>
        cases hwrites₂ with
        | last hname htype =>
          exact ⟨_, hreads.trans hlater, .cons hname htype hwrites', by simp⟩
  · rw [haccept, if_neg Bool.false_ne_true]
    refine (ensures_pure _).mpr ?_
    cases first with
    | none => exact ⟨[], h₁.2, .nil, fun _ => h₁.1⟩
    | some p =>
      obtain ⟨ps, hreads, hwrites⟩ := h₁
      exact ⟨ps, hreads, hwrites, by simp⟩

theorem finds_parameterList : (parameterList reach).Ensures s fun found s' =>
    ∃ ps, s.Reads s' (.bare .openParen :: (ps ++ [.bare .closeParen])) [] [] ∧
      s'.tree.WritesParameters found ps := by
  have hopen : s.Reads (s.expect .openParen).2 [.bare .openParen] [] [] :=
    reads_expect rfl (by decide)
  have hclose : ∀ s₁ : Builder, s₁.Reads (s₁.expect .closeParen).2 [.bare .closeParen] [] [] :=
    fun _ => reads_expect rfl (by decide)
  rw [parameterList, ensures_bind, expect, ensures_act, ensures_bind, currentKind, ensures_look]
  split
  · simp only [ensures_bind, expect, ensures_act, ensures_pure]
    exact ⟨[], hopen.trans (hclose _), .nil⟩
  · rw [ensures_bind]
    refine (hr.parameters _).imp fun found s₂ h₂ => ?_
    obtain ⟨ps, hreads, hwrites, -⟩ := h₂
    simp only [ensures_bind, expect, ensures_act, ensures_pure]
    exact ⟨ps, hopen.trans (hreads.trans (hclose _)), hwrites.mono (hclose _).extends_.keepsNodes⟩

theorem finds_resultType : (resultType reach).Ensures s fun found s' =>
    ∃ ps, s.Reads s' ps [] [] ∧ s'.tree.WritesTypeAfter .arrow found ps := by
  rw [resultType, ensures_bind, accept, ensures_act]
  rcases s.accept_cases .arrow with ⟨haccept, hkind⟩ | ⟨haccept, -⟩
  · rw [haccept, if_pos rfl]
    have harrow : s.Reads s.advance.2 [.bare .arrow] [] [] :=
      reads_advance_bare hkind rfl (by decide)
    exact (hr.type _).imp fun found s₂ h₂ => Finds.writesTypeAfter harrow h₂
  · rw [haccept, if_neg Bool.false_ne_true]
    exact (ensures_pure _).mpr ⟨[], .refl s, .absent⟩

/-- The name of the signature has been passed since `s`. -/
theorem finds_signatureOf (hkind : s.current.kind = .identifier) :
    (signatureOf reach s.current).Ensures s.advance.2 s.FindsSignature := by
  simp only [signatureOf, ensures_bind, declare, ensures_change]
  have h₁ := (reads_advance_name hkind).then_quiet (s.advance.2.reads_declare
    s.current.identifierName .function s.current.position)
  refine ensures_alloc fun name s₂ hname => ?_
  have h₂ := hname.mark h₁ (by simp) rfl
  have hcolon : s₂.Reads (s₂.expect .colon).2 [.bare .colon] [] [] := reads_expect rfl (by decide)
  simp only [expect, enterScope, ensures_act]
  refine (finds_parameterList _ hr).imp fun found s₅ h₅ => ?_
  obtain ⟨ps, hparameters, hwrites⟩ := h₅
  refine (finds_resultType _ hr).imp fun result s₆ h₆ => (ensures_pure _).mpr ?_
  obtain ⟨qs, hresult, hwrites'⟩ := h₆
  refine ⟨(s₂.expect .colon).2, s.current.position, _, _, h₂.trans hcolon, by simp,
    hparameters.trans hresult, rfl, ?_⟩
  have hlater := (hcolon.extends_.trans (extends_enterScope _ s.current.position)).trans
    (hparameters.extends_.trans hresult.extends_)
  have hsignature := Tree.WritesSignature.signature (hlater.keepsNodes _ _ hname.node)
    (hwrites.mono hresult.extends_.keepsNodes) hwrites'
  simpa [Piece.name] using hsignature

theorem finds_signature : (signature reach).Ensures s fun found s' =>
    match found with
    | none => s'.Faulty ∧ s.Reads s' [] [] []
    | some found => s.FindsSignature found s' := by
  rw [signature, ensures_bind, expect, ensures_act]
  by_cases hkind : s.current.kind = .identifier
  · rw [expect_of_eq hkind, ensures_bind]
    exact (finds_signatureOf s hr hkind).imp fun found s' h => (ensures_pure _).mpr h
  · obtain ⟨hreads, hfaulty⟩ := s.reads_reportUnexpected .identifier []
    rw [expect_of_ne hkind]
    exact (ensures_pure _).mpr ⟨hfaulty, hreads⟩

theorem finds_closedSignature : (closedSignature reach).Ensures s fun found s' =>
    match found with
    | none => s'.Faulty ∧ s.Reads s' [] [] []
    | some found => ∃ ps, s.Reads s' ps [] [] ∧
      s'.tree.WritesSignature found.name found.parameters found.result ps := by
  rw [closedSignature, ensures_bind]
  refine (finds_signature s hr).imp fun found s₁ h₁ => ?_
  cases found with
  | none => exact (ensures_pure _).mpr h₁
  | some found =>
    obtain ⟨s₀, position, head, tail, hhead, -, htail, -, hwrites⟩ := h₁
    simp only [ensures_bind, exitScope, ensures_change, ensures_pure]
    exact ⟨_, hhead.trans htail.block, hwrites⟩

/-! ## Blocks -/

/-- Statements between braces, in a scope that has been opened for them. -/
theorem finds_blockBody (hs : s.InScope) (hroot : s.scope ≠ .root) :
    (blockBody reach).Ensures s fun _ s' => ∃ ps ns ids, s.Reads s' (Tree.blockPieces ps) ns ids ∧
      s'.tree.WritesBlock s'.Faulty s.scopes.size (.statements ids) ps ns := by
  have hopen : s.Reads (s.expect .openCurly).2 [.bare .openCurly] [] [] :=
    reads_expect rfl (by decide)
  rw [blockBody, ensures_bind, expect, ensures_act, ensures_bind]
  refine (hr.statements _ (hopen.inScope hs) (by rwa [hopen.scope])).imp fun _ s₂ h₂ => ?_
  obtain ⟨ps, ns, ids, hreads, hwrites⟩ := h₂
  have hclose : s₂.Reads (s₂.expect .closeCurly).2 [.bare .closeCurly] [] [] :=
    reads_expect rfl (by decide)
  have hscope : s₂.scope.index < s.scopes.size := by
    rw [hreads.scope, hopen.scope]
    exact hs
  have hall := hopen.trans (hreads.trans hclose)
  simp only [List.append_nil, List.nil_append] at hall
  simp only [ensures_bind, expect, ensures_act, ensures_pure]
  exact ⟨ps, ns, ids, hall,
    hclose.keepsBlock (Nat.lt_of_lt_of_le hscope hopen.size_le) hopen.size_le hwrites⟩

theorem finds_block (hs : s.InScope) : (block reach).Ensures s s.FindsBlock := by
  rw [block, ensures_bind, currentPosition, ensures_look, ensures_bind, enterScope, ensures_act,
    ensures_bind]
  have hinner := s.inScope_enterScope s.current.position
  refine (finds_blockBody _ hr hinner (enterScope_ne_root hs _)).imp fun _ s₂ h₂ => ?_
  obtain ⟨ps, ns, ids, hreads, hwrites⟩ := h₂
  simp only [ensures_bind, exitScope, ensures_change, ensures_pure]
  refine ⟨ps, ns, ids, hreads.block, Nat.le_refl _, hreads.hasStatements_block, ?_⟩
  exact hwrites.of_le (s.extends_enterScope _).scopes.size_le

omit hr in
/-- One more part of a list, in front of those that follow. -/
theorem finds_others {part : NodeId → Tree.StmtPart} {parts : List NodeId → Tree.StmtPart}
    {goal : Goal Unit} (hs : s.InScope)
    (hcons : ∀ {s' : Builder} {first : Nat} {id : NodeId} {ids : List NodeId} {ps qs : List Piece}
      {ns ms : List Position}, s'.tree.WritesBlock s'.Faulty first (part id) ps ns →
      s'.tree.WritesBlock s'.Faulty first (parts ids) qs ms →
      s'.tree.WritesBlock s'.Faulty first (parts (id :: ids)) (ps ++ qs) (ns ++ ms))
    (hgoal : ∀ s₁ : Builder, s₁.InScope → s₁.scope = s.scope →
      (reach goal).Ensures s₁ fun _ s' => s₁.FindsList parts s')
    {found : Option NodeId} {s₁ : Builder} (h₁ : s.FindsStmt part found s₁) :
    Ensures (do addFound found; reach goal) s₁ fun _ s' => s.FindsList parts s' := by
  rw [ensures_bind]
  cases found with
  | none =>
    rw [addFound, ensures_pure]
    refine (hgoal s₁ (h₁.2.inScope hs) h₁.2.scope).imp fun _ s₂ h₂ => ?_
    obtain ⟨qs, ms, ids, hothers, hwrites⟩ := h₂
    exact ⟨qs, ms, ids, h₁.2.trans hothers,
      hwrites.of_le h₁.2.size_le⟩
  | some id =>
    obtain ⟨ps, ns, hreads, hwrites⟩ := h₁
    have hadd := reads_addStatement (s := s₁) id
    have hadded := hreads.trans hadd
    rw [addFound, addStatement, ensures_change]
    refine (hgoal _ (hadded.inScope hs) hadded.scope).imp fun _ s₂ h₂ => ?_
    obtain ⟨qs, ms, ids, hothers, hwrites'⟩ := h₂
    have hlater := hadd.trans hothers
    have hscope : s₁.scope.index < s.scopes.size := by
      rw [hreads.scope]
      exact hs
    refine ⟨ps ++ qs, ns ++ ms, id :: ids, hreads.trans hlater, hcons ?_ ?_⟩
    · exact hlater.keepsBlock hscope (Nat.le_refl _) hwrites
    · exact hwrites'.of_le hadded.size_le

theorem finds_statements (hs : s.InScope) (hroot : s.scope ≠ .root) :
    (statements reach).Ensures s fun _ s' => s.FindsList .statements s' := by
  rw [statements, ensures_bind, currentKind, ensures_look, ensures_bind, ensures_look]
  split
  · rw [ensures_bind]
    refine (hr.statement s hs hroot).imp fun found s₁ h₁ => ?_
    exact finds_others s hs .statement
      (fun s₁ hs₁ hscope => hr.statements s₁ hs₁ (by rwa [hscope])) h₁
  · exact (ensures_pure _).mpr ⟨[], [], [], .refl s, .noStatements⟩

theorem finds_declarations (hs : s.InScope) (hroot : s.scope = .root) :
    (declarations reach).Ensures s fun _ s' => s.FindsList .items s' := by
  rw [declarations, ensures_bind, ensures_look]
  split
  · rw [ensures_bind]
    refine (hr.declaration s hs hroot).imp fun found s₁ h₁ => ?_
    exact finds_others s hs .consItem
      (fun s₁ hs₁ hscope => hr.declarations s₁ hs₁ (by rwa [hscope])) h₁
  · exact (ensures_pure _).mpr ⟨[], [], [], .refl s, .noItems⟩

/-! ## Functions -/

omit hr in
/-- Away from the root a function is refused where it begins, and is read all the same. -/
theorem finds_refuseNested : refuseNested.Ensures s fun _ s' =>
    s.Reads s' [] (if s.scope = .root then [] else [s.current.position]) [] ∧
      s'.rest = s.rest := by
  rw [refuseNested, ensures_bind, ensures_look]
  by_cases hroot : s.scope = .root
  · rw [if_pos hroot, if_neg (by simp [atRoot, hroot])]
    exact (ensures_pure _).mpr ⟨.refl s, rfl⟩
  · rw [if_neg hroot, if_pos (by simp [atRoot, hroot]), ensures_bind, ensures_look, report,
      ensures_change]
    exact ⟨reads_report_nested _ _, rfl⟩

theorem finds_function (hs : s.InScope) (hkind : s.current.kind = .identifier) :
    (function reach).Ensures s fun found s' =>
      ∃ id, found = some id ∧ s.FindsFunction id s' := by
  rw [function, ensures_bind, currentPosition, ensures_look, ensures_bind]
  refine (finds_refuseNested s).imp fun _ s₁ h₁ => ?_
  have hcurrent : s₁.current = s.current := current_eq_of_rest h₁.2
  have hkind₁ : s₁.current.kind = .identifier := by rw [hcurrent, hkind]
  rw [ensures_bind, signature, ensures_bind, expect, ensures_act, expect_of_eq hkind₁, ensures_bind]
  refine (finds_signatureOf s₁ hr hkind₁).imp fun found s₃ h₃ => ?_
  obtain ⟨s₂, position, head, tail, hhead, hne, htail, hscope, hsignature⟩ := h₃
  simp only [ensures_pure, ensures_bind, ensures_look, ensures_change]
  -- behind the signature the scope of the function is open, and its body is read there
  have hinner : (s₂.enterScope position).2.Reads (s₃.setLoopDepth 0) tail [] [] :=
    htail.then_quiet (reads_setLoopDepth 0)
  have hs₂ := (h₁.1.trans hhead).inScope hs
  have hopen := s₂.inScope_enterScope position
  refine (finds_blockBody _ hr (hinner.inScope hopen)
    (by rw [hinner.scope]; exact enterScope_ne_root hs₂ _)).imp fun _ s₄ h₄ => ?_
  obtain ⟨ps, ns, ids, hbody, hwrites⟩ := h₄
  have hdepth : s₄.Reads (s₄.setLoopDepth s₃.loopDepth) [] [] [] := reads_setLoopDepth _
  have hblock := hinner.trans (hbody.then_quiet hdepth)
  simp only [exitScope, ensures_change]
  refine ensures_alloc fun id s₆ hid => ⟨id, rfl, ?_⟩
  have hreads := h₁.1.trans (hhead.trans hblock.block)
  have hids := hblock.hasStatements_block
  simp only [List.nil_append, List.append_nil, ← List.append_assoc] at hreads hids
  have hmark := hid.mark hreads (by simp [hne]) rfl
  have hafter := hdepth.extends_.trans ((extends_exitScope _).trans hid.extends_)
  have hlater := hbody.extends_.trans hafter
  have hfirst : s.scopes.size ≤ found.scope.index := by
    rw [hscope]
    exact (h₁.1.trans hhead).size_le
  have hsize : s.scopes.size ≤ s₃.scopes.size :=
    Nat.le_trans (h₁.1.trans hhead).size_le
      ((s₂.extends_enterScope position).trans hinner.extends_).scopes.size_le
  rw [Piece.markFirst_append _ (by simp [hne])] at hmark
  refine ⟨Piece.markFirst ⟨id, s.current.position⟩ (head ++ tail) ++ Tree.blockPieces ps, ns,
    ?_, ?_, _, hid.node⟩
  · by_cases hroot : s.scope = .root
    · rw [if_pos hroot] at hmark ⊢
      exact hmark
    · rw [if_neg hroot] at hmark ⊢
      exact hmark
  · rw [← hscope] at hids
    exact .function hid.node (hsignature.mono hlater.keepsNodes) hfirst
      (hid.statements 0 _ _ (Nat.zero_le _) hids) (fun i hi => hid.lt (hwrites.get?_isSome i hi))
      (hwrites.mono hafter.keepsNodes (fun _ _ _ h => hid.statements 0 _ _ (Nat.zero_le _) h)
        hafter.faulty hsize)

theorem finds_foreignImport (hkind : s.current.kind = .pound) :
    (foreignImport reach).Ensures s (s.FindsStmt .item) := by
  have h₁ : s.Reads s.advance.2 [.bare .pound] [] [] := reads_advance_bare hkind rfl (by decide)
  rw [foreignImport, ensures_bind, advance, ensures_act, advance_fst, ensures_bind]
  refine ensures_expect rfl (by decide) fun _ s₂ h₂ => ?_
  rw [ensures_bind]
  refine ensures_expect rfl (by decide) fun _ s₃ h₃ => ?_
  rw [ensures_bind]
  refine ensures_expect rfl (by decide) fun _ s₄ h₄ => ?_
  rw [ensures_bind, expect, ensures_act, ensures_bind, addModule, ensures_change, ensures_bind]
  have h₅ := reads_expect_nameD.then_quiet (reads_addModule (s := (s₄.expect .identifier).2)
    (((s₄.expect .identifier).1.map Token.identifierName).getD ""))
  refine ensures_expect rfl (by decide) fun _ s₆ h₆ => ?_
  rw [ensures_bind]
  refine (finds_closedSignature s₆ hr).imp fun found s₇ h₇ => ?_
  rw [ensures_bind]
  refine ensures_expect rfl (by decide) fun _ s₈ h₈ => ?_
  rw [ensures_bind]
  refine ensures_expect rfl (by decide) fun _ s₉ h₉ => ?_
  have hhead := h₁.trans (h₂.trans (h₃.trans (h₄.trans (h₅.trans h₆))))
  have htail := h₈.trans h₉
  cases found with
  | none =>
    have hfaulty := htail.extends_.faulty h₇.1
    exact (ensures_pure _).mpr ⟨hfaulty, (hhead.trans (h₇.2.trans htail)).any hfaulty []⟩
  | some found =>
    obtain ⟨ps, hreads, hwrites⟩ := h₇
    simp only [ensures_bind]
    refine ensures_alloc fun id s₁₀ hid => (ensures_pure _).mpr ?_
    refine ⟨_, [], hid.mark (hhead.trans (hreads.trans htail)) (by simp) rfl, ?_⟩
    exact .imported hid.node (hwrites.mono (htail.extends_.trans hid.extends_).keepsNodes)

/-! ## Leaving functions and loops -/

omit hr in
include he in
theorem finds_returnStatement (hkind : s.current.kind = .kwReturn) :
    (returnStatement reach).Ensures s (s.FindsStmt .statement) := by
  have h₁ : s.Reads s.advance.2 [.bare .kwReturn] [] [] := reads_advance_bare hkind rfl (by decide)
  have hvalue : (returnValue reach).Ensures s.advance.2 fun found s' =>
      ∃ ps, s.Reads s' ([.bare .kwReturn] ++ ps) [] [] ∧ s'.tree.WritesValue found ps := by
    rw [returnValue, ensures_bind, currentKind, ensures_look]
    split
    · exact (ensures_pure _).mpr ⟨[], h₁, .absent⟩
    · refine (he.expression .lowest _).imp fun found s₂ h₂ => ?_
      cases found with
      | none => exact ⟨[], (h₁.trans h₂.2).any h₂.1 _, .absent⟩
      | some id =>
        obtain ⟨ps, hreads, hwrites, -⟩ := h₂
        exact ⟨ps, h₁.trans hreads, .present hwrites⟩
  rw [returnStatement, ensures_bind, advance, ensures_act, advance_fst, ensures_bind]
  refine hvalue.imp fun found s₂ h₂ => ?_
  obtain ⟨ps, hreads, hwrites⟩ := h₂
  have hsemicolon : s₂.Reads (s₂.expect .semicolon).2 [.bare .semicolon] [] [] :=
    reads_expect rfl (by decide)
  simp only [ensures_bind, expect, ensures_act]
  refine ensures_alloc fun id s₄ hid => (ensures_pure _).mpr ?_
  refine ⟨_, [], hid.mark (hreads.trans hsemicolon) (by simp) rfl, ?_⟩
  exact .returning hid.node (hwrites.mono (hsemicolon.extends_.trans hid.extends_).keepsNodes)

omit hr in
theorem finds_loopControl (hkind : s.current.kind = .kwBreak ∨ s.current.kind = .kwContinue) :
    loopControl.Ensures s (s.FindsStmt .statement) := by
  have hrefuse : (refuseOutsideLoop s.current).Ensures s.advance.2 fun _ s' =>
      s.Reads s' [.bare s.current.kind] [] [] := by
    have h₁ : s.Reads s.advance.2 [.bare s.current.kind] [] [] := by
      rcases hkind with hkind | hkind <;> exact reads_advance_bare rfl (by rw [hkind]; rfl)
        (by rw [hkind]; decide)
    rw [refuseOutsideLoop, ensures_bind, ensures_look]
    split
    · rw [report, ensures_change]
      exact h₁.then_quiet (reads_report (by simp) _)
    · exact (ensures_pure _).mpr h₁
  rw [loopControl, ensures_bind, advance, ensures_act, advance_fst, ensures_bind]
  refine hrefuse.imp fun _ s₂ h₂ => ?_
  have hsemicolon : s₂.Reads (s₂.expect .semicolon).2 [.bare .semicolon] [] [] :=
    reads_expect rfl (by decide)
  simp only [ensures_bind, expect, ensures_act]
  refine ensures_alloc fun id s₄ hid => (ensures_pure _).mpr ?_
  refine ⟨_, [], hid.mark (h₂.trans hsemicolon) (by simp) rfl, ?_⟩
  rcases hkind with hkind | hkind <;> rw [hkind] at hid ⊢
  · exact .loopControl hid.node (by simp)
  · exact .loopControl hid.node (by simp)

/-! ## Conditionals and loops -/

omit hr in
/-- A condition behind a keyword. It is missing only where something is wrong. -/
theorem Finds.writesCondition {s s₁ s' : Builder} {ps : List Piece} {found : Option NodeId}
    (h : s.Reads s₁ ps [] []) (h₁ : s₁.FindsExpr found s') :
    ∃ qs, s.Reads s' (ps ++ qs) [] [] ∧ s'.tree.WritesCondition s'.Faulty found qs := by
  cases found with
  | none => exact ⟨[], (h.trans h₁.2).any h₁.1 _, .absent h₁.1⟩
  | some id =>
    obtain ⟨qs, hreads, hwrites, -⟩ := h₁
    exact ⟨qs, h.trans hreads, .present hwrites⟩

include he in
/-- A clause with a condition, behind its keyword, and the clauses that follow. -/
theorem finds_conditional {flow : Flow} {kind : TokenKind} {s₁ : Builder} (hs : s.InScope)
    (h₁ : s.Reads s₁ [.bare kind] [] []) (hkind : flow.token = kind) :
    Ensures (do
      let condition ← reach (.expression .lowest)
      let body ← reach .block
      let next ← reach .elseClause
      return some (← alloc s.current.position (.flow flow condition body next))) s₁
        fun found s' => ∃ id ps ns, found = some id ∧ s.Reads s' ps ns [] ∧
          s'.tree.WritesBlock s'.Faulty s.scopes.size (.conditional flow id) ps ns := by
  rw [ensures_bind]
  refine (he.expression .lowest s₁).imp fun condition s₂ h₂ => ?_
  obtain ⟨ps, hreads, hcondition⟩ := Finds.writesCondition h₁ h₂
  rw [ensures_bind]
  refine (hr.block s₂ (hreads.inScope hs)).imp fun body s₃ h₃ => ?_
  obtain ⟨qs, ns, ids, hblock, hfirst, hids, hbody⟩ := h₃
  have hreads₃ := hreads.trans hblock
  have hscope₃ : s₃.scope.index < s₃.scopes.size := hreads₃.inScope hs
  rw [ensures_bind]
  refine (hr.elseClause s₃ hscope₃).imp fun next s₄ h₄ => ?_
  obtain ⟨rs, ms, helse, hnext⟩ := h₄
  rw [ensures_bind]
  refine ensures_alloc fun id s₅ hid => (ensures_pure _).mpr ?_
  have hall := hid.mark (hreads₃.trans helse) (by simp) rfl
  have hsize := hreads.size_le
  -- what was read before the clauses that follow stays as it is
  have hs₂ : s₂.scope.index < s₂.scopes.size := hreads.inScope hs
  have hs₃ : s₃.scope.index < s₂.scopes.size := by rwa [hblock.scope]
  have hbody₄ := helse.keepsBlock hs₃ hsize hbody
  have hids₄ := helse.keepsStatements hs₃ _ _ hfirst hids
  have hnext₄ := hnext.of_le hreads₃.size_le
  have hcondition₄ := hcondition.mono (hblock.extends_.trans helse.extends_).keepsNodes
    (hblock.extends_.trans helse.extends_).faulty
  subst hkind
  have hwrites := Tree.WritesBlock.conditional hid.node
    (hcondition₄.mono hid.extends_.keepsNodes hid.extends_.faulty) (Nat.le_trans hsize hfirst)
    (hid.statements 0 _ _ (Nat.zero_le _) hids₄) (fun i hi => hid.lt (hbody₄.get?_isSome i hi))
    (fun i hi => hid.lt (hnext₄.get?_isSome i hi)) (hid.keepsBlock hbody₄) (hid.keepsBlock hnext₄)
  refine ⟨id, _, _, rfl, ?_, hwrites⟩
  simpa [Piece.bare] using hall

include he in
theorem finds_ifStatement (hs : s.InScope) (hkind : s.current.kind = .kwIf) :
    (ifStatement reach).Ensures s (s.FindsStmt .statement) := by
  have h₁ : s.Reads s.advance.2 [.bare .kwIf] [] [] := reads_advance_bare hkind rfl (by decide)
  rw [ifStatement, ensures_bind, advance, ensures_act, advance_fst]
  refine (finds_conditional s hr he hs h₁ rfl).imp fun found s' h => ?_
  obtain ⟨id, ps, ns, rfl, hreads, hwrites⟩ := h
  exact ⟨ps, ns, hreads, .ifChain hwrites⟩

include he in
theorem finds_elseClause (hs : s.InScope) : (elseClause reach).Ensures s fun found s' =>
    ∃ ps ns, s.Reads s' ps ns [] ∧
      s'.tree.WritesBlock s'.Faulty s.scopes.size (.clauses found) ps ns := by
  rw [elseClause, ensures_bind, currentKind, ensures_look]
  split
  · next hkind =>
    have h₁ : s.Reads s.advance.2 [.bare .kwElif] [] [] :=
      reads_advance_bare hkind rfl (by decide)
    rw [ensures_bind, advance, ensures_act, advance_fst]
    refine (finds_conditional s hr he hs h₁ rfl).imp fun found s' h => ?_
    obtain ⟨id, ps, ns, rfl, hreads, hwrites⟩ := h
    exact ⟨ps, ns, hreads, .elifClause hwrites⟩
  · next hkind =>
    have h₁ : s.Reads s.advance.2 [.bare .kwElse] [] [] :=
      reads_advance_bare hkind rfl (by decide)
    rw [ensures_bind, advance, ensures_act, advance_fst, ensures_bind]
    refine (hr.block _ (h₁.inScope hs)).imp fun body s₂ h₂ => ?_
    obtain ⟨qs, ns, ids, hblock, hfirst, hids, hbody⟩ := h₂
    rw [ensures_bind]
    refine ensures_alloc fun id s₃ hid => (ensures_pure _).mpr ?_
    refine ⟨_, _, hid.mark (h₁.trans hblock) (by simp) rfl, ?_⟩
    have hbody' := hbody.of_le h₁.size_le
    exact .elseClause hid.node (Nat.le_trans h₁.size_le hfirst)
      (hid.statements 0 _ _ (Nat.zero_le _) hids) (fun i hi => hid.lt (hbody.get?_isSome i hi))
      (hid.keepsBlock hbody')
  · exact (ensures_pure _).mpr ⟨[], [], .refl s, .noClauses⟩

include he in
theorem finds_whileStatement (hs : s.InScope) (hkind : s.current.kind = .kwWhile) :
    (whileStatement reach).Ensures s (s.FindsStmt .statement) := by
  have h₁ : s.Reads s.advance.2 [.bare .kwWhile] [] [] :=
    reads_advance_bare hkind rfl (by decide)
  rw [whileStatement, ensures_bind, advance, ensures_act, advance_fst, ensures_bind]
  refine (he.expression .lowest _).imp fun condition s₂ h₂ => ?_
  obtain ⟨ps, hreads, hcondition⟩ := Finds.writesCondition h₁ h₂
  have hdeeper := hreads.then_quiet (reads_setLoopDepth (s₂.loopDepth + 1))
  simp only [ensures_bind, ensures_change]
  refine (hr.block _ (hdeeper.inScope hs)).imp fun body s₄ h₄ => ?_
  obtain ⟨qs, ns, ids, hblock, hfirst, hids, hbody⟩ := h₄
  have hdone := hblock.then_quiet (reads_setLoopDepth (s₄.loopDepth - 1))
  refine ensures_alloc fun id s₆ hid => (ensures_pure _).mpr ?_
  refine ⟨_, _, hid.mark (hdeeper.trans hdone) (by simp) rfl, ?_⟩
  have hbody' := hbody.of_le hdeeper.size_le
  have hlater := hdone.extends_.trans hid.extends_
  exact .whileLoop hid.node (hcondition.mono hlater.keepsNodes hlater.faulty)
    (Nat.le_trans hdeeper.size_le hfirst) (hid.statements 0 _ _ (Nat.zero_le _) hids)
    (fun i hi => hid.lt (hbody.get?_isSome i hi)) (hid.keepsBlock hbody')

/-! ## All parts together -/

omit hr in
/-- **What statements find** with any number of steps. -/
theorem findsStatements_reach (fuel : Nat) : FindsStatements (Goal.reach .standard fuel) := by
  induction fuel with
  | zero =>
    constructor <;> intros <;> intro a s' ha <;> cases ha
  | succ fuel ih =>
    have he := findsExpressions_reach fuel
    exact {
      type := finds_type
      declaration := fun s hs hroot => finds_declaration s ih hs hroot
      statement := fun s hs hroot => finds_statement s ih hs hroot
      identifierStatement := fun s hs hkind => finds_identifierStatement s ih he hs hkind
      variableStatement := fun s => finds_variableStatement s ih
      function := fun s hs hkind => finds_function s ih hs hkind
      foreignImport := fun s hkind => finds_foreignImport s ih hkind
      returnStatement := fun s hkind => finds_returnStatement s he hkind
      loopControl := fun s hkind => finds_loopControl s hkind
      ifStatement := fun s hs hkind => finds_ifStatement s ih he hs hkind
      whileStatement := fun s hs hkind => finds_whileStatement s ih he hs hkind
      values := fun s => finds_values s ih he
      parameters := fun s => finds_parameters s ih
      elseClause := fun s hs => finds_elseClause s ih he hs
      block := fun s hs => finds_block s ih hs
      statements := fun s hs hroot => finds_statements s ih hs hroot
      declarations := fun s hs hroot => finds_declarations s ih hs hroot }

end Parse

end Braced
