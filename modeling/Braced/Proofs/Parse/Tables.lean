import Braced.Proofs.Parse.Owns
import Braced.Proofs.Parse.Program
import Braced.Proofs.Parse.Shows
import Braced.Proofs.Target.Emits

/-!
# Braced.Proofs.Parse.Tables

Reading leaves tables that list what is declared.

Each part of the grammar is known to leave statements in whose scopes the tables list
what is declared there, unless something has been reported, and each import notes its
module.  So in a source that is accepted the tables of all scopes and the statements
say the same.
-/

namespace Braced

/-- Where only an import notes a module, reading anything else leaves the modules as they
are. -/
theorem Goal.reach_modules (fuel : Nat) (modules : SymbolTable) :
    ∀ {α : Type} (goal : Goal α), goal.isInner →
      Parse.Below (fun s => s.modules = modules) (Goal.reach .standard fuel goal)
        (Goal.reach .standard fuel goal) := by
  induction fuel with
  | zero =>
    intro α goal _ s _ a s' h
    cases h
  | succ fuel ih => exact Goal.step_below_of_isInner ih

namespace Parse

open Builder

variable {s s' : Builder} {reach : Reach}

/-! ## What parts leave -/

/-- A declaration was read, if any, that agrees, and its module, if it has one, is noted. -/
def ShowsItem (s : Builder) (found : Option NodeId) (s' : Builder) : Prop :=
  s.Shows [] s' fun t => (∀ id ∈ found.toList, t.IsItem id) ∧
    s.Imports (found.toList.filterMap t.importedFrom?) s'

/-- Declarations were read and added to the scope that is open. -/
def ShowsItems (s s' : Builder) : Prop :=
  ∃ ids, s.Shows ids s' fun t => (∀ id ∈ ids, t.IsItem id) ∧
    s.Imports (ids.filterMap t.importedFrom?) s'

/-- What is known of the tables that statements leave. -/
structure TablesStatements (reach : Reach) : Prop where
  declaration : ∀ s, (reach (.production .declaration)).Ensures s (ShowsItem s)
  statement : ∀ s, (reach (.production .statement)).Ensures s s.ShowsStatement
  identifierStatement : ∀ s, (reach (.production .identifierStatement)).Ensures s s.ShowsStatement
  function : ∀ s, (reach (.production .function)).Ensures s s.ShowsStatement
  foreignImport : ∀ s, (reach (.production .foreignImport)).Ensures s (ShowsItem s)
  returnStatement : ∀ s, (reach (.production .returnStatement)).Ensures s s.ShowsStatement
  loopControl : ∀ s, (reach (.production .loopControl)).Ensures s s.ShowsStatement
  ifStatement : ∀ s, (reach (.production .ifStatement)).Ensures s s.ShowsStatement
  whileStatement : ∀ s, (reach (.production .whileStatement)).Ensures s s.ShowsStatement
  elseClause : ∀ s, (reach .elseClause).Ensures s s.ShowsClauses
  block : ∀ s, (reach .block).Ensures s fun body s' => s.Shows [] s' fun t => t.Tabled [] body
  statements : ∀ s, (reach .statements).Ensures s fun _ s' => s.ShowsStatements s'
  declarations : ∀ s, (reach .declarations).Ensures s fun _ s' => ShowsItems s s'

section Statements

open Tree.Statement

variable (hr : TablesStatements reach) (hb : ResolvesStatements reach)
  (he : ResolvesExpressions reach) (hf : FindsStatements reach)
  (hm : ∀ (modules : SymbolTable) {α : Type} (goal : Goal α), goal.isInner →
    Below (fun s => s.modules = modules) (reach goal) (reach goal))

/-! ## Lines -/

/-- A token that nothing begins with is passed. -/
theorem shows_refusal {fault : TokenKind → Fault} :
    Ensures (do
      report (fault s.current.kind) (← currentPosition)
      let _ ← advance
      return none) s fun (found : Option NodeId) s' =>
        found = none ∧ s.Adds [] s' ∧ s'.modules = s.modules := by
  simp only [ensures_bind, currentPosition, ensures_look, report, ensures_change, advance,
    ensures_act, ensures_pure]
  have hcalm : s.Calm (s.report (fault s.current.kind) s.current.position).advance.2 :=
    Still.trans (Still.report ..) (Still.advance _)
  exact ⟨trivial, hcalm.adds, by simp [Builder.report]⟩

/-- What declares nothing and has no scope may stand anywhere. -/
theorem shows_plain {m : Parse (Option NodeId)} (hbinds : m.Ensures s (BindsStatement s))
    (hplain : m.Ensures s fun found s' => ∀ id ∈ found, ∃ kind, s'.tree.kind? id = some kind ∧
      kind.body? = none ∧ kind.declared? = none) : m.Ensures s s.ShowsStatement := by
  refine (hbinds.and hplain).imp fun found s' h => ?_
  obtain ⟨⟨es, h, -⟩, hplain⟩ := h
  refine (Shows.of_adds h.adds).imp fun t ht _ id hid => ?_
  obtain ⟨kind, hkind, hbody, hdeclared⟩ := hplain id hid
  exact .plain (ht.nodes.kind? hkind) hbody hdeclared

include hr in
theorem shows_statement : (statement .standard reach).Ensures s s.ShowsStatement := by
  rw [statement, ensures_bind, currentKind, ensures_look]
  split
  · next production hproduction =>
    rcases production_of_statement hproduction with
      ⟨rfl, -⟩ | ⟨rfl, -⟩ | ⟨rfl, -⟩ | ⟨rfl, -⟩ | ⟨rfl, -⟩
    · exact hr.identifierStatement s
    · exact hr.returnStatement s
    · exact hr.loopControl s
    · exact hr.ifStatement s
    · exact hr.whileStatement s
  · refine shows_refusal.imp fun found s' h => ?_
    obtain ⟨rfl, h, -⟩ := h
    exact .none h

include he in
theorem shows_call (isStatement : Bool) :
    (reach (.call isStatement)).Ensures s s.ShowsStatement := by
  refine shows_plain ((he.call isStatement s).imp fun _ _ h => h.statement)
    ((he.call isStatement s).imp fun found s' h id hid => ?_)
  obtain ⟨callee, arguments, isDirective, hkind⟩ := h.2 id hid
  exact ⟨_, hkind, rfl, rfl⟩

include hb hf in
theorem shows_variableStatement :
    (reach (.production .variableStatement)).Ensures s s.ShowsStatement := by
  refine ((hb.variableStatement s).and (hf.variableStatement s)).imp fun found s' h => ?_
  obtain ⟨⟨es, h, -⟩, hline⟩ := h
  cases found with
  | none => exact .none h.adds
  | some id =>
    obtain ⟨ps, -, hline⟩ := hline
    refine (Shows.of_adds h.adds).imp fun t ht _ id' hid => ?_
    cases hid
    exact (hline.mono ht.nodes).belongs s.scope

include hr hb he hf in
theorem shows_identifierStatement : (identifierStatement reach).Ensures s s.ShowsStatement := by
  have hsemicolon : ∀ s₁ : Builder, s₁.Adds [] (s₁.expect .semicolon).2 := fun s₁ =>
    (Still.expect s₁ .semicolon : s₁.Calm _).adds
  rw [identifierStatement, ensures_bind, ensures_look, ensures_bind, ensures_look]
  split
  · rw [ensures_bind]
    refine (shows_call he true).imp fun found s₁ h₁ => ?_
    simp only [ensures_bind, expect, ensures_act, ensures_pure]
    exact h₁.then_adds (hsemicolon s₁)
  · split
    · exact hr.function s
    · rw [ensures_bind]
      refine (shows_variableStatement hb hf).imp fun found s₁ h₁ => ?_
      simp only [ensures_bind, expect, ensures_act, ensures_pure]
      exact h₁.then_adds (hsemicolon s₁)

include he in
theorem shows_returnStatement : (returnStatement reach).Ensures s s.ShowsStatement := by
  refine shows_plain (resolves_returnStatement he) ?_
  rw [returnStatement, ensures_bind]
  intro token s₁ _
  rw [ensures_bind]
  intro value s₂ _
  rw [ensures_bind]
  intro _ s₃ _
  simp only [ensures_bind, alloc, ensures_act, ensures_pure]
  rintro id ⟨⟩
  exact ⟨_, kind?_alloc _ _ _, rfl, rfl⟩

theorem shows_loopControl : loopControl.Ensures s s.ShowsStatement := by
  refine shows_plain resolves_loopControl ?_
  rw [loopControl, ensures_bind]
  intro token s₁ _
  rw [ensures_bind]
  intro _ s₂ _
  rw [ensures_bind]
  intro _ s₃ _
  simp only [ensures_bind, alloc, ensures_act, ensures_pure]
  rintro id ⟨⟩
  exact ⟨_, kind?_alloc _ _ _, rfl, rfl⟩

/-! ## Blocks -/

/-- What was found and added comes in front of what follows. -/
theorem shows_cons {found : Option NodeId} {s₁ s₂ s₃ : Builder} (h : s.ShowsStatement found s₁)
    (hadd : s₁.Adds found.toList s₂) (h' : s₂.ShowsStatements s₃) (hscope : s₂.scope = s.scope) :
    s.ShowsStatements s₃ := by
  obtain ⟨ids, h'⟩ := h'
  refine ⟨found.toList ++ ids, ((h.trans (.of_adds hadd)).trans h').imp fun t _ ht => ?_⟩
  obtain ⟨⟨hfound, -⟩, hids⟩ := ht
  rw [hscope] at hids
  exact List.forall_mem_append.mpr ⟨by simpa using hfound, hids⟩

include hr in
theorem shows_statements : (statements reach).Ensures s fun _ s' => s.ShowsStatements s' := by
  rw [statements, ensures_bind, currentKind, ensures_look, ensures_bind, ensures_look]
  split
  · rw [ensures_bind]
    refine (hr.statement s).imp fun found s₁ h₁ => ?_
    rw [ensures_bind]
    refine (resolves_addFound found).imp fun _ s₂ h₂ => (hr.statements s₂).imp fun _ s₃ h₃ => ?_
    have hscope : s₂.scope = s.scope := by
      obtain ⟨_, _, hbinds⟩ := h₁.adds
      exact h₂.scope.trans hbinds.scope
    exact shows_cons h₁ h₂.adds h₃ hscope
  · exact (ensures_pure _).mpr (.nil s)

include hr in
theorem shows_blockBody : (blockBody reach).Ensures s fun _ s' => s.ShowsStatements s' := by
  rw [blockBody, ensures_bind, expect, ensures_act, ensures_bind]
  have hopen : s.Calm (s.expect .openCurly).2 := Still.expect s .openCurly
  refine (hr.statements _).imp fun _ s₂ h₂ => ?_
  obtain ⟨ids, h₂⟩ := h₂
  have hclose : s₂.Calm (s₂.expect .closeCurly).2 := Still.expect s₂ .closeCurly
  simp only [ensures_bind, expect, ensures_act, ensures_pure]
  rw [show (s.expect .openCurly).2.scope = s.scope from hopen.scope] at h₂
  exact ⟨ids, (h₂.after_adds hopen.adds).then_adds hclose.adds⟩

include hr hb in
theorem shows_block : (block reach).Ensures s fun body s' =>
    s.Shows [] s' fun t => t.Tabled [] body := by
  rw [block, ensures_bind, currentPosition, ensures_look, ensures_bind, enterScope, ensures_act,
    ensures_bind]
  refine ((resolves_blockBody hb).and (shows_blockBody hr)).imp fun _ s₂ h₂ => ?_
  simp only [ensures_bind, exitScope, ensures_change, ensures_pure]
  exact .close (calm_refl _) (fun _ _ => ⟨rfl, by simp⟩) h₂.1 h₂.2 (calm_refl _)

/-! ## Signatures and functions -/

include hb hf in
/-- A signature was read, if any, and the names of the function and of its parameters are
there. -/
theorem shows_signature : (signature reach).Ensures s fun found s' =>
    BindsSignature s found s' ∧ match found with
      | none => s'.Noted
      | some found => ∀ t, s'.tree.KeepsNodes t → (t.ident? found.name).isSome ∧
          ∀ p ∈ found.parameters, (t.entryOf? p.declared).isSome := by
  refine ((resolves_signature hb).and (finds_signature s hf)).imp fun found s' h => ⟨h.1, ?_⟩
  cases found with
  | none => exact Faulty.noted h.2.1
  | some found =>
    intro t ht
    obtain ⟨s₁, position, head, tail, -, -, -, -, hwrites⟩ := h.2
    exact (hwrites.mono ht).named

/-- When the statements behind a signature have been read, its scope is closed. -/
theorem shows_signed {found : Signature} {s₁ s₂ s₃ s₄ : Builder}
    (h : BindsSignature s (some found) s₁)
    (hnamed : ∀ t, s₁.tree.KeepsNodes t → (t.ident? found.name).isSome ∧
      ∀ p ∈ found.parameters, (t.entryOf? p.declared).isSome)
    (hbefore : s₁.Calm s₂) (hbinds : BindsStatements s₂ s₃) (hshows : s₂.ShowsStatements s₃)
    (hbehind : s₃.Calm s₄) :
    s.Shows [] s₄.exitScope fun t =>
      t.Tabled found.parameters found.scope ∧ (t.ident? found.name).isSome := by
  obtain ⟨name, position, es, s₀, hname, hscope, hparameters, -, hes⟩ := h
  have hkeeps : ∀ t, s₂.tree.KeepsNodes t → s₁.tree.KeepsNodes t :=
    fun t ht => hbefore.extends_.keepsNodes.trans ht
  have hclosed := Shows.close (hparameters.then_calm hbefore)
    (fun t ht => ⟨hes t (hkeeps t ht), (hnamed t (hkeeps t ht)).2⟩) hbinds hshows hbehind
  rw [hscope] at hclosed
  obtain ⟨_, _, hbinds, -⟩ := hbinds
  have hlater := (hbinds.extends_.trans hbehind.extends_).trans (extends_exitScope _)
  refine (Shows.after_adds hname.adds hclosed).imp fun t ht h => ⟨h, (hnamed t ?_).1⟩
  exact hkeeps t (hlater.keepsNodes.trans ht.nodes)

theorem shows_refuseNested : refuseNested.Ensures s fun _ s' =>
    s.Calm s' ∧ (s.scope ≠ .root → s'.Noted) := by
  rw [refuseNested, ensures_bind, ensures_look]
  split
  · simp only [ensures_bind, ensures_look, report, ensures_change]
    exact ⟨Still.report .., fun _ => noted_report _ _ _⟩
  · next hroot =>
    have hroot : s.scope = .root := by simpa [atRoot] using hroot
    exact (ensures_pure _).mpr ⟨calm_refl s, fun hne => absurd hroot hne⟩

include hr hb hf in
theorem shows_function : (function reach).Ensures s s.ShowsStatement := by
  rw [function, ensures_bind, currentPosition, ensures_look, ensures_bind]
  refine shows_refuseNested.imp fun _ s₁ h₁ => ?_
  obtain ⟨hcalm, hnested⟩ := h₁
  rw [ensures_bind]
  refine (shows_signature hb hf).imp fun found s₂ h₂ => ?_
  cases found with
  | none => exact (ensures_pure _).mpr (.none (hcalm.then_calm h₂.1).adds)
  | some found =>
    simp only [ensures_bind, ensures_look, ensures_change]
    refine ((resolves_blockBody hb).and (shows_blockBody hr)).imp fun _ s₃ h₃ => ?_
    simp only [exitScope, ensures_change, alloc, ensures_act, ensures_pure]
    have hsigned := shows_signed h₂.1 h₂.2 (s₂.calm_setLoopDepth 0) h₃.1 h₃.2
      (s₃.calm_setLoopDepth s₂.loopDepth)
    have hshows := hsigned.alloc s.current.position (.function found.name found.result
      found.parameters found.scope .own) fun t hkind h => show t.IsItem _ ∧ t.importedFrom? _ = none
        from ⟨h.1.isItem hkind h.2, by rw [Tree.importedFrom?, hkind]; rfl⟩
    refine ⟨hcalm.adds.trans hshows.adds, fun hs hclean t ht id hid => ?_⟩
    cases hid
    obtain ⟨hitem, hown⟩ := (Shows.after_adds hcalm.adds hshows).holds hs hclean t ht
    -- outside of the root a function has been reported when it began
    exact { hitem with
      declares := fun hne => absurd (hshows.adds.extends_.noted (hnested hne)) hclean
      own := hown }

include hb hf in
/-- A signature behind which no scope is open. -/
theorem shows_closedSignature : (closedSignature reach).Ensures s fun found s' =>
    match found with
    | none => s.Adds [] s' ∧ s'.Noted
    | some found => s.Shows [] s' fun t =>
        t.Tabled found.parameters found.scope ∧ (t.ident? found.name).isSome := by
  rw [closedSignature, ensures_bind]
  refine (shows_signature hb hf).imp fun found s₂ h₂ => ?_
  cases found with
  | none => exact (ensures_pure _).mpr ⟨Binds.adds h₂.1, h₂.2⟩
  | some found =>
    simp only [ensures_bind, exitScope, ensures_change, ensures_pure]
    exact shows_signed h₂.1 h₂.2 (calm_refl s₂) ⟨[], [], calm_refl s₂, fun _ _ => rfl⟩
      (.nil s₂) (calm_refl s₂)

include hb hf hm in
theorem shows_foreignImport : (foreignImport reach).Ensures s (ShowsItem s) := by
  rw [foreignImport]
  simp only [ensures_bind, advance, expect, addModule, ensures_act, ensures_change]
  -- up to the name of the module, and then up to the signature
  generalize hmark : (((s.advance.2.expect .kwForeign).2.expect .kwFrom).2.expect
    .openParen).2.expect .identifier = marked
  generalize (marked.1.map Token.identifierName).getD "" = module
  have hcalm : s.Calm marked.2 := by
    have h₁ := (Still.advance s : s.Calm _).then_calm (Still.expect _ .kwForeign)
    have h₂ := (h₁.then_calm (Still.expect _ .kwFrom)).then_calm (Still.expect _ .openParen)
    rw [← hmark]
    exact h₂.then_calm (Still.expect _ .identifier)
  have hbefore : s.Imports [] marked.2 := .of_eq (by simp [← hmark])
  generalize hcomma : ((marked.2.addModule module).expect .comma).2 = s₁
  have hhead : s.Calm s₁ := by
    rw [← hcomma]
    exact (hcalm.then_calm (Still.addModule _ module)).then_calm (Still.expect _ .comma)
  have hnotes : s.Imports [module] s₁ :=
    hbefore.trans ((imports_addModule _ module).trans (.of_eq (by simp [← hcomma])))
  refine ((shows_closedSignature hb hf).and (below_closedSignature (hm _) s₁ rfl)).imp
    fun found s₂ h₂ => ?_
  obtain ⟨hsignature, -, hmodules⟩ := h₂
  have hclose : s₂.Calm ((s₂.expect .closeParen).2.expect .semicolon).2 :=
    Still.trans (Still.expect s₂ .closeParen) (Still.expect _ .semicolon)
  cases found with
  | none =>
    exact (ensures_pure _).mpr ⟨(hhead.adds.trans hsignature.1).trans hclose.adds,
      fun _ hclean => absurd (hclose.extends_.noted hsignature.2) hclean⟩
  | some found =>
    simp only [ensures_bind, alloc, ensures_act, ensures_pure]
    have hshows := (Shows.after_adds hhead.adds hsignature).then_adds hclose.adds
    refine hshows.alloc _ _ fun t hkind h => ⟨by simpa using h.1.isItem hkind h.2, ?_⟩
    have hbehind : s₁.Imports [] ((s₂.expect .closeParen).2.expect .semicolon).2 :=
      .of_eq (by simpa using hmodules)
    rw [Option.toList_some, List.filterMap_cons_some (show t.importedFrom? _ = some module by
      rw [Tree.importedFrom?, hkind]; rfl)]
    exact hnotes.trans hbehind

/-! ## Conditionals and loops -/

/-- A new clause with its block and the clauses that follow. -/
theorem shows_alloc {flow : Flow} {condition next : Option NodeId} {body : ScopeId}
    (h : s.Shows [] s' fun t => t.Tabled [] body ∧ ∀ id ∈ next, t.Agrees id) (position : Position) :
    s.Shows [] (s'.alloc position (.flow flow condition body next)).2 fun t =>
      ∀ id ∈ some (s'.alloc position (.flow flow condition body next)).1, ∀ scope,
        t.Belongs scope id := by
  refine h.alloc position _ fun t hkind ht id hid scope => ?_
  cases hid
  have hagrees : t.Agrees _ := ht.1.agrees hkind rfl ht.2
  exact hagrees.belongs hkind

include hr he in
/-- A clause with a condition, behind its keyword, and the clauses that follow. -/
theorem shows_conditional (flow : Flow) (position : Position) :
    Ensures (do
      let condition ← reach (.expression .lowest)
      let body ← reach .block
      let next ← reach .elseClause
      return some (← alloc position (.flow flow condition body next))) s fun found s' =>
        s.Shows [] s' fun t => ∀ id ∈ found, ∀ scope, t.Belongs scope id := by
  rw [ensures_bind]
  refine (he.expression .lowest s).imp fun condition s₁ h₁ => ?_
  rw [ensures_bind]
  refine (hr.block s₁).imp fun body s₂ h₂ => ?_
  rw [ensures_bind]
  refine (hr.elseClause s₂).imp fun next s₃ h₃ => ?_
  simp only [ensures_bind, alloc, ensures_act, ensures_pure]
  exact shows_alloc (Shows.after_adds h₁.adds (h₂.trans h₃)) position

include hr he in
theorem shows_ifStatement : (ifStatement reach).Ensures s s.ShowsStatement := by
  rw [ifStatement, ensures_bind, advance, ensures_act]
  have hkeyword : s.Calm s.advance.2 := Still.advance s
  exact (shows_conditional hr he .ifClause _).imp fun found s' h =>
    (Shows.after_adds hkeyword.adds h).imp fun t _ h id hid => h id hid s.scope

include hr he in
theorem shows_elseClause : (elseClause reach).Ensures s s.ShowsClauses := by
  have hkeyword : s.Calm s.advance.2 := Still.advance s
  rw [elseClause, ensures_bind, currentKind, ensures_look]
  split
  · rw [ensures_bind, advance, ensures_act]
    exact (shows_conditional hr he .elifClause _).imp fun found s' h =>
      (Shows.after_adds hkeyword.adds h).imp fun t _ h id hid => (h id hid .root).agrees
  · rw [ensures_bind, advance, ensures_act, ensures_bind]
    refine (hr.block _).imp fun body s₂ h₂ => ?_
    simp only [ensures_bind, alloc, ensures_act, ensures_pure]
    have hnone : s₂.ShowsClauses none s₂ := .none (calm_refl s₂).adds
    exact (shows_alloc (Shows.after_adds hkeyword.adds (h₂.trans hnone)) _).imp
      fun t _ h id hid => (h id hid .root).agrees
  · exact (ensures_pure _).mpr (.none (calm_refl s).adds)

include hr he in
theorem shows_whileStatement : (whileStatement reach).Ensures s s.ShowsStatement := by
  rw [whileStatement, ensures_bind, advance, ensures_act, ensures_bind]
  refine (he.expression .lowest _).imp fun condition s₂ h₂ => ?_
  simp only [ensures_bind, ensures_change]
  refine (hr.block _).imp fun body s₃ h₃ => ?_
  simp only [alloc, ensures_act, ensures_pure]
  have hkeyword : s.Calm s.advance.2 := Still.advance s
  have hhead := (hkeyword.adds.trans h₂.adds).trans (s₂.calm_setLoopDepth (s₂.loopDepth + 1)).adds
  have hnone : s₃.ShowsClauses none _ := .none (s₃.calm_setLoopDepth (s₃.loopDepth - 1)).adds
  exact (shows_alloc (Shows.after_adds hhead (h₃.trans hnone)) _).imp fun t _ h id hid =>
    h id hid s.scope

/-! ## Top-level declarations -/

include hr hm in
theorem shows_declaration : (declaration .standard reach).Ensures s (ShowsItem s) := by
  rw [declaration, ensures_bind, currentKind, ensures_look]
  split
  · next production hproduction =>
    rcases production_of_declaration hproduction with ⟨rfl, -⟩ | ⟨rfl, -⟩
    · refine ((hr.identifierStatement s).and (hm s.modules _ rfl s rfl)).imp fun found s' h => ?_
      obtain ⟨h, -, hmodules⟩ := h
      refine h.imp fun t _ h => ⟨fun id hid => (h id (by simpa using hid)).toIsItem, ?_⟩
      have hnone : found.toList.filterMap t.importedFrom? = [] := by
        simpa using fun id hid => (h id hid).own
      rw [hnone]
      exact .of_eq hmodules
    · exact hr.foreignImport s
  · refine shows_refusal.imp fun found s' h => ?_
    obtain ⟨rfl, h, hmodules⟩ := h
    exact (Shows.of_adds h).imp fun _ _ _ => ⟨by simp, .of_eq hmodules⟩

include hr in
theorem shows_declarations : (declarations reach).Ensures s fun _ s' => ShowsItems s s' := by
  rw [declarations, ensures_bind, ensures_look]
  split
  · rw [ensures_bind]
    refine (hr.declaration s).imp fun found s₁ h₁ => ?_
    rw [ensures_bind]
    have hsame : Below (fun s => s.modules = s₁.modules) (addFound found) (addFound found) :=
      below_addFound found
    refine ((resolves_addFound found).and (hsame s₁ rfl)).imp fun _ s₂ h₂ =>
      (hr.declarations s₂).imp fun _ s₃ h₃ => ?_
    obtain ⟨hadd, -, hmodules⟩ := h₂
    obtain ⟨ids, h₃⟩ := h₃
    refine ⟨found.toList ++ ids, ((h₁.trans (.of_adds hadd.adds)).trans h₃).imp fun t _ ht => ?_⟩
    obtain ⟨⟨⟨hfound, hnotes⟩, -⟩, hids, hnotes'⟩ := ht
    refine ⟨List.forall_mem_append.mpr ⟨hfound, hids⟩, ?_⟩
    rw [List.filterMap_append]
    exact hnotes.trans ((Imports.of_eq hmodules).trans hnotes')
  · exact (ensures_pure _).mpr ⟨[], (Shows.of_adds (calm_refl s).adds).imp fun _ _ _ =>
      ⟨by simp, .of_eq rfl⟩⟩

/-! ## All parts together -/

/-- **The tables that statements leave list what is declared**, with any number of steps. -/
theorem tablesStatements_reach (fuel : Nat) : TablesStatements (Goal.reach .standard fuel) := by
  induction fuel with
  | zero =>
    constructor <;> intros <;> intro a s' ha <;> cases ha
  | succ fuel ih =>
    have hb := resolvesStatements_reach fuel
    have he := resolvesExpressions_reach fuel
    have hf := findsStatements_reach fuel
    have hm := Goal.reach_modules fuel
    exact {
      declaration := fun _ => shows_declaration ih hm
      statement := fun _ => shows_statement ih
      identifierStatement := fun _ => shows_identifierStatement ih hb he hf
      function := fun _ => shows_function ih hb hf
      foreignImport := fun _ => shows_foreignImport hb hf hm
      returnStatement := fun _ => shows_returnStatement he
      loopControl := fun _ => shows_loopControl
      ifStatement := fun _ => shows_ifStatement ih he
      whileStatement := fun _ => shows_whileStatement ih he
      elseClause := fun _ => shows_elseClause ih he
      block := fun _ => shows_block ih hb
      statements := fun _ => shows_statements ih
      declarations := fun _ => shows_declarations ih }

end Statements

end Parse

/-! ## The tree of all tokens -/

namespace Tree

open Builder

/-- **Symbol tables and statements agree.**  In the tree of a source that is accepted the
root lists the functions and variables of its statements; every other scope belongs to one
node, and lists the parameters of that node, which only a function has, and then the
variables of its own statements.  Each scope lists them in the order of the source, and no
name twice.  The modules are those of the imports among the top-level statements, each once,
in the order of the first import from it. -/
theorem ofSource_lists {lx : Lexicon} {source : List UInt8} {t : Tree}
    (h : ofSource lx source = .ok t) :
    t.Lists .root (t.rootStatements.filterMap t.declared?) ∧
      (∀ scope : ScopeId, scope.index < t.scopes.size → scope ≠ .root →
        ∃! id, t.body? id = some scope) ∧
      (∀ id kind body, t.kind? id = some kind → kind.body? = some body →
        t.Lists body (t.declaredIn kind.parameters body)) ∧
      t.scopes.Distinct ∧
      t.modules.entries = (t.rootStatements.filterMap t.importedFrom?).eraseDups.map
        (⟨·, .module⟩) := by
  obtain ⟨tokens, rfl, hclean⟩ := ofSource_eq_ok h
  obtain ⟨fuel, hread⟩ := build_spec tokens
  obtain ⟨ids, hadds, hshows⟩ := (Parse.tablesStatements_reach fuel).declarations _ _ _ hread
  have hsound := (sees_ofTokens tokens).sound
  have hroot : (ofTokens tokens).1.rootStatements = ids := by
    obtain ⟨_, _, hbinds⟩ := hadds
    exact hbinds.statements hsound
  obtain ⟨hitems, himports⟩ := hshows hsound (fun hnoted => hnoted hclean) (ofTokens tokens).1
    ⟨fun _ _ hnode => hnode, fun _ _ _ => rfl⟩
  rw [← hroot] at hitems himports
  obtain ⟨lost, -, haccount⟩ := exists_accounted tokens
  have hordered := (leads_build tokens).sound.scopes.ordered
  refine ⟨lists_root hitems (ofTokens_resolves hclean).2, fun scope => haccount.existsUnique_owner,
    fun id kind body hkind hbody => ?_, (leads_build tokens).distinct, himports [] rfl⟩
  have howner : (ofTokens tokens).1.body? id = some body := by
    obtain ⟨node, hnode, rfl⟩ := Option.map_eq_some_iff.mp hkind
    rw [body?, hnode, Option.bind_some, hbody]
  exact ((haccount.agrees hordered (fun st hst => (hitems st hst).agrees) howner).inside hkind
    hbody).1

/-- In `#foreign from(m,p:());g:int=1;f:(a:int){while a{b:int=g;}c:int;}#foreign from(m,q:());`
there are two imports from one module, and the loop refers to a variable of the root. -/
theorem ofSource_lists_imports :
    ∃ t, ofSource .standard [35, 102, 111, 114, 101, 105, 103, 110, 32, 102, 114, 111, 109, 40, 109,
        44, 112, 58, 40, 41, 41, 59, 103, 58, 105, 110, 116, 61, 49, 59, 102, 58, 40, 97, 58, 105,
        110, 116, 41, 123, 119, 104, 105, 108, 101, 32, 97, 123, 98, 58, 105, 110, 116, 61, 103, 59,
        125, 99, 58, 105, 110, 116, 59, 125, 35, 102, 111, 114, 101, 105, 103, 110, 32, 102, 114,
        111, 109, 40, 109, 44, 113, 58, 40, 41, 41, 59] = .ok t ∧
      (t.scopes.table ⟨3⟩).entries = [⟨"b", .declaration⟩, ⟨"g", .reference⟩] ∧
      (∃! id, t.body? id = some ⟨3⟩) ∧ t.Lists .root (t.rootStatements.filterMap t.declared?) ∧
      t.modules.entries = [⟨"m", .module⟩] := by
  have hread : (ofSource .standard [35, 102, 111, 114, 101, 105, 103, 110, 32, 102, 114, 111, 109,
      40, 109, 44, 112, 58, 40, 41, 41, 59, 103, 58, 105, 110, 116, 61, 49, 59, 102, 58, 40, 97, 58,
      105, 110, 116, 41, 123, 119, 104, 105, 108, 101, 32, 97, 123, 98, 58, 105, 110, 116, 61, 103,
      59, 125, 99, 58, 105, 110, 116, 59, 125, 35, 102, 111, 114, 101, 105, 103, 110, 32, 102, 114,
      111, 109, 40, 109, 44, 113, 58, 40, 41, 41, 59]).toOption.map (fun t => (t.scopes.size,
        (t.scopes.table ⟨3⟩).entries, t.rootStatements.filterMap t.importedFrom?)) =
      some (5, [⟨"b", .declaration⟩, ⟨"g", .reference⟩], ["m", "m"]) := by
    decide +kernel
  obtain ⟨t, ht, hparts⟩ := Option.map_eq_some_iff.mp hread
  simp only [Prod.mk.injEq] at hparts
  obtain ⟨hsize, hentries, himports⟩ := hparts
  cases hsource : ofSource .standard _ with
  | error ds => rw [hsource] at ht; cases ht
  | ok t' =>
    rw [hsource] at ht
    cases ht
    obtain ⟨hroot, howner, -, -, hmodules⟩ := ofSource_lists hsource
    rw [himports] at hmodules
    exact ⟨t, rfl, hentries, howner ⟨3⟩ (by rw [hsize]; decide) (by decide), hroot, hmodules⟩

end Tree

end Braced
