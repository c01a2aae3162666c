import Braced.Proofs.Parse.Follows
import Braced.Proofs.Parse.Named

/-!
# Braced.Proofs.Parse.Undeclared

Where names of variables are used, and when they are refused.

A variable is used as an operand and to the left of an assignment (`Goal.Uses`).  Wherever
one of these is read the name is resolved at once, in the scope that is open there, and what
is read behind it finds no more fault with the name.  So a name is refused exactly if no scope
around its use binds it.
-/

namespace Braced

namespace Parse

open Builder Tree.Expression Tree.Statement

variable {s : Builder} {reach : Reach}

/-! ## Behind a name -/

/-- What is read of an operand behind the name of a variable. -/
def variableBehind (token : Token) : Parse (Option NodeId) := do
  let name ← alloc token.position (.ident token.identifierName)
  let step ← postfixStep
  return some (← alloc token.position (.primary (.name name) step))

/-- What is read of an assignment behind the name of its variable. -/
def assignmentBehind (reach : Reach) (token : Token) : Parse (Option NodeId) := do
  let name ← alloc token.position (.ident token.identifierName)
  let found ← reach .values
  return some (← alloc token.position (.declaration none name found))

/-- A variable is read by looking its name up, and going on behind it. -/
theorem primary_eq_variableBehind (hkind : s.current.kind = .identifier)
    (hnext : s.peekKind 1 ≠ .openParen) : primary reach s = variableBehind s.current
      (s.advance.2.resolveIdentifier s.current.identifierName s.current.position) := by
  have hvalue : primaryValue reach s = (do return some (← variableValue)) s := by
    rw [primaryValue, currentKind, look_bind, if_pos hkind, look_bind, if_neg hnext]
  rw [primary, currentPosition, look_bind, bind_apply, hvalue, ← s.advance_fst]
  rfl

/-- Behind a name stands the token that was next but one. -/
theorem current_advance_ne (hkind : s.current.kind = .identifier) (hnext : s.peekKind 1 ≠ .colon) :
    s.advance.2.current.kind ≠ .colon := by
  cases hahead : s.ahead with
  | nil =>
    have hadvance : s.advance = (s.current, s) := by rw [Builder.advance, hahead]
    rw [hadvance, hkind]
    decide
  | cons next ahead =>
    have hadvance : s.advance = (s.current, { s with current := next, ahead }) := by
      simp [Builder.advance, hahead, hkind]
    rw [hadvance]
    simpa [peekKind, hahead] using hnext

/-- An assignment is read by looking its variable up, and going on behind the name. -/
theorem variableStatement_eq_assignmentBehind (hkind : s.current.kind = .identifier)
    (hnext : s.peekKind 1 ≠ .colon) : variableStatement reach s = assignmentBehind reach s.current
      (s.advance.2.resolveIdentifier s.current.identifierName s.current.position) := by
  have hexpect : s.expect .identifier = (some s.current, s.advance.2) := by
    rw [Builder.expect, if_pos hkind, ← s.advance_fst]
  have haccept : s.advance.2.accept .colon = (false, s.advance.2) := by
    rw [Builder.accept, if_neg (current_advance_ne hkind hnext)]
  simp only [variableStatement, declaredType, Bind.bind, StateT.bind, Parse.expect, Parse.accept,
    act, hexpect, haccept, Option.bind_some]
  rfl

/-! ## Faults behind a name -/

/-- Nodes that are added report nothing. -/
theorem faultsIn_between {position position' : Position} {kind : NodeKind} {s₁ : Builder}
    (h : (s.alloc position kind).2.Follows s₁) (kind' : NodeKind) :
    s.Extends (s₁.alloc position' kind').2 ∧ s.FaultsIn (s₁.alloc position' kind').2 := by
  have hfirst : s.Extends (s.alloc position kind).2 := s.extends_alloc position kind
  have hlast : s₁.Extends (s₁.alloc position' kind').2 := s₁.extends_alloc position' kind'
  have hname : s.FaultsIn (s.alloc position kind).2 := .of_eq rfl
  exact ⟨(hfirst.trans h.extends_).trans hlast, hname.trans hfirst h.faults⟩

theorem faultsIn_variableBehind (token : Token) :
    (variableBehind token).Ensures s fun _ s' => s.Extends s' ∧ s.FaultsIn s' := by
  rw [variableBehind, ensures_bind, alloc, ensures_act, ensures_bind]
  refine (keeps_postfixStep (R := Follows) _).imp fun step s₁ h₁ => ?_
  simp only [ensures_bind, alloc, ensures_act, ensures_pure]
  exact faultsIn_between h₁ _

theorem faultsIn_assignmentBehind (hr : ∀ {α : Type} (goal : Goal α), Keeps Follows (reach goal))
    (token : Token) :
    (assignmentBehind reach token).Ensures s fun _ s' => s.Extends s' ∧ s.FaultsIn s' := by
  rw [assignmentBehind, ensures_bind, alloc, ensures_act, ensures_bind]
  refine (hr .values _).imp fun found s₁ h₁ => ?_
  simp only [ensures_bind, alloc, ensures_act, ensures_pure]
  exact faultsIn_between h₁ _

end Parse

/-! ## Uses of variables -/

namespace Goal

/-- At the next token, a name, the part uses a variable; `behind` reads what comes then. -/
inductive Uses (s : Builder) : Goal (Option NodeId) → (Token → Parse (Option NodeId)) → Prop
  | operand (hkind : s.current.kind = .identifier) (hnext : s.peekKind 1 ≠ .openParen) :
      Uses s (production .primary) Parse.variableBehind
  | assigned (hkind : s.current.kind = .identifier) (hnext : s.peekKind 1 ≠ .colon) :
      Uses s (production .variableStatement) (Parse.assignmentBehind fun goal => goal.run .standard)

end Goal

namespace Goal

open Builder Parse

variable {goal : Goal (Option NodeId)} {s : Builder} {rest : Token → Parse (Option NodeId)}

/-- The name of a variable is resolved before anything behind it is read. -/
theorem Uses.run_eq (h : goal.Uses s rest) (hfits : goal.Fits s) :
    goal.run .standard s = rest s.current
      (s.advance.2.resolveIdentifier s.current.identifierName s.current.position) := by
  rw [run_eq_step hfits]
  cases h with
  | operand hkind hnext => exact primary_eq_variableBehind hkind hnext
  | assigned hkind hnext => exact variableStatement_eq_assignmentBehind hkind hnext

theorem Uses.faultsIn (h : goal.Uses s rest) (token : Token) (s' : Builder) :
    (rest token).Ensures s' fun _ s'' => s'.Extends s'' ∧ s'.FaultsIn s'' := by
  cases h with
  | operand => exact faultsIn_variableBehind token
  | assigned =>
    exact faultsIn_assignmentBehind (fun goal s _ _ hread => reach_follows _ goal s _ _ hread) token

/-- A name that begins neither a call nor a declaration is read as an assignment. -/
theorem refers_variableStatement (hparen : s.peekKind 1 ≠ .openParen)
    (hcolon : s.peekKind 1 ≠ .colon) :
    (production .identifierStatement).Refers s (.production .variableStatement) s := by
  intro reach _ hnone
  have hstep : (production .identifierStatement).step .standard reach s =
      Tree.Statement.identifierStatement reach s := rfl
  rw [hstep]
  simp [Tree.Statement.identifierStatement, Bind.bind, StateT.bind, look, hparen, hcolon, hnone]

end Goal

namespace Builder

open Parse

/-- Resolving a name reports that it is undeclared, or nothing. -/
theorem Leads.diagnostics_resolveIdentifier_iff {tokens : List Token} {s : Builder}
    (h : Leads (ofTokens tokens) s) (name : String) (position : Position) :
    ((s.resolveIdentifier name position).diagnostics
        = s.diagnostics.push ⟨.undeclaredIdentifier name, position⟩ ↔ ¬ s.Visible name) ∧
      ((s.resolveIdentifier name position).diagnostics = s.diagnostics ↔ s.Visible name) := by
  have hpush : s.diagnostics.push ⟨.undeclaredIdentifier name, position⟩ ≠ s.diagnostics := by
    intro heq
    simpa using congrArg Array.size heq
  obtain ⟨hvisible, heq⟩ | ⟨hvisible, heq⟩ := h.sound.diagnostics_resolveIdentifier name position
  · simp [heq, hvisible, hpush.symm]
  · simp [heq, hvisible, hpush]

/-- **A name is refused exactly if nothing around its use binds it.**  Reading a list
of tokens is a sequence of operations, and whatever operations have been done: the
root is the outermost of the scopes that are open; an outer name that has been noted
in a scope is bound in one around it, so the root notes none; no scope has a module
among its names; and resolving a name reports that it is undeclared, and only that, if
neither the current scope nor one around it binds the name, and nothing if one does.
Wherever a variable is used, its name is resolved so before anything behind it is read, and
what else is wrong is wrong with tokens behind it. -/
theorem resolveIdentifier_exact (tokens : List Token) :
    (∀ s fuel {α : Type} (goal : Goal α), Leads (ofTokens tokens) s →
      (Goal.reach .standard fuel goal).Ensures s fun _ s' => Leads (ofTokens tokens) s') ∧
    Leads (ofTokens tokens) (Tree.build tokens) ∧
    (∀ s, Leads (ofTokens tokens) s →
      s.scopes.Encloses .root s.scope ∧
      (∀ id, ∀ e ∈ (s.scopes.table id).entries, e.kind ≠ .module ∧
        (e.kind = .reference → id ≠ .root ∧
          ∃ outer, s.scopes.Surrounds outer id ∧ (s.scopes.table outer).Binds e.name)) ∧
      ∀ name position,
        ((s.resolveIdentifier name position).diagnostics
          = s.diagnostics.push ⟨.undeclaredIdentifier name, position⟩ ↔ ¬ s.Visible name) ∧
        ((s.resolveIdentifier name position).diagnostics = s.diagnostics ↔ s.Visible name)) ∧
    ∀ goal s rest, Goal.ReadIn tokens goal s → goal.Uses s rest →
      ∃ behind : Builder,
        behind = s.advance.2.resolveIdentifier s.current.identifierName s.current.position ∧
        goal.run .standard s = rest s.current behind ∧
        Gives (goal.run .standard) s (fun _ s' => behind.Extends s' ∧ behind.FaultsIn s') ∧
        (behind.diagnostics = s.diagnostics.push
            ⟨.undeclaredIdentifier s.current.identifierName, s.current.position⟩ ↔
          ¬ s.Visible s.current.identifierName) ∧
        (behind.diagnostics = s.diagnostics ↔ s.Visible s.current.identifierName) := by
  refine ⟨fun s fuel α goal h => ?_, leads_build tokens,
    fun s h => ⟨?_, fun id e he => ⟨?_, fun hkind => ?_⟩, ?_⟩, fun goal s rest hread huses => ?_⟩
  · exact (Goal.reach_keeps (R := Leads) fuel goal s).imp fun _ _ hleads => .trans h hleads
  · exact h.sound.scopes.rooted _ h.sound.scope
  · exact h.sound.scopes.module id e he
  · obtain ⟨outer, hsurrounds, hbinds⟩ := h.sound.scopes.reference id e he hkind
    refine ⟨?_, outer, hsurrounds, hbinds⟩
    rintro rfl
    exact h.sound.scopes.ordered.not_surrounds_root outer hsurrounds
  · exact h.diagnostics_resolveIdentifier_iff
  · have hrun := huses.run_eq hread.fits.2
    have hleads : Leads (ofTokens tokens) s.advance.2 := hread.leads.tail (.advance s)
    have hexact := hleads.diagnostics_resolveIdentifier_iff s.current.identifierName
      s.current.position
    obtain ⟨current, ahead, hadvance⟩ := s.advance_snd
    obtain ⟨found, s', hfound, -⟩ := Goal.run_gives hread.fits.2
    refine ⟨_, rfl, hrun, ⟨found, s', hfound, ?_⟩, ?_⟩
    · rw [hrun] at hfound
      exact huses.faultsIn s.current _ _ _ hfound
    · -- passing the name changes neither the scopes nor what is noted
      rw [hadvance] at hexact ⊢
      exact hexact

/-- The tokens `x;` are read as an assignment, which reports that `x` is undeclared. -/
theorem resolveIdentifier_exact_assigned :
    ∃ (s : Builder) (found : Option NodeId) (s' : Builder),
      Goal.ReadIn [⟨.identifier, .identifier "x", ⟨1, 1⟩⟩, ⟨.semicolon, .none, ⟨1, 2⟩⟩]
        (.production .variableStatement) s ∧
      (Goal.production .variableStatement).run .standard s = some (found, s') ∧
      ⟨.undeclaredIdentifier "x", ⟨1, 1⟩⟩ ∈ s'.diagnostics.toList := by
  have hread := (Goal.readIn_identifierStatement [⟨.identifier, .identifier "x", ⟨1, 1⟩⟩,
    ⟨.semicolon, .none, ⟨1, 2⟩⟩] rfl).refer (Goal.refers_variableStatement (by decide) (by decide))
  obtain ⟨behind, -, -, ⟨found, s', hrun, hextends, -⟩, hundeclared, -⟩ :=
    (resolveIdentifier_exact _).2.2.2 _ _ _ hread (.assigned rfl (by decide))
  refine ⟨_, found, s', hread, hrun, hextends.diagnostics.subset ?_⟩
  rw [hundeclared.mpr]
  · exact Array.mem_toList_iff.mpr (Array.mem_push_self ..)
  · rw [hread.leads.sound.visible_iff]
    decide

end Builder

end Braced
