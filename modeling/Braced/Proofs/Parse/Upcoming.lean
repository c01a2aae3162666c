import Braced.Proofs.Parse.Extends

/-!
# Braced.Proofs.Parse.Upcoming

How each operation changes the tokens that are still to come.

Only `advance`, and what is made of it, passes a token; in front of a token it
passes exactly one.  All other operations leave the tokens alone.
-/

namespace Braced.Builder

/-! ## Operations that leave the tokens alone -/

@[simp] theorem rest_report (s : Builder) (fault : Fault) (position : Position) :
    (s.report fault position).rest = s.rest := rfl

@[simp] theorem rest_alloc (s : Builder) (position : Position) (kind : NodeKind) :
    (s.alloc position kind).2.rest = s.rest := rfl

@[simp] theorem rest_enterScope (s : Builder) (position : Position) :
    (s.enterScope position).2.rest = s.rest := rfl

@[simp] theorem rest_exitScope (s : Builder) : s.exitScope.rest = s.rest := rfl

@[simp] theorem rest_addStatement (s : Builder) (id : NodeId) :
    (s.addStatement id).rest = s.rest := rfl

@[simp] theorem rest_setLoopDepth (s : Builder) (depth : Nat) :
    (s.setLoopDepth depth).rest = s.rest := rfl

@[simp] theorem rest_exitExpression (s : Builder) (levels : Nat) :
    (s.exitExpression levels).rest = s.rest := rfl

/-- The builder at another depth of an expression. -/
def atDepth (s : Builder) (depth : Nat) : Builder :=
  { s with expressionDepth := depth }

@[simp] theorem rest_atDepth (s : Builder) (depth : Nat) : (s.atDepth depth).rest = s.rest := rfl

/-- Going deeper is noted in the depth alone, or is refused. -/
theorem enterExpression_cases (s : Builder) :
    s.enterExpression = (true, s.atDepth (s.expressionDepth + 1)) ∨
      s.enterExpression = (false,
        (s.report (.expressionTooDeep maxExpressionDepth) s.current.position).skipToStatementEnd) := by
  unfold enterExpression
  split
  · exact .inl rfl
  · exact .inr rfl

theorem lt_of_enterExpression (s : Builder) (h : s.enterExpression.1) :
    s.expressionDepth < maxExpressionDepth := by
  unfold enterExpression at h
  split at h
  · assumption
  · cases h

@[simp] theorem rest_declare (s : Builder) (name : String) (kind : EntryKind)
    (position : Position) : (s.declare name kind position).rest = s.rest := by
  unfold declare
  split <;> rfl

@[simp] theorem rest_resolveIdentifier (s : Builder) (name : String) (position : Position) :
    (s.resolveIdentifier name position).rest = s.rest := by
  unfold resolveIdentifier
  split
  · rfl
  · split
    · rfl
    · exact rest_declare ..

@[simp] theorem rest_resolveFunction (s : Builder) (name : String) (position : Position) :
    (s.resolveFunction name position).rest = s.rest := by
  unfold resolveFunction
  split
  · rfl
  · split <;> rfl

@[simp] theorem rest_addModule (s : Builder) (name : String) :
    (s.addModule name).rest = s.rest := by
  unfold addModule
  split <;> rfl

/-- Builders with the same tokens have the same next token. -/
theorem current_eq_of_rest {s s' : Builder} (h : s'.rest = s.rest) : s'.current = s.current :=
  (List.cons.inj h).1

theorem upcoming_eq_of_rest {s s' : Builder} (h : s'.rest = s.rest) : s'.upcoming = s.upcoming := by
  rw [upcoming, h, upcoming]

/-! ## Passing a token -/

theorem hasTokens_iff (s : Builder) : s.hasTokens ↔ s.current.kind ≠ .eof := by
  simp [hasTokens]

/-- In front of a token, that token is passed. -/
theorem rest_advance {s : Builder} (hs : s.Terminated) (h : s.current.kind ≠ .eof) :
    s.rest = s.current :: s.advance.2.rest := by
  obtain ⟨t, ht, hkind⟩ := hs
  cases hahead : s.ahead with
  | nil =>
    rw [rest, hahead, List.mem_singleton] at ht
    rw [ht] at hkind
    exact absurd hkind h
  | cons next ahead => simp only [advance, rest, hahead, if_neg h]

/-- In front of a token, that token is the first one to come. -/
theorem upcoming_advance {s : Builder} (hs : s.Terminated) (h : s.current.kind ≠ .eof) :
    s.upcoming = s.current :: s.advance.2.upcoming := by
  rw [upcoming, upcoming, rest_advance hs h, List.takeWhile_cons_of_pos (by simpa using h)]

/-- At the end nothing is to come. -/
theorem upcoming_eq_nil_iff (s : Builder) : s.upcoming = [] ↔ s.current.kind = .eof := by
  simp [upcoming, rest, List.takeWhile_cons]

theorem advance_fst (s : Builder) : s.advance.1 = s.current := by
  unfold advance
  split
  · split <;> rfl
  · rfl

/-- How many tokens are to come. -/
def remaining (s : Builder) : Nat :=
  s.upcoming.length

theorem Extends.remaining_le {s s' : Builder} (h : s.Extends s') : s'.remaining ≤ s.remaining := by
  obtain ⟨passed, hpassed⟩ := h.upcoming_eq
  rw [remaining, remaining, hpassed, List.length_append]
  exact Nat.le_add_left ..

theorem remaining_advance {s : Builder} (hs : s.Terminated) (h : s.hasTokens) :
    s.advance.2.remaining < s.remaining := by
  rw [remaining, remaining, upcoming_advance hs (s.hasTokens_iff.mp h)]
  exact Nat.lt_succ_self _

/-- Whether a token is the expected one or not, it is passed. -/
theorem remaining_expect {s : Builder} (hs : s.Terminated) (h : s.hasTokens) (kind : TokenKind) :
    (s.expect kind).2.remaining < s.remaining := by
  unfold expect
  split
  · exact remaining_advance hs h
  · exact remaining_advance (s := s.reportUnexpected kind) hs h

/-- A token that was expected has been there. -/
theorem hasTokens_of_expect {s : Builder} {kind : TokenKind} (hkind : kind ≠ .eof) {token : Token}
    (h : (s.expect kind).1 = some token) : s.hasTokens ∧ token = s.current := by
  unfold expect at h
  split at h
  · next hcurrent =>
    rw [← advance_fst]
    exact ⟨s.hasTokens_iff.mpr (hcurrent ▸ hkind), (Option.some.inj h).symm⟩
  · cases h

end Braced.Builder
