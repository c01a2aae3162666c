import Braced.Proofs.Grammar.Takes
import Braced.Proofs.Parse.Expression
import Mathlib.Data.List.TakeWhile

/-!
# Braced.Proofs.Grammar.Expression

Reading an expression takes the kinds that the grammar derives for it.

What follows an expression in a program neither goes on with it nor is an
operator behind an operand, so reading stops where the derivation does.  Where
operators are read with a certain power, the operations at the front that bind
more strongly are taken, and the others are left.
-/

namespace Braced

open Phrase Rule

/-! ## What follows -/

/-- Whether a token can follow an expression. -/
def endsExpression : TokenKind → Bool
  | .openCurly | .semicolon | .closeParen | .comma | .assignment => true
  | _ => false

/-- Whether a token can follow an operand. -/
def endsOperand (kind : TokenKind) : Bool :=
  endsExpression kind || (BinaryOp.ofToken? kind).isSome

/-- Whether an operand can begin with a token. -/
def beginsOperand (kind : TokenKind) : Bool :=
  (RuleBook.standard.operand? kind).isSome

/-- The first of the kinds is there and has the property. -/
def StartsWith (p : TokenKind → Bool) (ks : List TokenKind) : Prop :=
  ∃ k ls, ks = k :: ls ∧ p k

variable {us ks : List TokenKind} {parts : List (List TokenKind)}

theorem startsWith_cons {p : TokenKind → Bool} {k : TokenKind} (h : p k) (ls : List TokenKind) :
    StartsWith p (k :: ls) :=
  ⟨k, ls, rfl, h⟩

theorem StartsWith.append {p : TokenKind → Bool} (h : StartsWith p us) (ks : List TokenKind) :
    StartsWith p (us ++ ks) := by
  obtain ⟨k, ls, rfl, hk⟩ := h
  exact ⟨k, ls ++ ks, rfl, hk⟩

theorem StartsWith.headD {p : TokenKind → Bool} (h : StartsWith p us) :
    p (us.headD .eof) := by
  obtain ⟨k, ls, rfl, hk⟩ := h
  exact hk

theorem StartsWith.endsOperand (h : StartsWith endsExpression ks) : StartsWith endsOperand ks := by
  obtain ⟨k, ls, rfl, hk⟩ := h
  exact ⟨k, ls, rfl, by rw [Braced.endsOperand, hk, Bool.true_or]⟩

/-- Behind an operand there are operations, or the end of the expression. -/
theorem startsWith_operations (hparts : ∀ part ∈ parts, IsOperation part)
    (h : StartsWith endsExpression ks) : StartsWith endsOperand (parts.flatten ++ ks) := by
  cases parts with
  | nil => exact h.endsOperand
  | cons part parts =>
    obtain ⟨op, us, -, rfl⟩ := (List.forall_mem_cons.mp hparts).1
    refine ⟨op.token, us ++ parts.flatten ++ ks, by simp, ?_⟩
    rw [Braced.endsOperand, (BinaryOp.ofToken?_eq_some_iff _ op).mpr rfl]
    exact Bool.or_true _

/-- What follows an operand is no operator behind an operand and no
parenthesis. -/
theorem not_postfix_of_endsOperand {kind : TokenKind} (h : endsOperand kind) :
    Tree.Expression.postfixOp? kind = none ∧ kind ≠ .openParen := by
  cases kind <;> first | exact ⟨rfl, by decide⟩ | cases h

theorem power?_of_endsExpression {kind : TokenKind} (h : endsExpression kind) :
    RuleBook.standard.power? kind = none := by
  cases kind <;> first | rfl | cases h

/-! ## Operations -/

/-- Whether an operation binds more strongly than `power`. -/
def binds (power : Power) (part : List TokenKind) : Bool :=
  (part.head?.bind RuleBook.standard.power?).any fun next => power.rank < next.rank

theorem binds_cons (power : Power) {op : BinaryOp} {next : Power}
    (h : RuleBook.standard.power? op.token = some next) (us : List TokenKind) :
    binds power (op.token :: us) = decide (power.rank < next.rank) := by
  rw [binds, List.head?_cons, Option.bind_some, h, Option.any_some]

theorem exists_power (op : BinaryOp) : ∃ power, RuleBook.standard.power? op.token = some power ∧
    0 < power.rank := by
  cases op <;> exact ⟨_, rfl, by decide⟩

/-- Every operation binds more strongly than nothing. -/
theorem dropWhile_binds_lowest (hparts : ∀ part ∈ parts, IsOperation part) :
    parts.dropWhile (binds .lowest) = [] := by
  rw [List.dropWhile_eq_nil_iff]
  intro part hpart
  obtain ⟨op, us, -, rfl⟩ := hparts part hpart
  obtain ⟨power, hpower, hrank⟩ := exists_power op
  rw [binds_cons .lowest hpower]
  exact decide_eq_true hrank

/-- What binds more strongly than an operator that does is passed as well. -/
theorem dropWhile_binds_binds {power next : Power} (h : power.rank < next.rank)
    (parts : List (List TokenKind)) :
    (parts.dropWhile (binds next)).dropWhile (binds power) = parts.dropWhile (binds power) := by
  have hbinds : ∀ part, binds next part → binds power part := by
    intro part hpart
    unfold binds at hpart ⊢
    cases hfirst : part.head?.bind RuleBook.standard.power? with
    | none => rw [hfirst] at hpart; cases hpart
    | some other =>
      rw [hfirst, Option.any_some, decide_eq_true_eq] at hpart
      rw [Option.any_some, decide_eq_true_eq]
      omega
  induction parts with
  | nil => rfl
  | cons part parts ih =>
    by_cases hpart : binds next part
    · rw [List.dropWhile_cons_of_pos hpart, ih, List.dropWhile_cons_of_pos (hbinds part hpart)]
    · rw [List.dropWhile_cons_of_neg hpart]

/-! ## What operands begin with -/

theorem operand?_of_prefix {op : UnaryOp} {kind : TokenKind} (h : op.token? = some kind) :
    RuleBook.standard.operand? kind = some .prefixed := by
  cases op <;> cases h <;> rfl

/-- An operand without operators in front of it begins with a constant or a
name. -/
theorem exists_cons_of_primary (h : primaryExpression.Derives us) :
    ∃ kind ls, us = kind :: ls ∧ kind.carries := by
  rcases derives_primaryExpression_iff.mp h with ⟨kind, hkind, rfl⟩ | hcall
  · exact ⟨kind, [], rfl, hkind⟩
  · obtain ⟨_, -, rfl⟩ := derives_functionCall_iff.mp hcall
    exact ⟨_, _, rfl, rfl⟩

theorem operand?_of_carries {kind : TokenKind} (h : kind.carries) :
    RuleBook.standard.operand? kind = some .primary := by
  cases kind <;> first | rfl | cases h

/-- An expression begins with what an operand begins with. -/
theorem startsWith_expression (h : expression.Derives us) :
    StartsWith beginsOperand us := by
  obtain ⟨first, parts, hfirst, -, rfl⟩ := derives_expression_iff.mp h
  refine StartsWith.append ?_ _
  cases derives_unaryExpression_iff.mp hfirst with
  | prefixed hop _ => exact ⟨_, _, rfl, by rw [beginsOperand, operand?_of_prefix hop]; rfl⟩
  | nested _ => exact ⟨_, _, rfl, rfl⟩
  | postfixed hpostfix =>
    obtain ⟨ws, step, hws, rfl⟩ := derives_postfixExpression_iff.mp hpostfix
    obtain ⟨kind, ls, rfl, hkind⟩ := exists_cons_of_primary hws
    exact ⟨kind, _, rfl, by rw [beginsOperand, operand?_of_carries hkind]; rfl⟩

namespace Parse

open Builder Tree.Expression

/-! ## What the parts take -/

/-- What the parts of expressions are known to take. -/
structure TakesExpressions (reach : Reach) : Prop where
  keeps : ∀ {α : Type} (goal : Goal α), (reach goal).Keeps Extends
  unary : ∀ s (ks : List TokenKind) {us}, unaryExpression.Derives us → StartsWith endsOperand ks →
    (reach (.production .unary)).Ensures s fun found s' => s.Takes s' (us ++ ks) ks found.isSome
  primary : ∀ s ks {us}, postfixExpression.Derives us → StartsWith endsOperand ks →
    (reach (.production .primary)).Ensures s fun found s' => s.Takes s' (us ++ ks) ks found.isSome
  prefixed : ∀ s kind ks {us}, unaryExpression.Derives us → StartsWith endsOperand ks →
    (reach (.production .prefixed)).Ensures s fun found s' =>
      s.Takes s' (kind :: (us ++ ks)) ks found.isSome
  grouping : ∀ s ks {us}, expression.Derives us →
    (reach (.production .grouping)).Ensures s fun found s' =>
      s.Takes s' (.openParen :: (us ++ .closeParen :: ks)) ks found.isSome
  expression : ∀ power s ks {us} {parts : List (List TokenKind)}, unaryExpression.Derives us →
    (∀ part ∈ parts, IsOperation part) → StartsWith endsExpression ks →
    (reach (.expression power)).Ensures s fun found s' => s.Takes s' (us ++ (parts.flatten ++ ks))
      ((parts.dropWhile (binds power)).flatten ++ ks) found.isSome
  operators : ∀ left power s ks {parts : List (List TokenKind)}, (∀ part ∈ parts, IsOperation part) →
    StartsWith endsExpression ks →
    (reach (.operators left power)).Ensures s fun found s' => s.Takes s' (parts.flatten ++ ks)
      ((parts.dropWhile (binds power)).flatten ++ ks) found.isSome
  binary : ∀ left power s op ks {us} {parts : List (List TokenKind)}, unaryExpression.Derives us →
    (∀ part ∈ parts, IsOperation part) → StartsWith endsExpression ks →
    (reach (.binary left power)).Ensures s fun found s' =>
      s.Takes s' (BinaryOp.token op :: (us ++ (parts.flatten ++ ks)))
        ((parts.dropWhile (binds power)).flatten ++ ks) found.isSome
  call : ∀ isStatement s ks {us}, functionCall.Derives us →
    (reach (.call isStatement)).Ensures s fun found s' => s.Takes s' (us ++ ks) ks found.isSome
  arguments : ∀ s ks {us}, AreExpressions us →
    (reach .arguments).Ensures s fun found s' =>
      s.Takes s' (us ++ .closeParen :: ks) (.closeParen :: ks) found.isSome

variable {reach : Reach} (hr : TakesExpressions reach) (s : Builder) (ks : List TokenKind)
  {us : List TokenKind} {parts : List (List TokenKind)}

include hr

/-- With the lowest power a whole expression is taken. -/
theorem TakesExpressions.whole (hus : Rule.expression.Derives us)
    (hks : StartsWith endsExpression ks) :
    (reach (.expression .lowest)).Ensures s fun found s' =>
      s.Takes s' (us ++ ks) ks found.isSome := by
  obtain ⟨first, parts, hfirst, hparts, rfl⟩ := derives_expression_iff.mp hus
  have htakes := hr.expression .lowest s ks hfirst hparts hks
  rw [dropWhile_binds_lowest hparts, List.flatten_nil, List.nil_append] at htakes
  rw [List.append_assoc]
  exact htakes

/-! ## Operators -/

theorem takes_expression (power : Power) (hus : unaryExpression.Derives us)
    (hparts : ∀ part ∈ parts, IsOperation part) (hks : StartsWith endsExpression ks) :
    (expression reach power).Ensures s fun found s' => s.Takes s' (us ++ (parts.flatten ++ ks))
      ((parts.dropWhile (binds power)).flatten ++ ks) found.isSome := by
  rw [Tree.Expression.expression, ensures_bind]
  refine (hr.unary s _ hus (startsWith_operations hparts hks)).imp fun found s₁ h₁ => ?_
  cases found with
  | none => exact (ensures_pure _).mpr (h₁.of_not Bool.false_ne_true _ _)
  | some left => exact (hr.operators left power s₁ ks hparts hks).imp fun _ _ h₂ => h₁.trans h₂

theorem takes_binary (left : NodeId) (power : Power) (op : BinaryOp)
    (hus : unaryExpression.Derives us) (hparts : ∀ part ∈ parts, IsOperation part)
    (hks : StartsWith endsExpression ks) :
    (binary reach left power).Ensures s fun found s' =>
      s.Takes s' (op.token :: (us ++ (parts.flatten ++ ks)))
        ((parts.dropWhile (binds power)).flatten ++ ks) found.isSome := by
  refine (keeps_binary hr.keeps left power).takes fun hs => ?_
  have hop := (BinaryOp.ofToken?_eq_some_iff _ op).mpr hs.current_kind.1
  have h₁ := s.takes_advance op.token (us ++ (parts.flatten ++ ks))
  rw [binary, ensures_bind, advance, ensures_act, advance_fst, hop, ensures_bind]
  refine (hr.expression power _ ks hus hparts hks).imp fun found s₂ h₂ => ?_
  cases found with
  | none => exact (ensures_pure _).mpr ((h₁.trans h₂).of_not Bool.false_ne_true _ _)
  | some right =>
    simp only [ensures_bind, ensures_look, alloc, ensures_act, ensures_pure]
    exact (h₁.trans h₂).then_quiet (s₂.takes_alloc ..)

theorem takes_operators (left : NodeId) (power : Power)
    (hparts : ∀ part ∈ parts, IsOperation part) (hks : StartsWith endsExpression ks) :
    (operators .standard reach left power).Ensures s fun found s' =>
      s.Takes s' (parts.flatten ++ ks) ((parts.dropWhile (binds power)).flatten ++ ks)
        found.isSome := by
  refine (keeps_operators hr.keeps left power).takes fun hs => ?_
  cases parts with
  | nil =>
    obtain ⟨k, ls, rfl, hk⟩ := hks
    refine ensures_operators (fun _ => (Takes.refl s _).imp fun _ => rfl)
      (s.takes_refuseExpression _ _ _) fun next hnext _ => ?_
    rw [hs.current_kind.1, power?_of_endsExpression hk] at hnext
    cases hnext
  | cons part parts =>
    obtain ⟨⟨op, us, hus, rfl⟩, hparts'⟩ := List.forall_mem_cons.mp hparts
    have hkind : s.current.kind = op.token := hs.current_kind.1
    refine ensures_operators (fun hends => ?_) (s.takes_refuseExpression _ _ _)
      fun next hnext hrank => ?_
    · obtain ⟨next, hnext, -⟩ := exists_power op
      have hnot : ¬binds power (op.token :: us) := by
        rw [binds_cons power hnext us, decide_eq_true_eq]
        exact Nat.not_lt_of_le (hends next (hkind ▸ hnext))
      rw [List.dropWhile_cons_of_neg hnot]
      exact (Takes.refl s _).imp fun _ => rfl
    · rw [hkind] at hnext
      have hyes : binds power (op.token :: us) := by
        rw [binds_cons power hnext us]
        exact decide_eq_true hrank
      rw [List.dropWhile_cons_of_pos hyes, List.flatten_cons, List.cons_append, List.cons_append,
        List.append_assoc]
      have h₁ := s.takes_atDepth (op.token :: (us ++ (parts.flatten ++ ks)))
        (s.expressionDepth + 1)
      refine (hr.binary left next _ op ks hus hparts' hks).imp fun found s₂ h₂ => ?_
      have h₁₂ := h₁.trans h₂
      cases found with
      | none => exact (h₁₂.then_quiet (s₂.takes_exitExpression _ 1)).of_not Bool.false_ne_true _ _
      | some folded =>
        have hlater : ∀ part ∈ parts.dropWhile (binds next), IsOperation part :=
          fun part hpart => hparts' part ((List.dropWhile_suffix _).subset hpart)
        refine (hr.operators folded power s₂ ks hlater hks).imp fun found s₃ h₃ => ?_
        rw [dropWhile_binds_binds hrank] at h₃
        exact (h₁₂.trans h₃).then_quiet (s₃.takes_exitExpression _ 1)

/-! ## Operands with operators -/

theorem takes_operand (hus : unaryExpression.Derives us) (hks : StartsWith endsOperand ks) :
    (operand .standard reach).Ensures s fun found s' => s.Takes s' (us ++ ks) ks found.isSome := by
  refine (keeps_operand hr.keeps).takes fun hs => ?_
  rw [operand, ensures_bind, currentKind, ensures_look]
  cases derives_unaryExpression_iff.mp hus with
  | @prefixed op kind us hop hoperand =>
    rw [hs.current_kind.1, operand?_of_prefix hop]
    exact hr.prefixed _ kind ks hoperand hks
  | @nested us hinner =>
    rw [hs.current_kind.1, show RuleBook.standard.operand? .openParen = some .grouping from rfl,
      List.cons_append, List.append_assoc]
    exact hr.grouping _ ks hinner
  | postfixed hpostfix =>
    obtain ⟨ws, step, hws, rfl⟩ := derives_postfixExpression_iff.mp hpostfix
    obtain ⟨kind, ls, rfl, hkind⟩ := exists_cons_of_primary hws
    rw [hs.current_kind.1, operand?_of_carries hkind]
    exact hr.primary _ ks hpostfix hks

theorem takes_unary (hus : unaryExpression.Derives us) (hks : StartsWith endsOperand ks) :
    (unary .standard reach).Ensures s fun found s' => s.Takes s' (us ++ ks) ks found.isSome := by
  have h₁ := s.takes_atDepth (us ++ ks) (s.expressionDepth + 1)
  exact ensures_unary (s.takes_refuseExpression _ _ _) fun _ =>
    (takes_operand hr _ ks hus hks).imp fun found s₂ h₂ =>
      (h₁.trans h₂).then_quiet (s₂.takes_exitExpression _ 1)

theorem takes_prefixed (kind : TokenKind) (hus : unaryExpression.Derives us)
    (hks : StartsWith endsOperand ks) :
    (prefixed reach).Ensures s fun found s' =>
      s.Takes s' (kind :: (us ++ ks)) ks found.isSome := by
  have h₁ := s.takes_advance kind (us ++ ks)
  rw [prefixed, ensures_bind, advance, ensures_act, advance_fst, ensures_bind]
  refine (hr.unary _ ks hus hks).imp fun found s₂ h₂ => ?_
  cases found with
  | none => exact (ensures_pure _).mpr (h₁.trans h₂)
  | some operand =>
    simp only [ensures_bind, alloc, ensures_act, ensures_pure]
    exact (h₁.trans h₂).then_quiet (s₂.takes_alloc ..)

theorem takes_grouping (hus : Rule.expression.Derives us) :
    (grouping reach).Ensures s fun found s' =>
      s.Takes s' (.openParen :: (us ++ .closeParen :: ks)) ks found.isSome := by
  have h₁ := s.takes_advance .openParen (us ++ .closeParen :: ks)
  rw [grouping, ensures_bind, advance, ensures_act, advance_fst, ensures_bind]
  have hclose : StartsWith endsExpression (.closeParen :: ks) := startsWith_cons rfl ks
  refine (hr.whole _ _ hus hclose).imp fun found s₂ h₂ => ?_
  cases found with
  | none => exact (ensures_pure _).mpr ((h₁.trans h₂).of_not Bool.false_ne_true _ _)
  | some operand =>
    simp only [ensures_bind, expectClosing, alloc, ensures_act, ensures_pure]
    have h₃ := (s₂.takes_expectClosing .closeParen ks).then_quiet (takes_alloc _ _ s.current.position
      (.unary .nested operand))
    exact ((h₁.trans h₂).trans h₃).imp fun _ => rfl

/-! ## Operands without operators -/

omit hr in
/-- The token of a constant carries its value. -/
theorem exists_constant {t : Token} (h : t.Fits) (hcarries : t.kind.carries)
    (hname : t.kind ≠ .identifier) : ∃ value, constant? t.value = some value := by
  rw [Token.Fits] at h
  cases hvalue : t.value with
  | none =>
    rw [hvalue, TokenValue.fits, hcarries] at h
    cases h
  | identifier name =>
    rw [hvalue] at h
    exact absurd (of_decide_eq_true h) hname
  | _ => exact ⟨_, rfl⟩

theorem takes_primaryValue (hus : primaryExpression.Derives us)
    (hks : ks.headD .eof ≠ .openParen) :
    (primaryValue reach).Ensures s fun found s' => s.Takes s' (us ++ ks) ks found.isSome := by
  refine (keeps_primaryValue hr.keeps).takes fun hs => ?_
  rw [primaryValue, ensures_bind, currentKind, ensures_look]
  rcases derives_primaryExpression_iff.mp hus with ⟨kind, hkind, rfl⟩ | hcall
  · have hcurrent := hs.current_kind.1
    have h₁ := s.takes_advance kind ks
    by_cases hname : kind = .identifier
    · subst hname
      have hsecond : s.peekKind 1 = ks.headD .eof := hs.peekKind_one
      rw [if_pos hcurrent, ensures_bind, ensures_look, hsecond, if_neg hks]
      simp only [variableValue, ensures_bind, advance, resolveIdentifier, alloc, ensures_act,
        ensures_change, ensures_pure]
      have h₂ := (h₁.trans (takes_resolveIdentifier _ ks s.advance.1.identifierName
        s.advance.1.position)).trans (takes_alloc _ ks s.advance.1.position
        (.ident s.advance.1.identifierName))
      exact h₂.imp fun _ => rfl
    · rw [if_neg (by rw [hcurrent]; exact hname), constantValue, ensures_bind, advance,
        ensures_act, advance_fst]
      have hfits : s.current.Fits := hs.proper.fits _ (List.mem_cons_self ..)
      rw [← hcurrent] at hkind hname
      obtain ⟨value, hvalue⟩ := exists_constant hfits hkind hname
      rw [hvalue]
      exact (ensures_pure _).mpr (h₁.imp fun _ => rfl)
  · obtain ⟨ws, -, rfl⟩ := derives_functionCall_iff.mp hcall
    have hsecond : s.peekKind 1 = .openParen := hs.peekKind_one
    rw [if_pos hs.current_kind.1, ensures_bind, ensures_look, if_pos hsecond, ensures_bind]
    refine (hr.call false s ks hcall).imp fun found s₁ h₁ => (ensures_pure _).mpr ?_
    rw [Option.isSome_map]
    exact h₁

omit hr in
theorem takes_postfixStep (step : Option Step) (hks : StartsWith endsOperand ks) :
    postfixStep.Ensures s fun _ s' =>
      s.Takes s' ((step.map Step.token).toList ++ ks) ks True := by
  have hkeeps : postfixStep.Keeps Extends := by
    refine keeps_look.bind fun kind => ?_
    split
    · exact keeps_pure _
    · exact keeps_advance.bind fun _ => keeps_pure _
  refine hkeeps.takes fun hs => ?_
  rw [postfixStep, ensures_bind, currentKind, ensures_look]
  cases step with
  | none =>
    obtain ⟨k, ls, rfl, hk⟩ := hks
    rw [hs.current_kind.1, (not_postfix_of_endsOperand hk).1]
    exact (ensures_pure _).mpr (.refl s _)
  | some step =>
    have hstep : postfixOp? step.token = some step := by cases step <;> rfl
    rw [hs.current_kind.1, hstep]
    simp only [advance, ensures_bind, ensures_act, ensures_pure]
    exact s.takes_advance step.token ks

theorem takes_primary (hus : postfixExpression.Derives us) (hks : StartsWith endsOperand ks) :
    (primary reach).Ensures s fun found s' => s.Takes s' (us ++ ks) ks found.isSome := by
  obtain ⟨ws, step, hws, rfl⟩ := derives_postfixExpression_iff.mp hus
  have hnext : ((step.map Step.token).toList ++ ks).headD .eof ≠ .openParen := by
    cases step with
    | none => exact (not_postfix_of_endsOperand hks.headD).2
    | some step => cases step <;> simp [Step.token]
  rw [primary, ensures_bind, currentPosition, ensures_look, ensures_bind, List.append_assoc]
  refine (takes_primaryValue hr s _ hws hnext).imp fun found s₁ h₁ => ?_
  cases found with
  | none => exact (ensures_pure _).mpr (h₁.of_not Bool.false_ne_true _ _)
  | some value =>
    rw [ensures_bind]
    refine (takes_postfixStep s₁ ks step hks).imp fun step s₂ h₂ => ?_
    simp only [ensures_bind, alloc, ensures_act, ensures_pure]
    have h₃ := h₂.then_quiet (s₂.takes_alloc ks s.current.position (.primary value step))
    exact (h₁.trans h₃).imp fun _ => rfl

/-! ## Calls -/

theorem takes_arguments (hus : AreExpressions us) :
    (arguments reach).Ensures s fun found s' =>
      s.Takes s' (us ++ .closeParen :: ks) (.closeParen :: ks) found.isSome := by
  obtain ⟨first, parts, hfirst, hparts, rfl⟩ := hus
  have hnext : StartsWith endsExpression (parts.flatten ++ .closeParen :: ks) := by
    cases parts with
    | nil => exact startsWith_cons rfl ks
    | cons part parts =>
      obtain ⟨⟨us, -, rfl⟩, -⟩ := List.forall_mem_cons.mp hparts
      exact startsWith_cons rfl _
  rw [arguments, List.append_assoc]
  refine takes_bind (fun first => ?_) (hr.whole s _ hfirst hnext) fun found s₁ hs₁ hfound => ?_
  · exact keeps_accept.bind fun _ =>
      .ite ((hr.keeps _).bind fun _ => keeps_pure _) (keeps_pure _)
  obtain ⟨id, rfl⟩ := Option.isSome_iff_exists.mp hfound
  rw [ensures_bind, accept, ensures_act]
  cases parts with
  | nil =>
    have haccept : s₁.accept .comma = (false, s₁) := hs₁.accept_ne (by simp)
    rw [haccept, if_neg Bool.false_ne_true]
    exact (ensures_pure _).mpr ((Takes.refl s₁ _).imp fun _ => rfl)
  | cons part parts =>
    obtain ⟨⟨us, hus, rfl⟩, hparts'⟩ := List.forall_mem_cons.mp hparts
    have h₂ := s₁.takes_advance .comma (us ++ (parts.flatten ++ .closeParen :: ks))
    have hothers := hr.arguments s₁.advance.2 ks ⟨us, parts, hus, hparts', rfl⟩
    rw [hs₁.accept_eq, if_pos rfl, ensures_bind]
    refine hothers.imp fun others s₃ h₃ => (ensures_pure _).mpr ?_
    rw [List.append_assoc] at h₃
    rw [List.flatten_cons, List.cons_append, List.cons_append, List.append_assoc]
    refine (h₂.trans h₃).imp fun hsome => ?_
    obtain ⟨ids, rfl⟩ := Option.isSome_iff_exists.mp hsome
    rfl

omit hr in
theorem takes_closeArguments (found : Option (List NodeId)) :
    (closeArguments found).Ensures s fun _ s' => s.Takes s' (.closeParen :: ks) ks True := by
  refine (keeps_closeArguments found).takes fun hs => ?_
  simp only [closeArguments, currentKind, ensures_bind, ensures_look, hs.current_kind.1,
    decide_true, Bool.or_true, if_true, expectClosing, ensures_act, ensures_pure]
  exact s.takes_expectClosing .closeParen ks

theorem takes_argumentList (hus : AreExpressions us ∨ us = []) :
    (argumentList reach).Ensures s fun found s' =>
      s.Takes s' (.openParen :: (us ++ .closeParen :: ks)) ks found.isSome := by
  refine (keeps_argumentList hr.keeps).takes fun hs => ?_
  have h₁ := s.takes_advance .openParen (us ++ .closeParen :: ks)
  rw [argumentList, ensures_bind, expect, ensures_act, expect_of_eq hs.current_kind.1, ensures_bind,
    currentKind, ensures_look]
  rcases hus with hus | rfl
  · obtain ⟨first, parts, hfirst, hparts, rfl⟩ := hus
    have hkind : s.advance.2.current.kind ≠ .closeParen := by
      obtain ⟨k, ls, rfl, hk⟩ := startsWith_expression hfirst
      rw [hs.advance.current_kind.1]
      rintro rfl
      cases hk
    rw [if_neg hkind, ensures_bind]
    have hfound := hr.arguments s.advance.2 ks ⟨first, parts, hfirst, hparts, rfl⟩
    refine hfound.imp fun found s₂ h₂ => ?_
    rw [ensures_bind]
    refine (takes_closeArguments s₂ ks found).imp fun _ s₃ h₃ => (ensures_pure _).mpr ?_
    exact (h₁.trans h₂).then_quiet h₃
  · rw [if_pos hs.advance.current_kind.1, ensures_bind]
    refine (takes_closeArguments _ ks _).imp fun _ s₂ h₂ => (ensures_pure _).mpr ?_
    exact (h₁.trans h₂).imp fun _ => rfl

theorem takes_call (isStatement : Bool) (hus : functionCall.Derives us) :
    (call reach isStatement).Ensures s fun found s' => s.Takes s' (us ++ ks) ks found.isSome := by
  obtain ⟨ws, hws, rfl⟩ := derives_functionCall_iff.mp hus
  refine (keeps_call hr.keeps isStatement).takes fun hs => ?_
  rw [List.cons_append, List.cons_append, List.append_assoc]
  have h₁ := s.takes_advance .identifier (.openParen :: (ws ++ .closeParen :: ks))
  rw [call, ensures_bind, expect, ensures_act, expect_of_eq hs.current_kind.1]
  simp only [ensures_bind, resolveFunction, ensures_change, alloc, ensures_act]
  have h₂ := (h₁.trans (takes_resolveFunction _ _ s.current.identifierName
    s.current.position)).trans (takes_alloc _ _ s.current.position
    (.ident s.current.identifierName))
  refine (takes_argumentList hr _ ks hws).imp fun found s₃ h₃ => ?_
  cases found with
  | none => exact (ensures_pure _).mpr (h₂.trans h₃)
  | some ids =>
    simp only [ensures_bind, ensures_look, ensures_act, ensures_pure]
    exact (h₂.trans h₃).then_quiet (s₃.takes_alloc ..)

/-! ## All parts together -/

omit hr in
/-- **What expressions take** with any number of steps. -/
theorem takesExpressions_reach (fuel : Nat) :
    TakesExpressions (Goal.reach .standard fuel) := by
  have hkeeps : ∀ fuel {α : Type} (goal : Goal α),
      (Goal.reach .standard fuel goal).Keeps Extends :=
    fun fuel _ goal s => Goal.reach_keeps fuel goal s
  induction fuel with
  | zero =>
    refine ⟨hkeeps 0, ?_, ?_, ?_, ?_, ?_, ?_, ?_, ?_, ?_⟩ <;> intros <;> intro a s' ha <;> cases ha
  | succ fuel ih =>
    exact {
      keeps := hkeeps (fuel + 1)
      unary := takes_unary ih
      primary := takes_primary ih
      prefixed := fun s kind ks _ => takes_prefixed ih s ks kind
      grouping := takes_grouping ih
      expression := fun power s ks _ _ => takes_expression ih s ks power
      operators := fun left power s ks _ => takes_operators ih s ks left power
      binary := fun left power s op ks _ _ => takes_binary ih s ks left power op
      call := fun isStatement s ks _ => takes_call ih s ks isStatement
      arguments := takes_arguments ih }

end Parse

end Braced
