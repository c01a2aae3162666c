import Braced.Proofs.Parse.Upcoming

/-!
# Braced.Proofs.Parse.Enough

The number of steps that reading is given is enough.

A part of the grammar refers to another one either after it has passed a token,
or it comes later in an order of the parts (`Goal.rank`).  So `Goal.cost`, which
counts the tokens to come first and the place in that order second, bounds how
many references there are inside one another: with that many steps reading gives
a result (`Goal.reach_gives`), and reading all tokens always does
(`Tree.build_spec`).
-/

namespace Braced

/-! ## The order of the parts -/

namespace Goal

/-- Whether the part begins by passing a token whatever it is, and so must only
be read in front of one. -/
def needsToken : Goal α → Bool
  | production .prefixed | production .grouping | production .foreignImport
  | production .returnStatement | production .ifStatement | production .whileStatement
  | binary _ _ => true
  | _ => false

/-- Whether reading the part in front of a token passes at least that one. -/
def passes : Goal α → Bool
  | production .unary => false
  | production _ | binary _ _ | call _ => true
  | _ => false

/-- The place of a part among those that lead to it without passing a token. -/
def rank : Goal α → Nat
  | production .primary | production .identifierStatement | operators _ _ | parameters => 1
  | production .unary | production .declaration | production .statement => 2
  | expression _ | statements | declarations => 3
  | arguments | block => 4
  | _ => 0

theorem rank_le (goal : Goal α) : goal.rank ≤ 4 := by
  cases goal with
  | production p => cases p <;> decide
  | _ => simp [rank]

/-- More than the references inside one another that reading the part needs. -/
def cost (goal : Goal α) (s : Builder) : Nat :=
  5 * s.remaining + goal.rank + 1

end Goal

/-! ## Actions behind a token -/

namespace Builder

/-- `s'` comes after `s`, and at least one token later. -/
structure Passes (s s' : Builder) : Prop where
  extends_ : s.Extends s'
  remaining_lt : s'.remaining < s.remaining

namespace Passes

variable {s s' s'' : Builder}

theorem trans_extends (h : s.Passes s') (h' : s'.Extends s'') : s.Passes s'' :=
  ⟨h.extends_.trans h', Nat.lt_of_le_of_lt h'.remaining_le h.remaining_lt⟩

theorem of_extends (h : s.Extends s') (h' : s'.Passes s'') : s.Passes s'' :=
  ⟨h.trans h'.extends_, Nat.lt_of_lt_of_le h'.remaining_lt h.remaining_le⟩

end Passes

theorem passes_advance {s : Builder} (hs : s.Terminated) (h : s.hasTokens) :
    s.Passes s.advance.2 :=
  ⟨s.extends_advance, remaining_advance hs h⟩

theorem passes_expect {s : Builder} (hs : s.Terminated) (h : s.hasTokens) (kind : TokenKind) :
    s.Passes (s.expect kind).2 :=
  ⟨s.extends_expect kind, remaining_expect hs h kind⟩

/-- A token that is accepted has been passed. -/
theorem passes_accept {s : Builder} (hs : s.Terminated) {kind : TokenKind} (hkind : kind ≠ .eof)
    (h : (s.accept kind).1 = true) : s.Passes (s.accept kind).2 := by
  unfold accept at h ⊢
  split at h
  · next hcurrent =>
    rw [if_pos hcurrent]
    exact passes_advance hs (s.hasTokens_iff.mpr (hcurrent ▸ hkind))
  · cases h

/-- What holds of a builder and of all later ones. -/
class Lasting (P : Builder → Prop) : Prop where
  later : ∀ {s s' : Builder}, P s → s.Extends s' → P s'

instance (s : Builder) : Lasting s.Passes := ⟨Passes.trans_extends⟩

/-- `s'` comes after `s`, and at least one token later if there is one. -/
structure Proceeds (s s' : Builder) : Prop where
  extends_ : s.Extends s'
  passes : s.hasTokens → s.Passes s'

instance (s : Builder) : Lasting s.Proceeds :=
  ⟨fun h h' => ⟨h.extends_.trans h', fun htokens => (h.passes htokens).trans_extends h'⟩⟩

theorem Passes.proceeds {s s' : Builder} (h : s.Passes s') : s.Proceeds s' :=
  ⟨h.extends_, fun _ => h⟩

theorem proceeds_advance {s : Builder} (hs : s.Terminated) : s.Proceeds s.advance.2 :=
  ⟨s.extends_advance, passes_advance hs⟩

/-- What does not touch the tokens may come first. -/
theorem Proceeds.of_rest {s s₁ s' : Builder} (h : s.Extends s₁) (hrest : s₁.rest = s.rest)
    (h' : s₁.Proceeds s') : s.Proceeds s' := by
  refine ⟨h.trans h'.extends_, fun htokens => .of_extends h (h'.passes ?_)⟩
  rw [hasTokens, current_eq_of_rest hrest]
  exact htokens

theorem proceeds_expect {s : Builder} (hs : s.Terminated) (kind : TokenKind) :
    s.Proceeds (s.expect kind).2 :=
  ⟨s.extends_expect kind, fun htokens => passes_expect hs htokens kind⟩

end Builder

/-! ## The rules of the language -/

theorem Goal.rank_of_operand {kind : TokenKind} {production : Production}
    (h : RuleBook.standard.operand? kind = some production) :
    (Goal.production production).rank ≤ 1 := by
  cases kind <;> cases h <;> decide

theorem Goal.order_of_statement {kind : TokenKind} {production : Production}
    (h : RuleBook.standard.statement? kind = some production) :
    (Goal.production production).rank ≤ 1 ∧ (Goal.production production).passes = true := by
  cases kind <;> cases h <;> decide

theorem Goal.order_of_declaration {kind : TokenKind} {production : Production}
    (h : RuleBook.standard.declaration? kind = some production) :
    (Goal.production production).rank ≤ 1 ∧ (Goal.production production).passes = true := by
  cases kind <;> cases h <;> decide

namespace Parse

open Builder

/-- A token with a rule is not the end. -/
theorem hasTokens_of_rule {rules : TokenKind → Option β} (hend : rules .eof = none) {rule : β}
    {s : Builder} (h : rules s.current.kind = some rule) : s.hasTokens := by
  rw [s.hasTokens_iff]
  intro heof
  rw [heof, hend] at h
  cases h

/-- `m` has a result wherever `P` holds, and `P` still holds then. -/
def Continues (P : Builder → Prop) (m : Parse α) : Prop :=
  ∀ s, P s → m.Gives s fun _ s' => P s'

section Continues

variable {P : Builder → Prop}

theorem Continues.gives {m : Parse α} (hm : Continues P m) {s : Builder} (hs : P s) :
    m.Gives s fun _ s' => P s' :=
  hm s hs

theorem Continues.bind {m : Parse α} {f : α → Parse β} (hm : Continues P m)
    (hf : ∀ a, Continues P (f a)) : Continues P (m >>= f) := by
  intro s hs
  rw [gives_bind]
  exact (hm s hs).imp fun a s' h' => hf a s' h'

theorem Continues.ite {c : Prop} [Decidable c] {m m' : Parse α} (hm : Continues P m)
    (hm' : Continues P m') : Continues P (if c then m else m') := by
  split
  · exact hm
  · exact hm'

theorem continues_pure (a : α) : Continues P (pure a : Parse α) :=
  fun _ hs => (gives_pure a).mpr hs

theorem continues_look {f : Builder → α} : Continues P (look f) :=
  fun _ hs => (gives_look f).mpr hs

variable [hP : Lasting P]

theorem continues_act {f : Builder → α × Builder} (h : ∀ s : Builder, s.Extends (f s).2) :
    Continues P (act f) :=
  fun s hs => (gives_act f).mpr (hP.later hs (h s))

theorem continues_change {f : Builder → Builder} (h : ∀ s : Builder, s.Extends (f s)) :
    Continues P (change f) :=
  fun s hs => (gives_change f _).mpr (hP.later hs (h s))

theorem continues_advance : Continues P advance :=
  continues_act extends_advance

theorem continues_expect {kind : TokenKind} : Continues P (expect kind) :=
  continues_act fun s => s.extends_expect kind

theorem continues_expectClosing {kind : TokenKind} : Continues P (expectClosing kind) :=
  continues_act fun s => Still.expectClosing s kind

theorem continues_accept {kind : TokenKind} : Continues P (accept kind) :=
  continues_act fun s => s.extends_accept kind

theorem continues_alloc {position : Position} {kind : NodeKind} :
    Continues P (alloc position kind) :=
  continues_act fun s => s.extends_alloc position kind

theorem continues_report {fault : Fault} {position : Position} :
    Continues P (report fault position) :=
  continues_change fun s => s.extends_report fault position

theorem continues_enterScope {position : Position} : Continues P (enterScope position) :=
  continues_act fun s => s.extends_enterScope position

theorem continues_exitScope : Continues P exitScope :=
  continues_change extends_exitScope

theorem continues_addStatement {id : NodeId} : Continues P (addStatement id) :=
  continues_change fun s => s.extends_addStatement id

theorem continues_declare {name : String} {kind : EntryKind} {position : Position} :
    Continues P (declare name kind position) :=
  continues_change fun s => s.extends_declare name kind position

theorem continues_resolveIdentifier {name : String} {position : Position} :
    Continues P (resolveIdentifier name position) :=
  continues_change fun s => s.extends_resolveIdentifier name position

theorem continues_resolveFunction {name : String} {position : Position} :
    Continues P (resolveFunction name position) :=
  continues_change fun s => Still.resolveFunction s name position

theorem continues_addModule {name : String} : Continues P (addModule name) :=
  continues_change fun s => s.extends_addModule name

theorem continues_setLoopDepth {depth : Builder → Nat} :
    Continues P (change fun s => s.setLoopDepth (depth s)) :=
  continues_change fun _ => .of_eq rfl rfl rfl rfl

end Continues

/-! ## References that are followed -/

/-- Every part whose cost is at most `fuel` gives a result. -/
def Affords (fuel : Nat) (reach : Reach) : Prop :=
  ∀ {α : Type} (goal : Goal α) (s : Builder), s.Terminated → (goal.needsToken → s.hasTokens) →
    goal.cost s ≤ fuel → (reach goal).Gives s fun _ s' =>
      s.Extends s' ∧ (goal.passes → s.hasTokens → s.Passes s')

variable {s : Builder} {reach : Reach} {fuel : Nat} (hr : Affords fuel reach)

include hr in
/-- Behind a token every part can be afforded that does not need another one. -/
theorem continues_reach (hs : s.Terminated) (hfuel : 5 * s.remaining ≤ fuel) (goal : Goal α)
    (hgoal : goal.needsToken = false) : Continues s.Passes (reach goal) := by
  intro s₁ h₁
  have hcost : goal.cost s₁ ≤ fuel := by
    have hrank := goal.rank_le
    have hlt := h₁.remaining_lt
    rw [Goal.cost]
    omega
  refine (hr goal s₁ (h₁.extends_.terminated hs) (by simp [hgoal]) hcost).imp fun _ s' h' => ?_
  exact h₁.trans_extends h'.1

include hr in
/-- A part that comes later in the order can be afforded in the same place. -/
theorem gives_reach (hs : s.Terminated) {goal : Goal α} (hgoal : goal.needsToken → s.hasTokens)
    (hcost : 5 * s.remaining + goal.rank + 1 ≤ fuel) {Q : α → Builder → Prop}
    (hQ : ∀ a s', s.Extends s' → (goal.passes → s.hasTokens → s.Passes s') → Q a s') :
    (reach goal).Gives s Q :=
  (hr goal s hs hgoal hcost).imp fun a s' h => hQ a s' h.1 h.2

/-! ## Parts of expressions -/

section Expressions

open Tree.Expression

variable (hs : s.Terminated)

include hr hs

theorem gives_expression (power : Power) (hfuel : 5 * s.remaining + 4 ≤ fuel + 1) :
    (expression reach power).Gives s fun _ _ => True := by
  rw [expression, gives_bind]
  refine gives_reach hr hs (by simp [Goal.needsToken]) (by simp only [Goal.rank]; omega) ?_
  intro found s₁ h₁ _
  have hle := h₁.remaining_le
  cases found with
  | none => simp
  | some left =>
    refine gives_reach hr (h₁.terminated hs) (by simp [Goal.needsToken]) ?_ (by simp)
    simp only [Goal.rank]
    omega

theorem gives_operators (left : NodeId) (power : Power) (hfuel : 5 * s.remaining + 2 ≤ fuel + 1) :
    (operators .standard reach left power).Gives s fun _ _ => True := by
  rw [operators, gives_bind, currentKind, gives_look]
  split
  · simp
  · next next hnext =>
    have htokens : s.hasTokens := hasTokens_of_rule rfl hnext
    split
    · simp
    · rw [gives_bind, enterExpression, gives_act]
      rcases s.enterExpression_cases with hdeeper | hdeeper
      · rw [hdeeper]
        simp only [if_true, gives_bind]
        refine gives_reach hr (s := s.atDepth (s.expressionDepth + 1)) hs (fun _ => htokens) ?_ ?_
        · exact (by omega : 5 * s.remaining + 0 + 1 ≤ fuel)
        · intro found s₂ _ h₂
          have hlt : s₂.remaining < s.remaining := (h₂ rfl htokens).remaining_lt
          cases found with
          | none => simp [exitExpression]
          | some folded =>
            simp only [gives_bind]
            refine gives_reach hr ((h₂ rfl htokens).extends_.terminated hs)
              (by simp [Goal.needsToken]) ?_ (by simp [exitExpression])
            simp only [Goal.rank]
            omega
      · rw [hdeeper]
        simp

theorem gives_binary (left : NodeId) (power : Power) (htokens : s.hasTokens)
    (hfuel : 5 * s.remaining + 1 ≤ fuel + 1) :
    (binary reach left power).Gives s fun _ s' => s.Passes s' := by
  rw [binary, gives_bind, advance, gives_act]
  refine Continues.gives ?_ (passes_advance hs htokens)
  split
  · exact continues_pure _
  · refine .bind (continues_reach hr hs (by omega) _ rfl) fun found => ?_
    cases found with
    | none => exact continues_pure _
    | some right => exact continues_look.bind fun _ => continues_alloc.bind fun _ => continues_pure _

theorem gives_unary (hfuel : 5 * s.remaining + 3 ≤ fuel + 1) :
    (unary .standard reach).Gives s fun _ _ => True := by
  rw [unary, gives_bind, enterExpression, gives_act]
  rcases s.enterExpression_cases with hdeeper | hdeeper
  · rw [hdeeper]
    simp only [if_true, operand, gives_bind, currentKind, gives_look]
    split
    · next production hproduction =>
      have htokens : s.hasTokens := hasTokens_of_rule rfl hproduction
      refine gives_reach hr (s := s.atDepth (s.expressionDepth + 1)) hs (fun _ => htokens) ?_
        fun found s' _ _ => ?_
      · have hrank : (Goal.production production).rank ≤ 1 := Goal.rank_of_operand hproduction
        exact (by omega : 5 * s.remaining + (Goal.production production).rank + 1 ≤ fuel)
      · simp [exitExpression]
    · simp only [currentPosition, report, gives_bind, gives_look, gives_change]
      split
      · simp [advance, exitExpression]
      · simp [exitExpression]
  · rw [hdeeper]
    simp

theorem gives_prefixed (htokens : s.hasTokens) (hfuel : 5 * s.remaining + 1 ≤ fuel + 1) :
    (prefixed reach).Gives s fun _ s' => s.Passes s' := by
  rw [prefixed, gives_bind, advance, gives_act]
  refine Continues.gives ?_ (passes_advance hs htokens)
  refine .bind (continues_reach hr hs (by omega) _ rfl) fun found => ?_
  cases found with
  | none => exact continues_pure _
  | some operand => exact continues_alloc.bind fun _ => continues_pure _

theorem gives_grouping (htokens : s.hasTokens) (hfuel : 5 * s.remaining + 1 ≤ fuel + 1) :
    (grouping reach).Gives s fun _ s' => s.Passes s' := by
  rw [grouping, gives_bind, advance, gives_act]
  refine Continues.gives ?_ (passes_advance hs htokens)
  refine .bind (continues_reach hr hs (by omega) _ rfl) fun found => ?_
  cases found with
  | none => exact continues_pure _
  | some operand =>
    exact continues_expectClosing.bind fun _ => continues_alloc.bind fun _ => continues_pure _

theorem gives_primary (hfuel : 5 * s.remaining + 2 ≤ fuel + 1) :
    (primary reach).Gives s fun _ s' => s.Proceeds s' := by
  have hvalue : (primaryValue reach).Gives s fun _ s' => s.Proceeds s' := by
    rw [primaryValue, gives_bind, currentKind, gives_look]
    split
    · rw [gives_bind, gives_look]
      split
      · rw [gives_bind]
        refine gives_reach hr hs (by simp [Goal.needsToken]) (by simp only [Goal.rank]; omega) ?_
        exact fun _ _ h₁ h₂ => (gives_pure _).mpr ⟨h₁, h₂ rfl⟩
      · rw [variableValue, advance, gives_bind, gives_bind, gives_act]
        refine (Continues.gives ?_ (proceeds_advance hs)).imp fun _ _ h => (gives_pure _).mpr h
        exact continues_resolveIdentifier.bind fun _ => continues_alloc.bind fun _ => continues_pure _
    · rw [constantValue, advance, gives_bind, gives_act]
      split
      · exact (gives_pure _).mpr (proceeds_advance hs)
      · refine Continues.gives ?_ (proceeds_advance hs)
        exact continues_report.bind fun _ => continues_pure _
  rw [primary, gives_bind, currentPosition, gives_look, gives_bind]
  refine hvalue.imp fun found s₁ h₁ => ?_
  cases found with
  | none => exact (gives_pure _).mpr h₁
  | some value =>
    refine Continues.gives (.bind ?_ fun _ => continues_alloc.bind fun _ => continues_pure _) h₁
    refine continues_look.bind fun kind => ?_
    split
    · exact continues_pure _
    · exact continues_advance.bind fun _ => continues_pure _

theorem gives_arguments (hfuel : 5 * s.remaining + 5 ≤ fuel + 1) :
    (arguments reach).Gives s fun _ _ => True := by
  rw [arguments, gives_bind]
  refine gives_reach hr hs (by simp [Goal.needsToken]) (by simp only [Goal.rank]; omega) ?_
  intro first s₁ h₁ _
  rw [gives_bind, accept, gives_act]
  split
  · next hmore =>
    have h₂ := passes_accept (h₁.terminated hs) (by decide) hmore
    refine (Continues.gives ?_ (Passes.of_extends h₁ h₂)).imp fun _ _ _ => trivial
    exact .bind (continues_reach hr hs (by omega) _ rfl) fun _ => continues_pure _
  · simp

theorem gives_call (isStatement : Bool) (hfuel : 5 * s.remaining + 1 ≤ fuel + 1) :
    (call reach isStatement).Gives s fun _ s' => s.Proceeds s' := by
  rw [call, gives_bind, expect, gives_act]
  cases hfound : (s.expect .identifier).1 with
  | none => exact (gives_pure _).mpr (proceeds_expect hs _)
  | some token =>
    have htokens := (hasTokens_of_expect (by decide) hfound).1
    have hclose : ∀ found, Continues s.Passes (closeArguments found) := fun found =>
      continues_look.bind fun kind =>
        .ite (continues_expectClosing.bind fun _ => continues_pure _) (continues_pure _)
    have hlist : Continues s.Passes (argumentList reach) := by
      refine continues_expect.bind fun _ => continues_look.bind fun kind => .ite ?_ ?_
      · exact (hclose _).bind fun _ => continues_pure _
      · exact .bind (continues_reach hr hs (by omega) _ rfl) fun _ =>
          (hclose _).bind fun _ => continues_pure _
    refine (Continues.gives ?_ (passes_expect hs htokens _)).imp fun _ _ h => h.proceeds
    refine continues_resolveFunction.bind fun _ => continues_alloc.bind fun callee =>
      hlist.bind fun arguments => ?_
    cases arguments with
    | none => exact continues_pure _
    | some found => exact continues_look.bind fun _ => continues_alloc.bind fun _ => continues_pure _

end Expressions

/-! ## Parts of statements -/

section Statements

open Tree.Statement

variable (hs : s.Terminated)

theorem gives_refusal (hs : s.Terminated) (fault : Fault) (position : Position) :
    Gives (do report fault position; let _ ← advance; return (none : Option NodeId)) s
      fun _ s' => s.Proceeds s' := by
  simp only [report, advance, gives_bind, gives_change, gives_act, gives_pure]
  exact .of_rest (s.extends_report fault position) rfl (proceeds_advance hs)

theorem gives_type (hs : s.Terminated) : type.Gives s fun _ s' => s.Proceeds s' := by
  rw [type, gives_bind, currentPosition, gives_look, gives_bind, accept, gives_act, typeName,
    gives_bind, currentKind, gives_look]
  by_cases hconst : (s.accept .kwConst).1 = true
  · have h₁ := (passes_accept hs (by decide) hconst).proceeds
    refine Continues.gives ?_ h₁
    split
    · exact continues_look.bind fun _ => continues_report.bind fun _ =>
        continues_advance.bind fun _ => continues_pure _
    · exact continues_advance.bind fun _ => continues_alloc.bind fun _ => continues_pure _
  · have hsame : (s.accept .kwConst).2 = s := by
      unfold Builder.accept at hconst ⊢
      split at hconst
      · exact absurd rfl hconst
      · next hkind => rw [if_neg hkind]
    rw [hsame]
    split
    · rw [gives_bind, currentPosition, gives_look]
      exact gives_refusal hs _ _
    · rw [gives_bind, advance, gives_act]
      exact Continues.gives (continues_alloc.bind fun _ => continues_pure _) (proceeds_advance hs)

include hr

section Behind

variable (hfuel : 5 * s.remaining ≤ fuel)

include hs hfuel

theorem continues_parameterList : Continues s.Passes (parameterList reach) := by
  refine continues_expect.bind fun _ => continues_look.bind fun kind => .ite ?_ ?_
  · exact continues_expect.bind fun _ => continues_pure _
  · exact .bind (continues_reach hr hs hfuel _ rfl) fun _ =>
      continues_expect.bind fun _ => continues_pure _

theorem continues_signatureOf (token : Token) : Continues s.Passes (signatureOf reach token) := by
  refine continues_declare.bind fun _ => continues_alloc.bind fun _ => continues_expect.bind fun _ =>
    continues_enterScope.bind fun _ => (continues_parameterList hr hs hfuel).bind fun _ =>
    .bind ?_ fun _ => continues_pure _
  exact continues_accept.bind fun _ => .ite (continues_reach hr hs hfuel _ rfl) (continues_pure _)

theorem continues_signature : Continues s.Passes (signature reach) := by
  refine continues_expect.bind fun found => ?_
  cases found with
  | none => exact continues_pure _
  | some token => exact (continues_signatureOf hr hs hfuel token).bind fun _ => continues_pure _

theorem continues_blockBody : Continues s.Passes (blockBody reach) :=
  continues_expect.bind fun _ => .bind (continues_reach hr hs hfuel _ rfl) fun _ =>
    continues_expect.bind fun _ => continues_pure _

end Behind

include hs

theorem gives_chosen {production : Production} (htokens : s.hasTokens)
    (hrank : (Goal.production production).rank ≤ 1)
    (hpasses : (Goal.production production).passes = true)
    (hfuel : 5 * s.remaining + 3 ≤ fuel + 1) :
    (reach (.production production)).Gives s fun _ s' => s.Proceeds s' :=
  gives_reach hr hs (fun _ => htokens) (by omega) fun _ _ h h' => ⟨h, h' hpasses⟩

theorem gives_declaration (hfuel : 5 * s.remaining + 3 ≤ fuel + 1) :
    (declaration .standard reach).Gives s fun _ s' => s.Proceeds s' := by
  rw [declaration, gives_bind, currentKind, gives_look]
  split
  · next production h =>
    obtain ⟨hrank, hpasses⟩ := Goal.order_of_declaration h
    exact gives_chosen hr hs (hasTokens_of_rule rfl h) hrank hpasses hfuel
  · rw [gives_bind, currentPosition, gives_look]
    exact gives_refusal hs _ _

theorem gives_statement (hfuel : 5 * s.remaining + 3 ≤ fuel + 1) :
    (statement .standard reach).Gives s fun _ s' => s.Proceeds s' := by
  rw [statement, gives_bind, currentKind, gives_look]
  split
  · next production h =>
    obtain ⟨hrank, hpasses⟩ := Goal.order_of_statement h
    exact gives_chosen hr hs (hasTokens_of_rule rfl h) hrank hpasses hfuel
  · rw [gives_bind, currentPosition, gives_look]
    exact gives_refusal hs _ _

theorem gives_identifierStatement (hfuel : 5 * s.remaining + 2 ≤ fuel + 1) :
    (identifierStatement reach).Gives s fun _ s' => s.Proceeds s' := by
  rw [identifierStatement, gives_bind, gives_look, gives_bind, gives_look]
  split
  · rw [gives_bind]
    refine gives_reach hr hs (by simp [Goal.needsToken]) (by simp only [Goal.rank]; omega) ?_
    intro found s₁ h₁ h₁'
    exact Continues.gives (P := s.Proceeds) (continues_expect.bind fun _ => continues_pure _)
      ⟨h₁, h₁' rfl⟩
  · split
    · exact gives_reach hr hs (by simp [Goal.needsToken]) (by simp only [Goal.rank]; omega)
        fun _ _ h h' => ⟨h, h' rfl⟩
    · rw [gives_bind]
      refine gives_reach hr hs (by simp [Goal.needsToken]) (by simp only [Goal.rank]; omega) ?_
      intro found s₁ h₁ h₁'
      exact Continues.gives (P := s.Proceeds) (continues_expect.bind fun _ => continues_pure _)
        ⟨h₁, h₁' rfl⟩

theorem gives_variableStatement (hfuel : 5 * s.remaining + 1 ≤ fuel + 1) :
    (variableStatement reach).Gives s fun _ s' => s.Proceeds s' := by
  rw [variableStatement, gives_bind, expect, gives_act]
  cases hfound : (s.expect .identifier).1 with
  | none => exact (gives_pure _).mpr (proceeds_expect hs _)
  | some token =>
    have htokens := (hasTokens_of_expect (by decide) hfound).1
    refine (Continues.gives ?_ (passes_expect hs htokens _)).imp fun _ _ h => h.proceeds
    refine .bind ?_ fun _ => continues_alloc.bind fun _ =>
      .bind (continues_reach hr hs (by omega) _ rfl) fun _ =>
      continues_alloc.bind fun _ => continues_pure _
    refine continues_accept.bind fun typed => .ite ?_ ?_
    · exact .bind (continues_reach hr hs (by omega) _ rfl) fun _ =>
        continues_declare.bind fun _ => continues_pure _
    · exact continues_resolveIdentifier.bind fun _ => continues_pure _

theorem gives_values (hfuel : 5 * s.remaining + 1 ≤ fuel + 1) :
    (values reach).Gives s fun _ _ => True := by
  rw [values, gives_bind, accept, gives_act]
  split
  · next hmore =>
    refine (Continues.gives ?_ (passes_accept hs (by decide) hmore)).imp fun _ _ _ => trivial
    exact .bind (continues_reach hr hs (by omega) _ rfl) fun _ =>
      .bind (continues_reach hr hs (by omega) _ rfl) fun _ => continues_pure _
  · simp

theorem gives_parameters (hfuel : 5 * s.remaining + 2 ≤ fuel + 1) :
    (parameters reach).Gives s fun _ _ => True := by
  have hfirst : (parameter reach).Gives s fun _ s' => s.Extends s' := by
    rw [parameter, gives_bind, expect, gives_act, gives_bind, expect, gives_act, gives_bind]
    have h₂ := (s.extends_expect .identifier).trans (extends_expect _ .colon)
    have hle := h₂.remaining_le
    refine gives_reach hr (h₂.terminated hs) (by simp [Goal.needsToken])
      (by simp only [Goal.rank]; omega) ?_
    intro atom s₃ h₃ _
    split
    · simp only [declare, alloc, gives_bind, gives_change, gives_act, gives_pure]
      exact (h₂.trans h₃).trans ((extends_declare ..).trans (extends_alloc ..))
    · exact (gives_pure _).mpr (h₂.trans h₃)
  rw [parameters, gives_bind]
  refine hfirst.imp fun first s₁ h₁ => ?_
  rw [gives_bind, accept, gives_act]
  split
  · next hmore =>
    have h₂ := passes_accept (h₁.terminated hs) (by decide) hmore
    refine (Continues.gives ?_ (Passes.of_extends h₁ h₂)).imp fun _ _ _ => trivial
    exact .bind (continues_reach hr hs (by omega) _ rfl) fun _ => continues_pure _
  · simp

theorem gives_function (hfuel : 5 * s.remaining + 1 ≤ fuel + 1) :
    (function reach).Gives s fun _ s' => s.Proceeds s' := by
  have hrefuse : refuseNested.Gives s fun _ s' => s.Extends s' ∧ s'.rest = s.rest := by
    rw [refuseNested, gives_bind, gives_look]
    split
    · rw [gives_bind, gives_look, report, gives_change]
      exact ⟨s.extends_report _ _, rfl⟩
    · exact (gives_pure _).mpr ⟨.refl s, rfl⟩
  rw [function, gives_bind, currentPosition, gives_look, gives_bind]
  refine hrefuse.imp fun _ s₁ h₁ => ?_
  have hs₁ := h₁.1.terminated hs
  rw [signature, gives_bind, gives_bind, expect, gives_act]
  cases hfound : (s₁.expect .identifier).1 with
  | none =>
    rw [gives_pure]
    exact (gives_pure _).mpr (.of_rest h₁.1 h₁.2 (proceeds_expect hs₁ _))
  | some token =>
    have htokens := (hasTokens_of_expect (by decide) hfound).1
    have h₂ := Passes.of_extends h₁.1 (passes_expect hs₁ htokens .identifier)
    have hbody : ∀ found : Signature, Continues s.Passes (do
        let depth ← look Builder.loopDepth
        change (·.setLoopDepth 0)
        blockBody reach
        change (·.setLoopDepth depth)
        exitScope
        return some (← alloc s.current.position
          (.function found.name found.result found.parameters found.scope .own))) := fun found =>
      continues_look.bind fun depth => continues_setLoopDepth.bind fun _ =>
        (continues_blockBody hr hs (by omega)).bind fun _ =>
        continues_setLoopDepth.bind fun _ => continues_exitScope.bind fun _ =>
        continues_alloc.bind fun _ => continues_pure _
    rw [gives_bind]
    refine (Continues.gives (continues_signatureOf hr hs (by omega) token) h₂).imp ?_
    intro found s₃ h₃
    rw [gives_pure]
    exact (Continues.gives (hbody found) h₃).imp fun _ _ h => h.proceeds

theorem gives_foreignImport (htokens : s.hasTokens) (hfuel : 5 * s.remaining + 1 ≤ fuel + 1) :
    (foreignImport reach).Gives s fun _ s' => s.Passes s' := by
  rw [foreignImport, gives_bind, advance, gives_act]
  refine Continues.gives ?_ (passes_advance hs htokens)
  have hsignature : Continues s.Passes (closedSignature reach) := by
    refine (continues_signature hr hs (by omega)).bind fun found => ?_
    cases found with
    | none => exact continues_pure _
    | some found => exact continues_exitScope.bind fun _ => continues_pure _
  refine continues_expect.bind fun _ => continues_expect.bind fun _ => continues_expect.bind fun _ =>
    continues_expect.bind fun token => continues_addModule.bind fun _ => continues_expect.bind fun _ =>
    hsignature.bind fun found => continues_expect.bind fun _ => continues_expect.bind fun _ => ?_
  cases found with
  | none => exact continues_pure _
  | some found => exact continues_alloc.bind fun _ => continues_pure _

theorem gives_block (hfuel : 5 * s.remaining + 5 ≤ fuel + 1) :
    (block reach).Gives s fun _ _ => True := by
  rw [block, gives_bind, currentPosition, gives_look, gives_bind, enterScope, gives_act, gives_bind,
    blockBody, gives_bind, expect, gives_act, gives_bind]
  have h₂ := (s.extends_enterScope s.current.position).trans (extends_expect _ .openCurly)
  have hle := h₂.remaining_le
  refine gives_reach hr (h₂.terminated hs) (by simp [Goal.needsToken])
    (by simp only [Goal.rank]; omega) ?_
  intro _ s₃ _ _
  simp [expect, exitScope]

/-- Behind one part of a list the others can be afforded. -/
theorem gives_others (found : Option NodeId) {goal : Goal Unit} (hgoal : goal.needsToken = false)
    {s₁ : Builder} (h₁ : s.Passes s₁) (hfuel : 5 * s.remaining ≤ fuel) :
    Gives (do addFound found; reach goal) s₁ fun _ _ => True := by
  have hadd : Continues s.Passes (addFound found) := by
    cases found with
    | none => exact continues_pure _
    | some id => exact continues_addStatement
  exact (Continues.gives (hadd.bind fun _ => continues_reach hr hs hfuel _ hgoal) h₁).imp
    fun _ _ _ => trivial

theorem gives_statements (hfuel : 5 * s.remaining + 4 ≤ fuel + 1) :
    (statements reach).Gives s fun _ _ => True := by
  rw [statements, gives_bind, currentKind, gives_look, gives_bind, gives_look]
  split
  · next hmore =>
    rw [gives_bind]
    refine gives_reach hr hs (by simp [Goal.needsToken]) (by simp only [Goal.rank]; omega) ?_
    intro found s₁ _ h₁
    exact gives_others hr hs found rfl (h₁ rfl hmore.2) (by omega)
  · simp

theorem gives_declarations (hfuel : 5 * s.remaining + 4 ≤ fuel + 1) :
    (declarations reach).Gives s fun _ _ => True := by
  rw [declarations, gives_bind, gives_look]
  split
  · next hmore =>
    rw [gives_bind]
    refine gives_reach hr hs (by simp [Goal.needsToken]) (by simp only [Goal.rank]; omega) ?_
    intro found s₁ _ h₁
    exact gives_others hr hs found rfl (h₁ rfl hmore) (by omega)
  · simp

theorem gives_returnStatement (htokens : s.hasTokens) (hfuel : 5 * s.remaining + 1 ≤ fuel + 1) :
    (returnStatement reach).Gives s fun _ s' => s.Passes s' := by
  rw [returnStatement, gives_bind, advance, gives_act]
  refine Continues.gives ?_ (passes_advance hs htokens)
  refine .bind ?_ fun _ => continues_expect.bind fun _ => continues_alloc.bind fun _ =>
    continues_pure _
  exact continues_look.bind fun _ =>
    .ite (continues_pure _) (continues_reach hr hs (by omega) _ rfl)

omit hr in
theorem gives_loopControl : loopControl.Gives s fun _ s' => s.Proceeds s' := by
  rw [loopControl, gives_bind, advance, gives_act]
  refine Continues.gives ?_ (proceeds_advance hs)
  refine .bind ?_ fun _ => continues_expect.bind fun _ => continues_alloc.bind fun _ =>
    continues_pure _
  exact continues_look.bind fun _ => .ite continues_report (continues_pure _)

theorem gives_ifStatement (htokens : s.hasTokens) (hfuel : 5 * s.remaining + 1 ≤ fuel + 1) :
    (ifStatement reach).Gives s fun _ s' => s.Passes s' := by
  rw [ifStatement, gives_bind, advance, gives_act]
  refine Continues.gives ?_ (passes_advance hs htokens)
  exact .bind (continues_reach hr hs (by omega) _ rfl) fun _ =>
    .bind (continues_reach hr hs (by omega) _ rfl) fun _ =>
    .bind (continues_reach hr hs (by omega) _ rfl) fun _ =>
    continues_alloc.bind fun _ => continues_pure _

theorem gives_elseClause (hfuel : 5 * s.remaining + 1 ≤ fuel + 1) :
    (elseClause reach).Gives s fun _ _ => True := by
  rw [elseClause, gives_bind, currentKind, gives_look]
  split
  · next hkind =>
    have htokens : s.hasTokens := s.hasTokens_iff.mpr (by rw [hkind]; decide)
    rw [gives_bind, advance, gives_act]
    refine (Continues.gives ?_ (passes_advance hs htokens)).imp fun _ _ _ => trivial
    exact .bind (continues_reach hr hs (by omega) _ rfl) fun _ =>
      .bind (continues_reach hr hs (by omega) _ rfl) fun _ =>
      .bind (continues_reach hr hs (by omega) _ rfl) fun _ =>
      continues_alloc.bind fun _ => continues_pure _
  · next hkind =>
    have htokens : s.hasTokens := s.hasTokens_iff.mpr (by rw [hkind]; decide)
    rw [gives_bind, advance, gives_act]
    refine (Continues.gives ?_ (passes_advance hs htokens)).imp fun _ _ _ => trivial
    exact .bind (continues_reach hr hs (by omega) _ rfl) fun _ =>
      continues_alloc.bind fun _ => continues_pure _
  · simp

theorem gives_whileStatement (htokens : s.hasTokens) (hfuel : 5 * s.remaining + 1 ≤ fuel + 1) :
    (whileStatement reach).Gives s fun _ s' => s.Passes s' := by
  rw [whileStatement, gives_bind, advance, gives_act]
  refine Continues.gives ?_ (passes_advance hs htokens)
  exact .bind (continues_reach hr hs (by omega) _ rfl) fun _ => continues_setLoopDepth.bind fun _ =>
    .bind (continues_reach hr hs (by omega) _ rfl) fun _ => continues_setLoopDepth.bind fun _ =>
    continues_alloc.bind fun _ => continues_pure _

end Statements

end Parse

/-! ## All parts together -/

open Parse in
/-- One step of reading gives a result where the references in it do. -/
theorem Goal.step_gives {reach : Reach} {fuel : Nat} (hr : Affords fuel reach) {s : Builder}
    (hs : s.Terminated) : ∀ {α : Type} (goal : Goal α), (goal.needsToken → s.hasTokens) →
      goal.cost s ≤ fuel + 1 → (goal.step .standard reach).Gives s fun _ s' =>
        goal.passes → s.hasTokens → s.Passes s'
  | _, .production .unary, _, h => (gives_unary hr hs h).imp (by simp [passes])
  | _, .production .primary, _, h => (gives_primary hr hs h).imp fun _ _ h' _ => h'.passes
  | _, .production .prefixed, ht, h => (gives_prefixed hr hs (ht rfl) h).imp fun _ _ h' _ _ => h'
  | _, .production .grouping, ht, h => (gives_grouping hr hs (ht rfl) h).imp fun _ _ h' _ _ => h'
  | _, .production .declaration, _, h => (gives_declaration hr hs h).imp fun _ _ h' _ => h'.passes
  | _, .production .statement, _, h => (gives_statement hr hs h).imp fun _ _ h' _ => h'.passes
  | _, .production .identifierStatement, _, h =>
    (gives_identifierStatement hr hs h).imp fun _ _ h' _ => h'.passes
  | _, .production .variableStatement, _, h =>
    (gives_variableStatement hr hs h).imp fun _ _ h' _ => h'.passes
  | _, .production .function, _, h => (gives_function hr hs h).imp fun _ _ h' _ => h'.passes
  | _, .production .foreignImport, ht, h =>
    (gives_foreignImport hr hs (ht rfl) h).imp fun _ _ h' _ _ => h'
  | _, .production .returnStatement, ht, h =>
    (gives_returnStatement hr hs (ht rfl) h).imp fun _ _ h' _ _ => h'
  | _, .production .loopControl, _, _ => (gives_loopControl hs).imp fun _ _ h' _ => h'.passes
  | _, .production .ifStatement, ht, h =>
    (gives_ifStatement hr hs (ht rfl) h).imp fun _ _ h' _ _ => h'
  | _, .production .whileStatement, ht, h =>
    (gives_whileStatement hr hs (ht rfl) h).imp fun _ _ h' _ _ => h'
  | _, .production .type, _, _ => (gives_type hs).imp fun _ _ h' _ => h'.passes
  | _, .expression power, _, h => (gives_expression hr hs power h).imp (by simp [passes])
  | _, .operators left power, _, h => (gives_operators hr hs left power h).imp (by simp [passes])
  | _, .binary left power, ht, h =>
    (gives_binary hr hs left power (ht rfl) h).imp fun _ _ h' _ _ => h'
  | _, .call isStatement, _, h => (gives_call hr hs isStatement h).imp fun _ _ h' _ => h'.passes
  | _, .arguments, _, h => (gives_arguments hr hs h).imp (by simp [passes])
  | _, .values, _, h => (gives_values hr hs h).imp (by simp [passes])
  | _, .parameters, _, h => (gives_parameters hr hs h).imp (by simp [passes])
  | _, .elseClause, _, h => (gives_elseClause hr hs h).imp (by simp [passes])
  | _, .block, _, h => (gives_block hr hs h).imp (by simp [passes])
  | _, .statements, _, h => (gives_statements hr hs h).imp (by simp [passes])
  | _, .declarations, _, h => (gives_declarations hr hs h).imp (by simp [passes])

/-- **A part of the grammar is read to its end in as many steps as it costs.** -/
theorem Goal.affords_reach (fuel : Nat) : Parse.Affords fuel (Goal.reach .standard fuel) := by
  induction fuel with
  | zero =>
    intro α goal s _ _ hcost
    rw [cost] at hcost
    omega
  | succ fuel ih =>
    intro α goal s hs htokens hcost
    obtain ⟨a, s', hread, hpasses⟩ := Goal.step_gives ih hs goal htokens hcost
    exact ⟨a, s', hread, Goal.reach_extends (fuel + 1) goal s a s' hread, hpasses⟩

namespace Builder

/-- Tokens that are made to end have an end. -/
theorem exists_eof_of_terminated (tokens : List Token) :
    ∃ t ∈ terminated tokens, t.kind = .eof := by
  unfold terminated
  split
  · next last hlast =>
    split
    · next hkind => exact ⟨last, List.mem_of_getLast? hlast, hkind⟩
    · exact ⟨_, List.mem_append_right _ (List.mem_singleton_self _), rfl⟩
  · exact ⟨_, List.mem_singleton_self _, rfl⟩

/-- A builder starts in front of all its tokens. -/
theorem rest_ofTokens (tokens : List Token) : (ofTokens tokens).rest = terminated tokens := by
  obtain ⟨t, ht, -⟩ := exists_eof_of_terminated tokens
  obtain ⟨first, others, hcons⟩ := List.exists_cons_of_ne_nil (List.ne_nil_of_mem ht)
  simp only [rest, ofTokens, hcons, List.headD_cons, List.tail_cons]

theorem terminated_ofTokens (tokens : List Token) : (ofTokens tokens).Terminated := by
  rw [Terminated, rest_ofTokens]
  exact exists_eof_of_terminated tokens

/-- Fewer tokens are to come than there are. -/
theorem remaining_le_length (s : Builder) : s.remaining ≤ s.ahead.length + 1 :=
  (List.takeWhile_sublist _).length_le

end Builder

/-- The steps that reading a part is given are as many as it costs. -/
theorem Goal.cost_le_enoughFuel (goal : Goal α) (s : Builder) :
    goal.cost s ≤ Goal.enoughFuel s.ahead.length := by
  have hle := s.remaining_le_length
  have hrank := goal.rank_le
  simp only [Goal.cost, Goal.enoughFuel, maxExpressionDepth]
  omega

/-- **Reading all tokens gives a result**, and the tree of a list of tokens is
what reading them comes to. -/
theorem Tree.build_spec (tokens : List Token) :
    ∃ fuel, Goal.reach .standard fuel .declarations (Builder.ofTokens tokens)
      = some ((), Tree.build tokens) := by
  obtain ⟨_, s', hread, -⟩ := Goal.affords_reach _ .declarations _
    (Builder.terminated_ofTokens tokens) (by simp [Goal.needsToken])
    (Goal.declarations.cost_le_enoughFuel (Builder.ofTokens tokens))
  have hbuild : Tree.build tokens = s' := by
    simp only [Tree.build, Goal.run]
    rw [show Goal.reach .standard _ .declarations _ = _ from hread]
  exact ⟨_, hbuild ▸ hread⟩

end Braced
