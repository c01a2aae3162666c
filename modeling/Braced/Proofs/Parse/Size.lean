import Braced.Proofs.Parse.Owns
import Braced.Proofs.Parse.Spares

/-!
# Braced.Proofs.Parse.Size

How large a tree can be.

Each token that is passed pays for two nodes and one scope.  What has been paid for and is
not used yet is room (`Builder.Room`): an operation that makes a node or a scope takes from
it, a token adds to it, and nothing else changes it.  Each part of the grammar leaves as much
room as it found (`Parse.Covers`), also where it gives up what it has made, and where it makes
a node at the end of the tokens.  So a tree is linear in its tokens.

A part that makes a node of the token it begins with has to be read in front of one
(`Goal.Starts`).  A call makes three nodes of two tokens, its operand among them, so it has to
be read at its name and its parenthesis; and a scope that a block opens is paid for by the
keyword in front of it.
-/

namespace Braced

/-! ## Room -/

namespace Builder

/-- Of what `n` tokens pay for, two nodes and one scope each, `nodes` nodes and `scopes`
scopes are left besides what is kept for the tokens to come. -/
structure Room (n nodes scopes : Nat) (s : Builder) : Prop where
  terminated : s.Terminated
  nodes_le : s.nodes.size + nodes + 2 * s.remaining ≤ 2 * n
  scopes_le : s.scopes.size + scopes + s.remaining ≤ n + 1

/-- There is room in front of a token. -/
structure RoomAhead (n nodes scopes : Nat) (s : Builder) : Prop
    extends s.Room n nodes scopes where
  hasTokens : s.hasTokens

variable {n p q p' q' : Nat} {s s' : Builder}

namespace Room

theorem mono (h : s.Room n p q) (hp : p' ≤ p) (hq : q' ≤ q) : s.Room n p' q' where
  terminated := h.terminated
  nodes_le := by
    have := h.nodes_le
    omega
  scopes_le := by
    have := h.scopes_le
    omega

/-- Passing tokens only adds to the room. -/
theorem of_extends (h : s.Room n p q) (hextends : s.Extends s')
    (hnodes : s'.nodes.size = s.nodes.size) (hscopes : s'.scopes.size = s.scopes.size) :
    s'.Room n p q := by
  have hremaining := hextends.remaining_le
  refine ⟨hextends.terminated h.terminated, ?_, ?_⟩
  · have := h.nodes_le
    omega
  · have := h.scopes_le
    omega

theorem of_same (h : s.Room n p q) (hs : s.SamePlaces s') : s'.Room n p q :=
  h.of_extends hs.extends_ (by rw [hs.nodes]) hs.size

/-- A token that has been passed pays for two nodes and one scope. -/
theorem of_passes (h : s.Room n p q) (hs : s.SamePlaces s')
    (hpasses : s'.remaining < s.remaining) : s'.Room n (p + 2) (q + 1) := by
  have hnodes : s'.nodes.size = s.nodes.size := by rw [hs.nodes]
  have hscopes := hs.size
  refine ⟨hs.extends_.terminated h.terminated, ?_, ?_⟩
  · have := h.nodes_le
    omega
  · have := h.scopes_le
    omega

theorem alloc (h : s.Room n (p + 1) q) (position : Position) (kind : NodeKind) :
    (s.alloc position kind).2.Room n p q := by
  have hnodes : (s.alloc position kind).2.nodes.size = s.nodes.size + 1 := Arena.size_alloc ..
  refine ⟨h.terminated, ?_, h.scopes_le⟩
  have hle : s.nodes.size + (p + 1) + 2 * s.remaining ≤ 2 * n := h.nodes_le
  show (s.alloc position kind).2.nodes.size + p + 2 * s.remaining ≤ 2 * n
  omega

theorem enterScope (h : s.Room n p (q + 1)) (position : Position) :
    (s.enterScope position).2.Room n p q := by
  have hscopes : (s.enterScope position).2.scopes.size = s.scopes.size + 1 :=
    ScopeForest.size_push ..
  refine ⟨h.terminated, h.nodes_le, ?_⟩
  have hle : s.scopes.size + (q + 1) + s.remaining ≤ n + 1 := h.scopes_le
  show (s.enterScope position).2.scopes.size + q + s.remaining ≤ n + 1
  omega

end Room

end Builder

/-- Where a part leaves as much room as it finds.  One that makes a node of the token that it
begins with stands in front of a token; a call and a block have conditions of their own. -/
def Goal.Starts : Goal α → Builder → Prop
  | production .primary, s | production .prefixed, s | production .grouping, s
  | production .returnStatement, s | production .loopControl, s | production .ifStatement, s
  | production .whileStatement, s | binary .., s => s.hasTokens
  | production .identifierStatement, s => s.current.kind = .identifier
  | call _, _ | block, _ => False
  | _, _ => True

namespace Parse

open Builder

/-! ## Conditions before and behind an action -/

/-- Wherever `P` holds, what `m` gives satisfies `Q`. -/
def Brings (P : Builder → Prop) (m : Parse α) (Q : α → Builder → Prop) : Prop :=
  ∀ s, P s → m.Ensures s Q

section Brings

variable {P P' : Builder → Prop} {m m' : Parse α} {Q : α → Builder → Prop}
  {R : β → Builder → Prop}

theorem Brings.bind {f : α → Parse β} (hm : Brings P m Q) (hf : ∀ a, Brings (Q a) (f a) R) :
    Brings P (m >>= f) R := by
  intro s hs
  rw [ensures_bind]
  exact (hm s hs).imp fun a s' h => hf a s' h

theorem Brings.ite {c : Prop} [Decidable c] (hm : Brings P m Q) (hm' : Brings P m' Q) :
    Brings P (if c then m else m') Q := by
  split
  · exact hm
  · exact hm'

theorem Brings.of_imp (hm : Brings P m Q) (h : ∀ s, P' s → P s) : Brings P' m Q :=
  fun s hs => hm s (h s hs)

theorem brings_pure {a : α} (h : ∀ s, P s → Q a s) : Brings P (pure a : Parse α) Q :=
  fun s hs => (ensures_pure a).mpr (h s hs)

theorem brings_look {f : Builder → α} : Brings P (look f) fun _ => P :=
  fun _ hs => (ensures_look f).mpr hs

end Brings

/-! ## The room that actions take -/

section Actions

variable {n p q p' q' : Nat}

/-- Some nodes and scopes are left over, and given up. -/
theorem brings_rest (nodes scopes : Nat) {a : α} :
    Brings (Room n (p + nodes) (q + scopes)) (pure a : Parse α) fun _ => Room n p q :=
  brings_pure fun _ h => h.mono (Nat.le_add_right ..) (Nat.le_add_right ..)

/-- An action that makes nothing takes no room. -/
theorem Keeps.brings {m : Parse α} (hm : Keeps SamePlaces m) :
    Brings (Room n p q) m fun _ => Room n p q :=
  fun s hs => (hm s).imp fun _ _ h => hs.of_same h

theorem brings_advance : Brings (RoomAhead n p q) advance fun _ => Room n (p + 2) (q + 1) :=
  fun s hs => (ensures_act _).mpr
    (hs.toRoom.of_passes (Still.advance s) (remaining_advance hs.terminated hs.hasTokens))

/-- A token that was expected and has come pays, and one that was not does not have to. -/
theorem brings_expect {kind : TokenKind} (hkind : kind ≠ .eof) :
    Brings (Room n p q) (expect kind) fun found =>
      found.elim (Room n p q) fun _ => Room n (p + 2) (q + 1) := by
  intro s hs
  rw [expect, ensures_act]
  have hsame : s.SamePlaces (s.expect kind).2 := Still.expect s kind
  cases hfound : (s.expect kind).1 with
  | none => exact hs.of_same hsame
  | some token =>
    have htokens := (hasTokens_of_expect hkind hfound).1
    exact hs.of_passes hsame (remaining_expect hs.terminated htokens kind)

theorem brings_alloc {position : Position} {kind : NodeKind} :
    Brings (Room n (p + 1) q) (alloc position kind) fun _ => Room n p q :=
  fun _ hs => (ensures_act _).mpr (hs.alloc position kind)

theorem brings_enterScope {position : Position} :
    Brings (Room n p (q + 1)) (enterScope position) fun _ => Room n p q :=
  fun _ hs => (ensures_act _).mpr (hs.enterScope position)

/-- A change to the depths or the open scope takes no room. -/
theorem brings_change {f : Builder → Builder} (hextends : ∀ s : Builder, s.Extends (f s))
    (hnodes : ∀ s, (f s).nodes = s.nodes) (hscopes : ∀ s, (f s).scopes.size = s.scopes.size) :
    Brings (Room n p q) (change f) fun _ => Room n p q :=
  fun s hs => (ensures_change f _).mpr
    (hs.of_extends (hextends s) (by rw [hnodes s]) (hscopes s))

theorem brings_exitScope : Brings (Room n p q) exitScope fun _ => Room n p q :=
  brings_change extends_exitScope (fun _ => rfl) fun _ => rfl

theorem brings_addStatement {id : NodeId} :
    Brings (Room n p q) (addStatement id) fun _ => Room n p q :=
  brings_change (fun s => s.extends_addStatement id) (fun _ => rfl)
    fun s => s.scopes.size_addStatement s.scope id

theorem brings_setLoopDepth {f : Builder → Nat} :
    Brings (Room n p q) (change fun s => s.setLoopDepth (f s)) fun _ => Room n p q :=
  brings_change (fun _ => .of_eq rfl rfl rfl rfl) (fun _ => rfl) fun _ => rfl

end Actions

/-! ## Parts of the grammar -/

/-- Each part leaves as much room as it finds.  A call leaves room for one node more, which is
that of the operand it may stand in, and a block takes a scope. -/
structure Covers (n : Nat) (reach : Reach) : Prop where
  part : ∀ {α : Type} (goal : Goal α) {p q : Nat},
    Brings (fun s => goal.Starts s ∧ s.Room n p q) (reach goal) fun _ => Room n p q
  call : ∀ (isStatement : Bool) {p q : Nat},
    Brings (fun s => (s.current.kind = .identifier ∧ s.peekKind 1 = .openParen) ∧ s.Room n p q)
      (reach (.call isStatement)) fun _ => Room n (p + 1) q
  block : ∀ {p q : Nat}, Brings (Room n p (q + 1)) (reach .block) fun _ => Room n p q

variable {n p q : Nat} {reach : Reach} (hr : Covers n reach)

include hr

/-- A part that may be read anywhere leaves as much room as it finds. -/
theorem Covers.anywhere (goal : Goal α) (h : ∀ s, goal.Starts s) :
    Brings (Room n p q) (reach goal) fun _ => Room n p q :=
  (hr.part goal).of_imp fun s hs => ⟨h s, hs⟩

/-! ### Expressions -/

section Expressions

open Tree.Expression

theorem covers_expression (power : Power) :
    Brings (Room n p q) (expression reach power) fun _ => Room n p q := by
  refine (hr.anywhere (.production .unary) fun _ => trivial).bind fun found => ?_
  cases found with
  | none => exact brings_rest 0 0
  | some left => exact hr.anywhere (.operators left power) fun _ => trivial

theorem covers_operators (left : NodeId) (power : Power) :
    Brings (Room n p q) (operators .standard reach left power) fun _ => Room n p q := by
  intro s h
  refine ensures_operators (fun _ => h) (h.of_same (Still.tooDeep s)) fun next hnext _ => ?_
  have htokens : s.hasTokens := hasTokens_of_rule rfl hnext
  have h₁ := h.of_same (s.samePlaces_depth (s.expressionDepth + 1))
  refine (hr.part (.binary left next) (s.atDepth (s.expressionDepth + 1)) ⟨htokens, h₁⟩).imp
    fun found s₂ h₂ => ?_
  cases found with
  | none => exact h₂.of_same (s₂.samePlaces_exitExpression 1)
  | some folded =>
    exact (hr.part (.operators folded power) s₂ ⟨trivial, h₂⟩).imp fun found s₃ h₃ =>
      h₃.of_same (s₃.samePlaces_exitExpression 1)

theorem covers_binary (left : NodeId) (power : Power) :
    Brings (RoomAhead n p q) (binary reach left power) fun _ => Room n p q := by
  refine brings_advance.bind fun token => ?_
  split
  · exact brings_rest 2 1
  · refine (hr.anywhere (.expression power) fun _ => trivial).bind fun found => ?_
    cases found with
    | none => exact brings_rest 2 1
    | some right => exact brings_look.bind fun _ => brings_alloc.bind fun _ => brings_rest 1 1

theorem covers_operand :
    Brings (Room n p q) (operand .standard reach) fun _ => Room n p q := by
  intro s h
  rw [operand, ensures_bind, currentKind, ensures_look]
  split
  · next production hproduction =>
    have htokens : s.hasTokens := hasTokens_of_rule rfl hproduction
    rcases production_of_operand hproduction with rfl | rfl | ⟨rfl, -⟩
    · exact hr.part (.production .primary) s ⟨htokens, h⟩
    · exact hr.part (.production .prefixed) s ⟨htokens, h⟩
    · exact hr.part (.production .grouping) s ⟨htokens, h⟩
  · refine Keeps.brings (keeps_reportHere ?_) s h
    exact .ite (keeps_advance.bind fun _ => keeps_pure _) (keeps_pure _)

theorem covers_unary : Brings (Room n p q) (unary .standard reach) fun _ => Room n p q := by
  intro s h
  have h₁ := h.of_same (s.samePlaces_depth (s.expressionDepth + 1))
  exact ensures_unary (h.of_same (Still.tooDeep s)) fun _ =>
    (covers_operand hr _ h₁).imp fun found s₂ h₂ => h₂.of_same (s₂.samePlaces_exitExpression 1)

theorem covers_prefixed : Brings (RoomAhead n p q) (prefixed reach) fun _ => Room n p q := by
  refine brings_advance.bind fun token => ?_
  refine (hr.anywhere (.production .unary) fun _ => trivial).bind fun found => ?_
  cases found with
  | none => exact brings_rest 2 1
  | some operand => exact brings_alloc.bind fun _ => brings_rest 1 1

theorem covers_grouping : Brings (RoomAhead n p q) (grouping reach) fun _ => Room n p q := by
  refine brings_advance.bind fun token => ?_
  refine (hr.anywhere (.expression .lowest) fun _ => trivial).bind fun found => ?_
  cases found with
  | none => exact brings_rest 2 1
  | some operand =>
    exact keeps_expectClosing.brings.bind fun _ => brings_alloc.bind fun _ => brings_rest 1 1

omit hr in
theorem covers_variableValue :
    Brings (RoomAhead n p q) variableValue fun _ => Room n (p + 1) q :=
  brings_advance.bind fun _ => keeps_resolveIdentifier.brings.bind fun _ =>
    brings_alloc.bind fun _ => brings_rest 0 1

omit hr in
theorem covers_constantValue :
    Brings (RoomAhead n p q) constantValue fun _ => Room n (p + 1) q := by
  refine brings_advance.bind fun token => ?_
  split
  · exact brings_rest 1 1
  · exact keeps_report.brings.bind fun _ => brings_rest 1 1

/-- A call, a variable and a constant all leave room for the node of an operand. -/
theorem covers_primaryValue :
    Brings (RoomAhead n p q) (primaryValue reach) fun _ => Room n (p + 1) q := by
  intro s h
  exact ensures_primaryValue (fun hkind hparen => hr.call false s ⟨⟨hkind, hparen⟩, h.toRoom⟩)
    (fun _ => covers_variableValue s h) fun _ => covers_constantValue s h

theorem covers_primary : Brings (RoomAhead n p q) (primary reach) fun _ => Room n p q := by
  refine brings_look.bind fun position => (covers_primaryValue hr).bind fun found => ?_
  cases found with
  | none => exact brings_rest 1 0
  | some value =>
    exact keeps_postfixStep.brings.bind fun _ => brings_alloc.bind fun _ => brings_rest 0 0

theorem covers_arguments : Brings (Room n p q) (arguments reach) fun _ => Room n p q := by
  refine (hr.anywhere (.expression .lowest) fun _ => trivial).bind fun first =>
    keeps_accept.brings.bind fun more => .ite ?_ (brings_rest 0 0)
  exact (hr.anywhere .arguments fun _ => trivial).bind fun _ => brings_rest 0 0

theorem covers_argumentList : Brings (fun s => s.current.kind = .openParen ∧ s.Room n p q)
    (argumentList reach) fun _ => Room n (p + 2) (q + 1) := by
  rintro s ⟨hkind, h⟩
  have htokens : s.hasTokens := s.hasTokens_iff.mpr (by rw [hkind]; decide)
  rw [argumentList, ensures_bind, expect, ensures_act, expect_of_eq hkind]
  have h₁ : s.advance.2.Room n (p + 2) (q + 1) :=
    h.of_passes (Still.advance s) (remaining_advance h.terminated htokens)
  refine Brings.bind brings_look (fun kind => .ite ?_ ?_) _ h₁
  · exact (keeps_closeArguments _).brings.bind fun _ => brings_rest 0 0
  · exact (hr.anywhere .arguments fun _ => trivial).bind fun found =>
      (keeps_closeArguments _).brings.bind fun _ => brings_rest 0 0

/-- The name and the parenthesis of a call pay for its two nodes, and for another one. -/
theorem covers_call (isStatement : Bool) :
    Brings (fun s => (s.current.kind = .identifier ∧ s.peekKind 1 = .openParen) ∧ s.Room n p q)
      (call reach isStatement) fun _ => Room n (p + 1) q := by
  rintro s ⟨⟨hname, hparen⟩, h⟩
  have hcurrent : s.current.kind ≠ .eof := by rw [hname]; decide
  have hopen := current_advance hcurrent hparen (by decide)
  rw [call, ensures_bind, expect, ensures_act, expect_of_eq hname]
  simp only [resolveFunction, Parse.alloc, ensures_bind, ensures_change, ensures_act]
  have h₁ : s.advance.2.Room n (p + 2) (q + 1) := h.of_passes (Still.advance s)
    (remaining_advance h.terminated (s.hasTokens_iff.mpr hcurrent))
  -- the name has made its node, and the parenthesis that was seen behind it is still to pay
  have hresolved : s.advance.2.SamePlaces _ :=
    Still.resolveFunction _ s.current.identifierName s.current.position
  have h₂ := (h₁.of_same hresolved).alloc s.current.position (.ident s.current.identifierName)
  have hrest : ((s.advance.2.resolveFunction s.current.identifierName s.current.position).alloc
    s.current.position (.ident s.current.identifierName)).2.rest = s.advance.2.rest := by simp
  have hkind := (congrArg Token.kind (current_eq_of_rest hrest)).trans hopen
  refine (covers_argumentList hr _ ⟨hkind, h₂⟩).imp fun found s₃ h₃ => ?_
  cases found with
  | none => exact (ensures_pure _).mpr (h₃.mono (by omega) (by omega))
  | some arguments =>
    simp only [ensures_bind, ensures_look, ensures_act, ensures_pure]
    exact (h₃.mono (by omega) (by omega)).alloc _ _

end Expressions

/-! ### Statements -/

section Statements

open Tree.Statement

omit hr in
theorem covers_type : Brings (Room n p q) type fun _ => Room n p q := by
  refine brings_look.bind fun position => keeps_accept.brings.bind fun isConst => ?_
  intro s h
  rw [typeName, ensures_bind, currentKind, ensures_look]
  split
  · exact Keeps.brings (keeps_reportHere (keeps_advance.bind fun _ => keeps_pure _)) s h
  · next atom hatom =>
    have htokens : s.hasTokens := hasTokens_of_rule rfl hatom
    refine Brings.bind brings_advance (fun _ => ?_) s ⟨h, htokens⟩
    exact brings_alloc.bind fun _ => brings_rest 1 1

theorem covers_declaration :
    Brings (Room n p q) (declaration .standard reach) fun _ => Room n p q := by
  intro s h
  rw [declaration, ensures_bind, currentKind, ensures_look]
  split
  · next production hproduction =>
    rcases production_of_declaration hproduction with ⟨rfl, hkind⟩ | ⟨rfl, -⟩
    · exact hr.part (.production .identifierStatement) s ⟨hkind, h⟩
    · exact hr.part (.production .foreignImport) s ⟨trivial, h⟩
  · exact Keeps.brings (keeps_reportHere (keeps_advance.bind fun _ => keeps_pure _)) s h

theorem covers_statement :
    Brings (Room n p q) (statement .standard reach) fun _ => Room n p q := by
  intro s h
  rw [statement, ensures_bind, currentKind, ensures_look]
  split
  · next production hproduction =>
    have htokens : s.hasTokens := hasTokens_of_rule rfl hproduction
    rcases production_of_statement hproduction with
      ⟨rfl, hkind⟩ | ⟨rfl, -⟩ | ⟨rfl, -⟩ | ⟨rfl, -⟩ | ⟨rfl, -⟩
    · exact hr.part (.production .identifierStatement) s ⟨hkind, h⟩
    · exact hr.part (.production .returnStatement) s ⟨htokens, h⟩
    · exact hr.part (.production .loopControl) s ⟨htokens, h⟩
    · exact hr.part (.production .ifStatement) s ⟨htokens, h⟩
    · exact hr.part (.production .whileStatement) s ⟨htokens, h⟩
  · exact Keeps.brings (keeps_reportHere (keeps_advance.bind fun _ => keeps_pure _)) s h

theorem covers_identifierStatement :
    Brings (fun s => s.current.kind = .identifier ∧ s.Room n p q) (identifierStatement reach)
      fun _ => Room n p q := by
  rintro s ⟨hkind, h⟩
  rw [identifierStatement, ensures_bind, ensures_look, ensures_bind, ensures_look]
  split
  · next hparen =>
    refine Brings.bind (hr.call true) (fun _ => ?_) s ⟨⟨hkind, hparen⟩, h⟩
    exact keeps_expect.brings.bind fun _ => brings_rest 1 0
  · split
    · exact hr.part (.production .function) s ⟨trivial, h⟩
    · refine Brings.bind (hr.part (.production .variableStatement)) (fun _ => ?_) s ⟨trivial, h⟩
      exact keeps_expect.brings.bind fun _ => brings_rest 0 0

theorem covers_values : Brings (Room n p q) (values reach) fun _ => Room n p q := by
  refine keeps_accept.brings.bind fun more => .ite ?_ (brings_rest 0 0)
  exact (hr.anywhere (.expression .lowest) fun _ => trivial).bind fun _ =>
    (hr.anywhere .values fun _ => trivial).bind fun _ => brings_rest 0 0

theorem covers_declaredType (token : Token) :
    Brings (Room n p q) (declaredType reach token) fun _ => Room n p q := by
  refine keeps_accept.brings.bind fun typed => .ite ?_ ?_
  · exact (hr.anywhere (.production .type) fun _ => trivial).bind fun _ =>
      (keeps_declare rfl).brings.bind fun _ => brings_rest 0 0
  · exact keeps_resolveIdentifier.brings.bind fun _ => brings_rest 0 0

theorem covers_variableStatement :
    Brings (Room n p q) (variableStatement reach) fun _ => Room n p q := by
  refine (brings_expect (by decide)).bind fun found => ?_
  cases found with
  | none => exact brings_rest 0 0
  | some token =>
    exact (covers_declaredType hr token).bind fun _ => brings_alloc.bind fun _ =>
      (hr.anywhere .values fun _ => trivial).bind fun _ => brings_alloc.bind fun _ =>
      brings_rest 0 1

theorem covers_parameter : Brings (Room n p q) (parameter reach) fun _ => Room n p q := by
  refine (brings_expect (by decide)).bind fun found => ?_
  cases found with
  | none =>
    exact keeps_expect.brings.bind fun _ =>
      (hr.anywhere (.production .type) fun _ => trivial).bind fun _ => brings_rest 0 0
  | some token =>
    refine keeps_expect.brings.bind fun _ =>
      (hr.anywhere (.production .type) fun _ => trivial).bind fun atom => ?_
    cases atom with
    | none => exact brings_rest 2 1
    | some atom =>
      exact (keeps_declare rfl).brings.bind fun _ => brings_alloc.bind fun _ => brings_rest 1 1

theorem covers_parameters : Brings (Room n p q) (parameters reach) fun _ => Room n p q := by
  refine (covers_parameter hr).bind fun first => keeps_accept.brings.bind fun more =>
    .ite ?_ (brings_rest 0 0)
  exact (hr.anywhere .parameters fun _ => trivial).bind fun _ => brings_rest 0 0

theorem covers_parameterList : Brings (Room n p q) (parameterList reach) fun _ => Room n p q := by
  refine keeps_expect.brings.bind fun _ => brings_look.bind fun kind => .ite ?_ ?_
  · exact keeps_expect.brings.bind fun _ => brings_rest 0 0
  · exact (hr.anywhere .parameters fun _ => trivial).bind fun _ =>
      keeps_expect.brings.bind fun _ => brings_rest 0 0

theorem covers_resultType : Brings (Room n p q) (resultType reach) fun _ => Room n p q :=
  keeps_accept.brings.bind fun _ =>
    .ite (hr.anywhere (.production .type) fun _ => trivial) (brings_rest 0 0)

/-- The name of a function pays for its scope, for its own node and for that of the
function. -/
theorem covers_signature : Brings (Room n p q) (signature reach) fun found =>
    found.elim (Room n p q) fun _ => Room n (p + 1) q := by
  refine (brings_expect (by decide)).bind fun found => ?_
  cases found with
  | none => exact brings_pure fun _ h => h
  | some token =>
    refine Brings.bind (Q := fun _ => Room n (p + 1) q) ?_ fun _ => brings_pure fun _ h => h
    exact (keeps_declare rfl).brings.bind fun _ => brings_alloc.bind fun _ =>
      keeps_expect.brings.bind fun _ => brings_enterScope.bind fun _ =>
      (covers_parameterList hr).bind fun _ => (covers_resultType hr).bind fun _ => brings_rest 0 0

theorem covers_blockBody : Brings (Room n p q) (blockBody reach) fun _ => Room n p q :=
  keeps_expect.brings.bind fun _ => (hr.anywhere .statements fun _ => trivial).bind fun _ =>
    keeps_expect.brings.bind fun _ => brings_rest 0 0

theorem covers_function : Brings (Room n p q) (function reach) fun _ => Room n p q := by
  refine brings_look.bind fun position => keeps_refuseNested.brings.bind fun _ =>
    (covers_signature hr).bind fun found => ?_
  cases found with
  | none => exact brings_rest 0 0
  | some found =>
    exact brings_look.bind fun _ => brings_setLoopDepth.bind fun _ =>
      (covers_blockBody hr).bind fun _ => brings_setLoopDepth.bind fun _ =>
      brings_exitScope.bind fun _ => brings_alloc.bind fun _ => brings_rest 0 0

theorem covers_closedSignature : Brings (Room n p q) (closedSignature reach) fun found =>
    found.elim (Room n p q) fun _ => Room n (p + 1) q := by
  refine (covers_signature hr).bind fun found => ?_
  cases found with
  | none => exact brings_pure fun _ h => h
  | some found => exact brings_exitScope.bind fun _ => brings_pure fun _ h => h

theorem covers_foreignImport : Brings (Room n p q) (foreignImport reach) fun _ => Room n p q := by
  refine keeps_advance.brings.bind fun mark => keeps_expect.brings.bind fun _ =>
    keeps_expect.brings.bind fun _ => keeps_expect.brings.bind fun _ =>
    keeps_expect.brings.bind fun token => keeps_addModule.brings.bind fun _ =>
    keeps_expect.brings.bind fun _ => (covers_closedSignature hr).bind fun found => ?_
  cases found with
  | none =>
    exact keeps_expect.brings.bind fun _ => keeps_expect.brings.bind fun _ => brings_rest 0 0
  | some found =>
    exact keeps_expect.brings.bind fun _ => keeps_expect.brings.bind fun _ =>
      brings_alloc.bind fun _ => brings_rest 0 0

theorem covers_block : Brings (Room n p (q + 1)) (block reach) fun _ => Room n p q :=
  brings_look.bind fun _ => brings_enterScope.bind fun _ => (covers_blockBody hr).bind fun _ =>
    brings_exitScope.bind fun _ => brings_rest 0 0

omit hr in
theorem covers_addFound (found : Option NodeId) :
    Brings (Room n p q) (addFound found) fun _ => Room n p q := by
  cases found with
  | none => exact brings_rest 0 0
  | some id => exact brings_addStatement

theorem covers_statements : Brings (Room n p q) (statements reach) fun _ => Room n p q := by
  refine brings_look.bind fun _ => brings_look.bind fun _ => .ite ?_ (brings_rest 0 0)
  exact (hr.anywhere (.production .statement) fun _ => trivial).bind fun found =>
    (covers_addFound found).bind fun _ => hr.anywhere .statements fun _ => trivial

theorem covers_declarations : Brings (Room n p q) (declarations reach) fun _ => Room n p q := by
  refine brings_look.bind fun _ => .ite ?_ (brings_rest 0 0)
  exact (hr.anywhere (.production .declaration) fun _ => trivial).bind fun found =>
    (covers_addFound found).bind fun _ => hr.anywhere .declarations fun _ => trivial

theorem covers_returnStatement :
    Brings (RoomAhead n p q) (returnStatement reach) fun _ => Room n p q := by
  refine brings_advance.bind fun token => Brings.bind ?_ fun value =>
    keeps_expect.brings.bind fun _ => brings_alloc.bind fun _ => brings_rest 1 1
  exact brings_look.bind fun _ =>
    .ite (brings_rest 0 0) (hr.anywhere (.expression .lowest) fun _ => trivial)

omit hr in
theorem covers_loopControl : Brings (RoomAhead n p q) loopControl fun _ => Room n p q :=
  brings_advance.bind fun token => (keeps_refuseOutsideLoop token).brings.bind fun _ =>
    keeps_expect.brings.bind fun _ => brings_alloc.bind fun _ => brings_rest 1 1

/-- A keyword pays for its node and for the scope of its block. -/
theorem covers_ifStatement : Brings (RoomAhead n p q) (ifStatement reach) fun _ => Room n p q :=
  brings_advance.bind fun _ => (hr.anywhere (.expression .lowest) fun _ => trivial).bind fun _ =>
    hr.block.bind fun _ => (hr.anywhere .elseClause fun _ => trivial).bind fun _ =>
    brings_alloc.bind fun _ => brings_rest 1 0

theorem covers_elseClause : Brings (Room n p q) (elseClause reach) fun _ => Room n p q := by
  intro s h
  rw [elseClause, ensures_bind, currentKind, ensures_look]
  split
  · next hkind =>
    have htokens : s.hasTokens := s.hasTokens_iff.mpr (by rw [hkind]; decide)
    refine Brings.bind brings_advance (fun _ => ?_) s ⟨h, htokens⟩
    exact (hr.anywhere (.expression .lowest) fun _ => trivial).bind fun _ =>
      hr.block.bind fun _ => (hr.anywhere .elseClause fun _ => trivial).bind fun _ =>
      brings_alloc.bind fun _ => brings_rest 1 0
  · next hkind =>
    have htokens : s.hasTokens := s.hasTokens_iff.mpr (by rw [hkind]; decide)
    refine Brings.bind brings_advance (fun _ => ?_) s ⟨h, htokens⟩
    exact hr.block.bind fun _ => brings_alloc.bind fun _ => brings_rest 1 0
  · exact (ensures_pure _).mpr h

theorem covers_whileStatement :
    Brings (RoomAhead n p q) (whileStatement reach) fun _ => Room n p q :=
  brings_advance.bind fun _ => (hr.anywhere (.expression .lowest) fun _ => trivial).bind fun _ =>
    brings_setLoopDepth.bind fun _ => hr.block.bind fun _ => brings_setLoopDepth.bind fun _ =>
    brings_alloc.bind fun _ => brings_rest 1 0

end Statements

/-! ### All parts together -/

/-- One step of reading leaves as much room as it finds. -/
theorem covers_step : ∀ {α : Type} (goal : Goal α) {p q : Nat},
    Brings (fun s => goal.Starts s ∧ s.Room n p q) (goal.step .standard reach) fun _ => Room n p q
  | _, .production .unary, _, _ => (covers_unary hr).of_imp fun _ h => h.2
  | _, .production .primary, _, _ => (covers_primary hr).of_imp fun _ h => ⟨h.2, h.1⟩
  | _, .production .prefixed, _, _ => (covers_prefixed hr).of_imp fun _ h => ⟨h.2, h.1⟩
  | _, .production .grouping, _, _ => (covers_grouping hr).of_imp fun _ h => ⟨h.2, h.1⟩
  | _, .production .declaration, _, _ => (covers_declaration hr).of_imp fun _ h => h.2
  | _, .production .statement, _, _ => (covers_statement hr).of_imp fun _ h => h.2
  | _, .production .identifierStatement, _, _ => covers_identifierStatement hr
  | _, .production .variableStatement, _, _ => (covers_variableStatement hr).of_imp fun _ h => h.2
  | _, .production .function, _, _ => (covers_function hr).of_imp fun _ h => h.2
  | _, .production .foreignImport, _, _ => (covers_foreignImport hr).of_imp fun _ h => h.2
  | _, .production .returnStatement, _, _ =>
    (covers_returnStatement hr).of_imp fun _ h => ⟨h.2, h.1⟩
  | _, .production .loopControl, _, _ => covers_loopControl.of_imp fun _ h => ⟨h.2, h.1⟩
  | _, .production .ifStatement, _, _ => (covers_ifStatement hr).of_imp fun _ h => ⟨h.2, h.1⟩
  | _, .production .whileStatement, _, _ => (covers_whileStatement hr).of_imp fun _ h => ⟨h.2, h.1⟩
  | _, .production .type, _, _ => covers_type.of_imp fun _ h => h.2
  | _, .expression power, _, _ => (covers_expression hr power).of_imp fun _ h => h.2
  | _, .operators left power, _, _ => (covers_operators hr left power).of_imp fun _ h => h.2
  | _, .binary left power, _, _ => (covers_binary hr left power).of_imp fun _ h => ⟨h.2, h.1⟩
  | _, .call _, _, _ => fun _ h => h.1.elim
  | _, .arguments, _, _ => (covers_arguments hr).of_imp fun _ h => h.2
  | _, .values, _, _ => (covers_values hr).of_imp fun _ h => h.2
  | _, .parameters, _, _ => (covers_parameters hr).of_imp fun _ h => h.2
  | _, .elseClause, _, _ => (covers_elseClause hr).of_imp fun _ h => h.2
  | _, .block, _, _ => fun _ h => h.1.elim
  | _, .statements, _, _ => (covers_statements hr).of_imp fun _ h => h.2
  | _, .declarations, _, _ => (covers_declarations hr).of_imp fun _ h => h.2

omit hr in
/-- **Reading makes no more than the tokens pay for that it passes**, with any number of
steps. -/
theorem covers_reach (n fuel : Nat) : Covers n (Goal.reach .standard fuel) := by
  induction fuel with
  | zero =>
    -- without steps there is no result
    constructor <;> intros <;> intro s _ a s' ha <;> cases ha
  | succ fuel ih =>
    exact {
      part := covers_step ih
      call := fun isStatement _ _ => covers_call ih isStatement
      block := covers_block ih }

end Parse

/-! ## The tree of a list of tokens -/

namespace Tree

/-- At the start there are no nodes, and the root is the only scope. -/
theorem room_ofTokens (tokens : List Token) :
    (Builder.ofTokens tokens).Room (tokens.takeWhile (·.kind ≠ .eof)).length 0 0 := by
  have hremaining : (Builder.ofTokens tokens).remaining
      = (tokens.takeWhile (·.kind ≠ .eof)).length := by
    rw [Builder.remaining, Builder.upcoming_ofTokens]
  have hnodes : (Builder.ofTokens tokens).nodes.size = 0 := rfl
  have hscopes : (Builder.ofTokens tokens).scopes.size = 1 := rfl
  exact ⟨Builder.terminated_ofTokens tokens, by omega, by omega⟩

/-- **A tree is linear in its tokens.**  Whatever is wrong with them, there are at most two
nodes for each token in front of the end, those that nothing refers to included, and at most
one scope for each token besides the root. -/
theorem size_ofTokens_le (tokens : List Token) :
    (ofTokens tokens).1.nodes.size ≤ 2 * (tokens.takeWhile (·.kind ≠ .eof)).length ∧
      (ofTokens tokens).1.scopes.size ≤ (tokens.takeWhile (·.kind ≠ .eof)).length + 1 := by
  obtain ⟨fuel, hread⟩ := build_spec tokens
  have hroom := (Parse.covers_reach _ fuel).part .declarations _
    ⟨trivial, room_ofTokens tokens⟩ _ _ hread
  have hnodes := hroom.nodes_le
  have hscopes := hroom.scopes_le
  rw [ofTokens_fst, Builder.tree]
  constructor
  · show (build tokens).nodes.size ≤ _
    omega
  · show (build tokens).scopes.size ≤ _
    omega

/-- A lone name is read as an assignment without values, and makes as many nodes as a token
can. -/
example : (ofTokens [⟨.identifier, .identifier "x", ⟨1, 1⟩⟩]).1.nodes.size = 2 := by
  decide

end Tree

end Braced
