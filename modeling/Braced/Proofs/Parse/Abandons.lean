import Braced.Proofs.Parse.Places
import Braced.Proofs.Parse.Progress

/-!
# Braced.Proofs.Parse.Abandons

An expression that nests too deep is reported once, and is the end of its statement.

Reading a part of an expression either reports nothing as too deep (`Builder.Level`),
or abandons the statement (`Builder.Abandons`): that report is the last one, there is
no result, and what comes next is the end of the statement, of the block or of the
tokens.  A part that refers to an abandoned one finds nothing to go on with.  What comes
next is no comma, so that no further argument is read, and where an argument is missing
no parenthesis is missed.
-/

namespace Braced

/-- Whether the fault is one that an expression can have at any depth. -/
def Fault.isLevel : Fault → Bool
  | .unexpectedToken .. | .expectedExpression _ | .redeclaration _ | .undeclaredIdentifier _
  | .undeclaredFunction _ | .notCallable _ => true
  | _ => false

/-- Whether a node of the kind may be added at any depth of an expression. -/
def NodeKind.isLevel : NodeKind → Bool
  | .ident _ | .binary .. | .unary .. | .primary .. | .call .. => true
  | _ => false

/-- Whether nothing is passed in front of a token of the kind when a statement is given
up. -/
def TokenKind.stopsSkipping (kind : TokenKind) : Bool :=
  Builder.endsStatement kind || kind = .eof

namespace Builder

/-- Between `s` and `s'` there was nothing that nests too deep: what was reported and what
was added may be that of an expression at any depth. -/
structure Level (s s' : Builder) : Prop where
  extends_ : s.Extends s'
  statements : ∀ id, s'.tree.statements id = s.tree.statements id
  added : ∃ added, s'.nodes.toList = s.nodes.toList ++ added ∧ ∀ node ∈ added, node.kind.isLevel
  noted : ∃ noted, s'.diagnostics.toList = s.diagnostics.toList ++ noted ∧
    ∀ d ∈ noted, d.fault.isLevel

/-- The statement was given up between `s` and `s'`: the last report, and no other, is that
an expression nests too deep, and nothing is left to be skipped. -/
structure Abandons (s s' : Builder) : Prop where
  level : ∃ s₁ position, s.Level s₁ ∧ s₁.Extends s' ∧ s'.tree = s₁.tree ∧
    s'.diagnostics = s₁.diagnostics.push ⟨.expressionTooDeep maxExpressionDepth, position⟩
  stops : s'.current.kind.stopsSkipping

variable {s s' s'' : Builder}

instance : Composes Level where
  refl s := ⟨.refl s, fun _ => rfl, ⟨[], (List.append_nil _).symm, by simp⟩,
    [], (List.append_nil _).symm, by simp⟩
  trans h h' := by
    obtain ⟨added, hnodes, hadded⟩ := h.added
    obtain ⟨added', hnodes', hadded'⟩ := h'.added
    obtain ⟨noted, heq, hnoted⟩ := h.noted
    obtain ⟨noted', heq', hnoted'⟩ := h'.noted
    refine ⟨h.extends_.trans h'.extends_, fun id => (h'.statements id).trans (h.statements id),
      ⟨added ++ added', ?_, fun node hnode => ?_⟩, noted ++ noted', ?_, fun d hd => ?_⟩
    · rw [hnodes', hnodes, List.append_assoc]
    · exact (List.mem_append.mp hnode).elim (hadded node) (hadded' node)
    · rw [heq', heq, List.append_assoc]
    · exact (List.mem_append.mp hd).elim (hnoted d) (hnoted' d)

/-- What is given up later is given up. -/
theorem Level.abandons (h : s.Level s') (h' : s'.Abandons s'') : s.Abandons s'' := by
  obtain ⟨s₁, position, h₁, hlater⟩ := h'.level
  exact ⟨⟨s₁, position, Composes.trans h h₁, hlater⟩, h'.stops⟩

/-- What makes no node adds none, and has to be asked for its reports alone. -/
theorem SamePlaces.level (h : s.SamePlaces s')
    (hnoted : ∃ noted, s'.diagnostics.toList = s.diagnostics.toList ++ noted ∧
      ∀ d ∈ noted, d.fault.isLevel) : s.Level s' :=
  ⟨h.extends_, h.statements, ⟨[], by rw [h.nodes, List.append_nil], by simp⟩, hnoted⟩

/-- What makes no node and reports nothing. -/
theorem SamePlaces.level_of_eq (h : s.SamePlaces s') (heq : s'.diagnostics = s.diagnostics) :
    s.Level s' :=
  h.level ⟨[], by rw [heq, List.append_nil], by simp⟩

theorem level_atDepth (s : Builder) (depth : Nat) : s.Level (s.atDepth depth) := by
  have hsame : s.SamePlaces (s.atDepth depth) := .of_eq (.of_eq rfl rfl rfl rfl) rfl rfl rfl
  exact hsame.level_of_eq rfl

/-- Leaving a level changes nothing of what was given up. -/
theorem Abandons.exitExpression (h : s.Abandons s') (levels : Nat) :
    s.Abandons (s'.exitExpression levels) := by
  obtain ⟨s₁, position, h₁, hextends, htree, heq⟩ := h.level
  exact ⟨⟨s₁, position, h₁, hextends.trans (.of_eq rfl rfl rfl rfl), htree, heq⟩, h.stops⟩

/-! ## Operations -/

theorem level_report {fault : Fault} (h : fault.isLevel) (position : Position) :
    s.Level (s.report fault position) :=
  SamePlaces.level (Still.report s fault position)
    ⟨[⟨fault, position⟩], by simp [report], by simpa using h⟩

theorem level_advance (s : Builder) : s.Level s.advance.2 :=
  SamePlaces.level_of_eq (Moves.advance s) s.diagnostics_advance

theorem level_alloc {kind : NodeKind} (h : kind.isLevel) (position : Position) :
    s.Level (s.alloc position kind).2 :=
  ⟨extends_alloc .., fun _ => rfl, ⟨[⟨position, kind⟩], Arena.toList_alloc .., by simpa using h⟩,
    [], (List.append_nil _).symm, by simp⟩

theorem level_expect (s : Builder) (kind : TokenKind) : s.Level (s.expect kind).2 := by
  unfold expect
  split
  · exact s.level_advance
  · exact Composes.trans (level_report rfl _) (level_advance _)

theorem level_accept (s : Builder) (kind : TokenKind) : s.Level (s.accept kind).2 := by
  unfold accept
  split
  · exact s.level_advance
  · exact Composes.refl s

theorem level_expectClosing (s : Builder) (kind : TokenKind) :
    s.Level (s.expectClosing kind).2 := by
  unfold expectClosing
  split
  · exact level_report rfl _
  · exact s.level_expect kind

theorem level_declare (s : Builder) (name : String) (kind : EntryKind) (position : Position) :
    s.Level (s.declare name kind position) := by
  have hsame := s.samePlaces_declare name kind position
  unfold declare at hsame ⊢
  split
  · next scopes hinsert =>
    simp only [hinsert] at hsame
    exact hsame.level_of_eq rfl
  · next fault hinsert =>
    rw [fault_of_insert hinsert]
    exact level_report rfl position

theorem level_resolveIdentifier (s : Builder) (name : String) (position : Position) :
    s.Level (s.resolveIdentifier name position) := by
  unfold resolveIdentifier
  split
  · exact Composes.refl s
  · split
    · exact level_report rfl position
    · exact s.level_declare name _ position

theorem level_resolveFunction (s : Builder) (name : String) (position : Position) :
    s.Level (s.resolveFunction name position) := by
  unfold resolveFunction
  split
  · exact level_report rfl position
  · split
    · exact Composes.refl s
    · exact level_report rfl position

/-- Behind what is skipped comes an end. -/
theorem stopsSkipping_dropStatement {current : Token} {ahead : List Token}
    (h : ∃ t ∈ current :: ahead, t.kind = .eof) :
    (dropStatement current ahead).1.kind.stopsSkipping := by
  induction ahead generalizing current with
  | nil =>
    obtain ⟨t, ht, hkind⟩ := h
    rw [List.mem_singleton.mp ht] at hkind
    simp [dropStatement, TokenKind.stopsSkipping, hkind]
  | cons next ahead ih =>
    unfold dropStatement
    split
    · next hstops => simpa [TokenKind.stopsSkipping] using hstops
    · next hgoes =>
      refine ih ?_
      obtain ⟨t, ht, hkind⟩ := h
      rcases List.mem_cons.mp ht with rfl | ht
      · exact absurd (.inr hkind) hgoes
      · exact ⟨t, ht, hkind⟩

/-- Where an expression may not get deeper, the statement is given up. -/
theorem abandons_tooDeep (hs : s.Terminated) :
    s.Abandons (s.report (.expressionTooDeep maxExpressionDepth)
      s.current.position).skipToStatementEnd where
  level := ⟨s, s.current.position, Composes.refl s, Moves.tooDeep s, rfl, rfl⟩
  stops := stopsSkipping_dropStatement hs

/-- A token that stops skipping is none of those that arguments go on or end with. -/
theorem ne_of_stopsSkipping {kind : TokenKind} (h : kind.stopsSkipping) :
    kind ≠ .comma ∧ kind ≠ .closeParen := by
  constructor <;> (rintro rfl; cases h)

end Builder

/-! ## Parts of expressions -/

namespace Parse

open Builder Tree.Expression

/-- Reading gives up without a result, or nothing is reported as too deep. -/
def GivesUp (m : Parse (Option α)) : Prop :=
  ∀ s, s.Terminated → m.Ensures s fun found s' => s.Level s' ∨ found = none ∧ s.Abandons s'

/-- Behind what was given up, nothing more is found or reported. -/
def StaysUp (m : Parse (Option α)) : Prop :=
  ∀ s s' : Builder, s.Abandons s' →
    m.Ensures s' fun found s'' => found = none ∧ s.Abandons s''

variable {m : Parse α}

theorem StaysUp.none : StaysUp (pure none : Parse (Option α)) :=
  fun _ _ h => (ensures_pure _).mpr ⟨rfl, h⟩

theorem GivesUp.none : GivesUp (pure none : Parse (Option α)) :=
  fun s _ => (ensures_pure _).mpr (.inl (Composes.refl s))

theorem Keeps.givesUp {m : Parse (Option α)} (h : Keeps Level m) : GivesUp m :=
  fun s _ => (h s).imp fun _ _ h => .inl h

/-- First something is done that reports nothing as too deep. -/
theorem Keeps.andThen {f : α → Parse (Option β)} (hm : Keeps Level m)
    (hf : ∀ a, GivesUp (f a)) : GivesUp (m >>= f) := by
  intro s hs
  rw [ensures_bind]
  refine (hm s).imp fun a s₁ h₁ => (hf a s₁ (h₁.extends_.terminated hs)).imp fun found s₂ h₂ => ?_
  exact h₂.imp (Composes.trans h₁) fun h => ⟨h.1, h₁.abandons h.2⟩

/-- What refers to a part that may be given up does nothing more where it was. -/
theorem GivesUp.bind {m : Parse (Option α)} {f : Option α → Parse (Option β)} (hm : GivesUp m)
    (hnone : StaysUp (f .none)) (hf : ∀ found, GivesUp (f found)) : GivesUp (m >>= f) := by
  intro s hs
  rw [ensures_bind]
  refine (hm s hs).imp fun found s₁ h₁ => ?_
  rcases h₁ with h₁ | ⟨rfl, h₁⟩
  · refine (hf found s₁ (h₁.extends_.terminated hs)).imp fun found' s₂ h₂ => ?_
    exact h₂.imp (Composes.trans h₁) fun h => ⟨h.1, h₁.abandons h.2⟩
  · exact (hnone s s₁ h₁).imp fun _ _ h => .inr h

theorem GivesUp.ite {c : Prop} [Decidable c] {m m' : Parse (Option α)} (hm : GivesUp m)
    (hm' : GivesUp m') : GivesUp (if c then m else m') := by
  split
  · exact hm
  · exact hm'

theorem level_of_alloc {position : Position} {kind : NodeKind} (h : kind.isLevel) :
    Keeps Level (alloc position kind) :=
  keeps_act fun _ => level_alloc h position

theorem level_of_exitExpression {levels : Nat} : Keeps Level (exitExpression levels) :=
  keeps_change fun s => s.level_atDepth (s.expressionDepth - levels)

/-- How every part of an expression is read. -/
structure GivesUpExpressions (reach : Reach) : Prop where
  expression : ∀ power, GivesUp (reach (.expression power))
  operators : ∀ left power, GivesUp (reach (.operators left power))
  binary : ∀ left power, GivesUp (reach (.binary left power))
  unary : GivesUp (reach (.production .unary))
  primary : GivesUp (reach (.production .primary))
  prefixed : GivesUp (reach (.production .prefixed))
  grouping : GivesUp (reach (.production .grouping))
  call : ∀ isStatement, GivesUp (reach (.call isStatement))
  arguments : GivesUp (reach .arguments)

/-- A level is entered, or else the statement is given up. -/
theorem givesUp_enter {m : Parse (Option α)} (hm : GivesUp m) :
    GivesUp (do if ← enterExpression then m else return none) := by
  intro s hs
  rw [ensures_bind, enterExpression, ensures_act]
  rcases s.enterExpression_cases with heq | heq
  · have hdepth : s.Level (s.atDepth (s.expressionDepth + 1)) := s.level_atDepth _
    rw [heq, if_pos rfl]
    refine (hm (s.atDepth (s.expressionDepth + 1)) hs).imp fun found s₁ h₁ => ?_
    exact h₁.imp (Composes.trans hdepth) fun h => ⟨h.1, hdepth.abandons h.2⟩
  · rw [heq, if_neg Bool.false_ne_true]
    exact (ensures_pure _).mpr (.inr ⟨rfl, abandons_tooDeep hs⟩)

/-- A level is left in the same way whether something was found there or not. -/
theorem givesUp_leave (found : Option α) :
    GivesUp (do exitExpression 1; return found) :=
  level_of_exitExpression.andThen fun _ => (keeps_pure _).givesUp

theorem staysUp_leave : StaysUp (do exitExpression 1; return (none : Option α)) := by
  intro s s' h
  rw [ensures_bind, Parse.exitExpression, ensures_change]
  exact (ensures_pure _).mpr ⟨rfl, h.exitExpression 1⟩

section

variable {reach : Reach} (hr : GivesUpExpressions reach)

include hr

theorem givesUp_expression (power : Power) : GivesUp (expression reach power) := by
  refine hr.unary.bind .none fun found => ?_
  cases found with
  | none => exact .none
  | some left => exact hr.operators left power

theorem givesUp_operators (left : NodeId) (power : Power) :
    GivesUp (operators .standard reach left power) := by
  refine keeps_look.andThen fun kind => ?_
  split
  · exact (keeps_pure _).givesUp
  · next next hnext =>
    refine .ite (keeps_pure _).givesUp (givesUp_enter ((hr.binary left next).bind ?_ ?_))
    · exact staysUp_leave
    · intro found
      cases found with
      | none => exact givesUp_leave none
      | some folded => exact (hr.operators folded power).bind staysUp_leave givesUp_leave

theorem givesUp_binary (left : NodeId) (power : Power) : GivesUp (binary reach left power) := by
  refine (keeps_act level_advance).andThen fun token => ?_
  split
  · exact .none
  · refine (hr.expression power).bind .none fun found => ?_
    cases found with
    | none => exact .none
    | some right =>
      exact keeps_look.andThen fun _ => (level_of_alloc rfl).andThen fun _ => (keeps_pure _).givesUp

theorem givesUp_operand : GivesUp (operand .standard reach) := by
  refine keeps_look.andThen fun kind => ?_
  split
  · next production hproduction =>
    rcases production_of_operand hproduction with rfl | rfl | ⟨rfl, -⟩
    · exact hr.primary
    · exact hr.prefixed
    · exact hr.grouping
  · refine keeps_look.andThen fun position => Keeps.andThen ?_ fun _ => ?_
    · exact keeps_change fun s => level_report rfl position
    · exact .ite ((keeps_act level_advance).andThen fun _ => .none) .none

theorem givesUp_unary : GivesUp (unary .standard reach) :=
  givesUp_enter ((givesUp_operand hr).bind staysUp_leave givesUp_leave)

theorem givesUp_prefixed : GivesUp (prefixed reach) := by
  refine (keeps_act level_advance).andThen fun token => hr.unary.bind .none fun found => ?_
  cases found with
  | none => exact .none
  | some operand => exact (level_of_alloc rfl).andThen fun _ => (keeps_pure _).givesUp

theorem givesUp_grouping : GivesUp (grouping reach) := by
  refine (keeps_act level_advance).andThen fun token =>
    (hr.expression .lowest).bind .none fun found => ?_
  cases found with
  | none => exact .none
  | some operand =>
    refine (keeps_act fun s => s.level_expectClosing _).andThen fun _ => ?_
    exact (level_of_alloc rfl).andThen fun _ => (keeps_pure _).givesUp

theorem givesUp_primaryValue : GivesUp (primaryValue reach) := by
  refine keeps_look.andThen fun kind => .ite ?_ ?_
  · refine keeps_look.andThen fun second => .ite ?_ ?_
    · exact (hr.call false).bind .none fun _ => (keeps_pure _).givesUp
    · refine Keeps.givesUp (.bind ?_ fun _ => keeps_pure _)
      refine .bind (keeps_act level_advance) fun token => .bind ?_ fun _ =>
        (level_of_alloc rfl).bind fun _ => keeps_pure _
      exact keeps_change fun s => s.level_resolveIdentifier _ _
  · refine (keeps_act level_advance).andThen fun token => ?_
    split
    · exact (keeps_pure _).givesUp
    · exact (keeps_change fun s => level_report rfl _).andThen fun _ => .none

omit hr in
theorem level_of_postfixStep : Keeps Level postfixStep := by
  refine keeps_look.bind fun kind => ?_
  split
  · exact keeps_pure _
  · exact (keeps_act level_advance).bind fun _ => keeps_pure _

theorem givesUp_primary : GivesUp (primary reach) := by
  refine keeps_look.andThen fun position => (givesUp_primaryValue hr).bind .none fun found => ?_
  cases found with
  | none => exact .none
  | some value =>
    exact level_of_postfixStep.andThen fun _ =>
      (level_of_alloc rfl).andThen fun _ => (keeps_pure _).givesUp

/-! ### Arguments -/

/-- No comma comes behind an argument that was given up. -/
theorem givesUp_arguments : GivesUp (arguments reach) := by
  refine (hr.expression .lowest).bind (fun s s' h => ?_) fun first => ?_
  · have haccept : s'.accept .comma = (false, s') := if_neg (ne_of_stopsSkipping h.stops).1
    rw [ensures_bind, accept, ensures_act, haccept, if_neg Bool.false_ne_true]
    exact (ensures_pure _).mpr ⟨rfl, h⟩
  · refine (keeps_act fun s => s.level_accept _).andThen fun more => .ite ?_ (keeps_pure _).givesUp
    refine hr.arguments.bind (fun s s' h => ?_) fun _ => (keeps_pure _).givesUp
    exact (ensures_pure _).mpr ⟨by cases first <;> rfl, h⟩

omit hr in
theorem level_of_closeArguments (found : Option (List NodeId)) :
    Keeps Level (closeArguments found) := by
  refine keeps_look.bind fun kind => .ite ?_ (keeps_pure _)
  exact (keeps_act fun s => s.level_expectClosing _).bind fun _ => keeps_pure _

/-- No parenthesis is missed behind arguments that were given up. -/
theorem givesUp_argumentList : GivesUp (argumentList reach) := by
  refine (keeps_act fun s => s.level_expect _).andThen fun _ => keeps_look.andThen fun kind =>
    .ite ?_ ?_
  · exact (level_of_closeArguments _).andThen fun _ => (keeps_pure _).givesUp
  · refine hr.arguments.bind (fun s s' h => ?_) fun found =>
      (level_of_closeArguments found).andThen fun _ => (keeps_pure _).givesUp
    have hkind : s'.current.kind ≠ .closeParen := (ne_of_stopsSkipping h.stops).2
    rw [ensures_bind, closeArguments, ensures_bind, currentKind, ensures_look,
      if_neg (by simpa using hkind), ensures_pure]
    exact (ensures_pure _).mpr ⟨rfl, h⟩

theorem givesUp_call (isStatement : Bool) : GivesUp (call reach isStatement) := by
  refine (keeps_act fun s => s.level_expect _).andThen fun token => ?_
  cases token with
  | none => exact .none
  | some token =>
    refine (keeps_change fun s => s.level_resolveFunction _ _).andThen fun _ =>
      (level_of_alloc rfl).andThen fun callee =>
        (givesUp_argumentList hr).bind .none fun found => ?_
    cases found with
    | none => exact .none
    | some found =>
      exact keeps_look.andThen fun _ => (level_of_alloc rfl).andThen fun _ => (keeps_pure _).givesUp

end

/-- **Parts of expressions give up together**, however many references are followed. -/
theorem givesUp_reach (fuel : Nat) : GivesUpExpressions (Goal.reach .standard fuel) := by
  induction fuel with
  | zero => constructor <;> intros <;> intro s _ found s' hread <;> cases hread
  | succ fuel ih =>
    exact ⟨givesUp_expression ih, givesUp_operators ih, givesUp_binary ih, givesUp_unary ih,
      givesUp_primary ih, givesUp_prefixed ih, givesUp_grouping ih, givesUp_call ih,
      givesUp_arguments ih⟩

end Parse

/-! ## Reading an expression -/

namespace Goal

open Parse

/-- **An expression that nests too deep is reported once, and ends what is read of its
statement.**  From any builder whose tokens come to an end, at whatever depth it stands, an
expression is read to an end.  If one of the reports made in reading it is that an expression
nests too deep, this is the last of them and the only one of its kind, nothing is found, and
what comes next is a semicolon, a closing brace or the end. -/
theorem run_expression_tooDeep {s : Builder} (hs : s.Terminated) (power : Power) :
    Gives ((expression power).run .standard) s fun found s' =>
      ∃ noted, s'.diagnostics.toList = s.diagnostics.toList ++ noted ∧
        ∀ limit position, ⟨.expressionTooDeep limit, position⟩ ∈ noted →
          (∃ earlier, noted = earlier ++ [⟨.expressionTooDeep limit, position⟩] ∧
            ∀ limit position, ⟨.expressionTooDeep limit, position⟩ ∉ earlier) ∧
          found = none ∧
          (s'.current.kind = .semicolon ∨ s'.current.kind = .closeCurly ∨
            s'.current.kind = .eof) := by
  have hfits : (expression power).Fits s := ⟨hs, by simp [needsToken]⟩
  obtain ⟨found, s', hread, -⟩ := run_gives hfits
  refine ⟨found, s', hread, ?_⟩
  rcases (givesUp_reach _).expression power s hs found s' hread with h | ⟨hnone, h⟩
  · obtain ⟨noted, heq, hnoted⟩ := h.noted
    exact ⟨noted, heq, fun limit position hmem => absurd (hnoted _ hmem) (by simp [Fault.isLevel])⟩
  · obtain ⟨s₁, last, h₁, -, -, hdiagnostics⟩ := h.level
    obtain ⟨earlier, hbefore, hearlier⟩ := h₁.noted
    have heq : s'.diagnostics.toList = s.diagnostics.toList ++ (earlier ++
        [⟨.expressionTooDeep maxExpressionDepth, last⟩]) := by
      rw [hdiagnostics, Array.toList_push, hbefore, List.append_assoc]
    have hlevel : ∀ limit position, ⟨.expressionTooDeep limit, position⟩ ∉ earlier :=
      fun limit position hmem => absurd (hearlier _ hmem) (by simp [Fault.isLevel])
    refine ⟨_, heq, fun limit position hmem => ⟨⟨earlier, ?_, hlevel⟩, hnone, ?_⟩⟩
    · rcases List.mem_append.mp hmem with hmem | hmem
      · exact absurd hmem (hlevel limit position)
      · rw [List.mem_singleton.mp hmem]
    · have hstops := h.stops
      simpa [TokenKind.stopsSkipping, Builder.endsStatement, or_assoc] using hstops

/-- Behind 256 signs there is no room for an operand: this is reported once, and the
semicolon comes next. -/
theorem run_expression_signs :
    let s := Builder.ofTokens (List.replicate 256 ⟨.dash, .none, ⟨1, 1⟩⟩ ++
      [⟨.intConst, .int 1, ⟨1, 2⟩⟩, ⟨.semicolon, .none, ⟨1, 3⟩⟩])
    s.Terminated ∧ Gives ((expression .lowest).run .standard) s fun found s' =>
      s'.diagnostics.toList = [⟨.expressionTooDeep 256, ⟨1, 2⟩⟩] ∧ found = none ∧
        (s'.current.kind = .semicolon ∨ s'.current.kind = .closeCurly ∨
          s'.current.kind = .eof) := by
  intro s
  have hs : s.Terminated := Builder.terminated_ofTokens _
  obtain ⟨found, s', hread, noted, heq, hnoted⟩ := run_expression_tooDeep hs .lowest
  have hrun : ((expression .lowest).run .standard s).map (·.2.diagnostics.toList) =
      some [⟨.expressionTooDeep 256, ⟨1, 2⟩⟩] := by
    decide +kernel
  rw [hread] at hrun
  have hdiagnostics : s'.diagnostics.toList = [⟨.expressionTooDeep 256, ⟨1, 2⟩⟩] :=
    Option.some.inj hrun
  have hnew : noted = [⟨.expressionTooDeep 256, ⟨1, 2⟩⟩] := heq.symm.trans hdiagnostics
  obtain ⟨-, hfound⟩ := hnoted 256 ⟨1, 2⟩ (hnew ▸ List.mem_singleton_self _)
  exact ⟨hs, found, s', hread, hdiagnostics, hfound⟩

end Goal

end Braced
