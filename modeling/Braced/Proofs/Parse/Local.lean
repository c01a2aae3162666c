import Braced.Proofs.Parse.Named
import Braced.Proofs.Parse.Spares

/-!
# Braced.Proofs.Parse.Local

Reading looks no further than the token that it stops in front of.

What is read up to some token is read in the same way whatever stands behind that token, and
whatever was found wrong before (`Parse.Local`).  Most actions look at the next token alone.
The others look past a name, to tell what begins with it; what they find there is passed with
the name, since each choice that is made by a token goes on to pass it.
-/

namespace Braced

namespace Builder

/-! ## The same builder in front of other tokens -/

/-- The builder in front of other tokens, with other faults found before its own. -/
def facing (s : Builder) (faults : Array Diagnostic) (tokens : List Token) : Builder :=
  { s with
    current := tokens.headD s.current
    ahead := tokens.tail
    diagnostics := faults ++ s.diagnostics }

variable (s : Builder) (faults : Array Diagnostic) (t : Token) (ts : List Token)

@[simp] theorem current_facing : (s.facing faults (t :: ts)).current = t := rfl

@[simp] theorem rest_facing : (s.facing faults (t :: ts)).rest = t :: ts := rfl

@[simp] theorem diagnostics_facing (tokens : List Token) :
    (s.facing faults tokens).diagnostics = faults ++ s.diagnostics := rfl

theorem facing_rest : s.facing #[] s.rest = s := by
  simp only [facing, rest, List.headD_cons, List.tail_cons, Array.empty_append]

@[simp] theorem facing_facing (tokens : List Token) (faults' : Array Diagnostic) :
    (s.facing faults tokens).facing faults' (t :: ts) = s.facing (faults' ++ faults) (t :: ts) := by
  simp only [facing, List.headD_cons, List.tail_cons, Array.append_assoc]

theorem facing_addStatement (tokens : List Token) (id : NodeId) :
    (s.facing faults tokens).addStatement id = (s.addStatement id).facing faults tokens := rfl

/-- Tokens are passed in front of others as they are. -/
theorem advance_facing (next : Token) (h : t.kind ≠ .eof) :
    (s.facing faults (t :: next :: ts)).advance = (t, s.facing faults (next :: ts)) := by
  rw [advance]
  exact if_neg h

theorem advance_of_eof {s : Builder} (h : s.current.kind = .eof) : s.advance = (s.current, s) := by
  unfold advance
  split
  · exact if_pos h
  · rfl

/-! ### Operations that leave the tokens alone -/

/-- The operation does the same in front of other tokens, which it leaves alone, and behind
other faults. -/
def Blind (f : Builder → Builder) : Prop :=
  ∀ s faults t ts, f (facing s faults (t :: ts)) = (f s).facing faults (t :: ts)

theorem Blind.rest_eq {f : Builder → Builder} (h : Blind f) (s : Builder) :
    (f s).rest = s.rest := by
  have hsame := h s #[] s.current s.ahead
  rw [← rest, s.facing_rest] at hsame
  rw [hsame]
  rfl

theorem blind_report (fault : Fault) (position : Position) : Blind (·.report fault position) := by
  intro s faults t ts
  simp only [report, facing, Array.push_append, List.headD_cons, List.tail_cons]

theorem blind_declare (name : String) (kind : EntryKind) (position : Position) :
    Blind (·.declare name kind position) := by
  intro s faults t ts
  show (s.facing faults (t :: ts)).declare name kind position
    = (s.declare name kind position).facing faults (t :: ts)
  unfold declare
  cases hinsert : s.scopes.insert s.scope name kind with
  | ok found => simp only [facing, hinsert]
  | error fault =>
    have hreport := blind_report fault position s faults t ts
    simp only [facing, hinsert] at hreport ⊢
    exact hreport

theorem blind_resolveIdentifier (name : String) (position : Position) :
    Blind (·.resolveIdentifier name position) := by
  intro s faults t ts
  show (s.facing faults (t :: ts)).resolveIdentifier name position
    = (s.resolveIdentifier name position).facing faults (t :: ts)
  unfold resolveIdentifier
  have hscopes : (s.facing faults (t :: ts)).scopes = s.scopes := rfl
  have hscope : (s.facing faults (t :: ts)).scope = s.scope := rfl
  rw [hscopes, hscope]
  split
  · rfl
  · split
    · exact blind_report _ position s faults t ts
    · exact blind_declare name _ position s faults t ts

theorem blind_resolveFunction (name : String) (position : Position) :
    Blind (·.resolveFunction name position) := by
  intro s faults t ts
  show (s.facing faults (t :: ts)).resolveFunction name position
    = (s.resolveFunction name position).facing faults (t :: ts)
  unfold resolveFunction
  have hscopes : (s.facing faults (t :: ts)).scopes = s.scopes := rfl
  rw [hscopes]
  split
  · exact blind_report _ position s faults t ts
  · split
    · rfl
    · exact blind_report _ position s faults t ts

theorem blind_addModule (name : String) : Blind (·.addModule name) := by
  intro s faults t ts
  show (s.facing faults (t :: ts)).addModule name = (s.addModule name).facing faults (t :: ts)
  unfold addModule
  have hmodules : (s.facing faults (t :: ts)).modules = s.modules := rfl
  rw [hmodules]
  split <;> rfl

/-! ### Giving up a statement -/

/-- Where tokens are given up there is a reason to stop. -/
theorem dropStatement_stops (current : Token) (ahead : List Token)
    (h : ∃ t ∈ current :: ahead, t.kind = .eof) :
    endsStatement (dropStatement current ahead).1.kind ∨
      (dropStatement current ahead).1.kind = .eof := by
  induction ahead generalizing current with
  | nil =>
    obtain ⟨t, ht, hkind⟩ := h
    rw [List.mem_singleton.mp ht] at hkind
    exact .inr hkind
  | cons next ahead ih =>
    unfold dropStatement
    split
    · assumption
    · next hgo =>
      obtain ⟨t, ht, hkind⟩ := h
      rcases List.mem_cons.mp ht with rfl | ht
      · exact absurd (.inr hkind) hgo
      · exact ih next ⟨t, ht, hkind⟩

/-- Tokens that are no reason to stop are given up whatever stands behind one that is. -/
theorem dropStatement_append {passed behind : List Token} {stop : Token}
    (hpassed : ∀ t ∈ passed, endsStatement t.kind = false ∧ t.kind ≠ .eof)
    (hstop : endsStatement stop.kind ∨ stop.kind = .eof) {current : Token} {ahead : List Token}
    (h : current :: ahead = passed ++ stop :: behind) :
    dropStatement current ahead = (stop, behind) := by
  induction passed generalizing current ahead with
  | nil =>
    obtain ⟨rfl, rfl⟩ := List.cons.inj h
    cases ahead with
    | nil => rfl
    | cons next ahead => exact if_pos hstop
  | cons t passed ih =>
    obtain ⟨rfl, rfl⟩ := List.cons.inj h
    rw [List.forall_mem_cons] at hpassed
    have hgo : ¬(endsStatement current.kind ∨ current.kind = .eof) := by simp [hpassed.1]
    change dropStatement current (passed ++ stop :: behind) = _
    cases hahead : passed ++ stop :: behind with
    | nil => simp at hahead
    | cons next ahead =>
      exact (if_neg hgo).trans (ih hpassed.2 hahead.symm)

theorem skipToStatementEnd_facing {passed : List Token} {stop : Token}
    (hpassed : ∀ t ∈ passed, endsStatement t.kind = false ∧ t.kind ≠ .eof)
    (hstop : endsStatement stop.kind ∨ stop.kind = .eof) (behind : List Token) :
    (s.facing faults (passed ++ stop :: behind)).skipToStatementEnd
      = s.facing faults (stop :: behind) := by
  cases htokens : passed ++ stop :: behind with
  | nil => simp at htokens
  | cons t ts =>
    have hdrop := dropStatement_append hpassed hstop htokens.symm
    simp only [skipToStatementEnd, facing, List.headD_cons, List.tail_cons, hdrop]

/-- The first of the tokens that were passed, or the one behind them, is the next token. -/
theorem cons_of_rest {s s' : Builder} {passed : List Token} (h : s.rest = passed ++ s'.rest)
    (behind : List Token) : ∃ ts, passed ++ s'.current :: behind = s.current :: ts := by
  cases passed with
  | nil => exact ⟨behind, by rw [List.nil_append, current_eq_of_rest h.symm]⟩
  | cons t ts => exact ⟨_, by rw [List.cons_append, (List.cons.inj h).1]⟩

/-! ### How many tokens have been passed -/

/-- At least so many tokens have been passed between `s` and `s'`. -/
def Passed (n : Nat) (s s' : Builder) : Prop :=
  s'.ahead.length + n ≤ s.ahead.length

theorem Passed.of_rest {n : Nat} {s s₁ s' : Builder} (h : s₁.Passed n s')
    (hrest : s₁.rest = s.rest) : s.Passed n s' := by
  have hahead : s₁.ahead = s.ahead := (List.cons.inj hrest).2
  rwa [Passed, hahead] at h

theorem passed_advance {s : Builder} (hs : s.Terminated) (h : s.current.kind ≠ .eof) :
    s.Passed 1 s.advance.2 := by
  have hrest := congrArg List.length (rest_advance hs h)
  simp only [rest, List.length_cons] at hrest
  show s.advance.2.ahead.length + 1 ≤ s.ahead.length
  omega

theorem passed_expect {s : Builder} (hs : s.Terminated) (h : s.current.kind ≠ .eof)
    (kind : TokenKind) : s.Passed 1 (s.expect kind).2 := by
  unfold expect
  split
  · exact passed_advance hs h
  · exact passed_advance (s := s.reportUnexpected kind) hs h

end Builder

namespace Parse

open Builder (Blind Extends)

/-! ## Actions -/

/-- What `m` gives from `s` it gives whatever stands behind the token that it stops in front
of, and whatever was found wrong before. -/
def LocalAt (m : Parse α) (s : Builder) : Prop :=
  s.Terminated → m.Ensures s fun a s' => s'.Terminated ∧ ∃ passed, s.rest = passed ++ s'.rest ∧
    ∀ faults behind, m (s.facing faults (passed ++ s'.current :: behind))
      = some (a, s'.facing faults (s'.current :: behind))

/-- The action looks no further than the token that it stops in front of. -/
def Local (m : Parse α) : Prop :=
  ∀ s, m.LocalAt s

section Actions

variable {s : Builder} {m : Parse α}

/-- One action after another looks no further than both of them. -/
theorem LocalAt.bind {f : α → Parse β} (hm : m.LocalAt s)
    (hf : ∀ a s', m s = some (a, s') → (f a).LocalAt s') : (m >>= f).LocalAt s := by
  intro hs
  rw [ensures_bind]
  intro a s₁ hm₁ b s₂ hf₂
  obtain ⟨hs₁, passed₁, hrest₁, hlocal₁⟩ := hm hs a s₁ hm₁
  obtain ⟨hs₂, passed₂, hrest₂, hlocal₂⟩ := hf a s₁ hm₁ hs₁ b s₂ hf₂
  refine ⟨hs₂, passed₁ ++ passed₂, by rw [hrest₁, hrest₂, List.append_assoc],
    fun faults behind => ?_⟩
  -- the first action still stops in front of the token that it stopped in front of
  obtain ⟨ts, hts⟩ := Builder.cons_of_rest hrest₂ behind
  rw [List.append_assoc, hts, bind_apply, hlocal₁, Option.bind_some, ← hts]
  exact hlocal₂ faults behind

theorem Local.bind {f : α → Parse β} (hm : Local m) (hf : ∀ a, Local (f a)) : Local (m >>= f) :=
  fun s => (hm s).bind fun a s' _ => hf a s'

theorem Local.ite {c : Prop} [Decidable c] {m' : Parse α} (hm : Local m) (hm' : Local m') :
    Local (if c then m else m') := by
  split
  · exact hm
  · exact hm'

theorem local_pure (a : α) : Local (pure a : Parse α) :=
  fun _ hs => (ensures_pure a).mpr ⟨hs, [], rfl, fun _ _ => rfl⟩

/-- Looking at what depends on the next token alone. -/
theorem LocalAt.look {f : Builder → β} {k : β → Parse α}
    (hlook : ∀ faults behind, f (s.facing faults (s.current :: behind)) = f s)
    (h : (k (f s)).LocalAt s) : (look f >>= k).LocalAt s := by
  refine .bind (fun hs => (ensures_look f).mpr ⟨hs, [], rfl, fun faults behind => ?_⟩) ?_
  · exact congrArg some (Prod.ext (hlook faults behind) rfl)
  · intro a s' hlooked
    cases hlooked
    exact h

theorem Local.look {f : Builder → β} {k : β → Parse α}
    (hlook : ∀ s faults behind, f (s.facing faults (s.current :: behind)) = f s)
    (h : ∀ b, Local (k b)) : Local (look f >>= k) :=
  fun s => .look (hlook s) (h _ s)

/-- Looking ahead at a token that what follows goes on to reach. -/
theorem LocalAt.peek {n : Nat} {k : TokenKind → Parse α} (h : (k (s.peekKind n)).LocalAt s)
    (hpassed : (k (s.peekKind n)).Ensures s fun _ s' => s.Passed n s') :
    (Parse.look (·.peekKind n) >>= k).LocalAt s := by
  intro hs
  rw [ensures_bind, ensures_look]
  intro a s' hrun
  obtain ⟨hs', passed, hrest, hlocal⟩ := h hs a s' hrun
  refine ⟨hs', passed, hrest, fun faults behind => ?_⟩
  have hpeek : (s.facing faults (passed ++ s'.current :: behind)).peekKind n = s.peekKind n := by
    have hlength : n ≤ passed.length := by
      have hlong : s'.ahead.length + n ≤ s.ahead.length := hpassed a s' hrun
      have hsum := congrArg List.length hrest
      simp only [Builder.rest, List.length_append, List.length_cons] at hsum
      omega
    cases passed with
    | nil =>
      obtain rfl : n = 0 := Nat.le_zero.mp hlength
      rw [Builder.peekKind, Builder.peekKind, Builder.current_eq_of_rest hrest.symm]
      rfl
    | cons t ts =>
      obtain ⟨hcurrent, hahead⟩ := List.cons.inj hrest
      cases n with
      | zero => exact congrArg Token.kind hcurrent.symm
      | succ n =>
        rw [Builder.peekKind, Builder.peekKind, hahead, Builder.facing, List.cons_append,
          List.tail_cons, Builder.rest]
        have hindex : (ts ++ s'.current :: behind)[n]? = (ts ++ s'.current :: s'.ahead)[n]? := by
          rw [List.length_cons] at hlength
          rcases Nat.lt_or_eq_of_le (Nat.le_of_succ_le_succ hlength) with hlt | rfl
          · rw [List.getElem?_append_left hlt, List.getElem?_append_left hlt]
          · simp
        exact congrArg (fun found => (found.map Token.kind).getD .eof) hindex
  rw [look_bind, hpeek]
  exact hlocal faults behind

theorem local_change {f : Builder → Builder} (h : Blind f) : Local (change f) := by
  intro s hs
  refine (ensures_change f _).mpr ⟨?_, [], (h.rest_eq s).symm, fun faults behind => ?_⟩
  · rw [Builder.Terminated, h.rest_eq s]
    exact hs
  · rw [Builder.current_eq_of_rest (h.rest_eq s)]
    exact congrArg some (Prod.ext rfl (h s faults s.current behind))

theorem local_act {f : Builder → α × Builder} (h : Blind fun s => (f s).2)
    (hfst : ∀ s faults t ts, (f (s.facing faults (t :: ts))).1 = (f s).1) : Local (act f) := by
  intro s hs
  refine (ensures_act f).mpr ⟨?_, [], (h.rest_eq s).symm, fun faults behind => ?_⟩
  · rw [Builder.Terminated, h.rest_eq s]
    exact hs
  · have hcurrent := Builder.current_eq_of_rest (h.rest_eq s)
    rw [hcurrent]
    exact congrArg some (Prod.ext (hfst s faults s.current behind) (h s faults s.current behind))

theorem local_advance : Local advance := by
  intro s hs
  rw [advance, ensures_act]
  refine ⟨s.extends_advance.terminated hs, ?_⟩
  by_cases hend : s.current.kind = .eof
  · rw [Builder.advance_of_eof hend]
    exact ⟨[], rfl, fun faults behind =>
      congrArg some (Builder.advance_of_eof (s := s.facing faults (s.current :: behind)) hend)⟩
  · refine ⟨[s.current], Builder.rest_advance hs hend, fun faults behind => congrArg some ?_⟩
    obtain ⟨current, ahead, hadvance⟩ := s.advance_snd
    rw [s.advance_fst, hadvance]
    exact Builder.advance_facing s faults s.current behind current hend

/-! ### Actions made of others -/

theorem local_report {fault : Fault} {position : Position} : Local (report fault position) :=
  local_change (Builder.blind_report fault position)

theorem local_alloc {position : Position} {kind : NodeKind} : Local (alloc position kind) :=
  local_act (fun _ _ _ _ => rfl) fun _ _ _ _ => rfl

theorem local_declare {name : String} {kind : EntryKind} {position : Position} :
    Local (declare name kind position) :=
  local_change (Builder.blind_declare name kind position)

theorem local_resolveIdentifier {name : String} {position : Position} :
    Local (resolveIdentifier name position) :=
  local_change (Builder.blind_resolveIdentifier name position)

theorem local_resolveFunction {name : String} {position : Position} :
    Local (resolveFunction name position) :=
  local_change (Builder.blind_resolveFunction name position)

theorem local_addModule {name : String} : Local (addModule name) :=
  local_change (Builder.blind_addModule name)

theorem local_enterScope {position : Position} : Local (enterScope position) :=
  local_act (fun _ _ _ _ => rfl) fun _ _ _ _ => rfl

theorem local_exitScope : Local exitScope := local_change fun _ _ _ _ => rfl

theorem local_setLoopDepth {depth : Builder → Nat}
    (h : ∀ s faults t ts, depth (s.facing faults (t :: ts)) = depth s) :
    Local (change fun s => s.setLoopDepth (depth s)) := by
  refine local_change fun s faults t ts => ?_
  show (s.facing faults (t :: ts)).setLoopDepth (depth (s.facing faults (t :: ts))) = _
  rw [h]
  rfl

theorem local_exitExpression {levels : Nat} : Local (exitExpression levels) :=
  local_change fun _ _ _ _ => rfl

theorem local_currentKind {k : TokenKind → Parse α} (h : ∀ kind, Local (k kind)) :
    Local (currentKind >>= k) :=
  .look (fun _ _ _ => rfl) h

theorem local_currentPosition {k : Position → Parse α} (h : ∀ position, Local (k position)) :
    Local (currentPosition >>= k) :=
  .look (fun _ _ _ => rfl) h

theorem local_expect {kind : TokenKind} : Local (expect kind) := by
  have heq : expect kind = (do
      if (← currentKind) = kind then return some (← advance)
      else
        report (.unexpectedToken kind (← currentKind)) (← currentPosition)
        let _ ← advance
        return none) := by
    funext s
    show some (s.expect kind) = _
    rw [currentKind, look_bind]
    split
    · next h => rw [Builder.expect_of_eq h, ← s.advance_fst]; rfl
    · next h => rw [Builder.expect_of_ne h]; rfl
  rw [heq]
  refine local_currentKind fun _ => .ite (local_advance.bind fun _ => local_pure _) ?_
  exact local_currentKind fun _ => local_currentPosition fun _ => local_report.bind fun _ =>
    local_advance.bind fun _ => local_pure _

theorem local_accept {kind : TokenKind} : Local (accept kind) := by
  have heq : accept kind = (do
      if (← currentKind) = kind then
        let _ ← advance
        return true
      else return false) := by
    funext s
    show some (s.accept kind) = _
    rw [currentKind, look_bind]
    unfold Builder.accept
    split <;> rfl
  rw [heq]
  exact local_currentKind fun _ => .ite (local_advance.bind fun _ => local_pure _) (local_pure _)

theorem local_expectClosing {kind : TokenKind} : Local (expectClosing kind) := by
  have heq : expectClosing kind = (do
      if (← currentKind) ≠ kind ∧ Builder.endsStatement (← currentKind) then
        report (.unexpectedToken kind (← currentKind)) (← currentPosition)
        return none
      else expect kind) := by
    funext s
    show some (s.expectClosing kind) = _
    rw [currentKind, look_bind, look_bind]
    unfold Builder.expectClosing
    split <;> rfl
  rw [heq]
  refine local_currentKind fun _ => local_currentKind fun _ => .ite ?_ local_expect
  exact local_currentKind fun _ => local_currentPosition fun _ => local_report.bind fun _ =>
    local_pure _

/-- An expression that is refused is given up to the end of its statement. -/
theorem local_enterExpression : Local enterExpression := by
  intro s hs
  rw [enterExpression, ensures_act]
  refine ⟨(Builder.Opening.enterExpression (R := Extends) s).terminated hs, ?_⟩
  by_cases hdepth : s.expressionDepth < maxExpressionDepth
  · rw [Builder.enterExpression, if_pos hdepth]
    exact ⟨[], rfl, fun faults behind => congrArg some (if_pos hdepth)⟩
  · rw [Builder.enterExpression, if_neg hdepth]
    obtain ⟨passed, heq, hpassed⟩ := Builder.dropStatement_eq s.current s.ahead
    refine ⟨passed, heq, fun faults behind => congrArg some ((if_neg hdepth).trans ?_)⟩
    have hstop := Builder.dropStatement_stops s.current s.ahead hs
    obtain ⟨ts, hts⟩ := @Builder.cons_of_rest s s.skipToStatementEnd _ heq behind
    have hplace : (s.facing faults (passed ++ s.skipToStatementEnd.current :: behind)).current
        = s.current := by
      rw [hts]
      rfl
    -- the report names the place where the expression is refused, which stays the same
    have hreport := Builder.blind_report (.expressionTooDeep maxExpressionDepth)
      s.current.position s faults s.current ts
    rw [← hts] at hreport
    have hskip := Builder.skipToStatementEnd_facing
      (s.report (.expressionTooDeep maxExpressionDepth) s.current.position) faults
      hpassed hstop behind
    refine Prod.ext rfl (Eq.trans ?_ ((congrArg Builder.skipToStatementEnd hreport).trans hskip))
    exact congrArg (fun t : Token => Builder.skipToStatementEnd (Builder.report _ _ t.position))
      hplace

end Actions

/-! ## Parts of the grammar -/

/-- Every part looks no further than the token that it stops in front of, where it stands
in front of a name if it begins with one.  Then it passes the name, and behind the name of
a declaration the colon as well. -/
structure LocalReach (reach : Reach) : Prop where
  extends_ : ∀ {α : Type} (goal : Goal α), Keeps Extends (reach goal)
  at_ : ∀ {α : Type} (goal : Goal α) (s : Builder),
    (goal.isNamed → s.current.kind = .identifier) → (reach goal).LocalAt s
  call : ∀ isStatement (s : Builder), s.Terminated → s.current.kind = .identifier →
    (reach (.call isStatement)).Ensures s fun _ s' => s.Passed 1 s'
  variable_ : ∀ s : Builder, s.Terminated → s.current.kind = .identifier →
    (reach (.production .variableStatement)).Ensures s fun _ s' => s.Passed 1 s'
  typed : ∀ s : Builder, s.Terminated → s.current.kind = .identifier → s.peekKind 1 = .colon →
    (reach (.production .variableStatement)).Ensures s fun _ s' => s.Passed 2 s'
  function : ∀ s : Builder, s.Terminated → s.current.kind = .identifier →
    s.peekKind 1 = .colon → (reach (.production .function)).Ensures s fun _ s' => s.Passed 2 s'

section Parts

variable {reach : Reach} (hr : LocalReach reach)

include hr in
/-- A part that begins with no name looks no further from any place. -/
theorem LocalReach.inner {α : Type} {goal : Goal α} (h : goal.isNamed = false) :
    Local (reach goal) :=
  fun s => hr.at_ goal s fun hnamed => absurd hnamed (by rw [h]; decide)

/-! ### What is passed in any case -/

/-- What has been passed stays passed. -/
theorem passed_bind {m : Parse α} {f : α → Parse β} {s s₀ : Builder} {n : Nat}
    (hm : m.Ensures s fun _ s' => s₀.Passed n s') (hf : ∀ a, Keeps Extends (f a)) :
    (m >>= f).Ensures s fun _ s' => s₀.Passed n s' := by
  rw [ensures_bind]
  refine hm.imp fun a s₁ h₁ => (hf a s₁).imp fun _ s₂ h₂ => ?_
  exact Nat.le_trans (Nat.add_le_add_right h₂.length_ahead_le n) h₁

section Names

variable {s : Builder} (hs : s.Terminated) (hname : s.current.kind = .identifier)

include hs hname

theorem passed_name {f : Option Token → Parse α} (hf : ∀ found, Keeps Extends (f found)) :
    (expect .identifier >>= f).Ensures s fun _ s' => s.Passed 1 s' :=
  passed_bind ((ensures_act _).mpr (Builder.passed_expect hs (by rw [hname]; decide) _)) hf

/-- Behind a name the second of two tokens is passed too, if it is passed in any case. -/
theorem passed_behind_name {f : Option Token → Parse α}
    (hf : (f (some s.current)).Ensures s.advance.2 fun _ s' => s.advance.2.Passed 1 s') :
    (expect .identifier >>= f).Ensures s fun _ s' => s.Passed 2 s' := by
  have hadvance : s.Passed 1 s.advance.2 := Builder.passed_advance hs (by rw [hname]; decide)
  rw [ensures_bind, expect, ensures_act, Builder.expect_of_eq hname]
  refine hf.imp fun _ s' hs' => ?_
  have hfirst : s.advance.2.ahead.length + 1 ≤ s.ahead.length := hadvance
  have hsecond : s'.ahead.length + 1 ≤ s.advance.2.ahead.length := hs'
  show s'.ahead.length + 2 ≤ s.ahead.length
  omega

end Names

/-! ### Expressions -/

section Expressions

open Tree.Expression

theorem local_closeArguments (found : Option (List NodeId)) : Local (closeArguments found) :=
  local_currentKind fun _ => .ite (local_expectClosing.bind fun _ => local_pure _) (local_pure _)

theorem local_postfixStep : Local postfixStep := by
  refine local_currentKind fun kind => ?_
  split
  · exact local_pure _
  · exact local_advance.bind fun _ => local_pure _

include hr

theorem local_expression (power : Power) : Local (expression reach power) := by
  refine (hr.inner rfl).bind fun found => ?_
  cases found with
  | none => exact local_pure _
  | some left => exact hr.inner rfl

theorem local_operators (left : NodeId) (power : Power) :
    Local (operators .standard reach left power) := by
  refine local_currentKind fun kind => ?_
  split
  · exact local_pure _
  · refine .ite (local_pure _) (local_enterExpression.bind fun _ => .ite ?_ (local_pure _))
    refine (hr.inner rfl).bind fun found => ?_
    cases found with
    | none => exact (local_pure _).bind fun _ => local_exitExpression.bind fun _ => local_pure _
    | some folded =>
      exact (hr.inner rfl).bind fun _ => local_exitExpression.bind fun _ => local_pure _

theorem local_binary (left : NodeId) (power : Power) : Local (binary reach left power) := by
  refine local_advance.bind fun token => ?_
  split
  · exact local_pure _
  · refine (hr.inner rfl).bind fun found => ?_
    cases found with
    | none => exact local_pure _
    | some right =>
      exact .look (fun _ _ _ => rfl) fun _ => local_alloc.bind fun _ => local_pure _

theorem local_operand : Local (operand .standard reach) := by
  refine local_currentKind fun kind => ?_
  split
  · next production hproduction =>
    rcases production_of_operand hproduction with rfl | rfl | ⟨rfl, -⟩ <;> exact hr.inner rfl
  · refine local_currentPosition fun _ => local_report.bind fun _ => ?_
    exact .ite (local_advance.bind fun _ => local_pure _) (local_pure _)

theorem local_unary : Local (unary .standard reach) := by
  refine local_enterExpression.bind fun entered => .ite ?_ (local_pure _)
  exact (local_operand hr).bind fun _ => local_exitExpression.bind fun _ => local_pure _

theorem local_prefixed : Local (prefixed reach) := by
  refine local_advance.bind fun token => (hr.inner rfl).bind fun found => ?_
  cases found with
  | none => exact local_pure _
  | some operand => exact local_alloc.bind fun _ => local_pure _

theorem local_grouping : Local (grouping reach) := by
  refine local_advance.bind fun token => (hr.inner rfl).bind fun found => ?_
  cases found with
  | none => exact local_pure _
  | some operand => exact local_expectClosing.bind fun _ => local_alloc.bind fun _ => local_pure _

omit hr in
theorem local_variableValue : Local variableValue :=
  local_advance.bind fun _ => local_resolveIdentifier.bind fun _ => local_alloc.bind fun _ =>
    local_pure _

/-- The token behind a name tells a call from a variable, and both pass the name. -/
theorem local_primaryValue : Local (primaryValue reach) := by
  intro s hs
  refine LocalAt.look (fun _ _ => rfl) ?_ hs
  split
  · next hname =>
    have hend : s.current.kind ≠ .eof := by rw [hname]; decide
    refine .peek ?_ ?_
    · split
      · exact (hr.at_ _ s fun _ => hname).bind fun _ _ _ => local_pure _ _
      · exact (local_variableValue s).bind fun _ _ _ => local_pure _ _
    · split
      · exact passed_bind (hr.call false s hs hname) fun _ => keeps_pure _
      · refine passed_bind (passed_bind ((ensures_act _).mpr (Builder.passed_advance hs hend)) ?_)
          fun _ => keeps_pure _
        exact fun token => keeps_resolveIdentifier.bind fun _ => keeps_alloc.bind fun _ =>
          keeps_pure _
  · refine local_advance.bind (fun token => ?_) s
    split
    · exact local_pure _
    · exact local_report.bind fun _ => local_pure _

theorem local_primary : Local (primary reach) := by
  refine local_currentPosition fun _ => (local_primaryValue hr).bind fun found => ?_
  cases found with
  | none => exact local_pure _
  | some value => exact local_postfixStep.bind fun _ => local_alloc.bind fun _ => local_pure _

theorem local_arguments : Local (arguments reach) := by
  refine (hr.inner rfl).bind fun first => local_accept.bind fun more => .ite ?_ (local_pure _)
  exact (hr.inner rfl).bind fun _ => local_pure _

theorem local_argumentList : Local (argumentList reach) := by
  refine local_expect.bind fun _ => local_currentKind fun kind => .ite ?_ ?_
  · exact (local_closeArguments _).bind fun _ => local_pure _
  · exact (hr.inner rfl).bind fun _ => (local_closeArguments _).bind fun _ => local_pure _

theorem local_call (isStatement : Bool) : Local (call reach isStatement) := by
  refine local_expect.bind fun found => ?_
  cases found with
  | none => exact local_pure _
  | some token =>
    refine local_resolveFunction.bind fun _ => local_alloc.bind fun callee => ?_
    refine (local_argumentList hr).bind fun arguments => ?_
    cases arguments with
    | none => exact local_pure _
    | some arguments =>
      exact .look (fun _ _ _ => rfl) fun _ => local_alloc.bind fun _ => local_pure _

theorem passed_call (isStatement : Bool) {s : Builder} (hs : s.Terminated)
    (hname : s.current.kind = .identifier) :
    (call reach isStatement).Ensures s fun _ s' => s.Passed 1 s' := by
  refine passed_name hs hname fun found => ?_
  cases found with
  | none => exact keeps_pure _
  | some token =>
    refine keeps_resolveFunction.bind fun _ => keeps_alloc.bind fun callee => ?_
    refine (keeps_argumentList hr.extends_).bind fun arguments => ?_
    cases arguments with
    | none => exact keeps_pure _
    | some arguments => exact keeps_look.bind fun _ => keeps_alloc.bind fun _ => keeps_pure _

end Expressions

/-! ### Statements -/

section Statements

open Tree.Statement

theorem local_type : Local type := by
  refine local_currentPosition fun _ => local_accept.bind fun _ => local_currentKind fun _ => ?_
  split
  · exact local_currentPosition fun _ => local_report.bind fun _ =>
      local_advance.bind fun _ => local_pure _
  · exact local_advance.bind fun _ => local_alloc.bind fun _ => local_pure _

theorem local_refuseNested : Local refuseNested :=
  .look (fun _ _ _ => rfl) fun _ => .ite (.look (fun _ _ _ => rfl) fun _ => local_report)
    (local_pure _)

theorem rest_refuseNested {s : Builder} :
    refuseNested.Ensures s fun _ s₁ => s₁.rest = s.rest := by
  rw [refuseNested, ensures_bind, ensures_look]
  split
  · rw [ensures_bind, ensures_look, report, ensures_change]
    rfl
  · exact (ensures_pure _).mpr rfl

theorem local_addFound (found : Option NodeId) : Local (addFound found) := by
  cases found with
  | none => exact local_pure _
  | some id => exact local_change fun _ _ _ _ => rfl

theorem local_loopControl : Local loopControl := by
  refine local_advance.bind fun _ => .bind ?_ fun _ => local_expect.bind fun _ =>
    local_alloc.bind fun _ => local_pure _
  exact .look (fun _ _ _ => rfl) fun _ => .ite local_report (local_pure _)

include hr

theorem local_statement : Local (statement .standard reach) := by
  intro s
  refine .look (fun _ _ => rfl) ?_
  split
  · next production hproduction =>
    refine hr.at_ _ s fun hnamed => ?_
    rcases production_of_statement hproduction with
      ⟨-, hname⟩ | ⟨rfl, -⟩ | ⟨rfl, -⟩ | ⟨rfl, -⟩ | ⟨rfl, -⟩
    · exact hname
    all_goals cases hnamed
  · exact (local_currentPosition fun _ => local_report.bind fun _ =>
      local_advance.bind fun _ => local_pure _) s

theorem local_declaration : Local (declaration .standard reach) := by
  intro s
  refine .look (fun _ _ => rfl) ?_
  split
  · next production hproduction =>
    refine hr.at_ _ s fun hnamed => ?_
    rcases production_of_declaration hproduction with ⟨-, hname⟩ | ⟨rfl, -⟩
    · exact hname
    · cases hnamed
  · exact (local_currentPosition fun _ => local_report.bind fun _ =>
      local_advance.bind fun _ => local_pure _) s

omit hr in
/-- Behind a name and a token that is no colon, one more token makes no difference. -/
theorem look_third {second : TokenKind} (h : second ≠ .colon) (m₁ m₂ m₃ : Parse α) :
    (look (·.peekKind 2) >>= fun third =>
        if second = .openParen then m₁
        else if second = .colon ∧ third = .openParen then m₂
        else m₃)
      = if second = .openParen then m₁ else m₃ := by
  funext s
  rw [look_bind, if_neg (c := second = .colon ∧ _) fun hcolon => h hcolon.1]

/-- The two tokens behind a name tell a call, a function and a variable apart.  The second
one matters only behind a colon, and then both are reached. -/
theorem local_identifierStatement {s : Builder} (hname : s.current.kind = .identifier) :
    (identifierStatement reach).LocalAt s := by
  intro hs
  have hcall : (reach (.call true) >>= fun result => expect .semicolon >>= fun _ =>
      pure result).LocalAt s :=
    (hr.at_ _ s fun _ => hname).bind fun _ _ _ =>
      (local_expect.bind fun _ => local_pure _) _
  have hvariable : (reach (.production .variableStatement) >>= fun result =>
      expect .semicolon >>= fun _ => pure result).LocalAt s :=
    ((hr.inner rfl).bind fun _ => local_expect.bind fun _ => local_pure _) s
  have hextends : ∀ result : Option NodeId,
      Keeps Extends (expect .semicolon >>= fun _ => pure result) :=
    fun _ => keeps_expect.bind fun _ => keeps_pure _
  by_cases hcolon : s.peekKind 1 = .colon
  · have hfunction := hr.function s hs hname hcolon
    have htyped := passed_bind (hr.typed s hs hname hcolon) hextends
    have hfewer : ∀ {s' : Builder}, s.Passed 2 s' → s.Passed 1 s' :=
      fun h => Nat.le_trans (Nat.le_succ _) h
    refine LocalAt.peek (LocalAt.peek ?_ ?_) ?_ hs
    · rw [if_neg (by rw [hcolon]; decide)]
      split
      · exact hr.inner rfl s
      · exact hvariable
    · rw [if_neg (by rw [hcolon]; decide)]
      split
      · exact hfunction
      · exact htyped
    · rw [ensures_bind, ensures_look, if_neg (by rw [hcolon]; decide)]
      split
      · exact hfunction.imp fun _ _ h => hfewer h
      · exact htyped.imp fun _ _ h => hfewer h
  · -- what stands behind the second token makes no difference
    refine LocalAt.peek ?_ ?_ hs
    · rw [look_third hcolon]
      split
      · exact hcall
      · exact hvariable
    · rw [look_third hcolon]
      split
      · exact passed_bind (hr.call true s hs hname) hextends
      · exact passed_bind (hr.variable_ s hs hname) hextends

theorem local_values : Local (values reach) := by
  refine local_accept.bind fun more => .ite ?_ (local_pure _)
  exact (hr.inner rfl).bind fun _ => (hr.inner rfl).bind fun _ => local_pure _

theorem local_declaredType (token : Token) : Local (declaredType reach token) := by
  refine local_accept.bind fun typed => .ite ?_ ?_
  · exact (hr.inner rfl).bind fun _ => local_declare.bind fun _ => local_pure _
  · exact local_resolveIdentifier.bind fun _ => local_pure _

theorem local_variableStatement : Local (variableStatement reach) := by
  refine local_expect.bind fun found => ?_
  cases found with
  | none => exact local_pure _
  | some token =>
    exact (local_declaredType hr token).bind fun _ => local_alloc.bind fun _ =>
      (hr.inner rfl).bind fun _ => local_alloc.bind fun _ => local_pure _

theorem passed_variableStatement {s : Builder} (hs : s.Terminated)
    (hname : s.current.kind = .identifier) :
    (variableStatement reach).Ensures s fun _ s' => s.Passed 1 s' := by
  refine passed_name hs hname fun found => ?_
  cases found with
  | none => exact keeps_pure _
  | some token =>
    exact (keeps_declaredType hr.extends_ token).bind fun _ => keeps_alloc.bind fun _ =>
      (hr.extends_ _).bind fun _ => keeps_alloc.bind fun _ => keeps_pure _

/-- The colon behind the name of a variable is passed. -/
theorem passed_typedVariable {s : Builder} (hs : s.Terminated)
    (hname : s.current.kind = .identifier) (hcolon : s.peekKind 1 = .colon) :
    (variableStatement reach).Ensures s fun _ s' => s.Passed 2 s' := by
  have hsecond := Builder.current_advance (by rw [hname]; decide) hcolon (by decide)
  have hend : s.advance.2.current.kind ≠ .eof := by rw [hsecond]; decide
  refine passed_behind_name hs hname (passed_bind ?_ fun _ => keeps_alloc.bind fun _ =>
    (hr.extends_ _).bind fun _ => keeps_alloc.bind fun _ => keeps_pure _)
  refine passed_bind ((ensures_act _).mpr ?_) fun typed => .ite ?_ ?_
  · rw [Builder.accept, if_pos hsecond]
    exact Builder.passed_advance (s.extends_advance.terminated hs) hend
  · exact (hr.extends_ _).bind fun _ => (keeps_declare rfl).bind fun _ => keeps_pure _
  · exact keeps_resolveIdentifier.bind fun _ => keeps_pure _

theorem local_parameter : Local (parameter reach) := by
  refine local_expect.bind fun token => local_expect.bind fun _ =>
    (hr.inner rfl).bind fun atom => ?_
  split
  · exact local_declare.bind fun _ => local_alloc.bind fun _ => local_pure _
  · exact local_pure _

theorem local_parameters : Local (parameters reach) := by
  refine (local_parameter hr).bind fun first => local_accept.bind fun more =>
    .ite ?_ (local_pure _)
  exact (hr.inner rfl).bind fun _ => local_pure _

theorem local_parameterList : Local (parameterList reach) := by
  refine local_expect.bind fun _ => local_currentKind fun kind => .ite ?_ ?_
  · exact local_expect.bind fun _ => local_pure _
  · exact (hr.inner rfl).bind fun _ => local_expect.bind fun _ => local_pure _

theorem local_signature : Local (signature reach) := by
  refine local_expect.bind fun found => ?_
  cases found with
  | none => exact local_pure _
  | some token =>
    refine .bind ?_ fun _ => local_pure _
    refine local_declare.bind fun _ => local_alloc.bind fun _ => local_expect.bind fun _ =>
      local_enterScope.bind fun _ => (local_parameterList hr).bind fun _ =>
      .bind ?_ fun _ => local_pure _
    exact local_accept.bind fun _ => .ite (hr.inner rfl) (local_pure _)

/-- The colon behind the name of a function is passed. -/
theorem passed_signature {s : Builder} (hs : s.Terminated) (hname : s.current.kind = .identifier)
    (hcolon : s.peekKind 1 = .colon) :
    (signature reach).Ensures s fun _ s' => s.Passed 2 s' := by
  have hsecond := Builder.current_advance (by rw [hname]; decide) hcolon (by decide)
  refine passed_behind_name hs hname (passed_bind ?_ fun _ => keeps_pure _)
  rw [signatureOf, ensures_bind, declare, ensures_change, ensures_bind, alloc, ensures_act]
  generalize hnamed : ((s.advance.2.declare s.current.identifierName .function
    s.current.position).alloc s.current.position (.ident s.current.identifierName)).2 = s₁
  have hrest : s₁.rest = s.advance.2.rest := by rw [← hnamed]; simp
  have hs₁ : s₁.Terminated := by
    rw [Builder.Terminated, hrest]
    exact s.extends_advance.terminated hs
  have hend : s₁.current.kind ≠ .eof := by
    rw [Builder.current_eq_of_rest hrest, hsecond]
    decide
  have hpassed := (Builder.passed_expect hs₁ hend .colon).of_rest hrest
  refine passed_bind ((ensures_act _).mpr hpassed) fun _ => keeps_enterScope.bind fun _ => ?_
  exact (keeps_parameterList hr.extends_).bind fun _ =>
    (keeps_resultType hr.extends_).bind fun _ => keeps_pure _

theorem local_blockBody : Local (blockBody reach) :=
  local_expect.bind fun _ => (hr.inner rfl).bind fun _ => local_expect.bind fun _ => local_pure _

theorem local_function : Local (function reach) := by
  refine local_currentPosition fun _ => local_refuseNested.bind fun _ =>
    (local_signature hr).bind fun found => ?_
  cases found with
  | none => exact local_pure _
  | some found =>
    exact .look (fun _ _ _ => rfl) fun depth => (local_setLoopDepth fun _ _ _ _ => rfl).bind
      fun _ => (local_blockBody hr).bind fun _ => (local_setLoopDepth fun _ _ _ _ => rfl).bind
      fun _ => local_exitScope.bind fun _ => local_alloc.bind fun _ => local_pure _

theorem passed_function {s : Builder} (hs : s.Terminated) (hname : s.current.kind = .identifier)
    (hcolon : s.peekKind 1 = .colon) :
    (function reach).Ensures s fun _ s' => s.Passed 2 s' := by
  rw [function, ensures_bind, currentPosition, ensures_look, ensures_bind]
  refine rest_refuseNested.imp fun _ s₁ hrest => ?_
  obtain ⟨hcurrent, hahead⟩ := List.cons.inj hrest
  have hs₁ : s₁.Terminated := by rwa [Builder.Terminated, hrest]
  have hcolon₁ : s₁.peekKind 1 = .colon := by
    rw [Builder.peekKind, hahead]
    exact hcolon
  have hsignature := passed_signature hr hs₁ (by rw [hcurrent, hname]) hcolon₁
  refine passed_bind (hsignature.imp fun _ _ h => h.of_rest hrest) fun found => ?_
  cases found with
  | none => exact keeps_pure _
  | some found =>
    exact keeps_look.bind fun _ => keeps_setLoopDepth.bind fun _ =>
      (keeps_blockBody hr.extends_).bind fun _ => keeps_setLoopDepth.bind fun _ =>
      keeps_exitScope.bind fun _ => keeps_alloc.bind fun _ => keeps_pure _

theorem local_foreignImport : Local (foreignImport reach) := by
  refine local_advance.bind fun mark => local_expect.bind fun _ => local_expect.bind fun _ =>
    local_expect.bind fun _ => local_expect.bind fun token => local_addModule.bind fun _ =>
    local_expect.bind fun _ => .bind ?_ fun found => local_expect.bind fun _ =>
    local_expect.bind fun _ => ?_
  · refine (local_signature hr).bind fun found => ?_
    cases found with
    | none => exact local_pure _
    | some found => exact local_exitScope.bind fun _ => local_pure _
  · cases found with
    | none => exact local_pure _
    | some found => exact local_alloc.bind fun _ => local_pure _

theorem local_block : Local (block reach) :=
  local_currentPosition fun _ => local_enterScope.bind fun _ => (local_blockBody hr).bind fun _ =>
    local_exitScope.bind fun _ => local_pure _

theorem local_statements : Local (statements reach) := by
  refine local_currentKind fun _ => .look (fun _ _ _ => rfl) fun _ => .ite ?_ (local_pure _)
  exact (hr.inner rfl).bind fun found => (local_addFound found).bind fun _ => hr.inner rfl

theorem local_declarations : Local (declarations reach) := by
  refine .look (fun _ _ _ => rfl) fun _ => .ite ?_ (local_pure _)
  exact (hr.inner rfl).bind fun found => (local_addFound found).bind fun _ => hr.inner rfl

theorem local_returnStatement : Local (returnStatement reach) := by
  refine local_advance.bind fun _ => .bind ?_ fun _ => local_expect.bind fun _ =>
    local_alloc.bind fun _ => local_pure _
  exact local_currentKind fun _ => .ite (local_pure _) (hr.inner rfl)

theorem local_ifStatement : Local (ifStatement reach) :=
  local_advance.bind fun _ => (hr.inner rfl).bind fun _ => (hr.inner rfl).bind fun _ =>
    (hr.inner rfl).bind fun _ => local_alloc.bind fun _ => local_pure _

theorem local_elseClause : Local (elseClause reach) := by
  refine local_currentKind fun kind => ?_
  split
  · exact local_advance.bind fun _ => (hr.inner rfl).bind fun _ => (hr.inner rfl).bind fun _ =>
      (hr.inner rfl).bind fun _ => local_alloc.bind fun _ => local_pure _
  · exact local_advance.bind fun _ => (hr.inner rfl).bind fun _ => local_alloc.bind fun _ =>
      local_pure _
  · exact local_pure _

theorem local_whileStatement : Local (whileStatement reach) :=
  local_advance.bind fun _ => (hr.inner rfl).bind fun _ =>
    (local_setLoopDepth fun _ _ _ _ => rfl).bind fun _ => (hr.inner rfl).bind fun _ =>
    (local_setLoopDepth fun _ _ _ _ => rfl).bind fun _ => local_alloc.bind fun _ => local_pure _

end Statements

end Parts

end Parse

/-! ## All parts together -/

namespace Goal

open Parse

/-- One step of reading looks no further than the token that it stops in front of. -/
theorem step_local {reach : Reach} (hr : LocalReach reach) {s : Builder} :
    ∀ {α : Type} (goal : Goal α), (goal.isNamed → s.current.kind = .identifier) →
      (goal.step .standard reach).LocalAt s
  | _, .production .unary, _ => local_unary hr s
  | _, .production .primary, _ => local_primary hr s
  | _, .production .prefixed, _ => local_prefixed hr s
  | _, .production .grouping, _ => local_grouping hr s
  | _, .production .declaration, _ => local_declaration hr s
  | _, .production .statement, _ => local_statement hr s
  | _, .production .identifierStatement, hname => local_identifierStatement hr (hname rfl)
  | _, .production .variableStatement, _ => local_variableStatement hr s
  | _, .production .function, _ => local_function hr s
  | _, .production .foreignImport, _ => local_foreignImport hr s
  | _, .production .returnStatement, _ => local_returnStatement hr s
  | _, .production .loopControl, _ => local_loopControl s
  | _, .production .ifStatement, _ => local_ifStatement hr s
  | _, .production .whileStatement, _ => local_whileStatement hr s
  | _, .production .type, _ => local_type s
  | _, .expression power, _ => local_expression hr power s
  | _, .operators left power, _ => local_operators hr left power s
  | _, .binary left power, _ => local_binary hr left power s
  | _, .call isStatement, _ => local_call hr isStatement s
  | _, .arguments, _ => local_arguments hr s
  | _, .values, _ => local_values hr s
  | _, .parameters, _ => local_parameters hr s
  | _, .elseClause, _ => local_elseClause hr s
  | _, .block, _ => local_block hr s
  | _, .statements, _ => local_statements hr s
  | _, .declarations, _ => local_declarations hr s

/-- **Reading looks no further than the token that it stops in front of**, however many
references are followed. -/
theorem localReach (fuel : Nat) : LocalReach (Goal.reach .standard fuel) := by
  induction fuel with
  | zero =>
    have hnone : ∀ {α : Type} (goal : Goal α) (s : Builder) (Q : α → Builder → Prop),
        (Goal.reach .standard 0 goal).Ensures s Q := by
      intro α goal s Q a s' hread
      cases hread
    exact ⟨fun goal s => hnone goal s _, fun goal s _ _ => hnone goal s _,
      fun _ s _ _ => hnone _ s _, fun s _ _ => hnone _ s _, fun s _ _ _ => hnone _ s _,
      fun s _ _ _ => hnone _ s _⟩
  | succ fuel ih =>
    exact ⟨fun goal s => reach_extends _ goal s, fun goal s hname => step_local ih goal hname,
      fun isStatement s hs hname => passed_call ih isStatement hs hname,
      fun s hs hname => passed_variableStatement ih hs hname,
      fun s hs hname hcolon => passed_typedVariable ih hs hname hcolon,
      fun s hs hname hcolon => passed_function ih hs hname hcolon⟩

/-! ## Reading with no bound on the steps -/

variable {goal : Goal α} {s s' : Builder} {a : α}

/-- What some number of steps reads is what is read. -/
theorem run_of_reach {fuel : Nat} (h : goal.Fits s)
    (hread : Goal.reach .standard fuel goal s = some (a, s')) :
    goal.run .standard s = some (a, s') := by
  obtain ⟨b, t, hrun, -⟩ := run_gives h
  have hmore := reach_mono (Nat.le_max_left fuel (enoughFuel s.ahead.length)) hread
  rw [reach_mono (Nat.le_max_right fuel _) hrun] at hmore
  rw [hrun, hmore]

/-- **Later text does not change how earlier text is read.**  A part is read in the same way
whatever stands behind the token that reading stops in front of, and whatever was found wrong
before. -/
theorem run_facing (h : goal.Fits s) (hname : goal.isNamed → s.current.kind = .identifier)
    (hrun : goal.run .standard s = some (a, s')) :
    ∃ passed, s.rest = passed ++ s'.rest ∧ ∀ faults behind,
      (∃ t ∈ s'.current :: behind, t.kind = .eof) →
        goal.run .standard (s.facing faults (passed ++ s'.current :: behind))
          = some (a, s'.facing faults (s'.current :: behind)) := by
  obtain ⟨-, passed, hrest, hlocal⟩ := (localReach _).at_ goal s hname h.terminated a s' hrun
  refine ⟨passed, hrest, fun faults behind hend => run_of_reach ⟨?_, fun hneeds => ?_⟩
    (hlocal faults behind)⟩
  · obtain ⟨ts, hts⟩ := Builder.cons_of_rest hrest behind
    obtain ⟨t, ht, hkind⟩ := hend
    refine ⟨t, ?_, hkind⟩
    rw [hts, Builder.rest_facing, ← hts]
    exact List.mem_append_right _ ht
  · obtain ⟨ts, hts⟩ := Builder.cons_of_rest hrest behind
    rw [hts]
    exact h.hasTokens hneeds

end Goal

end Braced
