import Braced.Proofs.Parse.Follows
import Braced.Proofs.Parse.Unclosed

/-!
# Braced.Proofs.Parse.Closes

Later text never changes how earlier text is read.

Reading looks no further than the token that it stops in front of, but it may stop there
because of what this token is: a result type ends where no arrow stands, and a chain of
conditions where no further clause begins.  A declaration is settled before that.  If nothing is
wrong with it, it ends with a semicolon or a brace, which is passed without a look at what is
behind it (`Parse.ClosesAt`).  So what is added behind a program without faults only adds to its
tree, and faults are found in the added text alone.
-/

namespace Braced

namespace Builder

variable {s s₁ s' : Builder}

/-- Between two places with the same faults no fault was found. -/
theorem Extends.clean (h : s.Extends s₁) (h' : s₁.Extends s')
    (hclean : s'.diagnostics = s.diagnostics) :
    s₁.diagnostics = s.diagnostics ∧ s'.diagnostics = s₁.diagnostics := by
  have hback := h'.diagnostics
  rw [hclean] at hback
  have hsame : s₁.diagnostics = s.diagnostics := Array.toList_inj.mp
    (hback.eq_of_length (Nat.le_antisymm hback.length_le h.diagnostics.length_le))
  exact ⟨hsame, hclean.trans hsame.symm⟩

/-- A fault that is reported stays found. -/
theorem Extends.ne_of_report {fault : Fault} {position : Position}
    (h : (s.report fault position).Extends s') : s'.diagnostics ≠ s.diagnostics := by
  intro hclean
  have hlonger := h.diagnostics.length_le
  rw [hclean, report, Array.toList_push, List.length_append] at hlonger
  exact Nat.not_succ_le_self _ hlonger

/-- Passing a token makes no difference in front of other tokens. -/
theorem facing_advance (s : Builder) (faults : Array Diagnostic) (t : Token) (ts : List Token) :
    s.advance.2.facing faults (t :: ts) = s.facing faults (t :: ts) := by
  obtain ⟨current, ahead, hadvance⟩ := s.advance_snd
  rw [hadvance]
  rfl

/-- Where more tokens are passed than are looked at, what stands behind them is not seen. -/
theorem peekKind_facing {n : Nat} {passed : List Token} (h : s.rest = passed ++ s'.rest)
    (hn : n < passed.length) (faults : Array Diagnostic) (t : Token) (behind : List Token) :
    (s.facing faults (passed ++ t :: behind)).peekKind n = s.peekKind n := by
  obtain ⟨first, others, rfl⟩ := List.exists_cons_of_length_pos (Nat.zero_lt_of_lt hn)
  obtain ⟨hcurrent, hahead⟩ := List.cons.inj h
  cases n with
  | zero => exact congrArg Token.kind hcurrent.symm
  | succ n =>
    have hlt : n < others.length := Nat.lt_of_succ_lt_succ hn
    rw [peekKind, peekKind, hahead, List.cons_append, facing, List.tail_cons]
    exact congrArg (fun found => (found.map Token.kind).getD .eof)
      ((List.getElem?_append_left hlt).trans (List.getElem?_append_left hlt).symm)

/-- What is passed in front of the last token comes before it. -/
theorem exists_append_of_rest {passed tokens : List Token} {last : Token}
    (h : s.rest = passed ++ s'.rest) (h' : s.rest = tokens ++ [last]) :
    ∃ later, tokens = passed ++ later ∧ s'.rest = later ++ [last] := by
  obtain hnil | ⟨later, x, hrest⟩ := s'.rest.eq_nil_or_concat
  · cases hnil
  · rw [List.concat_eq_append] at hrest
    rw [h', hrest, ← List.append_assoc] at h
    obtain ⟨htokens, hlast⟩ := List.append_inj' h rfl
    exact ⟨later, htokens, by rw [hrest, hlast]⟩

end Builder

namespace Parse

open Builder (Blind Extends)

variable {s s' : Builder} {m : Parse α} {n : Nat}

/-! ## Actions that leave the tokens alone -/

/-- The action leaves the tokens alone, and does the same whatever they are. -/
def Apart (m : Parse α) : Prop :=
  ∀ s : Builder, m.Ensures s fun a s' =>
    s.Extends s' ∧ s'.rest = s.rest ∧ m.Spans s [] (fun _ => True) a s'

theorem apart_pure (a : α) : Apart (pure a : Parse α) :=
  fun s => (ensures_pure a).mpr ⟨.refl s, rfl, spans_pure⟩

theorem Apart.bind {f : α → Parse β} (hm : Apart m) (hf : ∀ a, Apart (f a)) :
    Apart (m >>= f) := by
  intro s
  rw [ensures_bind]
  refine (hm s).imp fun a s₁ hfirst => (hf a s₁).imp fun b s₂ hsecond => ?_
  obtain ⟨hextends, hrest, hspans⟩ := hfirst
  obtain ⟨hextends', hrest', hspans'⟩ := hsecond
  exact ⟨hextends.trans hextends', hrest'.trans hrest, hspans.then_ hspans'⟩

theorem apart_change {f : Builder → Builder} (h : Blind f)
    (hextends : ∀ s : Builder, s.Extends (f s)) : Apart (change f) :=
  fun s => (ensures_change f _).mpr ⟨hextends s, h.rest_eq s, spans_change h⟩

theorem apart_alloc {position : Position} {kind : NodeKind} : Apart (alloc position kind) :=
  fun s => (ensures_act _).mpr ⟨s.extends_alloc position kind, rfl, spans_alloc⟩

theorem apart_exitScope : Apart exitScope :=
  apart_change (fun _ _ _ _ => rfl) Builder.extends_exitScope

theorem apart_setLoopDepth {depth : Nat} : Apart (change (·.setLoopDepth depth)) :=
  apart_change (fun _ _ _ _ => rfl) fun _ => .of_eq rfl rfl rfl rfl

/-! ## Actions that end with a token of their own -/

/-- If `m` finds no fault from `s` on, what it reads is settled by the tokens that it passes, of
which there are more than `n`. -/
def ClosesAt (m : Parse α) (n : Nat) (s : Builder) : Prop :=
  s.Terminated → m.Ensures s fun a s' => s.Extends s' ∧
    (s'.diagnostics = s.diagnostics → ∃ passed, s.rest = passed ++ s'.rest ∧ n < passed.length ∧
      m.Spans s passed (fun _ => True) a s')

/-- What is read is settled by the tokens that are passed and the one behind them. -/
theorem LocalAt.exists_spans {a : α} (h : m.LocalAt s) (hs : s.Terminated)
    (hrun : m s = some (a, s')) :
    ∃ passed, s.rest = passed ++ s'.rest ∧ m.Spans s passed (· = s'.current) a s' := by
  obtain ⟨-, passed, hrest, hlocal⟩ := h hs a s' hrun
  refine ⟨passed, hrest, fun faults t behind ht _ => ?_⟩
  rw [ht]
  exact hlocal faults behind

/-- What ends with a token of its own settles what is read in front of it. -/
theorem LocalAt.closes {f : α → Parse β} {k : Nat} (hm : m.LocalAt s)
    (hpassed : m.Ensures s fun _ s₁ => s.Extends s₁ ∧ s.Passed n s₁)
    (hf : ∀ a s₁, m s = some (a, s₁) → (f a).ClosesAt k s₁) : (m >>= f).ClosesAt (n + k) s := by
  intro hs
  rw [ensures_bind]
  intro a s₁ hm₁ b s₂ hf₂
  obtain ⟨hextends₁, hpassed₁⟩ := hpassed a s₁ hm₁
  obtain ⟨hextends₂, hclosed⟩ := hf a s₁ hm₁ (hextends₁.terminated hs) b s₂ hf₂
  refine ⟨hextends₁.trans hextends₂, fun hclean => ?_⟩
  obtain ⟨passed₁, hrest₁, hspans₁⟩ := hm.exists_spans hs hm₁
  obtain ⟨passed₂, hrest₂, hlength₂, hspans₂⟩ :=
    hclosed (hextends₁.clean hextends₂ hclean).2
  obtain ⟨first, others, rfl⟩ :=
    List.exists_cons_of_length_pos (Nat.zero_lt_of_lt hlength₂)
  refine ⟨passed₁ ++ first :: others, by rw [hrest₁, hrest₂, List.append_assoc], ?_,
    hspans₁.bind_of hspans₂ fun _ _ => (List.cons.inj hrest₂).1.symm⟩
  have hlong : s₁.ahead.length + n ≤ s.ahead.length := hpassed₁
  have hsum := congrArg List.length hrest₁
  simp only [Builder.rest, List.length_append, List.length_cons] at hsum hlength₂ ⊢
  omega

theorem Local.closes {f : α → Parse β} (hm : Local m) (hextends : Keeps Extends m)
    (hf : ∀ a s, (f a).ClosesAt n s) (s : Builder) : (m >>= f).ClosesAt n s := by
  have hclosed := (hm s).closes (n := 0) (k := n)
    ((hextends s).imp fun _ s₁ h => ⟨h, h.length_ahead_le⟩) fun a s₁ _ => hf a s₁
  rwa [Nat.zero_add] at hclosed

/-- Looking at what depends on the next token alone, which is passed. -/
theorem ClosesAt.look {f : Builder → β} {k : β → Parse α}
    (hlook : ∀ faults behind, f (s.facing faults (s.current :: behind)) = f s)
    (h : (k (f s)).ClosesAt n s) : (Parse.look f >>= k).ClosesAt n s := by
  intro hs
  rw [ensures_bind, ensures_look]
  refine (h hs).imp fun a s' hcloses => ⟨hcloses.1, fun hclean => ?_⟩
  obtain ⟨passed, hrest, hlength, hspans⟩ := hcloses.2 hclean
  obtain ⟨first, others, rfl⟩ := List.exists_cons_of_length_pos (Nat.zero_lt_of_lt hlength)
  obtain ⟨rfl, -⟩ := List.cons.inj hrest
  exact ⟨_, hrest, hlength, hspans.look hlook⟩

/-- Looking ahead at a token that is passed. -/
theorem ClosesAt.peek {k : TokenKind → Parse α} {l : Nat} (h : (k (s.peekKind n)).ClosesAt l s)
    (hn : n ≤ l) : (Parse.look (·.peekKind n) >>= k).ClosesAt l s := by
  intro hs
  rw [ensures_bind, ensures_look]
  refine (h hs).imp fun a s' hcloses => ⟨hcloses.1, fun hclean => ?_⟩
  obtain ⟨passed, hrest, hlength, hspans⟩ := hcloses.2 hclean
  refine ⟨passed, hrest, hlength, fun faults t behind ht hend => ?_⟩
  rw [look_bind, Builder.peekKind_facing hrest (Nat.lt_of_le_of_lt hn hlength)]
  exact hspans faults t behind ht hend

theorem ClosesAt.mono {l : Nat} (h : m.ClosesAt n s) (hl : l ≤ n) : m.ClosesAt l s := by
  intro hs
  refine (h hs).imp fun a s' hcloses => ⟨hcloses.1, fun hclean => ?_⟩
  obtain ⟨passed, hrest, hlength, hspans⟩ := hcloses.2 hclean
  exact ⟨passed, hrest, Nat.lt_of_le_of_lt hl hlength, hspans⟩

/-- Where a fault is reported nothing has to be settled. -/
theorem closesAt_report {fault : Fault} {position : Position} {f : Unit → Parse α}
    (hf : Keeps Extends (f ())) : (report fault position >>= f).ClosesAt n s := by
  intro _
  rw [ensures_bind, report, ensures_change]
  exact (hf _).imp fun _ _ h =>
    ⟨(s.extends_report fault position).trans h, fun hclean => absurd hclean h.ne_of_report⟩

/-- A token that is expected closes what is read, and is passed without a look at the one
behind it. -/
theorem closesAt_expect {kind : TokenKind} {f : Option Token → Parse α} (hend : kind ≠ .eof)
    (hf : ∀ found, Apart (f found)) : (expect kind >>= f).ClosesAt 0 s := by
  intro hs
  rw [ensures_bind, expect, ensures_act]
  by_cases hkind : s.current.kind = kind
  · rw [Builder.expect_of_eq hkind]
    refine (hf _ _).imp fun a s' hapart => ?_
    obtain ⟨hextends, hrest, hspans⟩ := hapart
    refine ⟨s.extends_advance.trans hextends, fun _ => ⟨[s.current], ?_, Nat.zero_lt_one, ?_⟩⟩
    · rw [hrest]
      exact Builder.rest_advance hs (hkind ▸ hend)
    · have hpassed : (act (·.expect kind)).Spans s [s.current] (fun _ => True)
          (some s.current) s.advance.2 := fun faults t behind ht ht' =>
        s.facing_advance faults t behind ▸
          spans_expect (p := fun _ => True) hkind hend faults t behind ht ht'
      exact hpassed.then_ hspans
  · rw [Builder.expect_of_ne hkind]
    refine (hf _ _).imp fun a s' hapart => ?_
    have hreport := (s.reportUnexpected kind).extends_advance.trans hapart.1
    exact ⟨(s.extends_report ..).trans hreport, fun hclean => absurd hclean hreport.ne_of_report⟩

/-! ## Declarations -/

section Declarations

open Tree.Statement

variable {reach : Reach} (hr : LocalReach reach)

include hr

/-- A body ends with its brace. -/
theorem closesAt_blockBody {f : Unit → Parse α} (hf : ∀ a, Apart (f a)) :
    (blockBody reach >>= f).ClosesAt 0 s := by
  simp only [blockBody, bind_assoc, pure_bind]
  exact local_expect.closes keeps_expect (fun _ => (hr.inner rfl).closes (hr.extends_ _)
    fun _ _ => closesAt_expect (by decide) fun _ => hf ()) s

/-- A function ends with the brace of its body. -/
theorem closesAt_function (hs : s.Terminated) (hname : s.current.kind = .identifier)
    (hcolon : s.peekKind 1 = .colon) : (function reach).ClosesAt 2 s := by
  refine ClosesAt.look (fun _ _ => rfl) ?_
  refine LocalAt.closes (n := 0) (k := 2) (local_refuseNested s)
    ((keeps_refuseNested s).imp fun _ _ h => ⟨h, h.length_ahead_le⟩) fun _ s₁ hrun => ?_
  have hrest : s₁.rest = s.rest := rest_refuseNested _ _ hrun
  obtain ⟨hcurrent, hahead⟩ := List.cons.inj hrest
  have hname₁ : s₁.current.kind = .identifier := by rw [hcurrent, hname]
  have hcolon₁ : s₁.peekKind 1 = .colon := by
    rw [Builder.peekKind, hahead]
    exact hcolon
  have hpassed := passed_signature hr (by rwa [Builder.Terminated, hrest]) hname₁ hcolon₁
  -- there is a name, so there is a signature
  have hnamed : (signature reach).Ensures s₁ fun found _ => found.isSome := by
    rw [signature, ensures_bind, expect, ensures_act, Builder.expect_of_eq hname₁, ensures_bind]
    exact fun _ _ _ => (ensures_pure _).mpr rfl
  refine LocalAt.closes (n := 2) (k := 0) (local_signature hr s₁)
    ((keeps_signature hr.extends_ s₁).and hpassed) fun found s₂ hfound => ?_
  cases found with
  | none => cases hnamed _ _ hfound
  | some found =>
    refine ClosesAt.look (fun _ _ => rfl) ?_
    refine Local.closes (local_setLoopDepth fun _ _ _ _ => rfl) keeps_setLoopDepth (fun _ _ => ?_) _
    exact closesAt_blockBody hr fun _ => apart_setLoopDepth.bind fun _ =>
      apart_exitScope.bind fun _ => apart_alloc.bind fun _ => apart_pure _

/-- An import ends with its semicolon. -/
theorem closesAt_foreignImport : (foreignImport reach).ClosesAt 0 s := by
  have hsignature : Local (closedSignature reach) := by
    refine (local_signature hr).bind fun found => ?_
    cases found with
    | none => exact local_pure _
    | some found => exact local_exitScope.bind fun _ => local_pure _
  have hextends : Keeps Extends (closedSignature reach) := by
    refine (keeps_signature hr.extends_).bind fun found => ?_
    cases found with
    | none => exact keeps_pure _
    | some found => exact keeps_exitScope.bind fun _ => keeps_pure _
  refine local_advance.closes keeps_advance (fun mark => local_expect.closes keeps_expect
    fun _ => local_expect.closes keeps_expect fun _ => local_expect.closes keeps_expect
    fun _ => local_expect.closes keeps_expect fun token => local_addModule.closes keeps_addModule
    fun _ => local_expect.closes keeps_expect fun _ => hsignature.closes hextends fun found => local_expect.closes keeps_expect
    fun _ s => closesAt_expect (by decide) fun _ => ?_) s
  cases found with
  | none => exact apart_pure _
  | some found => exact apart_alloc.bind fun _ => apart_pure _

variable (hfunction : ∀ s : Builder, s.Terminated → s.current.kind = .identifier →
  s.peekKind 1 = .colon → (reach (.production .function)).ClosesAt 2 s)

include hfunction

/-- What begins with a name ends with the brace of a function, or with a semicolon. -/
theorem closesAt_identifierStatement (hname : s.current.kind = .identifier) :
    (identifierStatement reach).ClosesAt 0 s := by
  intro hs
  have hsemicolon : ∀ {n : Nat} {m : Parse (Option NodeId)}, m.LocalAt s → Keeps Extends m →
      (m.Ensures s fun _ s' => s.Passed n s') →
      (m >>= fun result => expect .semicolon >>= fun _ => pure result).ClosesAt n s :=
    fun hm hextends hpassed => hm.closes ((hextends s).and hpassed) fun _ _ _ =>
      closesAt_expect (by decide) fun _ => apart_pure _
  by_cases hcolon : s.peekKind 1 = .colon
  · refine ClosesAt.mono (n := 2) (.peek (.peek ?_ (Nat.le_refl 2)) (Nat.le_succ 1))
      (Nat.zero_le 2) hs
    rw [if_neg (by rw [hcolon]; decide)]
    split
    · exact hfunction s hs hname hcolon
    · exact hsemicolon (hr.inner rfl s) (hr.extends_ _) (hr.typed s hs hname hcolon)
  · refine ClosesAt.mono (n := 1) (.peek ?_ (Nat.le_refl 1)) (Nat.zero_le 1) hs
    rw [look_third hcolon]
    split
    · exact hsemicolon (hr.at_ _ s fun _ => hname) (hr.extends_ _) (hr.call true s hs hname)
    · exact hsemicolon (hr.inner rfl s) (hr.extends_ _) (hr.variable_ s hs hname)

omit hr hfunction

/-- What begins no declaration is reported. -/
theorem closesAt_declaration
    (hname : s.current.kind = .identifier →
      (reach (.production .identifierStatement)).ClosesAt 0 s)
    (himport : (reach (.production .foreignImport)).ClosesAt 0 s) :
    (declaration .standard reach).ClosesAt 0 s := by
  refine ClosesAt.look (fun _ _ => rfl) ?_
  split
  · next production hproduction =>
    rcases production_of_declaration hproduction with ⟨rfl, hkind⟩ | ⟨rfl, -⟩
    · exact hname hkind
    · exact himport
  · exact ClosesAt.look (fun _ _ => rfl)
      (closesAt_report (keeps_advance.bind fun _ => keeps_pure _))

end Declarations

end Parse

/-! ## All declarations together -/

namespace Goal

open Parse

variable {s s' : Builder}

theorem closesAt_of_step (goal : Goal α) {n : Nat}
    (h : ∀ fuel, (goal.step .standard (Goal.reach .standard fuel)).ClosesAt n s) (fuel : Nat) :
    (Goal.reach .standard fuel goal).ClosesAt n s := by
  cases fuel with
  | zero =>
    intro _ a s' hread
    cases hread
  | succ fuel => exact h fuel

theorem reach_function_closesAt (fuel : Nat) (hs : s.Terminated)
    (hname : s.current.kind = .identifier) (hcolon : s.peekKind 1 = .colon) :
    (Goal.reach .standard fuel (production .function)).ClosesAt 2 s :=
  closesAt_of_step (production .function)
    (fun fuel => closesAt_function (localReach fuel) hs hname hcolon) fuel

theorem reach_identifierStatement_closesAt (fuel : Nat) (hname : s.current.kind = .identifier) :
    (Goal.reach .standard fuel (production .identifierStatement)).ClosesAt 0 s :=
  closesAt_of_step (production .identifierStatement) (fun fuel =>
    closesAt_identifierStatement (localReach fuel) (fun _ => reach_function_closesAt fuel) hname)
    fuel

theorem reach_foreignImport_closesAt (fuel : Nat) :
    (Goal.reach .standard fuel (production .foreignImport)).ClosesAt 0 s :=
  closesAt_of_step (production .foreignImport)
    (fun fuel => closesAt_foreignImport (localReach fuel)) fuel

/-- **A declaration in which nothing is wrong ends with a token of its own**, and is settled by
its tokens. -/
theorem reach_declaration_closesAt (fuel : Nat) :
    (Goal.reach .standard fuel (production .declaration)).ClosesAt 0 s :=
  closesAt_of_step (production .declaration) (fun fuel =>
    closesAt_declaration (reach_identifierStatement_closesAt fuel)
      (reach_foreignImport_closesAt fuel)) fuel

theorem exists_spans_declaration {found : Option NodeId} (hs : s.Terminated)
    (hrun : (production .declaration).run .standard s = some (found, s'))
    (hclean : s'.diagnostics = s.diagnostics) :
    ∃ passed, s.rest = passed ++ s'.rest ∧ passed ≠ [] ∧
      Spans ((production .declaration).run .standard) s passed (fun _ => True) found s' := by
  obtain ⟨-, hclosed⟩ := reach_declaration_closesAt _ hs found s' hrun
  obtain ⟨passed, hrest, hlength, hspans⟩ := hclosed hclean
  refine ⟨passed, hrest, List.ne_nil_of_length_pos hlength, fun faults t behind ht hend => ?_⟩
  exact run_of_reach ⟨s.terminated_facing faults passed hend, by simp [needsToken]⟩
    (hspans faults t behind ht hend)

/-- In front of the end no declaration is read. -/
theorem run_declarations_end (hend : s.current.kind = .eof) :
    declarations.run .standard s = some ((), s) := by
  have hs : s.Terminated := ⟨s.current, List.mem_cons_self, hend⟩
  rw [run_eq_step ⟨hs, by simp [needsToken]⟩]
  show Tree.Statement.declarations freely s = _
  rw [Tree.Statement.declarations, look_bind, if_neg (by simp [Builder.hasTokens, hend])]
  rfl

/-- **Declarations in which nothing is wrong are settled by their tokens.**  What is read behind
them, in place of the end of all tokens, is read from where they end. -/
theorem run_declarations_behind {tokens : List Token} {last : Token}
    (hrest : s.rest = tokens ++ [last]) (htokens : ∀ t ∈ tokens, t.kind ≠ .eof)
    (hlast : last.kind = .eof) (hrun : declarations.run .standard s = some ((), s'))
    (hclean : s'.diagnostics = s.diagnostics) (faults : Array Diagnostic) {t : Token}
    {behind : List Token} (hend : ∃ e ∈ t :: behind, e.kind = .eof) :
    declarations.run .standard (s.facing faults (tokens ++ t :: behind))
      = declarations.run .standard (s'.facing faults (t :: behind)) := by
  -- by induction on the number of tokens: each declaration passes some
  induction hlength : tokens.length using Nat.strong_induction_on generalizing s tokens with
  | _ n ih =>
  cases tokens with
  | nil =>
    obtain ⟨hcurrent, -⟩ := List.cons.inj hrest
    rw [run_declarations_end (hcurrent ▸ hlast)] at hrun
    cases hrun
    rfl
  | cons first others =>
    obtain ⟨hcurrent, hahead⟩ := List.cons.inj hrest
    have hs : s.Terminated := ⟨last, by simp [hrest], hlast⟩
    have hfirst : first.kind ≠ .eof := htokens first List.mem_cons_self
    have hfits : (production .declaration).Fits s := ⟨hs, by simp [needsToken]⟩
    obtain ⟨found, s₁, hfound, hextends, -⟩ := run_gives hfits
    rw [run_declarations hs (s.hasTokens_iff.mpr (hcurrent ▸ hfirst)), hfound,
      Option.bind_some] at hrun
    -- what is found is added, and no fault is found on the way
    have hsame := (blind_addFound found).rest_eq s₁
    have hadd : s₁.Extends (found.elim s₁ s₁.addStatement) := by
      cases found with
      | none => exact .refl s₁
      | some id => exact s₁.extends_addStatement id
    have hadded : (found.elim s₁ s₁.addStatement).diagnostics = s₁.diagnostics := by
      cases found <;> rfl
    have hlater := reach_extends _ _ _ _ _ hrun
    obtain ⟨hclean₁, hclean'⟩ := (hextends.trans hadd).clean hlater hclean
    obtain ⟨passed, hrest₁, hpassed, hspans⟩ :=
      exists_spans_declaration hs hfound (hadded ▸ hclean₁)
    -- the end of all tokens is not passed
    obtain ⟨later, htokens₁, hrest₂⟩ := Builder.exists_append_of_rest hrest₁ hrest
    obtain ⟨next, others', hnext⟩ : ∃ next others', later ++ t :: behind = next :: others' :=
      List.exists_cons_of_ne_nil (by simp)
    have hend' : ∃ e ∈ next :: others', e.kind = .eof := by
      obtain ⟨e, he, hkind⟩ := hend
      exact ⟨e, hnext ▸ List.mem_append_right later he, hkind⟩
    have hshorter : later.length < n := by
      have hpositive := List.length_pos_iff.mpr hpassed
      rw [← hlength, htokens₁, List.length_append]
      omega
    have hs' := s.terminated_facing faults (first :: others) hend
    rw [run_declarations hs' ((Builder.hasTokens_iff _).mpr hfirst), htokens₁, List.append_assoc,
      hnext, hspans faults next others' trivial hend', Option.bind_some]
    have hsame' := blind_addFound found s₁ faults next others'
    refine (congrArg (declarations.run .standard) hsame').trans ?_
    rw [← hnext]
    exact ih _ hshorter (hsame.trans hrest₂)
      (fun t ht => htokens t (htokens₁ ▸ List.mem_append_right passed ht)) hrun hclean' rfl

end Goal

/-! ## Trees of longer lists of tokens -/

namespace Builder

variable {tokens later : List Token}

/-- Behind tokens none of which is an end, an end is added. -/
theorem exists_terminated_eq (hne : tokens ≠ []) (hend : ∀ t ∈ tokens, t.kind ≠ .eof) :
    ∃ last, terminated tokens = tokens ++ [last] ∧ last.kind = .eof := by
  refine ⟨⟨.eof, .none, (tokens.getLast hne).position⟩, ?_, rfl⟩
  rw [terminated, List.getLast?_eq_some_getLast hne]
  exact if_neg (hend _ (List.getLast_mem hne))

theorem terminated_append_of_ne (tokens : List Token) (hne : later ≠ []) :
    terminated (tokens ++ later) = tokens ++ terminated later := by
  have hlast := List.getLast?_eq_some_getLast hne
  have hlast' : (tokens ++ later).getLast? = some (later.getLast hne) := by
    rw [List.getLast?_append, hlast, Option.some_or]
  simp only [terminated, hlast, hlast']
  split
  · rfl
  · exact List.append_assoc ..

/-- The end that is added stands where the last token does. -/
theorem exists_mem_of_mem_terminated (hne : later ≠ []) {t : Token} (h : t ∈ terminated later) :
    ∃ t' ∈ later, t'.position = t.position := by
  simp only [terminated, List.getLast?_eq_some_getLast hne] at h
  split at h
  · exact ⟨t, h, rfl⟩
  · rcases List.mem_append.mp h with h | h
    · exact ⟨t, h, rfl⟩
    · exact ⟨later.getLast hne, List.getLast_mem hne, by rw [List.mem_singleton.mp h]⟩

end Builder

namespace Tree

/-- The tree has only grown, and of its scopes the root alone: all nodes are still there, all
other scopes are as they were, and statements and names were added to the root behind those
that it had. -/
structure GrowsAtRoot (t t' : Tree) : Prop where
  nodes : t.nodes.toList <+: t'.nodes.toList
  statements : t.rootStatements <+: t'.rootStatements
  names : (t.scopes.table .root).entries <+: (t'.scopes.table .root).entries
  scopes : ∀ id scope, id ≠ .root → t.scopes.get? id = some scope →
    t'.scopes.get? id = some scope
  modules : t.modules.entries <+: t'.modules.entries

theorem GrowsAtRoot.refl (t : Tree) : t.GrowsAtRoot t :=
  ⟨List.prefix_rfl, List.prefix_rfl, List.prefix_rfl, fun _ _ _ h => h, List.prefix_rfl⟩

/-- What is read while the root is open lets the tree grow at its root. -/
theorem growsAtRoot_of_stays {s s' : Builder} (h : s.Stays s') (hroot : s.scope = .root) :
    s.tree.GrowsAtRoot s'.tree where
  nodes := h.extends_.nodes
  statements := by
    simp only [rootStatements, statements]
    cases hget : s.scopes.get? .root with
    | none => simp [Builder.tree, hget]
    | some scope =>
      obtain ⟨scope', hget', hgrows⟩ := h.extends_.scopes _ _ hget
      simpa [Builder.tree, hget, hget'] using hgrows.statements
  names := by
    simp only [ScopeForest.table]
    cases hget : s.scopes.get? .root with
    | none => simp [Builder.tree, hget, SymbolTable.empty]
    | some scope =>
      obtain ⟨scope', hget', hgrows⟩ := h.extends_.scopes _ _ hget
      simpa [Builder.tree, hget, hget'] using hgrows.table
  scopes id scope hid hget := by
    have hlt : id.index < s.scopes.size := (s.scopes.get?_isSome_iff id).mp (by
      rw [show s.scopes.get? id = some scope from hget]
      rfl)
    exact (h.others id hlt (hroot ▸ hid)).trans hget
  modules := h.modules

/-- **Later text never changes how earlier text is read.**  Where nothing is wrong with some
tokens, whatever is added behind them lets their tree grow at its root, and faults are found at
the added tokens alone. -/
theorem growsAtRoot_of_append {tokens : List Token} (hne : tokens ≠ [])
    (hend : ∀ t ∈ tokens, t.kind ≠ .eof) (hclean : (ofTokens tokens).2 = []) (later : List Token) :
    (ofTokens tokens).1.GrowsAtRoot (ofTokens (tokens ++ later)).1 ∧
      ∀ d ∈ (ofTokens (tokens ++ later)).2, ∃ t ∈ later, t.position = d.position := by
  by_cases hlater : later = []
  · rw [hlater, List.append_nil, hclean]
    exact ⟨.refl _, by simp⟩
  obtain ⟨last, hstart, hlast⟩ := Builder.exists_terminated_eq hne hend
  obtain ⟨last', hlast', hkind'⟩ := Builder.exists_eof_of_terminated later
  obtain ⟨next, others, hnext⟩ := List.exists_cons_of_ne_nil (List.ne_nil_of_mem hlast')
  rw [hnext] at hlast'
  have hstart' : Builder.terminated (tokens ++ later) = tokens ++ next :: others := by
    rw [Builder.terminated_append_of_ne tokens hlater, hnext]
  have hsame : Builder.ofTokens (tokens ++ later)
      = (Builder.ofTokens tokens).facing #[] (tokens ++ next :: others) := by
    obtain ⟨first, ts, rfl⟩ := List.exists_cons_of_ne_nil hne
    exact Builder.ofTokens_facing hstart hstart'
  -- the added tokens are read from where the first ones end
  have hrun := Goal.run_ofTokens (tokens ++ later)
  rw [hsame, Goal.run_declarations_behind ((Builder.rest_ofTokens tokens).trans hstart) hend hlast
    (Goal.run_ofTokens tokens) (Array.toList_inj.mp hclean) #[] ⟨last', hlast', hkind'⟩] at hrun
  have hroot : (build tokens).scope = .root :=
    (Goal.reach_stays _ _ _ _ _ (Goal.run_ofTokens tokens)).scope
  have hgrows : (build tokens).tree.GrowsAtRoot (build (tokens ++ later)).tree :=
    growsAtRoot_of_stays (s := (build tokens).facing #[] (next :: others))
      (Goal.reach_stays _ _ _ _ _ hrun) hroot
  refine ⟨hgrows, fun d hd => ?_⟩
  rcases (Goal.reach_follows _ _ _ _ _ hrun).faults d hd with hold | ⟨t, ht, hposition⟩
  · have hnone : ((build tokens).facing #[] (next :: others)).diagnostics.toList = [] := by
      rw [Builder.diagnostics_facing, Array.empty_append]
      exact hclean
    rw [hnone] at hold
    cases hold
  · change t ∈ next :: others at ht
    rw [← hnext] at ht
    obtain ⟨t', ht', hposition'⟩ := Builder.exists_mem_of_mem_terminated hlater ht
    exact ⟨t', ht', hposition'.trans hposition⟩

/-- Behind `x: int;`, the tokens `x = y` add a second statement, and the faults are found at the
last of them. -/
theorem growsAtRoot_of_append_assignment :
    let declared : List Token := [⟨.identifier, .identifier "x", ⟨1, 1⟩⟩, ⟨.colon, .none, ⟨1, 2⟩⟩,
      ⟨.kwInt, .none, ⟨1, 4⟩⟩, ⟨.semicolon, .none, ⟨1, 7⟩⟩]
    let assigned : List Token := [⟨.identifier, .identifier "x", ⟨2, 1⟩⟩,
      ⟨.assignment, .none, ⟨2, 3⟩⟩, ⟨.identifier, .identifier "y", ⟨2, 5⟩⟩]
    (ofTokens declared).1.GrowsAtRoot (ofTokens (declared ++ assigned)).1 ∧
      (∀ d ∈ (ofTokens (declared ++ assigned)).2, ∃ t ∈ assigned, t.position = d.position) ∧
      (ofTokens declared).1.rootStatements.length = 1 ∧
      (ofTokens (declared ++ assigned)).1.rootStatements.length = 2 ∧
      (ofTokens (declared ++ assigned)).2 = [⟨.undeclaredIdentifier "y", ⟨2, 5⟩⟩,
        ⟨.unexpectedToken .semicolon .eof, ⟨2, 5⟩⟩] := by
  intro declared assigned
  obtain ⟨hgrows, hfaults⟩ := @growsAtRoot_of_append declared (by simp [declared])
    (by decide) (by decide +kernel) assigned
  exact ⟨hgrows, hfaults, by decide +kernel, by decide +kernel, by decide +kernel⟩

end Tree

end Braced
