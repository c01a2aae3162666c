import Braced.Proofs.Parse.Below
import Braced.Proofs.Parse.Program
import Braced.Proofs.Scope.Resolve

/-!
# Braced.Proofs.Parse.Progress

Reading goes on until it is done.

A part refers to another one at a place (`Goal.Refers`) if it has no result when the
other has none there.  Every reference is made behind a token, or in the same place to a
part that comes later in the order of the parts (`Goal.Refers.later`).  Since the end of
the tokens is never passed, references come to an end: what is read is what reading it
step by step makes of it, with no bound on the steps (`Goal.run_eq_step`).
-/

namespace Braced

open Parse
open Builder (Leads)

/-! ## Builders in the same place -/

namespace Builder

variable {s s' : Builder}

theorem Leads.extends_ (h : Leads s s') : s.Extends s' :=
  h.respects

/-- What operations lead to is kept by each operation. -/
instance (s : Builder) : Robust (Leads s) where
  advance h := h.tail (.advance _)
  report h _ _ := h.tail (.report ..)
  skipToStatementEnd h := h.tail (.skipToStatementEnd _)
  declare h _ _ _ hkind := h.tail (.declare _ _ _ _ hkind)
  resolveIdentifier h _ _ := h.tail (.resolveIdentifier ..)
  alloc h _ _ := h.tail (.alloc ..)
  addStatement h _ := h.tail (.addStatement ..)
  enterScope h _ := h.tail (.enterScope ..)
  exitScope h := h.tail (.exitScope _)
  setLoopDepth h _ := h.tail (.setLoopDepth ..)
  setExpressionDepth h _ := h.tail (.setExpressionDepth ..)
  addModule h _ := h.tail (.addModule ..)

/-- Where no token has been passed, all are left. -/
theorem Extends.rest_eq (h : s.Extends s') (hremaining : s'.remaining = s.remaining) :
    s'.rest = s.rest := by
  obtain ⟨passed, hrest, hpassed⟩ := h.tokens
  have hupcoming : s.upcoming = passed ++ s'.upcoming := by
    rw [upcoming, hrest, List.takeWhile_append_of_pos (by simpa using hpassed), upcoming]
  have hlength := congrArg List.length hupcoming
  rw [List.length_append] at hlength
  rw [remaining, remaining] at hremaining
  have hnil : passed = [] := List.length_eq_zero_iff.mp (by omega)
  rw [hrest, hnil, List.nil_append]

/-- The list of tokens to come does not get longer. -/
theorem Extends.length_ahead_le (h : s.Extends s') : s'.ahead.length ≤ s.ahead.length := by
  obtain ⟨passed, hrest, -⟩ := h.tokens
  have hlength := congrArg List.length hrest
  simp only [rest, List.length_append, List.length_cons] at hlength
  omega

end Builder

namespace Goal

/-! ## Reading without a bound -/

/-- Where a part may be read: in front of an end, and of a token if it begins with one. -/
structure Fits (goal : Goal α) (s : Builder) : Prop where
  terminated : s.Terminated
  hasTokens : goal.needsToken → s.hasTokens

variable {goal : Goal α} {s : Builder}

theorem run_gives (h : goal.Fits s) :
    Gives (goal.run .standard) s fun _ s' =>
      s.Extends s' ∧ (goal.passes → s.hasTokens → s.Passes s') := by
  obtain ⟨a, s', hread, hlater⟩ :=
    affords_reach _ goal s h.terminated h.hasTokens (goal.cost_le_enoughFuel s)
  exact ⟨a, s', hread, hlater⟩

/-- Behind `s`, what is read is read in as many steps as `s` is given. -/
theorem run_below (s : Builder) (goal : Goal α) :
    Below (Leads s) (goal.run .standard)
      (Goal.reach .standard (enoughFuel s.ahead.length) goal) := by
  intro t ht a t' hrun
  refine ⟨reach_mono ?_ hrun, ht.trans (Goal.reach_keeps (R := Leads) _ goal t a t' hrun)⟩
  have hle := ht.extends_.length_ahead_le
  exact Nat.mul_le_mul_left _ (Nat.add_le_add_right hle 2)

/-- **What is read is what one step of it makes of reading**, with no bound on the steps
that follow. -/
theorem run_eq_step (h : goal.Fits s) :
    goal.run .standard s = goal.step .standard (fun goal => goal.run .standard) s := by
  have hafford : Affords (goal.cost s) (fun goal => goal.run .standard) :=
    fun goal t ht htokens _ => run_gives ⟨ht, htokens⟩
  obtain ⟨a, s', hstep, -⟩ := step_gives hafford h.terminated goal h.hasTokens (Nat.le_succ _)
  obtain ⟨b, t, hrun, -⟩ := run_gives h
  have hmore := reach_mono (Nat.le_succ _) hrun
  have hreach := (step_below (run_below s) goal s .refl a s' hstep).1
  rw [hstep, hrun]
  exact hmore.symm.trans hreach

/-! ## References -/

/-- The answers of reading, but perhaps not all of them. -/
def Answers (reach : Reach) : Prop :=
  ∀ {α : Type} (goal : Goal α) (s : Builder),
    reach goal s = none ∨ reach goal s = goal.run .standard s

/-- Reading `goal` from `s` makes use of the answer to `goal'` at `s'`: it has no result
when there is no such answer, whatever other answers there are. -/
def Refers (goal : Goal α) (s : Builder) (goal' : Goal β) (s' : Builder) : Prop :=
  ∀ reach : Reach, Answers reach → reach goal' s' = none → goal.step .standard reach s = none

open Classical in
/-- The answers of reading for those parts and places that `p` holds of. -/
noncomputable def only (p : ∀ {α : Type}, Goal α → Builder → Prop) : Reach :=
  fun goal s => if p goal s then goal.run .standard s else none

section

variable {p : ∀ {α : Type}, Goal α → Builder → Prop}

theorem only_eq_run (h : p goal s) : only p goal s = goal.run .standard s := if_pos h

theorem only_eq_none (h : ¬ p goal s) : only p goal s = none := if_neg h

theorem answers_only (p : ∀ {α : Type}, Goal α → Builder → Prop) : Answers (only p) := by
  intro β goal s
  by_cases h : p goal s
  · exact .inr (only_eq_run h)
  · exact .inl (only_eq_none h)

end

/-- A part that may be read at `t`, and costs less there than `goal` does at `s`. -/
def Cheaper (goal : Goal α) (s : Builder) (goal' : Goal β) (t : Builder) : Prop :=
  goal'.Fits t ∧ goal'.cost t < goal.cost s

/-- A cheaper part, at a place that operations lead to from `s`. -/
def Next (goal : Goal α) (s : Builder) (goal' : Goal β) (t : Builder) : Prop :=
  Leads s t ∧ goal.Cheaper s goal' t

/-- Cheaper answers behind `s` are enough. -/
theorem step_only (h : goal.Fits s) :
    ∃ r, goal.step .standard (only (goal.Next s)) s = some r := by
  have hcheap : Affords (goal.cost s - 1) (only (goal.Cheaper s)) := by
    intro β goal' t ht htokens hcost
    have hcheaper : goal.Cheaper s goal' t := by
      refine ⟨⟨ht, htokens⟩, ?_⟩
      rw [cost] at hcost ⊢
      omega
    obtain ⟨a, t', hrun, hlater⟩ := run_gives hcheaper.1
    exact ⟨a, t', (only_eq_run hcheaper).trans hrun, hlater⟩
  have hbelow : ∀ {β : Type} (goal' : Goal β), Below (Leads s) (only (goal.Cheaper s) goal')
      (only (goal.Next s) goal') := by
    intro β goal' t ht a t' hread
    by_cases hcheaper : goal.Cheaper s goal' t
    · rw [only_eq_run hcheaper] at hread
      have hnext : goal.Next s goal' t := ⟨ht, hcheaper⟩
      exact ⟨(only_eq_run hnext).trans hread, ht.trans (reach_keeps (R := Leads) _ goal' t a t' hread)⟩
    · rw [only_eq_none hcheaper] at hread
      cases hread
  have hcost : goal.cost s ≤ goal.cost s - 1 + 1 := by omega
  obtain ⟨a, s', hstep, -⟩ := step_gives hcheap h.terminated goal h.hasTokens hcost
  exact ⟨_, (step_below hbelow goal s .refl a s' hstep).1⟩

/-- **A reference leads to a part that costs less**, behind the place where it is made. -/
theorem Refers.next {goal' : Goal β} {s' : Builder} (hrefers : goal.Refers s goal' s')
    (h : goal.Fits s) : goal.Next s goal' s' := by
  refine Classical.byContradiction fun hnot => ?_
  obtain ⟨r, hstep⟩ := step_only h
  have hblocked : only (goal.Next s) goal' s' = none := only_eq_none hnot
  rw [hrefers _ (answers_only _) hblocked] at hstep
  cases hstep

/-- **A reference is made behind a token, or to a later part in the same place.** -/
theorem Refers.later {goal' : Goal β} {s' : Builder} (hrefers : goal.Refers s goal' s')
    (h : goal.Fits s) : s.Passes s' ∨ s'.rest = s.rest ∧ goal'.rank < goal.rank := by
  obtain ⟨hleads, -, hcost⟩ := hrefers.next h
  rw [cost, cost] at hcost
  obtain hlt | heq := Nat.lt_or_eq_of_le hleads.extends_.remaining_le
  · exact .inl ⟨hleads.extends_, hlt⟩
  · exact .inr ⟨hleads.extends_.rest_eq heq, by omega⟩

/-- A loop goes on behind a token: where a part is read again that comes no later in the
order, one has been passed. -/
theorem Refers.passes {goal' : Goal β} {s' : Builder} (hrefers : goal.Refers s goal' s')
    (h : goal.Fits s) (hrank : goal.rank ≤ goal'.rank) : s.Passes s' :=
  (hrefers.later h).resolve_right fun hsame => Nat.not_lt_of_le hrank hsame.2

/-! ## The references of a loop -/

/-- In front of a token the loop over declarations reads one. -/
theorem refers_declaration (htokens : s.hasTokens) :
    declarations.Refers s (.production .declaration) s := by
  intro reach _ hnone
  simp [step, Tree.Statement.declarations, Bind.bind, StateT.bind, look, htokens, hnone]

/-- Behind a declaration the loop goes on, with the declaration added. -/
theorem refers_declarations (htokens : s.hasTokens) {found : Option NodeId} {s' : Builder}
    (hfound : (production .declaration).run .standard s = some (found, s')) :
    declarations.Refers s .declarations (found.elim s' s'.addStatement) := by
  intro reach hanswers hnone
  obtain hread | hread := hanswers (.production .declaration) s
  · simp [step, Tree.Statement.declarations, Bind.bind, StateT.bind, look, htokens, hread]
  · rw [hfound] at hread
    have hadd : Tree.Statement.addFound found s' = some ((), found.elim s' s'.addStatement) := by
      cases found <;> rfl
    simp [step, Tree.Statement.declarations, Bind.bind, StateT.bind, look, htokens, hread, hadd,
      hnone]

/-! ## Reading a list of tokens -/

/-- The parts that are read of a list of tokens, and where: all declarations from its
start, and what a part refers to that is read. -/
inductive ReadIn (tokens : List Token) : ∀ {α : Type}, Goal α → Builder → Prop
  | start : ReadIn tokens declarations (Builder.ofTokens tokens)
  | refer {α β : Type} {goal : Goal α} {s : Builder} {goal' : Goal β} {s' : Builder} :
    ReadIn tokens goal s → goal.Refers s goal' s' → ReadIn tokens goal' s'

/-- No part is read past the end of the tokens. -/
theorem ReadIn.fits {tokens : List Token} (h : ReadIn tokens goal s) :
    (Builder.ofTokens tokens).Extends s ∧ goal.Fits s := by
  induction h with
  | start =>
    exact ⟨.refl _, Builder.terminated_ofTokens tokens, by simp [needsToken]⟩
  | refer _ hrefers ih =>
    obtain ⟨hleads, hcheaper⟩ := hrefers.next ih.2
    exact ⟨ih.1.trans hleads.extends_, hcheaper.1⟩

/-- Operations lead to every place where a part is read. -/
theorem ReadIn.leads {tokens : List Token} (h : ReadIn tokens goal s) :
    Leads (Builder.ofTokens tokens) s := by
  induction h with
  | start => exact .refl
  | refer hread hrefers ih => exact ih.trans (hrefers.next hread.fits.2).1

/-- Where a token is left, the loop over declarations reads one, which passes at least one
token, and goes on behind it. -/
theorem ReadIn.declarations_go_on {tokens : List Token} (h : ReadIn tokens declarations s)
    (htokens : s.hasTokens) :
    ReadIn tokens (.production .declaration) s ∧
      Gives ((production .declaration).run .standard) s fun found s' =>
        s.Passes s' ∧ ReadIn tokens declarations (found.elim s' s'.addStatement) := by
  have hread : ReadIn tokens (.production .declaration) s := h.refer (refers_declaration htokens)
  obtain ⟨found, s', hrun, -, hpasses⟩ := run_gives hread.fits.2
  exact ⟨hread, found, s', hrun, hpasses rfl htokens, h.refer (refers_declarations htokens hrun)⟩

/-- A list of tokens is read to an end. -/
theorem run_ofTokens (tokens : List Token) :
    declarations.run .standard (Builder.ofTokens tokens) = some ((), Tree.build tokens) := by
  obtain ⟨_, s, hrun, -⟩ := run_gives (ReadIn.start : ReadIn tokens _ _).fits.2
  rw [Tree.build, hrun]

/-- **Reading ends, and goes on until then.**  All of a list of tokens is read.  Whatever
is read of it is read to an end: it is what one step of it makes of reading, the end of the
tokens is not passed, a declaration and a statement pass at least one token where there is
one, and every part that is referred to is read behind a token or comes later in the order
of the parts. -/
theorem readIn_progress (tokens : List Token) :
    (Gives (declarations.run .standard) (Builder.ofTokens tokens) fun _ s =>
      s = Tree.build tokens ∧ s.hasTokens = false) ∧
    (∀ {α : Type} (goal : Goal α) (s : Builder), ReadIn tokens goal s →
      (Builder.ofTokens tokens).Extends s ∧
      goal.run .standard s = goal.step .standard (fun goal => goal.run .standard) s ∧
      Gives (goal.run .standard) s (fun _ s' => s.Extends s') ∧
      ∀ {β : Type} (goal' : Goal β) (s' : Builder), goal.Refers s goal' s' →
        s.Passes s' ∨ s'.rest = s.rest ∧ goal'.rank < goal.rank) ∧
    ∀ p s, p = Production.declaration ∨ p = .statement → ReadIn tokens (.production p) s →
      s.hasTokens → Gives ((production p).run .standard) s fun _ s' => s.Passes s' := by
  refine ⟨?_, fun goal s hread => ?_, fun p s hp hread htokens => ?_⟩
  · have hrun := run_ofTokens tokens
    exact ⟨(), _, hrun, rfl, reach_declarations_end _ _ _ _ _ hrun⟩
  · obtain ⟨hextends, hfits⟩ := hread.fits
    exact ⟨hextends, run_eq_step hfits, (run_gives hfits).imp fun _ _ h => h.1,
      fun _ _ hrefers => hrefers.later hfits⟩
  · refine (run_gives hread.fits.2).imp fun _ _ h => h.2 ?_ htokens
    obtain rfl | rfl := hp <;> rfl

/-- A lone `}` is read as a declaration, which passes it. -/
theorem readIn_progress_stray :
    ReadIn [⟨.closeCurly, .none, ⟨1, 1⟩⟩, ⟨.eof, .none, ⟨1, 2⟩⟩] (.production .declaration)
        (Builder.ofTokens [⟨.closeCurly, .none, ⟨1, 1⟩⟩, ⟨.eof, .none, ⟨1, 2⟩⟩]) ∧
      Gives ((production .declaration).run .standard)
        (Builder.ofTokens [⟨.closeCurly, .none, ⟨1, 1⟩⟩, ⟨.eof, .none, ⟨1, 2⟩⟩]) fun _ s' =>
          (Builder.ofTokens [⟨.closeCurly, .none, ⟨1, 1⟩⟩, ⟨.eof, .none, ⟨1, 2⟩⟩]).Passes s' :=
  have hread := (ReadIn.start.declarations_go_on rfl).1
  ⟨hread, (readIn_progress _).2.2 _ _ (.inl rfl) hread rfl⟩

end Goal

end Braced
