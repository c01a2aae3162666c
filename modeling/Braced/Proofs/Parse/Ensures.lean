import Braced.Tree.OfTokens

/-!
# Braced.Proofs.Parse.Ensures

What the actions of a builder ensure.

`m.Ensures s Q` says that every result of `m` from `s` satisfies `Q`; `m.Gives s Q`
says in addition that there is a result.  Both are computed from the outside in:
what comes after an action is the condition on the action, and only a reference
to another part of the grammar has to be known beforehand.

Whatever every part ensures, given that the parts it refers to do, is ensured
with any number of steps (`Goal.reach_ensures`).
-/

namespace Braced

namespace Parse

/-- Whatever `m` gives from `s` satisfies `Q`. -/
def Ensures (m : Parse α) (s : Builder) (Q : α → Builder → Prop) : Prop :=
  ∀ a s', m s = some (a, s') → Q a s'

/-- From `s`, `m` gives something, and that satisfies `Q`. -/
def Gives (m : Parse α) (s : Builder) (Q : α → Builder → Prop) : Prop :=
  ∃ a s', m s = some (a, s') ∧ Q a s'

variable {s : Builder} {m : Parse α} {Q R : α → Builder → Prop}

/-! ## Weaker conditions -/

theorem Ensures.imp (h : m.Ensures s Q) (hQR : ∀ a s', Q a s' → R a s') : m.Ensures s R :=
  fun a s' ha => hQR a s' (h a s' ha)

theorem Gives.imp (h : m.Gives s Q) (hQR : ∀ a s', Q a s' → R a s') : m.Gives s R := by
  obtain ⟨a, s', ha, hQ⟩ := h
  exact ⟨a, s', ha, hQR a s' hQ⟩

/-- What is ensured twice over is ensured together. -/
theorem Ensures.and (h : m.Ensures s Q) (h' : m.Ensures s R) :
    m.Ensures s fun a s' => Q a s' ∧ R a s' :=
  fun a s' ha => ⟨h a s' ha, h' a s' ha⟩

/-! ## One action after another -/

@[simp] theorem ensures_pure (a : α) : (pure a : Parse α).Ensures s Q ↔ Q a s := by
  constructor
  · exact fun h => h a s rfl
  · rintro h b s' hb
    cases hb
    exact h

@[simp] theorem ensures_bind (f : α → Parse β) (Q : β → Builder → Prop) :
    (m >>= f).Ensures s Q ↔ m.Ensures s fun a s' => (f a).Ensures s' Q := by
  constructor
  · intro h a s' ha b s'' hb
    exact h b s'' (by simp only [bind, StateT.bind, ha, Option.bind_some, hb])
  · intro h b s'' hb
    simp only [bind, StateT.bind, Option.bind_eq_some_iff] at hb
    obtain ⟨⟨a, s'⟩, ha, hb⟩ := hb
    exact h a s' ha b s'' hb

@[simp] theorem gives_pure (a : α) : (pure a : Parse α).Gives s Q ↔ Q a s := by
  constructor
  · rintro ⟨b, s', hb, h⟩
    cases hb
    exact h
  · exact fun h => ⟨a, s, rfl, h⟩

@[simp] theorem gives_bind (f : α → Parse β) (Q : β → Builder → Prop) :
    (m >>= f).Gives s Q ↔ m.Gives s fun a s' => (f a).Gives s' Q := by
  constructor
  · rintro ⟨b, s'', hb, h⟩
    simp only [bind, StateT.bind, Option.bind_eq_some_iff] at hb
    obtain ⟨⟨a, s'⟩, ha, hb⟩ := hb
    exact ⟨a, s', ha, b, s'', hb, h⟩
  · rintro ⟨a, s', ha, b, s'', hb, h⟩
    exact ⟨b, s'', by simp only [bind, StateT.bind, ha, Option.bind_some, hb], h⟩

@[simp] theorem gives_map (f : α → β) (Q : β → Builder → Prop) :
    (f <$> m).Gives s Q ↔ m.Gives s fun a s' => Q (f a) s' := by
  rw [map_eq_pure_bind, gives_bind]
  simp only [gives_pure]

/-! ## Single actions -/

@[simp] theorem ensures_act (f : Builder → α × Builder) :
    (act f).Ensures s Q ↔ Q (f s).1 (f s).2 := by
  constructor
  · exact fun h => h _ _ rfl
  · rintro h b s' hb
    have hf : f s = (b, s') := Option.some.inj hb
    rwa [hf] at h

@[simp] theorem ensures_change (f : Builder → Builder) (Q : Unit → Builder → Prop) :
    (change f).Ensures s Q ↔ Q () (f s) := by
  constructor
  · exact fun h => h _ _ rfl
  · rintro h b s' hb
    cases hb
    exact h

@[simp] theorem ensures_look (f : Builder → α) : (look f).Ensures s Q ↔ Q (f s) s := by
  constructor
  · exact fun h => h _ _ rfl
  · rintro h b s' hb
    cases hb
    exact h

@[simp] theorem gives_act (f : Builder → α × Builder) :
    (act f).Gives s Q ↔ Q (f s).1 (f s).2 := by
  constructor
  · rintro ⟨b, s', hb, h⟩
    have hf : f s = (b, s') := Option.some.inj hb
    rwa [hf]
  · exact fun h => ⟨_, _, rfl, h⟩

@[simp] theorem gives_change (f : Builder → Builder) (Q : Unit → Builder → Prop) :
    (change f).Gives s Q ↔ Q () (f s) := by
  constructor
  · rintro ⟨b, s', hb, h⟩
    cases hb
    exact h
  · exact fun h => ⟨_, _, rfl, h⟩

@[simp] theorem gives_look (f : Builder → α) : (look f).Gives s Q ↔ Q (f s) s := by
  constructor
  · rintro ⟨b, s', hb, h⟩
    cases hb
    exact h
  · exact fun h => ⟨_, _, rfl, h⟩

end Parse

/-! ## Parts of the grammar -/

/-- **Induction over readings**: what reading a part in terms of others ensures,
whenever the others ensure it, is ensured however many references are followed. -/
theorem Goal.reach_ensures {book : RuleBook}
    {P : ∀ {α : Type}, Goal α → Builder → α → Builder → Prop}
    (h : ∀ fuel, (∀ {α : Type} (goal : Goal α) (s : Builder),
        (Goal.reach book fuel goal).Ensures s (P goal s)) →
      ∀ {α : Type} (goal : Goal α) (s : Builder),
        (Goal.step book (Goal.reach book fuel) goal).Ensures s (P goal s)) :
    ∀ (fuel : Nat) {α : Type} (goal : Goal α) (s : Builder),
      (Goal.reach book fuel goal).Ensures s (P goal s) := by
  intro fuel
  induction fuel with
  | zero =>
    intro α goal s a s' ha
    cases ha
  | succ fuel ih => exact h fuel ih

/-- What one step of reading ensures is ensured by reading. -/
theorem Goal.ensures_of_step {book : RuleBook} (goal : Goal α) {s : Builder}
    {Q : α → Builder → Prop} (h : ∀ fuel, (goal.step book (Goal.reach book fuel)).Ensures s Q)
    (fuel : Nat) : (Goal.reach book fuel goal).Ensures s Q := by
  cases fuel with
  | zero =>
    intro a s' ha
    cases ha
  | succ fuel => exact h fuel

/-- **Induction over declarations**: what each declaration keeps, with what is found added
to the scope that is open, all of them keep. -/
theorem Goal.reach_declarations_of {book : RuleBook} {I : Builder → Prop}
    (h : ∀ fuel s, I s → s.hasTokens →
      (Goal.reach book fuel (.production .declaration)).Ensures s fun found s' =>
        I (found.elim s' s'.addStatement))
    (fuel : Nat) {s : Builder} (hs : I s) :
    (Goal.reach book fuel .declarations).Ensures s fun _ s' => I s' := by
  induction fuel generalizing s with
  | zero =>
    intro _ _ hread
    cases hread
  | succ fuel ih =>
    show (Tree.Statement.declarations (Goal.reach book fuel)).Ensures s _
    rw [Tree.Statement.declarations, Parse.ensures_bind, Parse.ensures_look]
    split
    · next htokens =>
      rw [Parse.ensures_bind]
      refine (h fuel s hs htokens).imp fun found s' hs' => ?_
      rw [Parse.ensures_bind]
      cases found with
      | none => exact (Parse.ensures_pure _).mpr (ih hs')
      | some id => exact (Parse.ensures_change _ _).mpr (ih hs')
    · exact (Parse.ensures_pure _).mpr hs

end Braced
