import Braced.Proofs.Grammar.Rules

/-!
# Braced.Proofs.Grammar.Takes

What it means that reading takes a list of kinds of tokens.

`s.Ready ks` says that nothing is wrong so far and that the kinds `ks` are to
come.  `s.Takes s' ks ks' P` says that if `s` is ready for `ks` then `s'` is ready
for `ks'`, and `P` holds, unless an expression was refused because it nests too
deep.  The relation composes, and each operation of a builder gives an instance
of it.
-/

namespace Braced.Builder

/-- The kinds of the tokens that are still to come. -/
def kinds (s : Builder) : List TokenKind :=
  s.upcoming.map Token.kind

/-- No expression has been refused because it nests too deep. -/
def Shallow (s : Builder) : Prop :=
  ∀ d ∈ s.diagnostics.toList, ∀ limit, d.fault ≠ .expressionTooDeep limit

/-- Nothing is wrong with the grammar so far, and these kinds are to come. -/
structure Ready (s : Builder) (ks : List TokenKind) : Prop where
  proper : s.Proper
  clean : ¬s.Faulty
  kinds_eq : s.kinds = ks

theorem Extends.shallow {s s' : Builder} (h : s.Extends s') (hs' : s'.Shallow) : s.Shallow :=
  fun d hd => hs' d (h.diagnostics.subset hd)

/-- Reading from `s` to `s'` has taken the kinds at the front of `ks`, up to
`ks'`. -/
structure Takes (s s' : Builder) (ks ks' : List TokenKind) (P : Prop) : Prop where
  extends_ : s.Extends s'
  ready : s'.Shallow → s.Ready ks → s'.Ready ks' ∧ P

namespace Takes

variable {s s' s'' : Builder} {ks ks' ks'' : List TokenKind} {P Q : Prop}

theorem refl (s : Builder) (ks : List TokenKind) : s.Takes s ks ks True where
  extends_ := .refl s
  ready _ hs := ⟨hs, trivial⟩

/-- **What is taken one after the other is taken together.** -/
theorem trans (h : s.Takes s' ks ks' P) (h' : s'.Takes s'' ks' ks'' Q) :
    s.Takes s'' ks ks'' Q where
  extends_ := h.extends_.trans h'.extends_
  ready hshallow hs := by
    obtain ⟨hs', -⟩ := h.ready (h'.extends_.shallow hshallow) hs
    exact h'.ready hshallow hs'

theorem imp (h : s.Takes s' ks ks' P) (hPQ : P → Q) : s.Takes s' ks ks' Q :=
  ⟨h.extends_, fun hshallow hs => (h.ready hshallow hs).imp_right hPQ⟩

/-- What comes later may leave everything as it is. -/
theorem then_quiet (h : s.Takes s' ks ks' P) (h' : s'.Takes s'' ks' ks'' True) :
    s.Takes s'' ks ks'' P where
  extends_ := h.extends_.trans h'.extends_
  ready hshallow hs := by
    obtain ⟨hs', hP⟩ := h.ready (h'.extends_.shallow hshallow) hs
    exact ⟨(h'.ready hshallow hs').1, hP⟩

/-- Where something would be missing that is not, nothing has to be shown. -/
theorem of_not (h : s.Takes s' ks ks' P) (hP : ¬P) (ls : List TokenKind) (Q : Prop) :
    s.Takes s' ks ls Q :=
  ⟨h.extends_, fun hshallow hs => False.elim (hP (h.ready hshallow hs).2)⟩

theorem of_not_ready (h : s.Extends s') (hs : ¬s.Ready ks) : s.Takes s' ks ks' P :=
  ⟨h, fun _ hready => False.elim (hs hready)⟩

/-- An operation that leaves tokens alone and finds no fault takes nothing. -/
theorem of_quiet (h : s.Extends s') (hrest : s'.rest = s.rest) (hfaulty : s'.Faulty → s.Faulty) :
    s.Takes s' ks ks True where
  extends_ := h
  ready _ hs := by
    have hkinds : s'.kinds = s.kinds := by rw [kinds, upcoming_eq_of_rest hrest, kinds]
    exact ⟨⟨h.proper hs.proper, fun hs' => hs.clean (hfaulty hs'), hkinds.trans hs.kinds_eq⟩,
      trivial⟩

end Takes

/-! ## Operations that take nothing -/

section Quiet

variable (s : Builder) (ks : List TokenKind)

theorem takes_alloc (position : Position) (kind : NodeKind) :
    s.Takes (s.alloc position kind).2 ks ks True :=
  .of_quiet (s.extends_alloc position kind) rfl fun h => h

theorem takes_enterScope (position : Position) :
    s.Takes (s.enterScope position).2 ks ks True :=
  .of_quiet (s.extends_enterScope position) rfl fun h => h

theorem takes_exitScope : s.Takes s.exitScope ks ks True :=
  .of_quiet s.extends_exitScope rfl fun h => h

theorem takes_addStatement (id : NodeId) : s.Takes (s.addStatement id) ks ks True :=
  .of_quiet (s.extends_addStatement id) rfl fun h => h

theorem takes_setLoopDepth (depth : Nat) : s.Takes (s.setLoopDepth depth) ks ks True :=
  .of_quiet (.of_eq rfl rfl rfl rfl) rfl fun h => h

theorem takes_atDepth (depth : Nat) : s.Takes (s.atDepth depth) ks ks True :=
  .of_quiet (.of_eq rfl rfl rfl rfl) rfl fun h => h

theorem takes_exitExpression (levels : Nat) : s.Takes (s.exitExpression levels) ks ks True :=
  s.takes_atDepth ks _

/-- What is wrong with names or with places of statements is no fault of the
grammar. -/
theorem faulty_of_report {s : Builder} {fault : Fault} (hfault : fault.faultClass ≠ .syntactic)
    {position : Position} (h : (s.report fault position).Faulty) : s.Faulty := by
  obtain ⟨d, hd, hclass⟩ := h
  rw [report, Array.toList_push] at hd
  rcases List.mem_append.mp hd with hd | hd
  · exact ⟨d, hd, hclass⟩
  · rw [List.mem_singleton.mp hd] at hclass
    exact absurd hclass hfault

theorem takes_report {fault : Fault} (hfault : fault.faultClass ≠ .syntactic)
    (position : Position) : s.Takes (s.report fault position) ks ks True :=
  .of_quiet (s.extends_report fault position) rfl (faulty_of_report hfault)

theorem takes_declare (name : String) (kind : EntryKind) (position : Position) :
    s.Takes (s.declare name kind position) ks ks True := by
  refine .of_quiet (s.extends_declare name kind position) (s.rest_declare name kind position) ?_
  unfold declare
  split
  · exact fun h => h
  · next fault hinsert =>
    rw [fault_of_insert hinsert]
    exact faulty_of_report (by simp [Fault.faultClass])

theorem takes_resolveIdentifier (name : String) (position : Position) :
    s.Takes (s.resolveIdentifier name position) ks ks True := by
  unfold resolveIdentifier
  split
  · exact .refl s ks
  · split
    · exact s.takes_report ks (by simp [Fault.faultClass]) position
    · exact s.takes_declare ks ..

theorem takes_resolveFunction (name : String) (position : Position) :
    s.Takes (s.resolveFunction name position) ks ks True := by
  unfold resolveFunction
  split
  · exact s.takes_report ks (by simp [Fault.faultClass]) position
  · split
    · exact .refl s ks
    · exact s.takes_report ks (by simp [Fault.faultClass]) position

theorem takes_addModule (name : String) : s.Takes (s.addModule name) ks ks True := by
  unfold addModule
  split
  · exact .of_quiet (.of_eq rfl rfl rfl rfl) rfl fun h => h
  · exact .refl s ks

end Quiet

/-! ## Operations that take a token -/

namespace Ready

variable {s : Builder} {k : TokenKind} {ks : List TokenKind}

/-- The first kind is that of the next token, which is there. -/
theorem current_kind (h : s.Ready (k :: ks)) : s.current.kind = k ∧ k ≠ .eof := by
  have hkinds := h.kinds_eq
  by_cases hend : s.current.kind = .eof
  · rw [kinds, (upcoming_eq_nil_iff s).mpr hend] at hkinds
    cases hkinds
  · rw [kinds, upcoming_advance h.proper.terminated hend, List.map_cons] at hkinds
    have hk := (List.cons.inj hkinds).1
    exact ⟨hk, hk ▸ hend⟩

/-- Behind the first token the other kinds are to come. -/
theorem advance (h : s.Ready (k :: ks)) : s.advance.2.Ready ks := by
  have hend : s.current.kind ≠ .eof := by
    rw [h.current_kind.1]
    exact h.current_kind.2
  have hkinds := h.kinds_eq
  rw [kinds, upcoming_advance h.proper.terminated hend, List.map_cons] at hkinds
  refine ⟨s.extends_advance.proper h.proper, fun hfaulty => h.clean ?_, (List.cons.inj hkinds).2⟩
  obtain ⟨d, hd, hclass⟩ := hfaulty
  rw [diagnostics_advance] at hd
  exact ⟨d, hd, hclass⟩

/-- Where no kind is to come, the end is next. -/
theorem current_kind_nil (h : s.Ready []) : s.current.kind = .eof :=
  (upcoming_eq_nil_iff s).mp (List.map_eq_nil_iff.mp h.kinds_eq)

/-- The next token is of the first kind that is to come. -/
theorem current_kind_eq (h : s.Ready ks) : s.current.kind = ks.headD .eof := by
  cases ks with
  | nil => exact h.current_kind_nil
  | cons k ks => exact h.current_kind.1

theorem accept_eq (h : s.Ready (k :: ks)) : s.accept k = (true, s.advance.2) := by
  rw [accept, if_pos h.current_kind.1]

theorem accept_ne (h : s.Ready ks) (hk : ks.headD .eof ≠ k) : s.accept k = (false, s) := by
  rw [accept, if_neg (by rw [h.current_kind_eq]; exact hk)]

/-- What is ahead is all that is left behind the next token. -/
theorem ahead_eq (h : s.Ready (k :: ks)) : s.ahead = s.advance.2.rest := by
  have hend : s.current.kind ≠ .eof := by
    rw [h.current_kind.1]
    exact h.current_kind.2
  exact (List.cons.inj (rest_advance h.proper.terminated hend)).2

/-- The second kind is that of the token after the next one. -/
theorem peekKind_one (h : s.Ready (k :: ks)) : s.peekKind 1 = ks.headD .eof := by
  have hsecond : s.peekKind 1 = s.advance.2.current.kind := by
    rw [peekKind, h.ahead_eq, rest]
    rfl
  rw [hsecond]
  cases ks with
  | nil => exact h.advance.current_kind_nil
  | cons l ls => exact h.advance.current_kind.1

/-- The third kind is that of the second token after the next one. -/
theorem peekKind_two {l : TokenKind} (h : s.Ready (k :: l :: ks)) :
    s.peekKind 2 = ks.headD .eof := by
  have hthird : s.peekKind 2 = s.advance.2.peekKind 1 := by
    rw [peekKind, h.ahead_eq, rest, peekKind, List.getElem?_cons_succ]
  rw [hthird, h.advance.peekKind_one]

end Ready

section Passing

variable (s : Builder) (kind : TokenKind) (ks : List TokenKind)

theorem takes_advance : s.Takes s.advance.2 (kind :: ks) ks True :=
  ⟨s.extends_advance, fun _ hs => ⟨hs.advance, trivial⟩⟩

/-- A token that is expected and comes is taken. -/
theorem takes_expect :
    s.Takes (s.expect kind).2 (kind :: ks) ks ((s.expect kind).1 = some s.current) := by
  refine ⟨Still.expect s kind, fun _ hs => ?_⟩
  rw [expect_of_eq hs.current_kind.1]
  exact ⟨hs.advance, rfl⟩

theorem takes_expectClosing : s.Takes (s.expectClosing kind).2 (kind :: ks) ks True := by
  refine ⟨Still.expectClosing s kind, fun _ hs => ?_⟩
  have hnot : ¬(s.current.kind ≠ kind ∧ endsStatement s.current.kind) :=
    fun h => h.1 hs.current_kind.1
  rw [expectClosing, if_neg hnot, expect_of_eq hs.current_kind.1]
  exact ⟨hs.advance, trivial⟩

/-- Once an expression nests too deep, nothing has to be shown. -/
theorem takes_refuseExpression (ks' : List TokenKind) (P : Prop) :
    s.Takes ((s.report (.expressionTooDeep maxExpressionDepth)
      s.current.position).skipToStatementEnd) ks ks' P := by
  refine ⟨(s.extends_report ..).trans (extends_skipToStatementEnd _), fun hshallow _ => ?_⟩
  have hshallow' := (extends_skipToStatementEnd _).shallow hshallow
  exact absurd rfl (hshallow' ⟨.expressionTooDeep maxExpressionDepth, s.current.position⟩
    (by simp [report]) maxExpressionDepth)

end Passing

end Braced.Builder

namespace Braced.Parse

open Builder

/-- An action that only adds to a builder has to be looked at only where the
builder is ready. -/
theorem Keeps.takes {m : Parse α} (hm : m.Keeps Extends) {s : Builder} {ks ks' : List TokenKind}
    {P : α → Prop} (h : s.Ready ks → m.Ensures s fun a s' => s.Takes s' ks ks' (P a)) :
    m.Ensures s fun a s' => s.Takes s' ks ks' (P a) := by
  by_cases hs : s.Ready ks
  · exact h hs
  · exact (hm s).imp fun _ _ hextends => .of_not_ready hextends hs

/-- What follows has to be looked at only where a builder is ready for it. -/
theorem takes_bind {m : Parse α} {f : α → Parse β} {s : Builder} {ks ks' ks'' : List TokenKind}
    {P : α → Prop} {Q : β → Prop} (hf : ∀ a, (f a).Keeps Extends)
    (hm : m.Ensures s fun a s' => s.Takes s' ks ks' (P a))
    (h : ∀ a s', s'.Ready ks' → P a → (f a).Ensures s' fun b s'' => s'.Takes s'' ks' ks'' (Q b)) :
    (m >>= f).Ensures s fun b s'' => s.Takes s'' ks ks'' (Q b) := by
  rw [ensures_bind]
  intro a s' ha b s'' hb
  have hfirst := hm a s' ha
  have hextends := hf a s' b s'' hb
  refine ⟨hfirst.extends_.trans hextends, fun hshallow hs => ?_⟩
  obtain ⟨hs', hP⟩ := hfirst.ready (hextends.shallow hshallow) hs
  exact (h a s' hs' hP b s'' hb).ready hshallow hs'

end Braced.Parse
