import Braced.Proofs.Parse.Places

/-!
# Braced.Proofs.Parse.Follows

Which tokens names and faults come from.

The names of a tree are those of tokens, in their order, and a fault stands where some
token does.  A part may add its name, or find fault with it, when other tokens have been
passed already (`Builder.Holds`), but none of these has given a name by then.  So both
follow the tokens along any reading (`Goal.reach_follows`).
-/

namespace Braced

/-! ## Names -/

/-- The place and the name that a token gives. -/
def Token.naming (t : Token) : Position × String :=
  (t.position, t.identifierName)

/-- The place and the name of a node that is a name. -/
def Node.naming? (node : Node) : Option (Position × String) :=
  match node.kind with
  | .ident name => some (node.position, name)
  | _ => none

theorem Node.naming?_of_isUnnamed {position : Position} {kind : NodeKind} (h : kind.isUnnamed) :
    Node.naming? ⟨position, kind⟩ = none := by
  cases kind <;> first | rfl | cases h

namespace Builder

variable {s s' s'' : Builder} {token : Token}

/-- The names in the tree with their places, in the order in which they came. -/
def names (s : Builder) : List (Position × String) :=
  s.nodes.toList.filterMap Node.naming?

theorem names_alloc (s : Builder) (position : Position) (kind : NodeKind) :
    (s.alloc position kind).2.names = s.names ++ (Node.naming? ⟨position, kind⟩).toList := by
  have hnodes : (s.alloc position kind).2.nodes.toList = s.nodes.toList ++ [⟨position, kind⟩] :=
    Arena.toList_alloc ..
  rw [names, hnodes, List.filterMap_append, names]
  cases h : Node.naming? ⟨position, kind⟩ <;> simp [h]

theorem names_eq_of_nodes (h : s'.nodes = s.nodes) : s'.names = s.names := by
  rw [names, h, names]

/-- No name was added. -/
def SameNames (s s' : Builder) : Prop :=
  s'.names = s.names

instance : Makes SameNames where
  refl _ := rfl
  trans h h' := Eq.trans h' h
  advance s := names_eq_of_nodes (Still.advance s : s.SamePlaces _).nodes
  reportHere _ _ := rfl
  skipToStatementEnd _ := rfl
  addModule s name := names_eq_of_nodes (Still.addModule s name : s.SamePlaces _).nodes
  make s position kind h := by
    rw [SameNames, names_alloc, Node.naming?_of_isUnnamed h, Option.toList_none, List.append_nil]
  addStatement _ _ := rfl

/-! ## Places of faults -/

/-- What was noted since stands at one of the tokens that `s` has in front of it. -/
def FaultsIn (s s' : Builder) : Prop :=
  ∀ d ∈ s'.diagnostics.toList, d ∈ s.diagnostics.toList ∨ ∃ t ∈ s.rest, t.position = d.position

theorem FaultsIn.of_eq (h : s'.diagnostics = s.diagnostics) : s.FaultsIn s' :=
  fun _ hd => .inl (h ▸ hd)

theorem Extends.rest_subset (h : s.Extends s') : s'.rest ⊆ s.rest := by
  obtain ⟨passed, hrest, -⟩ := h.tokens
  rw [hrest]
  exact List.subset_append_right _ _

theorem FaultsIn.trans (h : s.FaultsIn s') (hextends : s.Extends s') (h' : s'.FaultsIn s'') :
    s.FaultsIn s'' := by
  intro d hd
  rcases h' d hd with hold | ⟨t, ht, hposition⟩
  · exact h d hold
  · exact .inr ⟨t, hextends.rest_subset ht, hposition⟩

/-- What was noted since, if anything, stands at the place. -/
def FaultsAt (position : Position) (s s' : Builder) : Prop :=
  ∀ d ∈ s'.diagnostics.toList, d ∈ s.diagnostics.toList ∨ d.position = position

theorem faultsAt_report (s : Builder) (fault : Fault) (position : Position) :
    FaultsAt position s (s.report fault position) := by
  intro d hd
  rw [report, Array.toList_push, List.mem_append, List.mem_singleton] at hd
  exact hd.imp_right fun heq => by rw [heq]

theorem faultsAt_refl (position : Position) (s : Builder) : FaultsAt position s s :=
  fun _ hd => .inl hd

theorem faultsAt_declare (s : Builder) (name : String) (kind : EntryKind) (position : Position) :
    FaultsAt position s (s.declare name kind position) := by
  unfold declare
  split
  · exact faultsAt_refl position s
  · exact s.faultsAt_report _ position

theorem faultsAt_resolveIdentifier (s : Builder) (name : String) (position : Position) :
    FaultsAt position s (s.resolveIdentifier name position) := by
  unfold resolveIdentifier
  split
  · exact faultsAt_refl position s
  · split
    · exact s.faultsAt_report _ position
    · exact s.faultsAt_declare name .reference position

theorem faultsAt_resolveFunction (s : Builder) (name : String) (position : Position) :
    FaultsAt position s (s.resolveFunction name position) := by
  unfold resolveFunction
  split
  · exact s.faultsAt_report _ position
  · split
    · exact faultsAt_refl position s
    · exact s.faultsAt_report _ position

/-! ## Names and faults along the tokens -/

/-- The new names are those of tokens that were passed, in their order, and new faults
stand at tokens that were or are to come. -/
structure Follows (s s' : Builder) : Prop where
  extends_ : s.Extends s'
  names : s.Terminated → ∃ passed picked : List Token,
    s.rest = passed ++ s'.rest ∧ picked.Sublist passed ∧
    (∀ t ∈ picked, t.kind = .identifier) ∧ s'.names = s.names ++ picked.map Token.naming
  faults : s.FaultsIn s'

theorem Follows.trans (h : s.Follows s') (h' : s'.Follows s'') : s.Follows s'' where
  extends_ := h.extends_.trans h'.extends_
  names hs := by
    obtain ⟨passed, picked, hrest, hsublist, hkind, hnames⟩ := h.names hs
    obtain ⟨passed', picked', hrest', hsublist', hkind', hnames'⟩ :=
      h'.names (h.extends_.terminated hs)
    refine ⟨passed ++ passed', picked ++ picked', ?_, hsublist.append hsublist',
      List.forall_mem_append.mpr ⟨hkind, hkind'⟩, ?_⟩
    · rw [hrest, hrest', List.append_assoc]
    · rw [hnames', hnames, List.map_append, List.append_assoc]
  faults := h.faults.trans h.extends_ h'.faults

/-- Where no name was added, only the places of faults matter. -/
theorem Follows.of_same (h : s.Extends s') (hnames : s'.names = s.names) (hfaults : s.FaultsIn s') :
    s.Follows s' where
  extends_ := h
  names _ := by
    obtain ⟨passed, hrest, -⟩ := h.tokens
    exact ⟨passed, [], hrest, List.nil_sublist _, by simp, by simp [hnames]⟩
  faults := hfaults

theorem follows_alloc (s : Builder) (position : Position) {kind : NodeKind}
    (h : Node.naming? ⟨position, kind⟩ = none) : s.Follows (s.alloc position kind).2 :=
  .of_same (s.extends_alloc position kind) (by rw [names_alloc, h]; simp) (.of_eq rfl)

instance : Makes Follows where
  refl s := .of_same (.refl s) rfl (.of_eq rfl)
  trans := .trans
  advance s := by
    refine .of_same s.extends_advance (Moves.advance s : s.SameNames _) (.of_eq ?_)
    obtain ⟨current, ahead, heq⟩ := s.advance_snd
    rw [heq]
  reportHere s fault := by
    refine .of_same (s.extends_report ..) rfl fun d hd => ?_
    exact (s.faultsAt_report fault s.current.position d hd).imp_right fun hposition =>
      ⟨s.current, List.mem_cons_self, hposition.symm⟩
  skipToStatementEnd s := .of_same s.extends_skipToStatementEnd rfl (.of_eq rfl)
  addModule s name := by
    refine .of_same (s.extends_addModule name) (Moves.addModule s name : s.SameNames _)
      (.of_eq ?_)
    unfold addModule
    split <;> rfl
  make s position _ h := s.follows_alloc position (Node.naming?_of_isUnnamed h)
  addStatement s id := .of_same (s.extends_addStatement id) rfl (.of_eq rfl)

instance : Opening Follows where
  toMoves := inferInstance
  enterScope s position := .of_same (s.extends_enterScope position) rfl (.of_eq rfl)
  exitScope s := .of_same s.extends_exitScope rfl (.of_eq rfl)
  setLoopDepth _ _ := .of_same (.of_eq rfl rfl rfl rfl) rfl (.of_eq rfl)
  setExpressionDepth _ _ := .of_same (.of_eq rfl rfl rfl rfl) rfl (.of_eq rfl)

/-! ## Tokens in hand -/

/-- A token was passed first, and no name has been added since. -/
structure Holds (token : Token) (s s' : Builder) : Prop where
  extends_ : s.Extends s'
  mem : token ∈ s.rest
  first : s.Terminated → token.kind ≠ .eof → ∃ passed, s.rest = token :: (passed ++ s'.rest)
  names : s'.names = s.names
  faults : s.FaultsIn s'

namespace Holds

/-- The token that is passed is in hand. -/
theorem advance (s : Builder) : Holds s.advance.1 s s.advance.2 where
  extends_ := s.extends_advance
  mem := by
    rw [advance_fst]
    exact List.mem_cons_self
  first hs hkind := by
    rw [advance_fst] at hkind ⊢
    obtain ⟨t, ht, heof⟩ := hs
    cases hahead : s.ahead with
    | nil =>
      rw [rest, hahead, List.mem_singleton] at ht
      exact absurd (ht ▸ heof) hkind
    | cons next ahead =>
      refine ⟨[], ?_⟩
      rw [Builder.advance, hahead]
      simp only [if_neg hkind, rest, hahead, List.nil_append]
  names := (Moves.advance s : s.SameNames _)
  faults := (Moves.advance s : s.Follows _).faults

/-- A token that was expected is in hand. -/
theorem expect {kind : TokenKind} (h : (s.expect kind).1 = some token) :
    Holds token s (s.expect kind).2 ∧ token.kind = kind := by
  unfold Builder.expect at h ⊢
  split
  · next hkind =>
    rw [if_pos hkind] at h
    cases h
    exact ⟨.advance s, (congrArg Token.kind s.advance_fst).trans hkind⟩
  · next hkind =>
    rw [if_neg hkind] at h
    cases h

/-- It stays the first of those that have been passed. -/
theorem first_extends (h : Holds token s s') (h' : s'.Extends s'') (hs : s.Terminated)
    (hkind : token.kind ≠ .eof) : ∃ passed, s.rest = token :: (passed ++ s''.rest) := by
  obtain ⟨passed, hrest⟩ := h.first hs hkind
  obtain ⟨passed', hrest', -⟩ := h'.tokens
  exact ⟨passed ++ passed', by rw [hrest, hrest', List.append_assoc]⟩

/-- It stays in hand while no name is added. -/
theorem next (h : Holds token s s') (h' : s'.Follows s'') (hnames : s'.SameNames s'') :
    Holds token s s'' where
  extends_ := h.extends_.trans h'.extends_
  mem := h.mem
  first := h.first_extends h'.extends_
  names := hnames.trans h.names
  faults := h.faults.trans h.extends_ h'.faults

/-- It stays in hand while fault is found with it. -/
theorem fault (h : Holds token s s') (hs : s'.SamePlaces s'')
    (hfaults : FaultsAt token.position s' s'') : Holds token s s'' where
  extends_ := h.extends_.trans hs.extends_
  mem := h.mem
  first := h.first_extends hs.extends_
  names := (names_eq_of_nodes hs.nodes).trans h.names
  faults d hd := by
    rcases hfaults d hd with hold | hposition
    · exact h.faults d hold
    · exact .inr ⟨token, h.mem, hposition.symm⟩

theorem follows (h : Holds token s s') : s.Follows s' :=
  .of_same h.extends_ h.names h.faults

/-- Its name is added behind all that came before it. -/
theorem name (h : Holds token s s') (hkind : token.kind = .identifier) :
    s.Follows (s'.alloc token.position (.ident token.identifierName)).2 where
  extends_ := h.extends_.trans (s'.extends_alloc _ _)
  names hs := by
    obtain ⟨passed, hrest⟩ := h.first hs (by rw [hkind]; decide)
    refine ⟨token :: passed, [token], hrest, List.singleton_sublist.mpr List.mem_cons_self,
      by simpa using hkind, ?_⟩
    rw [names_alloc, h.names]
    rfl
  faults := h.faults

end Holds

end Builder

namespace Parse

open Builder Tree.Expression Tree.Statement

variable {reach : Reach} {s s' : Builder} {token : Token}

/-! ## Parts that add a name, or find fault with a token -/

section

variable (hr : ∀ {α : Type} (goal : Goal α), Keeps Follows (reach goal))

/-- After a token that was expected comes what `f` makes of it. -/
theorem follows_expect {f : Option Token → Parse α} {kind : TokenKind}
    (hnone : Keeps Follows (f none))
    (hsome : ∀ token s', token.kind = kind → Holds token s s' →
      (f (some token)).Ensures s' fun _ s'' => s.Follows s'') :
    (Parse.expect kind >>= f).Ensures s fun _ s' => s.Follows s' := by
  rw [ensures_bind, Parse.expect, ensures_act]
  cases hfound : (s.expect kind).1 with
  | none =>
    have hexpect : s.Follows (s.expect kind).2 := Moves.expect s kind
    exact (hnone _).imp fun _ _ h => hexpect.trans h
  | some token =>
    obtain ⟨hholds, hkind⟩ := Holds.expect hfound
    exact hsome token _ hkind hholds

theorem follows_variableValue (hkind : s.current.kind = .identifier) :
    variableValue.Ensures s fun _ s' => s.Follows s' := by
  simp only [variableValue, ensures_bind, Parse.advance, ensures_act, resolveIdentifier,
    ensures_change, alloc, ensures_pure]
  have hholds := (Holds.advance s).fault (Still.resolveIdentifier _ _ _)
    (faultsAt_resolveIdentifier _ s.advance.1.identifierName s.advance.1.position)
  exact hholds.name (by rw [advance_fst, hkind])

theorem follows_constantValue : Keeps Follows constantValue := by
  intro s
  have hholds := Holds.advance s
  rw [advance_fst] at hholds
  exact ensures_constantValue (fun _ _ => hholds.follows)
    (hholds.fault (Still.report ..) (faultsAt_report _ _ _)).follows

theorem holds_refuseOutsideLoop (h : Holds token s s') :
    (refuseOutsideLoop token).Ensures s' fun _ s'' => Holds token s s'' := by
  rw [refuseOutsideLoop, ensures_bind, ensures_look]
  split
  · exact (ensures_change _ _).mpr (h.fault (Still.report ..) (faultsAt_report _ _ _))
  · exact (ensures_pure _).mpr h

theorem follows_loopControl : Keeps Follows loopControl := by
  intro s
  rw [loopControl, ensures_bind, Parse.advance, ensures_act, ensures_bind]
  refine (holds_refuseOutsideLoop (Holds.advance s)).imp fun _ s₁ h₁ => ?_
  exact Ensures.imp ((keeps_expect.bind fun _ => (keeps_make rfl).bind fun _ => keeps_pure _ :
    Keeps Follows _) s₁) fun _ _ h => h₁.follows.trans h

include hr

theorem follows_primaryValue : Keeps Follows (primaryValue reach) := by
  intro s
  exact ensures_primaryValue (fun _ _ => hr (.call false) s) follows_variableValue
    fun _ => follows_constantValue s

theorem follows_call (isStatement : Bool) : Keeps Follows (call reach isStatement) := by
  intro s
  refine follows_expect (keeps_pure _) fun token s₁ hkind hholds => ?_
  simp only [ensures_bind, resolveFunction, ensures_change, alloc, ensures_act]
  have hname := (hholds.fault (Still.resolveFunction ..)
    (faultsAt_resolveFunction s₁ token.identifierName token.position)).name hkind
  refine (keeps_argumentList hr _).imp fun found s₂ h₂ => ?_
  cases found with
  | none => exact (ensures_pure _).mpr (hname.trans h₂)
  | some arguments =>
    simp only [ensures_bind, ensures_look, ensures_act, ensures_pure]
    exact (hname.trans h₂).trans (follows_alloc _ _ rfl)

variable (htype : Keeps SameNames (reach (.production .type)))

include htype

theorem holds_type (h : Holds token s s') :
    (reach (.production .type)).Ensures s' fun _ s'' => Holds token s s'' :=
  ((hr _ s').and (htype s')).imp fun _ _ h' => h.next h'.1 h'.2

/-- A token stays in hand while its type is read, and it is declared. -/
theorem holds_declaredType (h : Holds token s s') :
    (declaredType reach token).Ensures s' fun _ s'' => Holds token s s'' := by
  rw [declaredType, ensures_bind, Parse.accept, ensures_act]
  have hcolon := h.next (Moves.accept s' .colon) (Moves.accept s' .colon)
  split
  · rw [ensures_bind]
    refine (holds_type hr htype hcolon).imp fun atom s₁ h₁ => ?_
    simp only [ensures_bind, Parse.declare, ensures_change, ensures_pure]
    exact h₁.fault (Quiet.declare _ _ _ _ rfl) (faultsAt_declare _ _ _ _)
  · simp only [ensures_bind, Parse.resolveIdentifier, ensures_change, ensures_pure]
    exact hcolon.fault (Still.resolveIdentifier ..) (faultsAt_resolveIdentifier _ _ _)

theorem follows_variableStatement : Keeps Follows (variableStatement reach) := by
  intro s
  refine follows_expect (keeps_pure _) fun token s₁ hkind hholds => ?_
  rw [ensures_bind]
  refine (holds_declaredType hr htype hholds).imp fun atom s₂ h₂ => ?_
  rw [ensures_bind, Parse.alloc, ensures_act]
  exact Ensures.imp (((hr _).bind fun _ => (keeps_make rfl).bind fun _ => keeps_pure _ :
    Keeps Follows _) _) fun _ _ h => (h₂.name hkind).trans h

theorem follows_parameter : Keeps Follows (parameter reach) := by
  intro s
  refine follows_expect ?_ fun token s₁ hkind hholds => ?_
  · exact keeps_expect.bind fun _ => (hr _).bind fun _ => keeps_pure _
  rw [ensures_bind, Parse.expect, ensures_act, ensures_bind]
  have hcolon := hholds.next (Moves.expect s₁ .colon) (Moves.expect s₁ .colon)
  refine (holds_type hr htype hcolon).imp fun atom s₂ h₂ => ?_
  cases atom with
  | none => exact (ensures_pure _).mpr h₂.follows
  | some atom =>
    simp only [ensures_bind, Parse.declare, ensures_change, Parse.alloc, ensures_act, ensures_pure]
    exact (h₂.fault (Quiet.declare _ _ _ _ rfl) (faultsAt_declare _ _ _ _)).name hkind

omit htype

theorem follows_signature : Keeps Follows (signature reach) := by
  intro s
  refine follows_expect (keeps_pure _) fun token s₁ hkind hholds => ?_
  have hname := (hholds.fault (Quiet.declare s₁ token.identifierName .function token.position rfl)
    (faultsAt_declare _ _ _ _)).name hkind
  rw [ensures_bind]
  refine Ensures.imp (Q := fun _ s' => s.Follows s') ?_ fun _ _ h => (ensures_pure _).mpr h
  rw [signatureOf, ensures_bind, Parse.declare, ensures_change, ensures_bind, Parse.alloc,
    ensures_act]
  exact Ensures.imp ((keeps_expect.bind fun _ => keeps_enterScope.bind fun _ =>
    (keeps_parameterList hr).bind fun _ => (keeps_resultType hr).bind fun _ => keeps_pure _ :
    Keeps Follows _) _) fun _ _ h => hname.trans h

end

end Parse

open Parse Builder

/-- A type is no name. -/
theorem Goal.reach_type_sameNames (fuel : Nat) :
    Keeps SameNames (Goal.reach .standard fuel (.production .type)) :=
  fun _ => Goal.ensures_of_step (.production .type) (fun _ => keeps_type _) fuel

/-- **Names and faults follow the tokens** along any reading. -/
theorem Goal.reach_follows (fuel : Nat) (goal : Goal α) (s : Builder) :
    (Goal.reach .standard fuel goal).Ensures s fun _ s' => s.Follows s' := by
  refine Goal.reach_keeps_with (fun fuel hr => ?_) fuel goal s
  have htype := Goal.reach_type_sameNames fuel
  refine ⟨⟨⟨follows_variableStatement hr htype, follows_parameter hr htype, follows_loopControl⟩,
    follows_primaryValue hr, follows_call hr⟩, keepsOpening_of hr ?_ ?_⟩
  · exact keeps_function hr (follows_signature hr) (keeps_act fun s => s.follows_alloc _ rfl)
  · exact keeps_foreignImport (follows_signature hr) (keeps_act fun s => s.follows_alloc _ rfl)

/-! ## The tree of all tokens -/

namespace Tree

/-- **Every fault stands where a token does.** -/
theorem faults_follow (tokens : List Token) :
    ∀ d ∈ (ofTokens tokens).2, ∃ t ∈ Builder.terminated tokens, t.position = d.position := by
  obtain ⟨fuel, hread⟩ := build_spec tokens
  intro d hd
  have hfollows := Goal.reach_follows fuel _ _ _ _ hread
  rw [← Builder.rest_ofTokens]
  exact (hfollows.faults d hd).resolve_left fun h => by cases h

/-- The token that is added at the end gives no name. -/
theorem sublist_of_terminated {tokens picked : List Token}
    (h : picked.Sublist (Builder.terminated tokens)) (hkind : ∀ t ∈ picked, t.kind = .identifier) :
    picked.Sublist tokens := by
  have hpicked : picked.filter (·.kind = .identifier) = picked := by
    simpa [List.filter_eq_self] using hkind
  have htokens : (Builder.terminated tokens).filter (·.kind = .identifier)
      = tokens.filter (·.kind = .identifier) := by
    unfold Builder.terminated
    split
    · split
      · rfl
      · simp
    · next hlast =>
      rw [List.getLast?_eq_none_iff.mp hlast]
      rfl
  rw [← hpicked]
  exact (htokens ▸ h.filter _).trans List.filter_sublist

/-- Two entries of a list are a part of it in their order. -/
theorem pair_sublist {l : List α} {i j : Nat} {x y : α} (hx : l[i]? = some x) (hy : l[j]? = some y)
    (hlt : i < j) : [x, y].Sublist l := by
  have hfirst : [x].Sublist (l.take j) :=
    List.singleton_sublist.mpr (List.mem_of_getElem? (by rw [List.getElem?_take_of_lt hlt, hx]))
  have hsecond : [y].Sublist (l.drop j) :=
    List.singleton_sublist.mpr
      (List.mem_of_getElem? (i := 0) (by rw [List.getElem?_drop, Nat.add_zero, hy]))
  exact List.take_append_drop j l ▸ hfirst.append hsecond

/-- **Names come in the order of the tokens**: two names in a tree are those of two tokens,
of which the first comes first. -/
theorem names_follow (tokens : List Token) {a b : NodeId} {p q : Position} {name other : String}
    (ha : (ofTokens tokens).1.node? a = some ⟨p, .ident name⟩)
    (hb : (ofTokens tokens).1.node? b = some ⟨q, .ident other⟩) (hlt : a.index < b.index) :
    ∃ first second, [first, second].Sublist tokens ∧
      first.kind = .identifier ∧ first.naming = (p, name) ∧
      second.kind = .identifier ∧ second.naming = (q, other) := by
  obtain ⟨fuel, hread⟩ := build_spec tokens
  obtain ⟨passed, picked, hrest, hsublist, hkind, hnames⟩ :=
    (Goal.reach_follows fuel _ _ _ _ hread).names (Builder.terminated_ofTokens tokens)
  have hnodes : [(⟨p, .ident name⟩ : Node), ⟨q, .ident other⟩].Sublist
      (build tokens).nodes.toList := by
    refine pair_sublist (i := a.index) (j := b.index) ?_ ?_ hlt
    · exact (Array.getElem?_toList ..).trans ha
    · exact (Array.getElem?_toList ..).trans hb
  have hpair : [(p, name), (q, other)].Sublist (picked.map Token.naming) := by
    have hall := hnodes.filterMap Node.naming?
    rwa [show (build tokens).nodes.toList.filterMap Node.naming? = picked.map Token.naming from
      hnames] at hall
  -- the names of the pair are those of two tokens that were picked
  obtain ⟨pair, hpicked, hmap⟩ := List.sublist_map_iff.mp hpair
  have hpassed : passed.Sublist (Builder.terminated tokens) := by
    rw [← Builder.rest_ofTokens, hrest]
    exact List.sublist_append_left _ _
  obtain ⟨first, others, rfl, hfirst, hothers⟩ := List.map_eq_cons_iff.mp hmap.symm
  obtain ⟨second, others, rfl, hsecond, hnil⟩ := List.map_eq_cons_iff.mp hothers
  obtain rfl := List.map_eq_nil_iff.mp hnil
  have hkinds := fun t ht => hkind t (hpicked.subset ht)
  exact ⟨first, second, sublist_of_terminated (hpicked.trans (hsublist.trans hpassed)) hkinds,
    hkinds first (by simp), hfirst, hkinds second (by simp), hsecond⟩

end Tree

end Braced
