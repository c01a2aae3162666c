import Braced.Proofs.Grammar.Rules
import Braced.Proofs.Parse.Local

/-!
# Braced.Proofs.Parse.Spans

Reading that is settled by the tokens that are passed.

`m.Spans s tokens p a s'` says that `m` passes exactly `tokens`, gives `a` and leads from `s`
to `s'`, whatever stands behind them, as long as `p` holds of the next token.  This
says more than that reading looks no further than the token it stops in front of: an
expected token is passed without a look at the one behind it.  So the signature of a function
is read in the same way in front of any token but an arrow (`Parse.exists_spans_signature`).
-/

namespace Braced

namespace Builder

/-- In front of a list of tokens with an end there is an end. -/
theorem terminated_facing (s : Builder) (faults : Array Diagnostic) (tokens : List Token)
    {t : Token} {behind : List Token} (hend : ∃ e ∈ t :: behind, e.kind = .eof) :
    (s.facing faults (tokens ++ t :: behind)).Terminated := by
  obtain ⟨e, he, hkind⟩ := hend
  refine ⟨e, ?_, hkind⟩
  cases tokens with
  | nil => exact he
  | cons first tokens => exact List.mem_append_right (first :: tokens) he

end Builder

namespace Parse

open Builder (Blind)

/-- `m` passes exactly `tokens`, gives `a` and leads from `s` to `s'`, whatever was found wrong
before, in front of every list of tokens with an end that begins with a token that `p`
holds of. -/
def Spans (m : Parse α) (s : Builder) (tokens : List Token) (p : Token → Prop) (a : α)
    (s' : Builder) : Prop :=
  ∀ faults t behind, p t → (∃ e ∈ t :: behind, e.kind = .eof) →
    m (s.facing faults (tokens ++ t :: behind)) = some (a, s'.facing faults (t :: behind))

variable {s s₁ s₂ : Builder} {m : Parse α} {a : α} {b : β} {t : Token}
  {tokens tokens₁ tokens₂ : List Token} {p p₁ p₂ : Token → Prop} {kind : TokenKind}

/-! ## Actions -/

/-- One action spans what is in front of what the other spans, if that begins with a token
that the first one may stop in front of. -/
theorem Spans.bind_of {k : α → Parse β} (hm : m.Spans s tokens₁ p₁ a s₁)
    (hk : (k a).Spans s₁ tokens₂ p₂ b s₂) (hok : ∀ t, p₂ t → p₁ (tokens₂.headD t)) :
    (m >>= k).Spans s (tokens₁ ++ tokens₂) p₂ b s₂ := by
  intro faults t behind ht hend
  have hsecond := hk faults t behind ht hend
  have hfirst : m (s.facing faults (tokens₁ ++ (tokens₂ ++ t :: behind)))
      = some (a, s₁.facing faults (tokens₂ ++ t :: behind)) := by
    have hhead := hok t ht
    cases tokens₂ with
    | nil => exact hm faults t behind hhead hend
    | cons first tokens₂ =>
      obtain ⟨e, he, hkind⟩ := hend
      exact hm faults first _ hhead
        ⟨e, List.mem_cons_of_mem _ (List.mem_append_right tokens₂ he), hkind⟩
  rw [List.append_assoc, bind_apply, hfirst]
  exact hsecond

/-- The first action passes a token without a look at the one behind it. -/
theorem Spans.bind {k : α → Parse β} (hm : m.Spans s tokens₁ (fun _ => True) a s₁)
    (hk : (k a).Spans s₁ tokens₂ p b s₂) : (m >>= k).Spans s (tokens₁ ++ tokens₂) p b s₂ :=
  hm.bind_of hk fun _ _ => trivial

/-- The second action passes nothing, and minds the next token no more than the first one. -/
theorem Spans.then_ {k : α → Parse β} (hm : m.Spans s tokens p a s₁)
    (hk : (k a).Spans s₁ [] p b s₂) : (m >>= k).Spans s tokens p b s₂ := by
  have hboth := hm.bind_of hk fun _ h => h
  rwa [List.append_nil] at hboth

theorem spans_pure : (pure a : Parse α).Spans s [] p a s :=
  fun _ _ _ _ _ => rfl

theorem spans_change {f : Builder → Builder} (h : Blind f) :
    (change f).Spans s [] p () (f s) :=
  fun faults t behind _ _ => congrArg some (Prod.ext rfl (h s faults t behind))

theorem spans_declare {name : String} {entry : EntryKind} {position : Position} :
    (declare name entry position).Spans s [] p () (s.declare name entry position) :=
  spans_change (Builder.blind_declare name entry position)

theorem spans_addModule {name : String} : (addModule name).Spans s [] p () (s.addModule name) :=
  spans_change (Builder.blind_addModule name)

theorem spans_exitScope : exitScope.Spans s [] p () s.exitScope :=
  spans_change fun _ _ _ _ => rfl

theorem spans_alloc {position : Position} {node : NodeKind} : (alloc position node).Spans s [] p
    (s.alloc position node).1 (s.alloc position node).2 :=
  fun _ _ _ _ _ => rfl

theorem spans_enterScope {position : Position} : (enterScope position).Spans s [] p
    (s.enterScope position).1 (s.enterScope position).2 :=
  fun _ _ _ _ _ => rfl

theorem spans_advance (h : t.kind ≠ .eof) : advance.Spans s [t] p t s :=
  fun faults _ behind _ _ => congrArg some (s.advance_facing faults t behind _ h)

theorem spans_expect (h : t.kind = kind) (hend : kind ≠ .eof) :
    (expect kind).Spans s [t] p (some t) s := by
  intro faults next behind _ _
  have hexpect := Builder.expect_of_eq (s := s.facing faults (t :: next :: behind)) h
  rw [s.advance_facing faults t behind next (h ▸ hend)] at hexpect
  exact congrArg some hexpect

theorem spans_accept (h : t.kind = kind) (hend : kind ≠ .eof) :
    (accept kind).Spans s [t] p true s := by
  intro faults next behind _ _
  have hadvance := s.advance_facing faults t behind next (h ▸ hend)
  exact congrArg some ((if_pos h).trans (congrArg (fun found => (true, found.2)) hadvance))

/-- A token that is not the one asked for is left. -/
theorem spans_accept_ne (hok : ∀ t, p t → t.kind ≠ kind) :
    (accept kind).Spans s [] p false s :=
  fun _ t _ ht _ => congrArg some (if_neg (hok t ht))

/-- Looking at the next token. -/
theorem Spans.look {f : Builder → β} {k : β → Parse α} {v : β}
    (hlook : ∀ faults behind, f (s.facing faults (t :: behind)) = v)
    (h : (k v).Spans s (t :: tokens) p a s₁) :
    (Parse.look f >>= k).Spans s (t :: tokens) p a s₁ := by
  intro faults next behind hnext hend
  rw [look_bind, List.cons_append, hlook, ← List.cons_append]
  exact h faults next behind hnext hend

/-- What one step of reading spans is spanned by reading. -/
theorem spans_run {goal : Goal α} (hgoal : goal.needsToken = false)
    (h : (goal.step .standard (fun goal => goal.run .standard)).Spans s tokens p a s₁) :
    Spans (goal.run .standard) s tokens p a s₁ := by
  intro faults next behind hnext hend
  rw [Goal.run_eq_step ⟨s.terminated_facing faults tokens hend, by simp [hgoal]⟩]
  exact h faults next behind hnext hend

/-! ## Types -/

open Tree.Statement Phrase Rule

/-- The keyword of a type is passed. -/
theorem spans_typeName {position : Position} {isConst : Bool} {atom : TypeAtom}
    (h : t.kind = atom.token) : (typeName position isConst).Spans s [t] p
      (some (s.alloc position (.type atom isConst)).1)
      (s.alloc position (.type atom isConst)).2 := by
  have hatom : TypeAtom.ofToken? t.kind = some atom := by
    rw [h]
    cases atom <;> rfl
  have hend : t.kind ≠ .eof := by
    rw [h]
    cases atom <;> decide
  refine Spans.look (v := t.kind) (fun _ _ => rfl) ?_
  simp only [hatom]
  exact (spans_advance hend).then_ (spans_alloc.then_ spans_pure)

/-- A type is passed without a look at the token behind it. -/
theorem exists_spans_type (h : Rule.type.Derives (tokens.map Token.kind)) :
    ∃ id s', Spans ((Goal.production .type).run .standard) s tokens p (some id) s' := by
  obtain ⟨isConst, atom, htokens⟩ := derives_type_iff.mp h
  cases isConst with
  | true =>
    obtain ⟨first, others, rfl, hfirst, hothers⟩ := List.map_eq_cons_iff.mp htokens
    obtain ⟨second, rfl, hsecond⟩ := List.map_eq_singleton_iff.mp hothers
    exact ⟨_, _, spans_run rfl (Spans.look (v := first.position) (fun _ _ => rfl)
      ((spans_accept hfirst (by decide)).bind (spans_typeName hsecond)))⟩
  | false =>
    obtain ⟨first, rfl, hfirst⟩ := List.map_eq_singleton_iff.mp htokens
    have haccept : (accept .kwConst).Spans s [] (fun t => t = first) false s :=
      spans_accept_ne fun t ht => by
        rw [ht, hfirst]
        cases atom <;> decide
    exact ⟨_, _, spans_run rfl (Spans.look (v := first.position) (fun _ _ => rfl)
      (haccept.bind_of (spans_typeName hfirst) fun _ _ => rfl))⟩

/-! ## Signatures -/

/-- Reading with no bound on the steps. -/
abbrev freely : Reach :=
  fun goal => goal.run .standard

theorem exists_spans_parameter (h : Phrase.parameter.Derives (tokens.map Token.kind)) :
    ∃ found s', (Tree.Statement.parameter freely).Spans s tokens p (some found) s' := by
  obtain ⟨us, hus, htokens⟩ := derives_parameter_iff.mp h
  obtain ⟨name, others, rfl, hname, hothers⟩ := List.map_eq_cons_iff.mp htokens
  obtain ⟨colon, type, rfl, hcolon, htype⟩ := List.map_eq_cons_iff.mp hothers
  obtain ⟨atom, s₁, hread⟩ := exists_spans_type (s := s) (p := p) (htype ▸ hus)
  exact ⟨_, _, (spans_expect hname (by decide)).bind ((spans_expect hcolon (by decide)).bind
    (hread.then_ (spans_declare.then_
      (spans_alloc.then_ spans_pure))))⟩

/-- Parameters are read up to a token that is no comma. -/
theorem exists_spans_parameters {us : List TokenKind} {parts : List (List TokenKind)}
    (hus : Phrase.parameter.Derives us)
    (hparts : ∀ part ∈ parts, IsBehind .comma Phrase.parameter part)
    (htokens : tokens.map Token.kind = us ++ parts.flatten) :
    ∃ found s', Spans (Goal.parameters.run .standard) s tokens (fun t => t.kind ≠ .comma)
      found s' := by
  induction parts generalizing s us tokens with
  | nil =>
    rw [List.flatten_nil, List.append_nil] at htokens
    obtain ⟨found, s₁, hfound⟩ := exists_spans_parameter (s := s) (htokens ▸ hus)
    exact ⟨_, _, spans_run rfl (hfound.then_ ((spans_accept_ne fun _ h => h).then_ spans_pure))⟩
  | cons part parts ih =>
    obtain ⟨⟨vs, hvs, rfl⟩, hparts'⟩ := List.forall_mem_cons.mp hparts
    obtain ⟨first, others, rfl, hfirst, hothers⟩ := List.map_eq_append_iff.mp htokens
    obtain ⟨comma, others, rfl, hcomma, hothers⟩ := List.map_eq_cons_iff.mp hothers
    obtain ⟨found, s₁, hfound⟩ := exists_spans_parameter (s := s) (hfirst ▸ hus)
    obtain ⟨later, s₂, hlater⟩ := ih hvs hparts' hothers
    exact ⟨_, _, spans_run rfl (hfound.bind ((spans_accept hcomma (by decide)).bind
      (hlater.then_ spans_pure)))⟩

/-- The parenthesis behind parameters is passed without a look at the token behind it. -/
theorem exists_spans_parameterList {opened closed : Token} (hopened : opened.kind = .openParen)
    (hclosed : closed.kind = .closeParen)
    (h : parameterList.Derives (tokens.map Token.kind) ∨ tokens.map Token.kind = []) :
    ∃ found s', (Tree.Statement.parameterList freely).Spans s (opened :: (tokens ++ [closed])) p
      found s' := by
  rcases h with h | h
  · obtain ⟨us, parts, hus, hparts, htokens⟩ := derives_parameterList_iff.mp h
    obtain ⟨found, s₁, hfound⟩ := exists_spans_parameters (s := s) hus hparts htokens
    obtain ⟨ts, -, hts⟩ := derives_parameter_iff.mp hus
    rw [hts] at htokens
    obtain ⟨first, others, rfl, hfirst, -⟩ := List.map_eq_cons_iff.mp htokens
    have hnone : first.kind ≠ .closeParen := by
      rw [hfirst]
      decide
    have hall : (freely .parameters >>= fun found => expect .closeParen >>= fun _ =>
        pure found).Spans s (first :: others ++ [closed]) p found s₁ :=
      hfound.bind_of ((spans_expect hclosed (by decide)).then_ spans_pure) fun _ _ => by
        rw [List.headD_cons, hclosed]
        decide
    exact ⟨_, _, (spans_expect hopened (by decide)).bind
      (Spans.look (v := first.kind) (fun _ _ => rfl) (by rw [if_neg hnone]; exact hall))⟩
  · rw [List.map_eq_nil_iff.mp h]
    have hall : (expect .closeParen >>= fun _ => pure []).Spans s [closed] p
        ([] : List Parameter) s :=
      (spans_expect hclosed (by decide)).then_ spans_pure
    exact ⟨_, _, (spans_expect hopened (by decide)).bind
      (Spans.look (v := closed.kind) (fun _ _ => rfl) (by rw [if_pos hclosed]; exact hall))⟩

theorem exists_spans_resultType (h : IsTypeAfter .arrow (tokens.map Token.kind)) :
    ∃ found s', (resultType freely).Spans s tokens (fun t => t.kind ≠ .arrow) found s' := by
  rcases h with ⟨us, hus, htokens⟩ | h
  · obtain ⟨arrow, type, rfl, harrow, htype⟩ := List.map_eq_cons_iff.mp htokens
    obtain ⟨atom, s₁, hread⟩ := exists_spans_type (s := s) (htype ▸ hus)
    exact ⟨_, _, (spans_accept harrow (by decide)).bind hread⟩
  · rw [List.map_eq_nil_iff.mp h]
    exact ⟨_, _, (spans_accept_ne fun _ h => h).then_ spans_pure⟩

/-- **A signature is read in the same way in front of any token but an arrow.** -/
theorem exists_spans_signature (h : functionSignature.Derives (tokens.map Token.kind)) :
    ∃ found s', (closedSignature freely).Spans s tokens (fun t => t.kind ≠ .arrow)
      (some found) s' := by
  obtain ⟨us, vs, hus, hvs, htokens⟩ := derives_functionSignature_iff.mp h
  obtain ⟨name, others, rfl, hname, hothers⟩ := List.map_eq_cons_iff.mp htokens
  obtain ⟨colon, others, rfl, hcolon, hothers⟩ := List.map_eq_cons_iff.mp hothers
  obtain ⟨opened, others, rfl, hopened, hothers⟩ := List.map_eq_cons_iff.mp hothers
  obtain ⟨inner, others, rfl, hinner, hothers⟩ := List.map_eq_append_iff.mp hothers
  obtain ⟨closed, result, rfl, hclosed, hresult⟩ := List.map_eq_cons_iff.mp hothers
  obtain ⟨parameters, s₂, hparameters⟩ := exists_spans_parameterList
    (s := (((s.declare name.identifierName .function name.position).alloc name.position
      (.ident name.identifierName)).2.enterScope name.position).2) (p := fun _ => True)
    hopened hclosed (by rw [hinner]; exact hus)
  obtain ⟨type, s₃, htype⟩ := exists_spans_resultType (s := s₂) (hresult ▸ hvs)
  have hrest : inner ++ closed :: result = inner ++ [closed] ++ result := by simp
  rw [hrest]
  have hsignature : (signatureOf freely name).Spans s
      (colon :: opened :: (inner ++ [closed] ++ result)) (fun t => t.kind ≠ .arrow) _ s₃ :=
    spans_declare.bind (spans_alloc.bind ((spans_expect hcolon (by decide)).bind
      (spans_enterScope.bind (hparameters.bind (htype.then_ spans_pure)))))
  have hnamed : (signature freely).Spans s
      (name :: colon :: opened :: (inner ++ [closed] ++ result)) (fun t => t.kind ≠ .arrow)
      (some _) s₃ :=
    (spans_expect hname (by decide)).bind (hsignature.then_ spans_pure)
  exact ⟨_, _, hnamed.then_ (spans_exitScope.then_ spans_pure)⟩

end Parse

end Braced
