import Braced.Proofs.Grammar.Sound
import Braced.Proofs.Grammar.Statement
import Braced.Proofs.Parse.Spans

/-!
# Braced.Proofs.Parse.Unclosed

What a missing parenthesis of a signature costs.

Where the parenthesis behind parameters, or behind the signature of an import, is missing, the
token that stands there is reported and passed, even if it ends the statement.  The import
then takes the first token of what follows for its own end, and what follows is read without
that token.
-/

namespace Braced

/-! ## Where a parenthesis is needed -/

namespace Tree.Statement

open Parse

/-- The parameters of a function, up to the place where their parenthesis is needed. -/
def openParameters (reach : Reach) : Parse (List Parameter) := do
  let _ ← expect .openParen
  if (← currentKind) = .closeParen then return [] else reach .parameters

/-- An import up to the place where its parenthesis is needed: its first token, its module and
its signature. -/
def openImport (reach : Reach) : Parse (Token × String × Option Signature) := do
  let mark ← advance
  let _ ← expect .kwForeign
  let _ ← expect .kwFrom
  let _ ← expect .openParen
  let token ← expect .identifier
  let module := (token.map Token.identifierName).getD ""
  addModule module
  let _ ← expect .comma
  let found ← closedSignature reach
  return (mark, module, found)

/-- An import from the place on where its semicolon is needed. -/
def endImport (mark : Token) (module : String) (found : Option Signature) :
    Parse (Option NodeId) := do
  let _ ← expect .semicolon
  match found with
  | none => return none
  | some found =>
    return some (← alloc mark.position
      (.function found.name found.result found.parameters found.scope (.imported module)))

theorem parameterList_eq (reach : Reach) :
    parameterList reach = openParameters reach >>= fun found => do
      let _ ← expect .closeParen
      return found := by
  rw [parameterList, openParameters, bind_assoc]
  refine congrArg _ (funext fun _ => ?_)
  rw [bind_assoc]
  refine congrArg _ (funext fun kind => ?_)
  split
  · rw [pure_bind]
  · rfl

theorem foreignImport_eq (reach : Reach) :
    foreignImport reach = openImport reach >>= fun (mark, module, found) =>
      expect .closeParen >>= fun _ => endImport mark module found := by
  simp only [foreignImport, openImport, bind_assoc, pure_bind]
  rfl

end Tree.Statement

namespace Builder

variable {s : Builder} {kind : TokenKind}

/-- A token that is not the expected one is reported, and passed unless it is the end. -/
theorem expect_facing (hs : s.Terminated) (h : s.current.kind ≠ kind)
    (hend : s.current.kind ≠ .eof) :
    s.expect kind = (none, (s.reportUnexpected kind).facing #[] s.ahead) := by
  rw [expect_of_ne h]
  cases hahead : s.ahead with
  | nil =>
    obtain ⟨t, ht, hkind⟩ := hs
    rw [rest, hahead, List.mem_singleton] at ht
    exact absurd (ht ▸ hkind) hend
  | cons next ts =>
    simp [advance, reportUnexpected, report, facing, hahead, hend]

end Builder

/-! ## Where imports are in a program -/

namespace Phrase

open Rule

/-- Whether the phrase derives no token of the kind by itself, and only refers to the rules
given. -/
def avoids (kind : TokenKind) (rules : List Rule) : Phrase → Bool
  | token k => k ≠ kind
  | rule r => r ∈ rules
  | empty => true
  | both p q | either p q => p.avoids kind rules && q.avoids kind rules
  | many p => p.avoids kind rules

/-- A kind that is avoided by rules which refer to each other only is not derived. -/
theorem Derives.not_mem {kind : TokenKind} {p : Phrase} {ks : List TokenKind} (h : p.Derives ks)
    (rules : List Rule) (hrules : ∀ r ∈ rules, r.body.avoids kind rules)
    (hp : p.avoids kind rules) : kind ∉ ks := by
  induction h with
  | token k => exact fun hmem => of_decide_eq_true hp (List.mem_singleton.mp hmem).symm
  | rule _ ih => exact ih (hrules _ (by simpa [avoids] using hp))
  | empty | stop => exact List.not_mem_nil
  | both _ _ ih ih' =>
    rw [avoids, Bool.and_eq_true] at hp
    simp [ih hp.1, ih' hp.2]
  | left _ ih =>
    rw [avoids, Bool.and_eq_true] at hp
    exact ih hp.1
  | right _ ih =>
    rw [avoids, Bool.and_eq_true] at hp
    exact ih hp.2
  | more _ _ ih ih' => simp [ih hp, ih' hp]

/-- The rules that lead to no import. -/
def inner : List Rule :=
  [functionSignature, functionDefinition, parameterList, type, variableDeclaration, statement,
    ifChain, whileLoop, block, expression, unaryExpression, postfixExpression, primaryExpression,
    functionCall]

theorem pound_not_mem {r : Rule} {ks : List TokenKind} (h : r.Derives ks) (hr : r ∈ inner) :
    .pound ∉ ks :=
  h.not_mem inner (by decide) (by simpa [avoids] using hr)

theorem semicolon_not_mem {ks : List TokenKind} (h : functionSignature.Derives ks) :
    .semicolon ∉ ks :=
  h.not_mem [functionSignature, parameterList, type] (by decide) (by decide)

/-- The kinds of the tokens of an import, with those of its signature. -/
def importKinds (signature : List TokenKind) : List TokenKind :=
  .pound :: .kwForeign :: .kwFrom :: .openParen :: .identifier :: .comma
    :: (signature ++ [.closeParen, .semicolon])

/-- A declaration is an import that begins with the mark of imports, or lacks this mark. -/
theorem pound_of_declaration {ks : List TokenKind} (h : declaration.Derives ks) :
    (∃ us, functionSignature.Derives us ∧ ks = importKinds us) ∨ .pound ∉ ks := by
  cases derives_declaration_iff.mp h with
  | function hus => exact .inr (pound_not_mem hus (by decide))
  | imported hus => exact .inl (derives_foreignImport_iff.mp hus)
  | line hus =>
    obtain ⟨us, hus | hus, rfl⟩ := hus
    · simp [pound_not_mem hus (by decide)]
    · simp [pound_not_mem hus (by decide)]

/-- **The mark of an import begins a declaration.**  In front of it and behind the import are
whole declarations. -/
theorem split_at_pound {parts : List (List TokenKind)}
    (hparts : ∀ part ∈ parts, declaration.Derives part) {ks ls : List TokenKind}
    (h : parts.flatten = ks ++ .pound :: ls) :
    ∃ before us after, parts = before ++ importKinds us :: after ∧
      functionSignature.Derives us ∧ ks = before.flatten := by
  induction parts generalizing ks with
  | nil => simp at h
  | cons part parts ih =>
    obtain ⟨hpart, hparts'⟩ := List.forall_mem_cons.mp hparts
    rw [List.flatten_cons] at h
    rcases List.append_eq_append_iff.mp h with ⟨ms, rfl, hms⟩ | ⟨ms, hpart_eq, hls⟩
    · obtain ⟨before, us, after, rfl, hus, rfl⟩ := ih hparts' hms
      exact ⟨part :: before, us, after, rfl, hus, rfl⟩
    · cases ms with
      | nil =>
        have hls' : parts.flatten = [] ++ .pound :: ls := hls.symm
        obtain ⟨before, us, after, rfl, hus, hbefore⟩ := ih hparts' hls'
        exact ⟨part :: before, us, after, rfl, hus, by simp [← hbefore, hpart_eq]⟩
      | cons k ms =>
        obtain ⟨rfl, -⟩ := List.cons.inj hls
        rcases pound_of_declaration hpart with ⟨us, hus, heq⟩ | hnone
        · -- behind its first token an import has no such mark
          have htail : .pound ∉ (importKinds us).tail := by
            simp [importKinds, pound_not_mem hus (by decide)]
          cases ks with
          | nil => exact ⟨[], us, parts, by rw [heq]; rfl, hus, rfl⟩
          | cons k ks =>
            rw [← heq, hpart_eq] at htail
            exact absurd (List.mem_append_right ks (List.mem_cons_self ..)) htail
        · exact absurd (hpart_eq ▸ List.mem_append_right ks (List.mem_cons_self ..)) hnone

/-- A list falls in one way into what is in front of its first semicolon and what is behind. -/
theorem append_semicolon_inj {us vs ls ms : List TokenKind} (hus : .semicolon ∉ us)
    (hvs : .semicolon ∉ vs) (h : us ++ .semicolon :: ls = vs ++ .semicolon :: ms) :
    us = vs ∧ ls = ms := by
  have htake : ∀ xs ys : List TokenKind, .semicolon ∉ xs →
      (xs ++ TokenKind.semicolon :: ys).takeWhile (· ≠ .semicolon) = xs := by
    intro xs ys hxs
    have hpos : ∀ k ∈ xs, decide (k ≠ TokenKind.semicolon) = true :=
      fun k hk => decide_eq_true fun h => hxs (h ▸ hk)
    rw [List.takeWhile_append_of_pos hpos, List.takeWhile_cons_of_neg (by simp), List.append_nil]
  have hfront := congrArg (List.takeWhile (· ≠ .semicolon)) h
  rw [htake us ls hus, htake vs ms hvs] at hfront
  obtain rfl := hfront
  exact ⟨rfl, (List.cons.inj (List.append_cancel_left h)).2⟩

/-- **An import is known from its mark and its first semicolon.**  Between them stands its
signature, up to a parenthesis, and around it are whole declarations. -/
theorem split_at_import {parts : List (List TokenKind)}
    (hparts : ∀ part ∈ parts, declaration.Derives part) {ks ms ls : List TokenKind}
    (hms : .semicolon ∉ ms)
    (h : parts.flatten = ks ++ .pound :: (ms ++ .closeParen :: .semicolon :: ls)) :
    ∃ (earlier : List (List TokenKind)) (us : List TokenKind) (later : List (List TokenKind)),
      (∀ part ∈ earlier ++ later, declaration.Derives part) ∧
      functionSignature.Derives us ∧ ks = earlier.flatten ∧
      ms = .kwForeign :: .kwFrom :: .openParen :: .identifier :: .comma :: us ∧
      ls = later.flatten := by
  obtain ⟨earlier, us, later, rfl, hus, hearlier⟩ := split_at_pound hparts h
  rw [List.flatten_append, List.flatten_cons, ← hearlier, importKinds] at h
  have hbehind := (List.cons.inj (List.append_cancel_left h)).2
  have hsemicolons : ms ++ [.closeParen] ++ .semicolon :: ls
      = .kwForeign :: .kwFrom :: .openParen :: .identifier :: .comma :: us ++ [.closeParen]
        ++ .semicolon :: later.flatten := by
    simpa using hbehind.symm
  obtain ⟨hfront, hback⟩ := append_semicolon_inj (by simp [hms])
    (by simp [semicolon_not_mem hus]) hsemicolons
  refine ⟨earlier, us, later, fun part hpart => hparts part ?_, hus, hearlier,
    List.append_cancel_right hfront, hback⟩
  rcases List.mem_append.mp hpart with hpart | hpart
  · exact List.mem_append_left _ hpart
  · exact List.mem_append_right _ (List.mem_cons_of_mem _ hpart)

end Phrase

/-! ## Declarations up to an import -/

/-- The tokens between two places are those whose kinds are to come at the first place and no
longer at the second. -/
theorem Builder.Ready.passed_kinds {s s' : Builder} {us ks : List TokenKind} {passed : List Token}
    (hs : s.Ready (us ++ ks)) (hs' : s'.Ready ks) (hextends : s.Extends s')
    (hrest : s.rest = passed ++ s'.rest) : passed.map Token.kind = us := by
  obtain ⟨between, hbetween, hkinds⟩ := hextends.tokens
  obtain rfl := List.append_cancel_right (hrest.symm.trans hbetween)
  have hupcoming : s.upcoming = passed ++ s'.upcoming := by
    rw [upcoming, hrest, List.takeWhile_append_of_pos (by simpa using hkinds), upcoming]
  have hall := hs.kinds_eq
  rw [kinds, hupcoming, List.map_append, ← kinds, hs'.kinds_eq] at hall
  exact List.append_cancel_right hall

namespace Goal

open Parse

variable {s s' : Builder}

/-- In front of a token the loop over declarations reads one, and goes on behind it. -/
theorem run_declarations (hs : s.Terminated) (htokens : s.hasTokens) :
    declarations.run .standard s = ((production .declaration).run .standard s).bind
      fun (found, s') => declarations.run .standard (found.elim s' s'.addStatement) := by
  rw [run_eq_step ⟨hs, by simp [needsToken]⟩]
  show Tree.Statement.declarations freely s = _
  rw [Tree.Statement.declarations, look_bind, if_pos htokens, bind_apply]
  refine congrArg (Option.bind _) (funext fun found => ?_)
  obtain ⟨found, s'⟩ := found
  cases found <;> rfl

/-- Adding what was found leaves the tokens alone. -/
theorem blind_addFound (found : Option NodeId) :
    Builder.Blind fun s => found.elim s s.addStatement := by
  intro s faults t ts
  cases found <;> rfl

/-- **Declarations in front of a token are read in the same way whatever stands behind it.** -/
theorem run_declarations_facing {parts : List (List TokenKind)} {ks : List TokenKind}
    (hparts : ∀ part ∈ parts, Rule.declaration.Derives part) (hs : s.Ready (parts.flatten ++ ks))
    (hrun : declarations.run .standard s = some ((), s')) (hshallow : s'.Shallow) :
    ∃ passed s₁, s.rest = passed ++ s₁.rest ∧ s₁.Ready ks ∧ s.Extends s₁ ∧
      declarations.run .standard s₁ = some ((), s') ∧
      ∀ faults behind, (∃ t ∈ s₁.current :: behind, t.kind = .eof) →
        declarations.run .standard (s.facing faults (passed ++ s₁.current :: behind))
          = declarations.run .standard (s₁.facing faults (s₁.current :: behind)) := by
  induction parts generalizing s with
  | nil => exact ⟨[], s, rfl, hs, .refl s, hrun, fun _ _ _ => rfl⟩
  | cons part parts ih =>
    obtain ⟨hpart, hparts'⟩ := List.forall_mem_cons.mp hparts
    have hterminated := hs.proper.terminated
    have htokens : s.hasTokens := by
      obtain ⟨k, ls, rfl⟩ := exists_cons_of_declaration hpart
      rw [Builder.hasTokens_iff, hs.current_kind.1]
      exact hs.current_kind.2
    have hfits : (production .declaration).Fits s := ⟨hterminated, by simp [needsToken]⟩
    obtain ⟨found, s₁, hfound, -⟩ := run_gives hfits
    rw [run_declarations hterminated htokens, hfound, Option.bind_some] at hrun
    -- the declaration stops behind its tokens
    have htakes := (takesStatements_reach _).declaration s (parts.flatten ++ ks) hpart _ _ hfound
    have hadd : s₁.Takes (found.elim s₁ s₁.addStatement) (parts.flatten ++ ks)
        (parts.flatten ++ ks) True := by
      cases found with
      | none => exact .refl ..
      | some id => exact s₁.takes_addStatement _ id
    rw [List.flatten_cons, List.append_assoc] at hs
    have hextends := reach_extends _ _ _ _ _ hrun
    have hready := (htakes.trans hadd).ready (hextends.shallow hshallow) hs
    obtain ⟨passed, s₂, hrest, hready₂, hextends₂, hrun₂, hfacing⟩ := ih hparts' hready.1 hrun
    obtain ⟨passed₁, hrest₁, hfacing₁⟩ := run_facing hfits (by simp [isNamed]) hfound
    have hsame := (blind_addFound found).rest_eq s₁
    refine ⟨passed₁ ++ passed, s₂, ?_, hready₂, (htakes.extends_.trans hadd.extends_).trans
      hextends₂, hrun₂, fun faults behind hend => ?_⟩
    · rw [hrest₁, ← hsame, hrest, List.append_assoc]
    · obtain ⟨ts, hts⟩ := Builder.cons_of_rest hrest behind
      rw [Builder.current_eq_of_rest hsame] at hts
      have hend₁ : ∃ t ∈ s₁.current :: ts, t.kind = .eof := by
        obtain ⟨t, ht, hkind⟩ := hend
        exact ⟨t, hts ▸ List.mem_append_right passed ht, hkind⟩
      have hfirst : (s.facing faults (passed₁ ++ s₁.current :: ts)).hasTokens := by
        obtain ⟨ts₁, hts₁⟩ := Builder.cons_of_rest hrest₁ ts
        rw [hts₁]
        exact htokens
      rw [List.append_assoc, hts, run_declarations (s.terminated_facing faults _ hend₁) hfirst,
        hfacing₁ faults ts hend₁, Option.bind_some]
      have hadded := blind_addFound found s₁ faults s₁.current ts
      rw [← hts] at hadded ⊢
      exact (congrArg (declarations.run .standard) hadded).trans (hfacing faults behind hend)

end Goal

/-! ## Imports -/

namespace Parse

open Tree.Statement Builder

variable {s : Builder}

/-- An import is read in the same way up to its parenthesis, whatever stands there but an
arrow. -/
theorem exists_spans_openImport {us : List TokenKind} (hus : Rule.functionSignature.Derives us)
    {mark : Token} {signature : List Token} (hmark : mark.kind = .pound)
    (hsignature : signature.map Token.kind = .kwForeign :: .kwFrom :: .openParen :: .identifier
      :: .comma :: us) :
    ∃ module found s', (openImport freely).Spans s (mark :: signature) (fun t => t.kind ≠ .arrow)
      (mark, module, some found) s' := by
  obtain ⟨foreign, others, rfl, hforeign, hothers⟩ := List.map_eq_cons_iff.mp hsignature
  obtain ⟨from_, others, rfl, hfrom, hothers⟩ := List.map_eq_cons_iff.mp hothers
  obtain ⟨opened, others, rfl, hopened, hothers⟩ := List.map_eq_cons_iff.mp hothers
  obtain ⟨name, others, rfl, hname, hothers⟩ := List.map_eq_cons_iff.mp hothers
  obtain ⟨comma, inner, rfl, hcomma, hinner⟩ := List.map_eq_cons_iff.mp hothers
  obtain ⟨found, s₁, hfound⟩ := exists_spans_signature
    (s := s.addModule name.identifierName) (hinner ▸ hus)
  have hend : mark.kind ≠ .eof := by
    rw [hmark]
    decide
  exact ⟨_, _, _, (spans_advance hend).bind ((spans_expect hforeign (by decide)).bind
    ((spans_expect hfrom (by decide)).bind ((spans_expect hopened (by decide)).bind
    ((spans_expect hname (by decide)).bind (spans_addModule.bind
    ((spans_expect hcomma (by decide)).bind (hfound.then_ spans_pure)))))))⟩

/-- The node of an imported function. -/
def importNode (module : String) (found : Signature) : NodeKind :=
  .function found.name found.result found.parameters found.scope (.imported module)

variable {mark close stop next : Token} {module : String} {found : Signature} {after : List Token}
  {id : NodeId} {s' : Builder}

/-- An import that ends with a parenthesis and a semicolon passes both. -/
theorem spans_closeImport (halloc : s.alloc mark.position (importNode module found) = (id, s'))
    (hclose : close.kind = .closeParen) (hstop : stop.kind = .semicolon) {p : Token → Prop} :
    Spans (expect .closeParen >>= fun _ => endImport mark module (some found)) s [close, stop] p
      (some id) s' := by
  obtain rfl := congrArg Prod.fst halloc
  obtain rfl := congrArg Prod.snd halloc
  exact (spans_expect hclose (by decide)).bind ((spans_expect hstop (by decide)).then_
    (spans_alloc.then_ spans_pure))

/-- What is left of the tokens behind the first one, which stays if it is the end. -/
def afterFirst : List Token → List Token
  | [] => []
  | next :: after => if next.kind = .eof then next :: after else after

/-- What an action gives is there at once. -/
theorem act_bind (f : Builder → α × Builder) (k : α → Parse β) (s : Builder) :
    (act f >>= k) s = k (f s).1 (f s).2 :=
  rfl

/-- There is a first one left where there is an end. -/
theorem exists_cons_afterFirst (hend : ∃ t ∈ next :: after, t.kind = .eof) :
    ∃ t ts, afterFirst (next :: after) = t :: ts ∧ ∃ e ∈ t :: ts, e.kind = .eof := by
  rw [afterFirst]
  split
  · exact ⟨next, after, rfl, hend⟩
  · next hkind =>
    obtain ⟨e, he, heof⟩ := hend
    rcases List.mem_cons.mp he with rfl | he
    · exact absurd heof hkind
    · cases after with
      | nil => cases he
      | cons t ts => exact ⟨t, ts, rfl, e, he, heof⟩

/-- The last token stays. -/
theorem getLast_afterFirst (hend : ∃ t ∈ (next :: after).getLast?, t.kind = .eof) :
    ∃ t ∈ (afterFirst (next :: after)).getLast?, t.kind = .eof := by
  rw [afterFirst]
  split
  · exact hend
  · next hkind =>
    cases after with
    | nil =>
      obtain ⟨t, ht, heof⟩ := hend
      cases ht
      exact absurd heof hkind
    | cons t ts => exact hend

/-- What is wrong with an import that ends with a semicolon alone, in front of a token. -/
def unclosedFaults (stop next : Token) : Array Diagnostic :=
  #[⟨.unexpectedToken .closeParen stop.kind, stop.position⟩,
    ⟨.unexpectedToken .semicolon next.kind, next.position⟩]

/-- Where the first of the tokens is not the expected one, it is reported, and the others are
left. -/
theorem expect_afterFirst {kind : TokenKind} (hnext : next.kind ≠ kind)
    (hend : ∃ t ∈ next :: after, t.kind = .eof) :
    (s.facing #[] (next :: after)).expect kind
      = (none, (s.report (.unexpectedToken kind next.kind) next.position).facing #[]
          (afterFirst (next :: after))) := by
  have hreport := blind_report (.unexpectedToken kind next.kind) next.position s #[] next after
  by_cases hkind : next.kind = .eof
  · have hadvance := advance_of_eof
      (s := (s.facing #[] (next :: after)).reportUnexpected kind) hkind
    rw [expect_of_ne hnext, hadvance, afterFirst, if_pos hkind]
    exact congrArg (Prod.mk none) hreport
  · obtain ⟨t, ts, hcons, -⟩ := exists_cons_afterFirst hend
    have hterminated : (s.facing #[] (next :: after)).Terminated := s.terminated_facing #[] [] hend
    rw [expect_facing hterminated hnext hkind]
    rw [afterFirst, if_neg hkind] at hcons
    have hsame := congrArg (fun u : Builder => u.facing #[] (t :: ts)) hreport
    simp only [facing_facing, Array.append_empty] at hsame
    rw [hcons] at hsame
    rw [afterFirst, if_neg hkind, hcons]
    exact congrArg (Prod.mk none) hsame

/-- **An import without its parenthesis ends a token too late.**  Its semicolon is passed in
place of the parenthesis, and the token behind it in place of the semicolon. -/
theorem closeImport_unclosed (halloc : s.alloc mark.position (importNode module found) = (id, s'))
    (hclean : s.diagnostics = #[]) (hstop : stop.kind = .semicolon)
    (hnext : next.kind ≠ .semicolon) (hend : ∃ t ∈ next :: after, t.kind = .eof) :
    (expect .closeParen >>= fun _ => endImport mark module (some found))
        (s.facing #[] (stop :: next :: after))
      = some (some id, s'.facing (unclosedFaults stop next) (afterFirst (next :: after))) := by
  obtain rfl := congrArg Prod.fst halloc
  obtain rfl := congrArg Prod.snd halloc
  have hpassed : afterFirst (stop :: next :: after) = next :: after := by
    rw [afterFirst, if_neg (by rw [hstop]; decide)]
  have hkind : stop.kind ≠ .closeParen := by
    rw [hstop]
    decide
  have hfirst := @expect_afterFirst s stop (next :: after) .closeParen hkind
    (by obtain ⟨e, he, hkind⟩ := hend; exact ⟨e, List.mem_cons_of_mem _ he, hkind⟩)
  rw [hpassed] at hfirst
  have hsecond := expect_afterFirst
    (s := s.report (.unexpectedToken .closeParen stop.kind) stop.position) hnext hend
  obtain ⟨t, ts, hcons, -⟩ := exists_cons_afterFirst hend
  rw [hcons] at hsecond ⊢
  have hfaults : ((s.report (.unexpectedToken .closeParen stop.kind) stop.position).report
      (.unexpectedToken .semicolon next.kind) next.position).facing #[] (t :: ts)
        = s.facing (unclosedFaults stop next) (t :: ts) := by
    simp [facing, Builder.report, hclean, unclosedFaults]
  rw [expect, act_bind, hfirst, endImport, expect, act_bind, hsecond, hfaults]
  rfl

end Parse

namespace Goal

open Parse Tree.Statement Builder

variable {s s' s₁ : Builder} {mark next : Token} {signature after : List Token} {module : String}
  {found : Signature} {id : NodeId}

/-- The loop over declarations reads an import, adds its node and goes on behind it. -/
theorem run_declarations_import (hmark : mark.kind = .pound)
    (hopen : (openImport freely).Spans s (mark :: signature) (fun t => t.kind ≠ .arrow)
      (mark, module, some found) s₁)
    (hnext : next.kind ≠ .arrow) (hend : ∃ t ∈ next :: after, t.kind = .eof)
    (hclose : (expect .closeParen >>= fun _ => endImport mark module (some found))
      (s₁.facing #[] (next :: after)) = some (some id, s')) :
    declarations.run .standard (s.facing #[] (mark :: (signature ++ next :: after)))
      = declarations.run .standard (s'.addStatement id) := by
  have hterminated : (s.facing #[] (mark :: (signature ++ next :: after))).Terminated :=
    s.terminated_facing #[] (mark :: signature) hend
  have htokens : (s.facing #[] (mark :: (signature ++ next :: after))).hasTokens := by
    rw [hasTokens_iff, current_facing, hmark]
    decide
  have himport : (production .declaration).run .standard
      (s.facing #[] (mark :: (signature ++ next :: after))) = some (some id, s') := by
    rw [run_eq_step ⟨hterminated, fun _ => htokens⟩]
    show Tree.Statement.declaration .standard freely _ = _
    rw [Tree.Statement.declaration, currentKind, look_bind, current_facing, hmark]
    show (production .foreignImport).run .standard _ = _
    rw [run_eq_step ⟨hterminated, fun _ => htokens⟩]
    show foreignImport freely _ = _
    have hread := hopen #[] next after hnext hend
    rw [List.cons_append] at hread
    rw [foreignImport_eq, bind_apply, hread, Option.bind_some]
    exact hclose
  rw [run_declarations hterminated htokens, himport]
  rfl

variable {close stop : Token} {s₂ : Builder}

/-- An import with its parenthesis is passed, and its node added. -/
theorem run_declarations_closed (hmark : mark.kind = .pound)
    (hopen : (openImport freely).Spans s (mark :: signature) (fun t => t.kind ≠ .arrow)
      (mark, module, some found) s₁)
    (halloc : s₁.alloc mark.position (importNode module found) = (id, s₂))
    (hclose : close.kind = .closeParen) (hstop : stop.kind = .semicolon)
    (hend : ∃ t ∈ next :: after, t.kind = .eof) :
    declarations.run .standard
        (s.facing #[] (mark :: (signature ++ close :: stop :: next :: after)))
      = declarations.run .standard ((s₂.addStatement id).facing #[] (next :: after)) := by
  have hend' : ∃ e ∈ close :: stop :: next :: after, e.kind = .eof := by
    obtain ⟨e, he, hkind⟩ := hend
    exact ⟨e, List.mem_cons_of_mem _ (List.mem_cons_of_mem _ he), hkind⟩
  rw [← facing_addStatement]
  exact run_declarations_import hmark hopen (by rw [hclose]; decide) hend'
    (@spans_closeImport s₁ mark close stop module found id s₂ halloc hclose hstop (fun _ => True)
      #[] next after trivial hend)

/-- An import without its parenthesis is passed with the token behind its semicolon, and its
node added. -/
theorem run_declarations_unclosed (hmark : mark.kind = .pound)
    (hopen : (openImport freely).Spans s (mark :: signature) (fun t => t.kind ≠ .arrow)
      (mark, module, some found) s₁)
    (halloc : s₁.alloc mark.position (importNode module found) = (id, s₂))
    (hclean : s₁.diagnostics = #[]) (hstop : stop.kind = .semicolon)
    (hnext : next.kind ≠ .semicolon) (hend : ∃ t ∈ next :: after, t.kind = .eof) :
    declarations.run .standard (s.facing #[] (mark :: (signature ++ stop :: next :: after)))
      = declarations.run .standard ((s₂.addStatement id).facing (unclosedFaults stop next)
        (afterFirst (next :: after))) := by
  have hend' : ∃ e ∈ stop :: next :: after, e.kind = .eof := by
    obtain ⟨e, he, hkind⟩ := hend
    exact ⟨e, List.mem_cons_of_mem _ he, hkind⟩
  rw [← facing_addStatement]
  exact run_declarations_import hmark hopen (by rw [hstop]; decide) hend'
    (closeImport_unclosed halloc hclean hstop hnext hend)

/-- Declarations are read in the same way behind other faults. -/
theorem run_declarations_faults (hend : ∃ t ∈ next :: after, t.kind = .eof)
    (hrun : declarations.run .standard (s.facing #[] (next :: after)) = some ((), s'))
    (faults : Array Diagnostic) :
    ∃ rest, declarations.run .standard (s.facing faults (next :: after))
      = some ((), s'.facing faults rest) := by
  have hfits : declarations.Fits (s.facing #[] (next :: after)) :=
    ⟨terminated_facing _ #[] [] hend, by simp [Goal.needsToken]⟩
  obtain ⟨passed, hrest, hfacing⟩ := run_facing hfits (by simp [isNamed]) hrun
  have hagain := hfacing faults _ ((reach_extends _ _ _ _ _ hrun).terminated hfits.terminated)
  rw [← rest, ← hrest, rest_facing, facing_facing, Array.append_empty] at hagain
  exact ⟨_, hagain⟩

end Goal

/-! ## Programs -/

namespace Builder

variable {tokens tokens' ts ts' : List Token} {first : Token}

/-- Behind a list of tokens no end is added where there is one. -/
theorem terminated_append (hend : ∃ t ∈ tokens.getLast?, t.kind = .eof) (before : List Token) :
    terminated (before ++ tokens) = before ++ tokens := by
  obtain ⟨last, hlast, hkind⟩ := hend
  have hlast' : (before ++ tokens).getLast? = some last := by
    rw [List.getLast?_append, hlast]
    rfl
  rw [terminated, hlast']
  exact if_pos hkind

/-- A builder starts in the same way in front of lists with the same first token. -/
theorem ofTokens_facing (h : terminated tokens = first :: ts)
    (h' : terminated tokens' = first :: ts') :
    ofTokens tokens' = (ofTokens tokens).facing #[] (first :: ts') := by
  simp [ofTokens, facing, h, h']

end Builder

namespace Tree

open Builder Parse Tree.Statement

variable {before signature after : List Token} {mark close stop next : Token}

/-- Where nothing is wrong, nothing is wrong with the grammar. -/
theorem not_faulty_of_clean {tokens : List Token} (hclean : (ofTokens tokens).2 = []) :
    ¬(build tokens).Faulty := by
  rintro ⟨d, hd, -⟩
  have hnone : (build tokens).diagnostics.toList = [] := hclean
  rw [hnone] at hd
  cases hd

/-- In a program, what stands between the mark of an import and its first semicolon is its
signature, up to a parenthesis, and around it are whole declarations. -/
theorem import_of_clean
    (hfits : ∀ t ∈ before ++ mark :: (signature ++ close :: stop :: after), t.Fits)
    (hmark : mark.kind = .pound) (hclose : close.kind = .closeParen)
    (hstop : stop.kind = .semicolon) (hbefore : ∀ t ∈ before, t.kind ≠ .eof)
    (hsignature : ∀ t ∈ signature, t.kind ≠ .semicolon ∧ t.kind ≠ .eof)
    (hclean : (ofTokens (before ++ mark :: (signature ++ close :: stop :: after))).2 = []) :
    ∃ (earlier : List (List TokenKind)) (us : List TokenKind) (later : List (List TokenKind)),
      (∀ part ∈ earlier ++ later, Rule.declaration.Derives part) ∧
      Rule.functionSignature.Derives us ∧ before.map Token.kind = earlier.flatten ∧
      signature.map Token.kind
        = .kwForeign :: .kwFrom :: .openParen :: .identifier :: .comma :: us ∧
      (after.takeWhile (·.kind ≠ .eof)).map Token.kind = later.flatten := by
  have hprogram := derives_of_clean hfits (not_faulty_of_clean hclean)
  rw [List.takeWhile_append_of_pos (by simpa using hbefore),
    List.takeWhile_cons_of_pos (by simp [hmark]),
    List.takeWhile_append_of_pos (by simpa using fun t ht => (hsignature t ht).2),
    List.takeWhile_cons_of_pos (by simp [hclose]),
    List.takeWhile_cons_of_pos (by simp [hstop])] at hprogram
  obtain ⟨parts, hparts, hflatten⟩ := derives_program_iff.mp hprogram
  rw [List.map_append, List.map_cons, List.map_append, List.map_cons, List.map_cons, hmark, hclose,
    hstop] at hflatten
  have hinner : .semicolon ∉ signature.map Token.kind := by
    intro hmem
    obtain ⟨t, ht, hkind⟩ := List.mem_map.mp hmem
    exact (hsignature t ht).1 hkind
  exact Phrase.split_at_import hparts hinner hflatten.symm

/-- Behind an import there is an end, or a token that begins a declaration. -/
theorem ne_semicolon_of_declarations {later : List (List TokenKind)}
    (hlater : ∀ part ∈ later, Rule.declaration.Derives part)
    (h : ((next :: after).takeWhile (·.kind ≠ .eof)).map Token.kind = later.flatten) :
    next.kind ≠ .semicolon := by
  by_cases hend : next.kind = .eof
  · rw [hend]
    decide
  rw [List.takeWhile_cons_of_pos (by simpa using hend), List.map_cons] at h
  cases later with
  | nil => cases h
  | cons part later =>
    have hnext : ∀ k ls, part = k :: ls → k ≠ .semicolon → next.kind ≠ .semicolon := by
      rintro k ls rfl hk
      rw [(List.cons.inj h).1]
      exact hk
    cases derives_declaration_iff.mp (hlater part (List.mem_cons_self ..)) with
    | function hus =>
      obtain ⟨ls, hcons⟩ := exists_cons_of_function hus
      exact hnext _ _ hcons (by decide)
    | imported hus =>
      obtain ⟨ls, -, hcons⟩ := derives_foreignImport_iff.mp hus
      exact hnext _ _ hcons (by decide)
    | line hus =>
      obtain ⟨ls, hcons⟩ := hus.exists_cons
      exact hnext _ _ hcons (by decide)

/-- Lists with the same tokens up to some token are read from the same start. -/
theorem start_facing {behind behind' : List Token}
    (h : terminated (before ++ mark :: behind) = before ++ mark :: behind)
    (h' : terminated (before ++ mark :: behind') = before ++ mark :: behind') :
    Builder.ofTokens (before ++ mark :: behind')
      = (Builder.ofTokens (before ++ mark :: behind)).facing #[] (before ++ mark :: behind') := by
  cases before with
  | nil => exact ofTokens_facing h h'
  | cons first before => exact ofTokens_facing h h'

/-- **What stands in front of an import is read in the same way whatever the import is.** -/
theorem exists_at_mark {earlier : List (List TokenKind)} {behind : List Token}
    (hearlier : ∀ part ∈ earlier, Rule.declaration.Derives part)
    (hkinds : before.map Token.kind = earlier.flatten)
    (hfits : ∀ t ∈ before ++ mark :: behind, t.Fits)
    (hend : terminated (before ++ mark :: behind) = before ++ mark :: behind)
    (hbefore : ∀ t ∈ before, t.kind ≠ .eof)
    (hclean : (build (before ++ mark :: behind)).diagnostics = #[]) :
    ∃ s : Builder, s.facing #[] (mark :: behind) = s ∧ ∀ behind',
      terminated (before ++ mark :: behind') = before ++ mark :: behind' →
        Goal.declarations.run .standard (s.facing #[] (mark :: behind'))
          = some ((), build (before ++ mark :: behind')) := by
  have hready : (Builder.ofTokens (before ++ mark :: behind)).Ready
      (earlier.flatten ++ ((mark :: behind).takeWhile (·.kind ≠ .eof)).map Token.kind) := by
    refine ⟨proper_ofTokens hfits, ?_, ?_⟩
    · rintro ⟨d, hd, -⟩
      exact List.not_mem_nil hd
    · rw [kinds, upcoming_ofTokens, List.takeWhile_append_of_pos (by simpa using hbefore),
        List.map_append, hkinds]
  have hshallow : (build (before ++ mark :: behind)).Shallow := by
    intro d hd
    rw [hclean] at hd
    cases hd
  obtain ⟨passed, s, hrest, hready', hextends, -, hfacing⟩ :=
    Goal.run_declarations_facing hearlier hready (Goal.run_ofTokens _) hshallow
  -- the declarations end where the import begins
  have hlength := congrArg List.length (hready.passed_kinds hready' hextends hrest)
  rw [← hkinds, List.length_map, List.length_map] at hlength
  rw [rest_ofTokens, hend] at hrest
  obtain ⟨rfl, hbehind⟩ := List.append_inj hrest hlength.symm
  obtain ⟨rfl, rfl⟩ := List.cons.inj hbehind
  refine ⟨s, s.facing_rest, fun behind' hend' => ?_⟩
  have hmem : ∃ t ∈ s.current :: behind', t.kind = .eof := by
    obtain ⟨t, ht, hkind⟩ := exists_eof_of_terminated (before ++ s.current :: behind')
    rw [hend'] at ht
    rcases List.mem_append.mp ht with ht | ht
    · exact absurd hkind (hbefore t ht)
    · exact ⟨t, ht, hkind⟩
  rw [← hfacing #[] behind' hmem, ← start_facing hend hend']
  exact Goal.run_ofTokens _

/-- The program without the parenthesis of an import is read as the one in which the import is
complete and the token behind it is missing instead. -/
theorem build_unclosed
    (hfits : ∀ t ∈ before ++ mark :: (signature ++ close :: stop :: next :: after), t.Fits)
    (hmark : mark.kind = .pound) (hclose : close.kind = .closeParen)
    (hstop : stop.kind = .semicolon) (hbefore : ∀ t ∈ before, t.kind ≠ .eof)
    (hsignature : ∀ t ∈ signature, t.kind ≠ .semicolon ∧ t.kind ≠ .eof)
    (hend : ∃ t ∈ (next :: after).getLast?, t.kind = .eof)
    (hclean : (ofTokens (before ++ mark :: (signature ++ close :: stop :: next :: after))).2 = []) :
    ∃ rest, build (before ++ mark :: (signature ++ stop :: next :: after)) =
      (build (before ++ mark :: (signature ++ close :: stop :: afterFirst (next :: after)))).facing
        (unclosedFaults stop next) rest := by
  obtain ⟨earlier, us, later, hparts, hus, hearlier, hkinds, hlater⟩ :=
    import_of_clean hfits hmark hclose hstop hbefore hsignature hclean
  have hnext := ne_semicolon_of_declarations
    (fun part hpart => hparts part (List.mem_append_right _ hpart)) hlater
  have hmem : ∃ t ∈ next :: after, t.kind = .eof := by
    obtain ⟨t, ht, hkind⟩ := hend
    exact ⟨t, List.mem_of_getLast? ht, hkind⟩
  obtain ⟨t, ts, hcons, hmem'⟩ := exists_cons_afterFirst hmem
  -- all three lists of tokens come to an end
  have hend' := getLast_afterFirst hend
  rw [hcons] at hend' ⊢
  have hcomplete : terminated (before ++ mark :: (signature ++ close :: stop :: next :: after))
      = before ++ mark :: (signature ++ close :: stop :: next :: after) := by
    simpa using terminated_append hend (before ++ mark :: (signature ++ [close, stop]))
  have hunclosed : terminated (before ++ mark :: (signature ++ stop :: next :: after))
      = before ++ mark :: (signature ++ stop :: next :: after) := by
    simpa using terminated_append hend (before ++ mark :: (signature ++ [stop]))
  have hshorter : terminated (before ++ mark :: (signature ++ close :: stop :: t :: ts))
      = before ++ mark :: (signature ++ close :: stop :: t :: ts) := by
    simpa using terminated_append hend' (before ++ mark :: (signature ++ [close, stop]))
  have hbuild : (build (before ++ mark :: (signature ++ close :: stop :: next
      :: after))).diagnostics = #[] := Array.toList_inj.mp hclean
  obtain ⟨s, -, hread⟩ := exists_at_mark
    (fun part hpart => hparts part (List.mem_append_left _ hpart)) hearlier hfits hcomplete hbefore
    hbuild
  -- the import is read in the same way up to its parenthesis
  obtain ⟨module, found, s₁, hopen⟩ := exists_spans_openImport (s := s) hus hmark hkinds
  obtain ⟨id, s₂, halloc⟩ : ∃ id s₂, s₁.alloc mark.position (importNode module found) = (id, s₂) :=
    ⟨_, _, rfl⟩
  -- nothing is wrong in front of the end of the import
  have hclean₁ : s₁.diagnostics = #[] := by
    have hrun := hread _ hcomplete
    rw [Goal.run_declarations_closed hmark hopen halloc hclose hstop hmem] at hrun
    have hfront := (Goal.reach_extends _ _ _ _ _ hrun).diagnostics
    rw [hbuild, diagnostics_facing, Array.empty_append] at hfront
    have hsame : s₂.diagnostics = s₁.diagnostics :=
      (congrArg (fun found => found.2.diagnostics) halloc).symm
    rw [← hsame]
    exact Array.toList_inj.mp (List.prefix_nil.mp hfront)
  have hstopped := hread _ hunclosed
  rw [Goal.run_declarations_unclosed hmark hopen halloc hclean₁ hstop hnext hmem, hcons] at hstopped
  have hshort := hread _ hshorter
  rw [Goal.run_declarations_closed hmark hopen halloc hclose hstop hmem'] at hshort
  -- what is behind the import is read in the same way behind the two faults
  obtain ⟨rest, hagain⟩ := Goal.run_declarations_faults hmem' hshort (unclosedFaults stop next)
  rw [hagain] at hstopped
  exact ⟨rest, (congrArg Prod.snd (Option.some.inj hstopped)).symm⟩

/-- **A missing parenthesis of a signature takes the token in its place, and the end of the
statement with it.**  Wherever the parenthesis behind parameters or behind an imported signature
is needed and another token stands there, even one that ends a statement or a block, that token
is reported and passed, unless it is the end of all tokens.  So where nothing is wrong with a
program, and the parenthesis in front of the semicolon of an import is taken away, two faults are
found: the semicolon is passed in place of the parenthesis, and the first token behind it in
place of the semicolon.  All else is read as in the program that has the parenthesis and lacks
that token. -/
theorem unclosed_signatures (reach : Reach) (s s₁ : Builder)
    (before signature after : List Token) (mark close stop next : Token) :
    (∀ found : List Parameter,
      openParameters reach s = some (found, s₁) → s₁.Terminated →
      s₁.current.kind ≠ .closeParen → s₁.current.kind ≠ .eof →
        parameterList reach s
          = some (found, (s₁.reportUnexpected .closeParen).facing #[] s₁.ahead)) ∧
    (∀ (first : Token) (module : String) (found : Option Signature),
      openImport reach s = some ((first, module, found), s₁) → s₁.Terminated →
      s₁.current.kind ≠ .closeParen → s₁.current.kind ≠ .eof →
        foreignImport reach s = endImport first module found
          ((s₁.reportUnexpected .closeParen).facing #[] s₁.ahead)) ∧
    ((∀ t ∈ before ++ mark :: (signature ++ close :: stop :: next :: after), t.Fits) →
      mark.kind = .pound → close.kind = .closeParen → stop.kind = .semicolon →
      (∀ t ∈ before, t.kind ≠ .eof) → (∀ t ∈ signature, t.kind ≠ .semicolon ∧ t.kind ≠ .eof) →
      (∃ t ∈ (next :: after).getLast?, t.kind = .eof) →
      (ofTokens (before ++ mark :: (signature ++ close :: stop :: next :: after))).2 = [] →
        ofTokens (before ++ mark :: (signature ++ stop :: next :: after)) =
          ((ofTokens (before ++ mark
              :: (signature ++ close :: stop :: afterFirst (next :: after)))).1,
            ⟨.unexpectedToken .closeParen .semicolon, stop.position⟩ ::
            ⟨.unexpectedToken .semicolon next.kind, next.position⟩ ::
            (ofTokens (before ++ mark
              :: (signature ++ close :: stop :: afterFirst (next :: after)))).2)) := by
  refine ⟨?_, ?_, ?_⟩
  · intro found hopen hs₁ hclose hend
    rw [parameterList_eq, bind_apply, hopen, Option.bind_some]
    show (Parse.expect .closeParen >>= fun _ => pure found) s₁ = _
    rw [Parse.expect, act_bind, expect_facing hs₁ hclose hend]
    rfl
  · intro first module found hopen hs₁ hclose hend
    rw [foreignImport_eq, bind_apply, hopen, Option.bind_some]
    show (Parse.expect .closeParen >>= fun _ => endImport first module found) s₁ = _
    rw [Parse.expect, act_bind, expect_facing hs₁ hclose hend]
  · intro hfits hmark hclose hstop hbefore hsignature hend hclean
    obtain ⟨rest, hbuild⟩ :=
      build_unclosed hfits hmark hclose hstop hbefore hsignature hend hclean
    rw [ofTokens, hbuild, diagnostics_facing, Array.toList_append]
    show (_, (unclosedFaults stop next).toList ++ _) = _
    rw [unclosedFaults, hstop]
    rfl

/-- The tokens of `#foreign from(m, f: (); x: int;`. -/
def unclosedImport : List Token :=
  [⟨.pound, .none, ⟨1, 1⟩⟩, ⟨.kwForeign, .none, ⟨1, 2⟩⟩, ⟨.kwFrom, .none, ⟨1, 10⟩⟩,
    ⟨.openParen, .none, ⟨1, 14⟩⟩, ⟨.identifier, .identifier "m", ⟨1, 15⟩⟩,
    ⟨.comma, .none, ⟨1, 16⟩⟩, ⟨.identifier, .identifier "f", ⟨1, 18⟩⟩,
    ⟨.colon, .none, ⟨1, 19⟩⟩, ⟨.openParen, .none, ⟨1, 21⟩⟩, ⟨.closeParen, .none, ⟨1, 22⟩⟩,
    ⟨.semicolon, .none, ⟨1, 23⟩⟩, ⟨.identifier, .identifier "x", ⟨1, 25⟩⟩,
    ⟨.colon, .none, ⟨1, 26⟩⟩, ⟨.kwInt, .none, ⟨1, 28⟩⟩, ⟨.semicolon, .none, ⟨1, 31⟩⟩,
    ⟨.eof, .none, ⟨1, 32⟩⟩]

/-- In `#foreign from(m, f: (); x: int;` the semicolon is passed in place of a parenthesis and
the name in place of the semicolon, and the variable is lost.  In `(x: int;` the semicolon is
passed as well. -/
theorem unclosed_signatures_import :
    (ofTokens unclosedImport).2
      = [⟨.unexpectedToken .closeParen .semicolon, ⟨1, 23⟩⟩,
        ⟨.unexpectedToken .semicolon .identifier, ⟨1, 25⟩⟩,
        ⟨.expectedDeclaration .colon, ⟨1, 26⟩⟩, ⟨.expectedDeclaration .kwInt, ⟨1, 28⟩⟩,
        ⟨.expectedDeclaration .semicolon, ⟨1, 31⟩⟩] ∧
    (foreignImport (Goal.reach .standard 9) (Builder.ofTokens unclosedImport)).map
        (fun read => (read.2.current.kind, read.2.diagnostics))
      = some (.colon, #[⟨.unexpectedToken .closeParen .semicolon, ⟨1, 23⟩⟩,
        ⟨.unexpectedToken .semicolon .identifier, ⟨1, 25⟩⟩]) ∧
    (parameterList (Goal.reach .standard 9) (Builder.ofTokens [⟨.openParen, .none, ⟨1, 1⟩⟩,
      ⟨.identifier, .identifier "x", ⟨1, 2⟩⟩, ⟨.colon, .none, ⟨1, 3⟩⟩, ⟨.kwInt, .none, ⟨1, 5⟩⟩,
      ⟨.semicolon, .none, ⟨1, 8⟩⟩, ⟨.eof, .none, ⟨1, 9⟩⟩])).map
        (fun read => (read.2.current.kind, read.2.diagnostics))
      = some (.eof, #[⟨.unexpectedToken .closeParen .semicolon, ⟨1, 8⟩⟩]) := by
  -- a program, and the place of a parenthesis in an import and in parameters
  refine ⟨?_, ?_, ?_⟩
  · have hunclosed := (unclosed_signatures (Goal.reach .standard 0) (Builder.ofTokens [])
      (Builder.ofTokens []) []
      [⟨.kwForeign, .none, ⟨1, 2⟩⟩, ⟨.kwFrom, .none, ⟨1, 10⟩⟩, ⟨.openParen, .none, ⟨1, 14⟩⟩,
        ⟨.identifier, .identifier "m", ⟨1, 15⟩⟩, ⟨.comma, .none, ⟨1, 16⟩⟩,
        ⟨.identifier, .identifier "f", ⟨1, 18⟩⟩, ⟨.colon, .none, ⟨1, 19⟩⟩,
        ⟨.openParen, .none, ⟨1, 21⟩⟩, ⟨.closeParen, .none, ⟨1, 22⟩⟩]
      [⟨.colon, .none, ⟨1, 26⟩⟩, ⟨.kwInt, .none, ⟨1, 28⟩⟩, ⟨.semicolon, .none, ⟨1, 31⟩⟩,
        ⟨.eof, .none, ⟨1, 32⟩⟩]
      ⟨.pound, .none, ⟨1, 1⟩⟩ ⟨.closeParen, .none, ⟨1, 23⟩⟩ ⟨.semicolon, .none, ⟨1, 23⟩⟩
      ⟨.identifier, .identifier "x", ⟨1, 25⟩⟩).2.2 (by unfold Token.Fits; decide) rfl rfl rfl
      (by decide) (by decide) (by decide)
      (by decide +kernel)
    refine (congrArg Prod.snd hunclosed).trans ?_
    decide +kernel
  · generalize hs : Builder.ofTokens unclosedImport = s
    have hopened : (openImport (Goal.reach .standard 9) s).map
        (fun read => (read.1.2.2.isSome, read.2.current, read.2.ahead, read.2.diagnostics))
        = some (true, unclosedImport[10], unclosedImport.drop 11, #[]) := by
      subst hs
      decide +kernel
    obtain ⟨⟨⟨first, module, found⟩, s₁⟩, hopen, hread⟩ := Option.map_eq_some_iff.mp hopened
    obtain ⟨hfound, hcurrent, hahead, hdiagnostics⟩ : found.isSome = true ∧
        s₁.current = unclosedImport[10] ∧ s₁.ahead = unclosedImport.drop 11 ∧
        s₁.diagnostics = #[] := by
      simpa using hread
    have hterminated : s₁.Terminated := ⟨⟨.eof, .none, ⟨1, 32⟩⟩, by simp [rest, hahead,
      unclosedImport], rfl⟩
    have hunclosed := (unclosed_signatures (Goal.reach .standard 9) s s₁ [] [] [] first
      first first first).2.1 first module found hopen hterminated
      (by simp [hcurrent, unclosedImport]) (by simp [hcurrent, unclosedImport])
    rw [hunclosed]
    obtain ⟨found, rfl⟩ := Option.isSome_iff_exists.mp hfound
    simp [endImport, act_bind, Parse.expect, reportUnexpected, Builder.report, facing, hcurrent,
      hahead, hdiagnostics, unclosedImport, Builder.expect]
    exact ⟨_, _, rfl, rfl, rfl⟩
  · generalize hs : Builder.ofTokens _ = s
    have hopened : (openParameters (Goal.reach .standard 9) s).map
        (fun read => (read.2.current, read.2.ahead, read.2.diagnostics))
        = some (⟨.semicolon, .none, ⟨1, 8⟩⟩, [⟨.eof, .none, ⟨1, 9⟩⟩], #[]) := by
      subst hs
      decide +kernel
    obtain ⟨⟨found, s₁⟩, hopen, hread⟩ := Option.map_eq_some_iff.mp hopened
    obtain ⟨hcurrent, hahead, hdiagnostics⟩ : s₁.current = ⟨.semicolon, .none, ⟨1, 8⟩⟩ ∧
        s₁.ahead = [⟨.eof, .none, ⟨1, 9⟩⟩] ∧ s₁.diagnostics = #[] := by
      simpa using hread
    have hterminated : s₁.Terminated := ⟨⟨.eof, .none, ⟨1, 9⟩⟩, by simp [rest, hahead], rfl⟩
    have hunclosed := (unclosed_signatures (Goal.reach .standard 9) s s₁ [] [] [] s₁.current
      s₁.current s₁.current s₁.current).1 found hopen hterminated (by simp [hcurrent])
      (by simp [hcurrent])
    rw [hunclosed]
    simp [reportUnexpected, Builder.report, facing, hcurrent, hahead, hdiagnostics]

end Tree

end Braced
