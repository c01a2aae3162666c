import Braced.Tree

/-!
# Braced.Proofs.Grammar

The grammar of the language, as data, and the lists of kinds of tokens that it
derives.

A `Phrase` is what may stand on the right of a rule, and `Rule.body` gives the
right side of each rule.  `Phrase.Derives` says which lists of kinds a phrase
derives; it has a lemma for each way of making a phrase, from which follows what
each rule derives, in the form in which programs are read.
-/

namespace Braced

/-! ## Phrases -/

/-- The names of the grammar. -/
inductive Rule
  | program
  | declaration
  | foreignImport
  | functionSignature
  | functionDefinition
  | parameterList
  | type
  | variableDeclaration
  | statement
  | ifChain
  | whileLoop
  | block
  | expression
  | unaryExpression
  | postfixExpression
  | primaryExpression
  | functionCall
  deriving DecidableEq, Repr

/-- What may stand on the right of a rule. -/
inductive Phrase
  | token (kind : TokenKind)
  | rule (rule : Rule)
  | empty
  /-- One phrase behind the other. -/
  | both (p q : Phrase)
  /-- One of two phrases. -/
  | either (p q : Phrase)
  /-- Any number of times the same phrase. -/
  | many (p : Phrase)
  deriving DecidableEq, Repr

namespace Phrase

instance : Append Phrase := ⟨both⟩

instance : OrOp Phrase := ⟨either⟩

/-- A phrase that may be missing. -/
def optional (p : Phrase) : Phrase :=
  p ||| empty

/-- A token of one of several kinds. -/
def oneOf (kind : TokenKind) (kinds : List TokenKind) : Phrase :=
  kinds.foldl (fun p k => p ||| token k) (token kind)

/-- The operators between two operands. -/
def binaryOperator : Phrase :=
  oneOf .plus [.dash, .star, .slash, .percent, .equals, .notEquals, .less, .greater, .lessEquals,
    .greaterEquals]

/-- The operators in front of an operand. -/
def prefixOperator : Phrase :=
  oneOf .plusPlus [.minusMinus, .star, .ampersand, .dash]

/-- A parameter with its type. -/
def parameter : Phrase :=
  token .identifier ++ token .colon ++ rule .type

end Phrase

open Phrase in
/-- The right side of a rule.  The mark at the end of the tokens is not part of a
program, and a function may also be defined where a statement is expected. -/
def Rule.body : Rule → Phrase
  | program => many (rule declaration)
  | declaration =>
    rule functionDefinition
      ||| rule functionCall ++ token .semicolon
      ||| rule foreignImport
      ||| rule variableDeclaration ++ token .semicolon
  | foreignImport =>
    token .pound ++ token .kwForeign ++ token .kwFrom ++ token .openParen ++ token .identifier
      ++ token .comma ++ rule functionSignature ++ token .closeParen ++ token .semicolon
  | functionSignature =>
    token .identifier ++ token .colon ++ token .openParen ++ optional (rule parameterList)
      ++ token .closeParen ++ optional (token .arrow ++ rule type)
  | functionDefinition => rule functionSignature ++ rule block
  | parameterList => parameter ++ many (token .comma ++ parameter)
  | type =>
    optional (token .kwConst) ++ oneOf .kwInt [.kwFloat, .kwDouble, .kwByte, .kwBoolean]
  | variableDeclaration =>
    token .identifier ++ optional (token .colon ++ rule type)
      ++ many (token .assignment ++ rule expression)
  | statement =>
    token .kwReturn ++ optional (rule expression) ++ token .semicolon
      ||| token .kwBreak ++ token .semicolon
      ||| token .kwContinue ++ token .semicolon
      ||| rule ifChain
      ||| rule whileLoop
      ||| rule variableDeclaration ++ token .semicolon
      ||| rule functionCall ++ token .semicolon
      ||| rule functionDefinition
  | ifChain =>
    token .kwIf ++ rule expression ++ rule block
      ++ many (token .kwElif ++ rule expression ++ rule block)
      ++ optional (token .kwElse ++ rule block)
  | whileLoop => token .kwWhile ++ rule expression ++ rule block
  | block => token .openCurly ++ many (rule statement) ++ token .closeCurly
  | expression => rule unaryExpression ++ many (binaryOperator ++ rule unaryExpression)
  | unaryExpression =>
    prefixOperator ++ rule unaryExpression
      ||| token .openParen ++ rule expression ++ token .closeParen
      ||| rule postfixExpression
  | postfixExpression => rule primaryExpression ++ optional (oneOf .plusPlus [.minusMinus])
  | primaryExpression =>
    oneOf .intConst [.floatConst, .charConst, .stringConst, .identifier] ||| rule functionCall
  | functionCall =>
    token .identifier ++ token .openParen
      ++ optional (rule expression ++ many (token .comma ++ rule expression))
      ++ token .closeParen

/-! ## Derivations -/

/-- The phrase derives the list of kinds. -/
inductive Phrase.Derives : Phrase → List TokenKind → Prop
  | token (kind : TokenKind) : Derives (.token kind) [kind]
  | rule {r : Rule} {ks : List TokenKind} (h : Derives r.body ks) : Derives (.rule r) ks
  | empty : Derives .empty []
  | both {p q : Phrase} {ks ls : List TokenKind} (hp : Derives p ks) (hq : Derives q ls) :
      Derives (.both p q) (ks ++ ls)
  | left {p q : Phrase} {ks : List TokenKind} (hp : Derives p ks) : Derives (.either p q) ks
  | right {p q : Phrase} {ks : List TokenKind} (hq : Derives q ks) : Derives (.either p q) ks
  | stop {p : Phrase} : Derives (.many p) []
  | more {p : Phrase} {ks ls : List TokenKind} (hp : Derives p ks) (hq : Derives (.many p) ls) :
      Derives (.many p) (ks ++ ls)

/-- The rule of that name derives the list of kinds. -/
abbrev Rule.Derives (r : Rule) (ks : List TokenKind) : Prop :=
  (Phrase.rule r).Derives ks

namespace Phrase

variable {p q r : Phrase} {ks : List TokenKind}

@[simp] theorem derives_token_iff (kind : TokenKind) : (token kind).Derives ks ↔ ks = [kind] := by
  constructor
  · intro h
    cases h
    rfl
  · rintro rfl
    exact .token kind

theorem derives_rule_iff (r : Rule) : r.Derives ks ↔ r.body.Derives ks := by
  constructor
  · intro h
    cases h with
    | rule h => exact h
  · exact .rule

@[simp] theorem derives_empty_iff : empty.Derives ks ↔ ks = [] := by
  constructor
  · intro h
    cases h
    rfl
  · rintro rfl
    exact .empty

@[simp] theorem derives_append_iff :
    (p ++ q).Derives ks ↔ ∃ us vs, p.Derives us ∧ q.Derives vs ∧ ks = us ++ vs := by
  constructor
  · intro h
    cases h with
    | both hp hq => exact ⟨_, _, hp, hq, rfl⟩
  · rintro ⟨us, vs, hp, hq, rfl⟩
    exact .both hp hq

theorem derives_append_assoc : (p ++ q ++ r).Derives ks ↔ (p ++ (q ++ r)).Derives ks := by
  simp only [derives_append_iff]
  constructor
  · rintro ⟨_, ws, ⟨us, vs, hus, hvs, rfl⟩, hws, rfl⟩
    exact ⟨us, _, hus, ⟨vs, ws, hvs, hws, rfl⟩, List.append_assoc ..⟩
  · rintro ⟨us, _, hus, ⟨vs, ws, hvs, hws, rfl⟩, rfl⟩
    exact ⟨_, ws, ⟨us, vs, hus, hvs, rfl⟩, hws, (List.append_assoc ..).symm⟩

theorem derives_token_append_iff (kind : TokenKind) :
    (token kind ++ p).Derives ks ↔ ∃ us, p.Derives us ∧ ks = kind :: us := by
  rw [derives_append_iff]
  simp

theorem derives_append_token_iff (kind : TokenKind) :
    (p ++ token kind).Derives ks ↔ ∃ us, p.Derives us ∧ ks = us ++ [kind] := by
  rw [derives_append_iff]
  simp

@[simp] theorem derives_or_iff : (p ||| q).Derives ks ↔ p.Derives ks ∨ q.Derives ks := by
  constructor
  · intro h
    cases h with
    | left hp => exact .inl hp
    | right hq => exact .inr hq
  · rintro (hp | hq)
    · exact .left hp
    · exact .right hq

@[simp] theorem derives_optional_iff : (optional p).Derives ks ↔ p.Derives ks ∨ ks = [] := by
  rw [optional, derives_or_iff, derives_empty_iff]

/-- What is derived by a repeated phrase falls into parts that the phrase
derives. -/
@[simp] theorem derives_many_iff :
    (many p).Derives ks ↔ ∃ parts : List (List TokenKind),
      (∀ us ∈ parts, p.Derives us) ∧ ks = parts.flatten := by
  constructor
  · intro h
    generalize hq : many p = q at h
    induction h with
    | stop => exact ⟨[], List.forall_mem_nil _, rfl⟩
    | @more _ us _ hp _ _ ih =>
      cases hq
      obtain ⟨parts, hparts, rfl⟩ := ih rfl
      exact ⟨us :: parts, List.forall_mem_cons.mpr ⟨hp, hparts⟩, rfl⟩
    | _ => cases hq
  · rintro ⟨parts, hparts, rfl⟩
    induction parts with
    | nil => exact .stop
    | cons us parts ih =>
      rw [List.forall_mem_cons] at hparts
      exact .more hparts.1 (ih hparts.2)

/-- A choice between kinds derives each of them. -/
theorem derives_foldl_iff (kinds : List TokenKind) :
    (kinds.foldl (fun p k => p ||| token k) p).Derives ks ↔
      p.Derives ks ∨ ∃ kind ∈ kinds, ks = [kind] := by
  induction kinds generalizing p with
  | nil => simp
  | cons kind kinds ih =>
    rw [List.foldl_cons, ih, derives_or_iff, derives_token_iff]
    simp [or_assoc]

@[simp] theorem derives_oneOf_iff (kind : TokenKind) (kinds : List TokenKind) :
    (oneOf kind kinds).Derives ks ↔ ∃ k ∈ kind :: kinds, ks = [k] := by
  rw [oneOf, derives_foldl_iff, derives_token_iff]
  simp

end Phrase

end Braced
