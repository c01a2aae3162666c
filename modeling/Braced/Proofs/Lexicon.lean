import Braced.Proofs.Text.Utf8
import Braced.Proofs.Token.Longest

/-!
# Braced.Proofs.Lexicon

The operators of a lexicon, after any changes.

What a text stands for as an operator is decided by the last change that was made to it
(`Lexicon.configured`), and each lexicon that is reached has just these operators
(`Lexicon.Configures`).  The limit from which operators are looked for downwards goes up and
down with them and is never too low, so the longest operator in front of a text is found.
-/

namespace Braced.Lexicon

open Text (Utf8.encode Utf8.encode_inj)

/-! ## Changes -/

/-- A change of a lexicon. -/
inductive Change
  | withKeyword (word : String) (kind : TokenKind)
  | withoutKeyword (word : String)
  | withOperator (text : String) (kind : TokenKind)
  | withoutOperator (text : String)
  | withIdentifierLimit (limit : Nat)
  deriving DecidableEq, Repr

/-- The lexicon after a change. -/
def change (lx : Lexicon) : Change → Lexicon
  | .withKeyword word kind => lx.withKeyword word kind
  | .withoutKeyword word => lx.withoutKeyword word
  | .withOperator text kind => lx.withOperator text kind
  | .withoutOperator text => lx.withoutOperator text
  | .withIdentifierLimit limit => lx.withIdentifierLimit limit

/-- The lexicon after changes, made in order. -/
def changeAll (lx : Lexicon) (changes : List Change) : Lexicon :=
  changes.foldl change lx

/-- What a change says of a text, if it says anything: the kind that it stands for as an
operator from then on, or that it is no operator. -/
def Change.operator? (text : String) : Change → Option (Option TokenKind)
  | withOperator changed kind => if changed = text then some (some kind) else none
  | withoutOperator changed => if changed = text then some none else none
  | withKeyword _ _ | withoutKeyword _ | withIdentifierLimit _ => none

/-- A lexicon to begin with. -/
inductive Base
  | empty
  | standard
  deriving DecidableEq, Repr

def Base.lexicon : Base → Lexicon
  | empty => .empty
  | standard => .standard

/-- The kind that a text stands for as an operator to begin with. -/
def Base.operator? (text : String) : Base → Option TokenKind
  | empty => none
  | standard => standardOperators.find? fun kind => kind.describe = text

/-- The kind that a text stands for as an operator after changes: what the last change of it
says, or what held to begin with if none concerns it. -/
def configured (base : Base) (changes : List Change) (text : String) : Option TokenKind :=
  (changes.reverse.findSome? (·.operator? text)).getD (base.operator? text)

/-! ## The operators of a lexicon -/

variable {lx : Lexicon} {kindOf : String → Option TokenKind}

/-- The operators of the lexicon are texts, and stand for these kinds. -/
structure Configures (lx : Lexicon) (kindOf : String → Option TokenKind) : Prop where
  find? (text : String) : find? (Utf8.encode text) lx.operators = kindOf text
  texts : ∀ entry ∈ lx.operators, ∃ text, entry.1 = Utf8.encode text

theorem configures_empty : empty.Configures fun _ => none :=
  ⟨fun _ => rfl, List.forall_mem_nil _⟩

/-- A change is to the operator that it says something of, and to no other. -/
theorem Configures.change (h : lx.Configures kindOf) (c : Change) :
    (lx.change c).Configures fun text => (c.operator? text).getD (kindOf text) := by
  cases c with
  | withKeyword word kind => exact ⟨h.find?, h.texts⟩
  | withoutKeyword word => exact ⟨h.find?, h.texts⟩
  | withIdentifierLimit limit => exact ⟨h.find?, h.texts⟩
  | withOperator changed kind =>
    constructor
    · intro text
      simp only [Lexicon.change, withOperator, find?_assign, Utf8.encode_inj, h.find?,
        Change.operator?, eq_comm (a := text)]
      split <;> rfl
    · intro entry hentry
      rcases mem_assign hentry with rfl | hentry
      · exact ⟨changed, rfl⟩
      · exact h.texts entry hentry
  | withoutOperator changed =>
    constructor
    · intro text
      simp only [Lexicon.change, withoutOperator, find?_drop, Utf8.encode_inj, h.find?,
        Change.operator?, eq_comm (a := text)]
      split <;> rfl
    · intro entry hentry
      exact h.texts entry (List.mem_filter.mp hentry).1

/-- The last change of an operator decides. -/
theorem Configures.changeAll (h : lx.Configures kindOf) (changes : List Change) :
    (lx.changeAll changes).Configures fun text =>
      (changes.reverse.findSome? (·.operator? text)).getD (kindOf text) := by
  induction changes generalizing lx kindOf with
  | nil => exact h
  | cons c changes ih =>
    have hlater : (lx.changeAll (c :: changes)).Configures _ := ih (h.change c)
    have heq : ∀ text, ((c :: changes).reverse.findSome? (·.operator? text)).getD (kindOf text) =
        (changes.reverse.findSome? (·.operator? text)).getD
          ((c.operator? text).getD (kindOf text)) := by
      intro text
      rw [List.reverse_cons, List.findSome?_append, List.findSome?_singleton]
      cases changes.reverse.findSome? (·.operator? text) <;> rfl
    simpa only [heq] using hlater

/-- The changes that make the standard lexicon from the empty one. -/
def standardChanges : List Change :=
  standardKeywords.map (fun kind => .withKeyword kind.describe kind) ++
    standardOperators.map fun kind => .withOperator kind.describe kind

theorem standard_eq : standard = empty.changeAll standardChanges := by
  simp only [changeAll, standardChanges, List.foldl_append, List.foldl_map]
  rfl

/-- Where operators are made once each, the last change of one is the only one. -/
theorem findSome?_withOperator {kinds : List TokenKind} (h : (kinds.map (·.describe)).Nodup)
    (text : String) :
    ((kinds.map fun kind => Change.withOperator kind.describe kind).reverse.findSome?
      (·.operator? text)).getD none = kinds.find? fun kind => kind.describe = text := by
  induction kinds with
  | nil => rfl
  | cons kind kinds ih =>
    rw [List.map_cons, List.nodup_cons] at h
    rw [List.map_cons, List.reverse_cons, List.findSome?_append, List.find?_cons]
    by_cases hkind : kind.describe = text
    · have hlater : (kinds.map fun kind => Change.withOperator kind.describe kind).reverse.findSome?
          (·.operator? text) = none := by
        have hother : ∀ other ∈ kinds, other.describe ≠ text := fun other hother heq =>
          h.1 (List.mem_map.mpr ⟨other, hother, heq.trans hkind.symm⟩)
        simpa [Change.operator?] using hother
      rw [hlater, Option.none_or]
      simp [Change.operator?, hkind]
    · simpa [Change.operator?, hkind] using ih h.2

theorem configures_standard : standard.Configures fun text => Base.standard.operator? text := by
  have hkeywords : ∀ text, (standardKeywords.map fun kind =>
      Change.withKeyword kind.describe kind).reverse.findSome? (·.operator? text) = none := by
    intro text
    simp [Change.operator?]
  have hmade := configures_empty.changeAll standardChanges
  simp only [standardChanges, List.reverse_append, List.findSome?_append, hkeywords,
    Option.or_none, findSome?_withOperator (by decide : (standardOperators.map (·.describe)).Nodup)]
    at hmade
  rw [standard_eq]
  exact hmade

theorem Base.configures (base : Base) : base.lexicon.Configures fun text => base.operator? text :=
  match base with
  | empty => configures_empty
  | standard => configures_standard

/-! ## The longest operator -/

theorem longestOperator_eq_iff (lx : Lexicon) (text : List UInt8)
    (r : Option (TokenKind × Nat)) :
    lx.longestOperator text = r ↔ IsLongest lx.operators text text.length r := by
  have hlongest : IsLongest lx.operators text text.length (lx.longestOperator text) :=
    isLongest_longestUpTo.of_min lx.length_le
  exact ⟨fun h => h ▸ hlongest, hlongest.unique⟩

/-- Bytes are an operator if they are those of a text that stands for a kind. -/
theorem Configures.find?_eq_some_iff (h : lx.Configures kindOf) (bytes : List UInt8)
    (kind : TokenKind) : Lexicon.find? bytes lx.operators = some kind ↔
      ∃ text, Utf8.encode text = bytes ∧ kindOf text = some kind := by
  constructor
  · intro hfound
    obtain ⟨text, rfl⟩ := h.texts _ (mem_of_find? hfound)
    exact ⟨text, rfl, (h.find? text).symm.trans hfound⟩
  · rintro ⟨text, rfl, hkind⟩
    exact (h.find? text).trans hkind

/-- No operator in front of a text is longer than `n` bytes. -/
theorem Configures.longer_iff (h : lx.Configures kindOf) (text : List UInt8) (n : Nat) :
    (∀ m, n < m → m ≤ text.length → Lexicon.find? (text.take m) lx.operators = none) ↔
      ∀ op, (kindOf op).isSome → Utf8.encode op <+: text → (Utf8.encode op).length ≤ n := by
  constructor
  · intro hnone op hop hfront
    by_contra hlonger
    have hmissing := hnone _ (Nat.not_le.mp hlonger) hfront.length_le
    rw [← List.prefix_iff_eq_take.mp hfront, h.find?] at hmissing
    rw [hmissing] at hop
    cases hop
  · intro hshort m hlt hle
    by_contra hfound
    obtain ⟨kind, hkind⟩ := Option.ne_none_iff_exists'.mp hfound
    obtain ⟨op, hop, hkind⟩ := (h.find?_eq_some_iff _ _).mp hkind
    have hlength := hshort op (by rw [hkind]; rfl) (hop ▸ List.take_prefix ..)
    rw [hop, List.length_take_of_le hle] at hlength
    omega

/-- **The longest operator is found**, whatever changes have been made.  It has as many bytes
as are said exactly if these are at least one, are in front of the text, and are an operator
of that kind, and no operator in front of the text is longer; and nothing is found exactly if
only the empty text may be an operator in front. What is an operator is decided by the last
change of it. -/
theorem longestOperator_configured (base : Base) (changes : List Change) (text : List UInt8) :
    let lx := base.lexicon.changeAll changes
    let kindOf := configured base changes
    (∀ kind n, lx.longestOperator text = some (kind, n) ↔
      0 < n ∧ n ≤ text.length ∧ (∃ op, Utf8.encode op = text.take n ∧ kindOf op = some kind) ∧
        ∀ op, (kindOf op).isSome → Utf8.encode op <+: text → (Utf8.encode op).length ≤ n) ∧
    (lx.longestOperator text = none ↔
      ∀ op, (kindOf op).isSome → Utf8.encode op <+: text → op = "") := by
  intro lx kindOf
  have hlx : lx.Configures kindOf := base.configures.changeAll changes
  have hempty : ∀ op, (Utf8.encode op).length ≤ 0 ↔ op = "" := by
    intro op
    rw [Nat.le_zero, List.length_eq_zero_iff]
    exact Utf8.encode_inj (t := "")
  constructor
  · intro kind n
    rw [longestOperator_eq_iff, IsLongest, hlx.find?_eq_some_iff, hlx.longer_iff]
  · rw [longestOperator_eq_iff, IsLongest, hlx.longer_iff]
    simp only [hempty]

example : (standard.changeAll [.withoutOperator "->", .withOperator "->" .dot,
    .withoutOperator ":="]).longestOperator [45, 62, 45] = some (.dot, 2) := by
  decide

end Braced.Lexicon
