import Braced.Text.Utf8
import Braced.Token

/-!
# Braced.Lexicon

The tables that reading tokens depends on: which words are keywords, which
runs of symbols are operators, and how long an identifier may be.

A lexicon is a value. Changing an entry gives a new lexicon, so two readers
never share a table. An entry made later replaces an earlier one for the same
text.
-/

namespace Braced

/-- A lexicon. Operators are kept as bytes, which is what a source holds. -/
structure Lexicon where
  keywords : List (String × TokenKind)
  operators : List (List UInt8 × TokenKind)
  /-- The length in bytes from which operators are looked for downwards. -/
  operatorLimit : Nat
  /-- The length in bytes of the longest identifier that is accepted. -/
  identifierLimit : Nat
  /-- No operator is too long to be found. -/
  length_le : ∀ entry ∈ operators, entry.1.length ≤ operatorLimit
  deriving Repr

namespace Lexicon

/-! ## Tables -/

/-- A table without the entry for `key`. -/
def drop [DecidableEq α] (key : α) (table : List (α × β)) : List (α × β) :=
  table.filter fun entry => entry.1 ≠ key

/-- A table in which `key` has the given value. -/
def assign [DecidableEq α] (key : α) (value : β) (table : List (α × β)) : List (α × β) :=
  (key, value) :: drop key table

/-- The value of a key in a table. -/
def find? [DecidableEq α] (key : α) : List (α × β) → Option β
  | [] => none
  | entry :: table => if entry.1 = key then some entry.2 else find? key table

@[simp] theorem find?_nil [DecidableEq α] (key : α) : find? key ([] : List (α × β)) = none := rfl

/-- What is found is an entry of the table. -/
theorem mem_of_find? [DecidableEq α] {key : α} {table : List (α × β)} {value : β}
    (h : find? key table = some value) : (key, value) ∈ table := by
  induction table with
  | nil => cases h
  | cons entry table ih =>
    unfold find? at h
    split at h
    · next hkey =>
      cases h
      rw [← hkey]
      exact List.mem_cons_self ..
    · exact List.mem_cons_of_mem _ (ih h)

/-- A dropped key has no value, and the others keep theirs. -/
theorem find?_drop [DecidableEq α] (key other : α) (table : List (α × β)) :
    find? other (drop key table) = if other = key then none else find? other table := by
  induction table with
  | nil => simp [drop]
  | cons entry table ih =>
    simp only [drop] at ih
    by_cases h : entry.1 = key <;> by_cases h' : entry.1 = other <;>
      simp_all [drop, find?]

/-- An assigned key has its new value, and the others keep theirs. -/
theorem find?_assign [DecidableEq α] (key other : α) (value : β) (table : List (α × β)) :
    find? other (assign key value table) =
      if other = key then some value else find? other table := by
  by_cases h : other = key
  · simp [assign, find?, h]
  · have h' : key ≠ other := fun e => h e.symm
    simp [assign, find?, h, h', find?_drop]

/-- An entry is the one that was assigned, or was there before. -/
theorem mem_assign [DecidableEq α] {key : α} {value : β} {table : List (α × β)} {entry : α × β}
    (h : entry ∈ assign key value table) : entry = (key, value) ∨ entry ∈ table := by
  rcases List.mem_cons.mp h with h | h
  · exact .inl h
  · exact .inr (List.mem_filter.mp h).1

/-- The length of the longest key of a table, which is 0 for an empty table. -/
def keyLimit : List (List UInt8 × β) → Nat
  | [] => 0
  | entry :: table => max entry.1.length (keyLimit table)

theorem length_le_keyLimit {table : List (List UInt8 × β)} :
    ∀ entry ∈ table, entry.1.length ≤ keyLimit table := by
  induction table with
  | nil => simp
  | cons first table ih =>
    intro entry hentry
    rcases List.mem_cons.mp hentry with rfl | hentry
    · exact Nat.le_max_left ..
    · exact Nat.le_trans (ih entry hentry) (Nat.le_max_right ..)

/-! ## Building a lexicon -/

/-- No keywords and no operators of more than one byte. -/
def empty : Lexicon := ⟨[], [], 0, 512, List.forall_mem_nil _⟩

def withKeyword (lx : Lexicon) (word : String) (kind : TokenKind) : Lexicon :=
  { lx with keywords := assign word kind lx.keywords }

def withoutKeyword (lx : Lexicon) (word : String) : Lexicon :=
  { lx with keywords := drop word lx.keywords }

def withOperator (lx : Lexicon) (text : String) (kind : TokenKind) : Lexicon :=
  { lx with
    operators := assign (Text.Utf8.encode text) kind lx.operators
    operatorLimit := max lx.operatorLimit (Text.Utf8.encode text).length
    length_le := by
      intro entry hentry
      rcases mem_assign hentry with rfl | hentry
      · exact Nat.le_max_right ..
      · exact Nat.le_trans (lx.length_le entry hentry) (Nat.le_max_left ..) }

/-- The limit is that of the operators that remain, and may go down. -/
def withoutOperator (lx : Lexicon) (text : String) : Lexicon :=
  let operators := drop (Text.Utf8.encode text) lx.operators
  { lx with operators, operatorLimit := keyLimit operators, length_le := length_le_keyLimit }

def withIdentifierLimit (lx : Lexicon) (limit : Nat) : Lexicon :=
  { lx with identifierLimit := limit }

/-- The keywords of the language. -/
def standardKeywords : List TokenKind :=
  [.kwIf, .kwElif, .kwElse, .kwWhile, .kwBreak, .kwContinue, .kwReturn, .kwConst, .kwInt, .kwFloat,
    .kwDouble, .kwByte, .kwBoolean, .kwForeign, .kwFrom]

/-- The operators of more than one byte of the language. -/
def standardOperators : List TokenKind :=
  [.colonAssign, .lessEquals, .greaterEquals, .notEquals, .equals, .plusPlus, .minusMinus, .arrow]

/-- The lexicon of the language: each keyword and operator has the spelling that
    its kind describes. -/
def standard : Lexicon :=
  let words := standardKeywords.foldl (fun lx kind => lx.withKeyword kind.describe kind) empty
  standardOperators.foldl (fun lx kind => lx.withOperator kind.describe kind) words

/-! ## Looking things up -/

/-- The kind of a word that is a keyword. -/
def keyword? (lx : Lexicon) (word : String) : Option TokenKind :=
  find? word lx.keywords

/-- The longest of the first `n` bytes of `text`, `n - 1` of them and so on down to
    one that are in a table, as their kind and their number. -/
def longestUpTo (table : List (List UInt8 × TokenKind)) (text : List UInt8) :
    (n : Nat) → Option (TokenKind × Nat)
  | 0 => none
  | n + 1 =>
    match find? (text.take (n + 1)) table with
    | some kind => some (kind, n + 1)
    | none => longestUpTo table text n

/-- The longest operator that `text` starts with, as its kind and its length. -/
def longestOperator (lx : Lexicon) (text : List UInt8) : Option (TokenKind × Nat) :=
  longestUpTo lx.operators text (min lx.operatorLimit text.length)

end Lexicon

end Braced
