import Braced.Proofs.Token.Scan

/-!
# Braced.Proofs.Token.Places

Where the tokens of a source stand.

The reader keeps its line and its column up to date byte by byte, through comments
and literals, and a run of symbols counts columns from its own start.  All of these
come to one number: how many bytes lie in front of a token (`Munch.Lexeme.offset`).
So it is enough that the tokens of a source lie in it from left to right
(`Munch.scan_inOrder`), and that a place can be counted off from the bytes in front
of it (`Position.afterAll_start`).
-/

namespace Braced

open Munch

/-! ## Kinds of tokens -/

namespace Munch

variable {lx : Lexicon} {b : UInt8} {bs : List UInt8}

/-- A token begins with a byte of the source: it is what is read there. -/
def Lexeme.BeginsIn (lx : Lexicon) (source : List UInt8) (l : Lexeme) : Prop :=
  ∃ b bs more, source.drop l.offset = b :: bs ∧ itemAt lx b bs = .token l.kind l.value more

/-- Tokens that begin in a source behind its first `k` bytes, from left to right. -/
structure InOrder (lx : Lexicon) (source : List UInt8) (k : Nat) (lexemes : List Lexeme) :
    Prop where
  begins : ∀ l ∈ lexemes, l.BeginsIn lx source
  behind : ∀ l ∈ lexemes, k ≤ l.offset
  sorted : lexemes.Pairwise (·.offset < ·.offset)

theorem InOrder.mono {source : List UInt8} {k k' : Nat} {lexemes : List Lexeme}
    (h : InOrder lx source k' lexemes) (hle : k ≤ k') : InOrder lx source k lexemes :=
  ⟨h.begins, fun l hl => Nat.le_trans hle (h.behind l hl), h.sorted⟩

theorem InOrder.cons {source : List UInt8} {k : Nat} {l : Lexeme} {lexemes : List Lexeme}
    (hl : l.BeginsIn lx source) (hk : k ≤ l.offset)
    (h : InOrder lx source (l.offset + 1) lexemes) : InOrder lx source k (l :: lexemes) where
  begins := List.forall_mem_cons.mpr ⟨hl, h.begins⟩
  behind := by
    refine List.forall_mem_cons.mpr ⟨hk, fun l' hl' => ?_⟩
    have hbehind := h.behind l' hl'
    omega
  sorted := List.pairwise_cons.mpr ⟨fun l' hl' => h.behind l' hl', h.sorted⟩

end Munch

/-! ## A whole source -/

/-- Spaces go up to the end of a source in one line. -/
theorem Reader.resume_spaces {lx : Lexicon} {here : Position} {read : List Token} (n : Nat) :
    (within .idle here read).resume lx (List.replicate n 32) =
      .ok (read.reverse ++ [⟨.eof, .none, here.right n⟩]) := by
  have hblank : ∀ b ∈ List.replicate n (32 : UInt8), Ascii.isBlank b = true := by
    intro b hb
    rw [List.eq_of_mem_replicate hb]
    rfl
  have hnewline : Ascii.newline ∉ List.replicate n (32 : UInt8) := by
    simp [Ascii.newline]
  rw [resume_blanks hblank, Position.afterAll_eq_right _ hnewline, List.length_replicate]

namespace Token

variable {lx : Lexicon} {source : List UInt8} {tokens : List Token}

/-- Of blanks there is nothing to read but the end. -/
theorem ofSource_blanks (h : ∀ b ∈ source, Ascii.isBlank b = true) :
    ofSource lx source = .ok [⟨.eof, .none, Position.counted source⟩] := by
  rw [← Position.afterAll_start]
  exact Reader.resume_blanks h

/-- The end of a source of `n` spaces is in the first line, and its column is `n + 1` only up to
`n = 2 ^ 32 - 2`: with one more space it is zero. -/
theorem ofSource_spaces (lx : Lexicon) (n : Nat) :
    ofSource lx (List.replicate n 32) = .ok [⟨.eof, .none, ⟨1, UInt32.ofNat (1 + n)⟩⟩] ∧
    UInt32.ofNat (1 + (2 ^ 32 - 1)) = 0 := by
  refine ⟨(Reader.resume_spaces n).trans ?_, rfl⟩
  rw [UInt32.ofNat_add]
  rfl

end Token

end Braced
