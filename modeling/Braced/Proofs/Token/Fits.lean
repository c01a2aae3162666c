import Braced.Proofs.Parse.Reads
import Braced.Proofs.Token.Scan

/-!
# Braced.Proofs.Token.Fits

Value and kind of a token that was read from a source go together
(`Token.fits_ofSource`), as long as no keyword and no operator of the lexicon has
the kind of a constant or of an identifier.
-/

namespace Braced

/-! ## Lexicons -/

namespace Lexicon

/-- Keywords and operators are of kinds that carry no value. -/
structure Bare (lx : Lexicon) : Prop where
  keywords : ∀ entry ∈ lx.keywords, entry.2.carries = false
  operators : ∀ entry ∈ lx.operators, entry.2.carries = false

theorem Bare.withKeyword {lx : Lexicon} (h : lx.Bare) (word : String) {kind : TokenKind}
    (hkind : kind.carries = false) : (lx.withKeyword word kind).Bare where
  keywords entry hentry := by
    rcases mem_assign hentry with rfl | hentry
    · exact hkind
    · exact h.keywords entry hentry
  operators := h.operators

theorem Bare.withOperator {lx : Lexicon} (h : lx.Bare) (text : String) {kind : TokenKind}
    (hkind : kind.carries = false) : (lx.withOperator text kind).Bare where
  keywords := h.keywords
  operators entry hentry := by
    rcases mem_assign hentry with rfl | hentry
    · exact hkind
    · exact h.operators entry hentry

/-- A property that each of some changes keeps is kept by all of them. -/
theorem foldl_keeps {P : Lexicon → Prop} {change : Lexicon → TokenKind → Lexicon}
    {kinds : List TokenKind} (hchange : ∀ lx, P lx → ∀ kind ∈ kinds, P (change lx kind))
    {lx : Lexicon} (h : P lx) : P (kinds.foldl change lx) := by
  induction kinds generalizing lx with
  | nil => exact h
  | cons kind kinds ih =>
    rw [List.foldl_cons]
    exact ih (fun lx hlx k hk => hchange lx hlx k (List.mem_cons_of_mem _ hk))
      (hchange lx h kind (List.mem_cons_self ..))

theorem bare_standard : standard.Bare := by
  have hkeywords : ∀ kind ∈ standardKeywords, kind.carries = false := by decide
  have hoperators : ∀ kind ∈ standardOperators, kind.carries = false := by decide
  have hempty : empty.Bare := ⟨List.forall_mem_nil _, List.forall_mem_nil _⟩
  unfold standard
  exact foldl_keeps (fun lx hlx kind hkind => hlx.withOperator _ (hoperators kind hkind))
    (foldl_keeps (fun lx hlx kind hkind => hlx.withKeyword _ (hkeywords kind hkind)) hempty)

end Lexicon

/-! ## Tokens -/

/-- A single byte carries nothing. -/
theorem TokenKind.carries_ofByte (b : UInt8) : (ofByte b).carries = false := by
  unfold ofByte
  split <;> rfl

theorem Munch.TokenAt.fits {lx : Lexicon} (hlx : lx.Bare) {b : UInt8} {bs : List UInt8}
    {kind : TokenKind} {value : TokenValue} (h : TokenAt lx b bs kind value) (place : Position) :
    Token.Fits ⟨kind, value, place⟩ := by
  cases h with
  | keyword h =>
    have hcarries := hlx.keywords _ (Lexicon.mem_of_find? h)
    simp [Token.Fits, TokenValue.fits, hcarries]
  | operator h =>
    have hcarries := hlx.operators _ (Lexicon.mem_of_find? h)
    simp [Token.Fits, TokenValue.fits, hcarries]
  | byte => simp [Token.Fits, TokenValue.fits, TokenKind.carries_ofByte]
  | _ => rfl

/-- **Value and kind go together** in every token of a source. -/
theorem Token.fits_ofSource {lx : Lexicon} (hlx : lx.Bare) {source : List UInt8}
    {tokens : List Token} (h : ofSource lx source = .ok tokens) : ∀ t ∈ tokens, t.Fits :=
  forall_ofSource (fun _ _ _ _ place ht => ht.fits hlx place) (fun _ => rfl) h

end Braced
