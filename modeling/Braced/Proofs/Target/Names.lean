import Braced.Proofs.Parse.Follows
import Braced.Proofs.Target.Binding
import Braced.Proofs.Target.Structure
import Braced.Proofs.Token.Fits
import Braced.Proofs.Token.Places

/-!
# Braced.Proofs.Target.Names

The names of a tree are words of its source.

A token that carries a name was read where a word begins, so the name is that word; a
token without one gives the empty name.  So all names are spelled with letters, digits and
underscores, and only an imported function can have a name with nothing in it
(`Tree.spelled_of_ofSource`), where the lexicon gives the kind of names to a keyword or an
operator (`Tree.not_mem_importedNames`).
-/

namespace Braced

open Target Munch

/-! ## Words -/

theorem isWordChar_toChar {b : UInt8} (h : Ascii.isWordPart b = true) :
    isWordChar (Ascii.toChar b) = true := by
  have hall : ∀ b : UInt8, Ascii.isWordPart b = true → isWordChar (Ascii.toChar b) = true :=
    Ascii.forall_byte (by decide +kernel)
  exact hall b h

theorem isDigit_toChar {b : UInt8} (h : Ascii.isWordStart b = true) :
    (Ascii.toChar b).isDigit = false := by
  have hall : ∀ b : UInt8, Ascii.isWordStart b = true → (Ascii.toChar b).isDigit = false :=
    Ascii.forall_byte (by decide +kernel)
  exact hall b h

/-- A word of a source begins and goes on like a name. -/
theorem isLabel_text {b : UInt8} {bs : List UInt8} (hb : Ascii.isWordStart b = true)
    (hbs : ∀ c ∈ bs, Ascii.isWordPart c = true) : isLabel (Ascii.text (b :: bs)).toList = true := by
  have hpart : Ascii.isWordPart b = true := by
    simp [Ascii.isWordPart, hb]
  have hall : (bs.map Ascii.toChar).all isWordChar = true := by
    simpa using fun c hc => isWordChar_toChar (hbs c hc)
  simp only [Ascii.text, String.toList_ofList, List.map_cons, isLabel, isWordChar_toChar hpart,
    isDigit_toChar hb, hall, Bool.not_false, Bool.and_self]

namespace Token

variable {lx : Lexicon} {source : List UInt8} {tokens : List Token}

/-- The name that a token carries is a word. -/
theorem isLabel_of_ofSource (h : ofSource lx source = .ok tokens) {t : Token} (ht : t ∈ tokens)
    {name : String} (hvalue : t.value = .identifier name) : isLabel name.toList = true := by
  refine forall_ofSource (P := fun t => ∀ {name}, t.value = .identifier name →
    isLabel name.toList = true) (fun b bs kind value place htoken name hvalue => ?_)
    (fun _ _ hvalue => nomatch hvalue) h t ht hvalue
  cases htoken with
  | identifier hb =>
    cases hvalue
    exact isLabel_text hb fun c hc => List.all_eq_true.mp List.all_takeWhile c hc
  | _ => cases hvalue

/-- A name is a word, or there is nothing in it. -/
theorem identifierName_cases (h : ofSource lx source = .ok tokens) {t : Token} (ht : t ∈ tokens) :
    t.identifierName = "" ∨ isLabel t.identifierName.toList = true := by
  unfold identifierName
  split
  · next name hvalue => exact .inr (isLabel_of_ofSource h ht hvalue)
  · exact .inl rfl

end Token

namespace Tree

variable {lx : Lexicon} {source : List UInt8} {t : Tree}

/-- A name of a tree is that of a token. -/
theorem exists_token_of_ident (tokens : List Token) {id : NodeId} {text : String}
    (h : (ofTokens tokens).1.ident? id = some text) :
    ∃ token ∈ tokens, token.kind = .identifier ∧ token.identifierName = text := by
  obtain ⟨fuel, hread⟩ := build_spec tokens
  obtain ⟨passed, picked, hrest, hsublist, hkind, hnames⟩ :=
    (Goal.reach_follows fuel _ _ _ _ hread).names (Builder.terminated_ofTokens tokens)
  have hpassed : passed.Sublist (Builder.terminated tokens) := by
    rw [← Builder.rest_ofTokens, hrest]
    exact List.sublist_append_left _ _
  obtain ⟨position, hnode⟩ : ∃ position,
      (ofTokens tokens).1.node? id = some ⟨position, .ident text⟩ := by
    rw [ident?] at h
    split at h
    · next position _ hnode =>
      cases h
      exact ⟨position, hnode⟩
    · cases h
  have hmem : (position, text) ∈ (build tokens).names :=
    List.mem_filterMap.mpr ⟨⟨position, .ident text⟩,
      List.mem_of_getElem? (i := id.index) ((Array.getElem?_toList ..).trans hnode), rfl⟩
  rw [hnames] at hmem
  obtain ⟨token, htoken, hnaming⟩ := List.mem_map.mp hmem
  have hsub := sublist_of_terminated (hsublist.trans hpassed) hkind
  exact ⟨token, hsub.subset htoken, hkind token htoken, (Prod.mk.inj hnaming).2⟩

/-- **The names of a tree are words**, as far as there is something in them. -/
theorem isWord_of_ofSource (h : ofSource lx source = .ok t) {id : NodeId} {text : String}
    (hident : t.ident? id = some text) :
    text.toList.all isWordChar = true ∧ (text = "" ∨ isLabel text.toList = true) := by
  obtain ⟨tokens, htokens, rfl, -⟩ := tokens_of_ofSource h
  obtain ⟨token, htoken, -, rfl⟩ := exists_token_of_ident tokens hident
  obtain hempty | hlabel := Token.identifierName_cases htokens htoken
  · exact ⟨by rw [hempty]; rfl, .inl hempty⟩
  · exact ⟨Label.all_isWordChar ⟨_, hlabel⟩, .inr hlabel⟩

/-- All names can stand in a program of the target language, but for an imported one that is
empty. -/
theorem spelled_of_ofSource (h : ofSource lx source = .ok t) (hnames : "" ∉ t.importedNames) :
    t.Spelled t.importedNames := by
  intro id text hident
  obtain ⟨hword, hlabel⟩ := isWord_of_ofSource h hident
  refine ⟨hword, ?_⟩
  by_cases himported : text ∈ t.importedNames
  · rw [functionText_of_mem himported]
    exact hlabel.resolve_left fun hempty => hnames (hempty ▸ himported)
  · have hown : (variableText text).toList = 's' :: 'c' :: '_' :: text.toList := by
      simp [variableText, Name.text, ownMark]
    rw [functionText_of_not_mem himported, hown]
    exact hword

/-- No function is imported under the empty name, where only words are names. -/
theorem not_mem_importedNames (hlx : lx.Bare) (h : ofSource lx source = .ok t) :
    "" ∉ t.importedNames := by
  obtain ⟨tokens, htokens, rfl, -⟩ := tokens_of_ofSource h
  intro hmem
  obtain ⟨⟨id, kind⟩, -, hname⟩ := List.mem_filterMap.mp hmem
  split at hname
  · obtain ⟨token, htoken, hkind, hempty⟩ := exists_token_of_ident tokens hname
    have hfits := Token.fits_ofSource hlx htokens token htoken
    have hlabel := Token.isLabel_of_ofSource htokens htoken (hfits.value_eq_identifier hkind)
    rw [hempty] at hlabel
    cases hlabel
  · cases hname

end Tree

end Braced
