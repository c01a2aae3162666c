import Braced.Proofs.Parse.Program
import Braced.Proofs.Token.Fits
import Braced.Proofs.Tree.Write

/-!
# Braced.Proofs.Tree.RoundTrip

Writing the tree of a source gives back the tokens it was read from, and each node stands at
the first token of its part.
-/

namespace Braced.Tree

open Builder

/-! ## Marks -/

/-- Every mark is that of a node, and at the place of the node. -/
def Places (t : Tree) (ps : List Piece) : Prop :=
  ∀ p ∈ ps, ∀ m ∈ p.marks, ∃ kind, t.node? m.id = some ⟨m.position, kind⟩

variable {t : Tree}

@[simp] theorem places_nil : t.Places [] :=
  List.forall_mem_nil _

@[simp] theorem places_cons (p : Piece) (ps : List Piece) :
    t.Places (p :: ps)
      ↔ (∀ m ∈ p.marks, ∃ kind, t.node? m.id = some ⟨m.position, kind⟩) ∧ t.Places ps :=
  List.forall_mem_cons

@[simp] theorem places_append (ps qs : List Piece) :
    t.Places (ps ++ qs) ↔ t.Places ps ∧ t.Places qs :=
  List.forall_mem_append

theorem Places.markFirst {ps : List Piece} (h : t.Places ps) {id : NodeId} {position : Position}
    {kind : NodeKind} (hnode : t.node? id = some ⟨position, kind⟩) :
    t.Places (Piece.markFirst ⟨id, position⟩ ps) := by
  cases ps with
  | nil => exact h
  | cons p ps =>
    rw [places_cons] at h
    rw [Piece.markFirst_cons, places_cons]
    exact ⟨List.forall_mem_cons.mpr ⟨⟨kind, hnode⟩, h.1⟩, h.2⟩

@[simp] theorem places_stepPieces (step : Option Step) : t.Places (stepPieces step) := by
  cases step <;> simp [stepPieces, Piece.bare]

@[simp] theorem places_blockPieces (ps : List Piece) :
    t.Places (blockPieces ps) ↔ t.Places ps := by
  simp [blockPieces, Piece.bare]

/-- Expressions mark their nodes. -/
theorem Writes.places {part : ExprPart} {ps : List Piece} (h : t.Writes part ps) :
    t.Places ps := by
  induction h with
  | binary hnode _ _ _ _ ih ih' =>
    exact Places.markFirst (by simp [ih, ih', Piece.bare]) hnode
  | prefixed hnode _ _ _ ih => simp [hnode, ih]
  | nested hnode _ _ ih => simp [hnode, ih, Piece.bare]
  | constant hnode _ => simp [hnode]
  | name hnode hname => simp [hnode, hname, Piece.name]
  | called hnode _ _ ih => simp [ih.markFirst hnode]
  | call hnode hcallee _ _ ih => simp [hnode, hcallee, ih, Piece.name, Piece.bare]
  | noArguments | noValues => exact places_nil
  | lastArgument _ ih => exact ih
  | argument _ _ ih ih' | value _ _ ih ih' => simp [ih, ih', Piece.bare]

theorem WritesType.places {id : NodeId} {ps : List Piece} (h : t.WritesType id ps) :
    t.Places ps := by
  obtain @⟨_, _, isConst, hnode⟩ := h
  cases isConst <;> simp [typePieces, hnode, Piece.bare]

theorem WritesTypeAfter.places {kind : TokenKind} {type : Option NodeId} {ps : List Piece}
    (h : t.WritesTypeAfter kind type ps) : t.Places ps := by
  cases h with
  | absent => exact places_nil
  | present hps => simp [hps.places, Piece.bare]

theorem WritesParameters.places {parameters : List Parameter} {ps : List Piece}
    (h : t.WritesParameters parameters ps) : t.Places ps := by
  induction h with
  | nil => exact places_nil
  | last hname hps => simp [hname, hps.places, Piece.name, Piece.bare]
  | cons hname hps _ ih => simp [hname, hps.places, ih, Piece.name, Piece.bare]

theorem WritesSignature.places {name : NodeId} {parameters : List Parameter}
    {result : Option NodeId} {ps : List Piece} (h : t.WritesSignature name parameters result ps) :
    t.Places ps := by
  obtain ⟨hname, hps, hqs⟩ := h
  simp [hname, hps.places, hqs.places, Piece.name, Piece.bare]

theorem WritesLine.places {id : NodeId} {ps : List Piece} (h : t.WritesLine id ps) :
    t.Places ps := by
  cases h with
  | declared hnode hname hps hqs =>
    simp [hnode, hname, hps.places, hqs.places, Piece.name, Piece.bare]
  | call hps => simp [hps.places, Piece.bare]

theorem WritesValue.places {value : Option NodeId} {ps : List Piece} (h : t.WritesValue value ps) :
    t.Places ps := by
  cases h with
  | absent => exact places_nil
  | present hps => exact hps.places

theorem WritesCondition.places {missing : Prop} {condition : Option NodeId} {ps : List Piece}
    (h : t.WritesCondition missing condition ps) : t.Places ps := by
  cases h with
  | absent => exact places_nil
  | present hps => exact hps.places

/-- Statements mark their nodes. -/
theorem WritesBlock.places {missing : Prop} {first : Nat} {part : StmtPart} {ps : List Piece}
    {ns : List Position} (h : t.WritesBlock missing first part ps ns) : t.Places ps := by
  induction h with
  | line hps | itemLine hps => exact hps.places
  | returning hnode hps => simp [hnode, hps.places, Piece.bare]
  | loopControl hnode _ => simp [hnode, Piece.bare]
  | conditional hnode hps _ _ _ _ _ _ ih ih' => simp [hnode, hps.places, ih, ih']
  | ifChain _ ih | inner _ _ ih | elifClause _ ih | itemFunction _ ih => exact ih
  | whileLoop hnode hps _ _ _ _ ih => simp [hnode, hps.places, ih]
  | noClauses | noStatements | noItems => exact places_nil
  | elseClause hnode _ _ _ _ ih => simp [hnode, ih]
  | statement _ _ ih ih' | consItem _ _ ih ih' => simp [ih, ih']
  | function hnode hps _ _ _ _ ih => simp [hps.places.markFirst hnode, ih]
  | imported hnode hps => simp [hnode, hps.places, Piece.name, Piece.bare]

/-- A marked node has its mark where it stands. -/
theorem Places.exists_mark {ps : List Piece} (h : t.Places ps) {id : NodeId} {node : Node}
    (hnode : t.node? id = some node) (hid : id ∈ Piece.marked ps) :
    ∃ p ∈ ps, ⟨id, node.position⟩ ∈ p.marks := by
  obtain ⟨p, hp, hid⟩ := List.mem_flatMap.mp hid
  obtain ⟨m, hm, rfl⟩ := List.mem_map.mp hid
  obtain ⟨kind, hkind⟩ := h p hp m hm
  rw [hnode] at hkind
  cases hkind
  exact ⟨p, hp, hm⟩

/-! ## The round trip -/

/-- **The tree loses nothing.**  When nothing is wrong with the grammar of a
source, the tree is written back as its tokens, with their kinds and values and in
their order, and every node has its mark at a token where the node stands. -/
theorem write_ofTokens {source : List UInt8} {tokens : List Token}
    (htokens : Token.ofSource .standard source = .ok tokens)
    (hclean : ∀ d ∈ (ofTokens tokens).2, d.fault.faultClass ≠ .syntactic) :
    ∃ ps, (ofTokens tokens).1.write = some ps ∧
      List.Forall₂ Piece.Matches ps (tokens.takeWhile (·.kind ≠ .eof)) ∧
      ∀ id node, (ofTokens tokens).1.node? id = some node →
        ∃ p ∈ ps, ⟨id, node.position⟩ ∈ p.marks := by
  obtain ⟨ps, ns, hreads, hend, hwrites⟩ := build_reads tokens
  have hnot : ¬(build tokens).Faulty := by
    rintro ⟨d, hd, hclass⟩
    exact hclean d hd hclass
  have hproper := proper_ofTokens (Token.fits_ofSource Lexicon.bare_standard htokens)
  have hspells := hreads.spells hnot hproper
  have hmatch := hspells.passed_eq hreads.extends_ hend
  rw [upcoming_ofTokens] at hmatch
  refine ⟨ps, hwrites.write_items, hmatch, fun id node hnode => ?_⟩
  obtain ⟨_, _, _, hmarked⟩ := hspells
  have hlt : id.index < (build tokens).nodes.size :=
    lt_size_of_isSome (t := (ofTokens tokens).1) (Option.isSome_iff_exists.mpr ⟨node, hnode⟩)
  exact hwrites.places.exists_mark hnode (hmarked id (Nat.zero_le _) hlt)

/-- The source `x=-(1);` is written back, with the parentheses. -/
theorem write_ofTokens_negation :
    ∃ tokens ps, Token.ofSource .standard [120, 61, 45, 40, 49, 41, 59] = .ok tokens ∧
      (ofTokens tokens).1.write = some ps ∧
      List.Forall₂ Piece.Matches ps (tokens.takeWhile (·.kind ≠ .eof)) := by
  have htokens : Token.ofSource .standard [120, 61, 45, 40, 49, 41, 59]
      = .ok [⟨.identifier, .identifier "x", ⟨1, 1⟩⟩, ⟨.assignment, .none, ⟨1, 2⟩⟩,
        ⟨.dash, .none, ⟨1, 3⟩⟩, ⟨.openParen, .none, ⟨1, 4⟩⟩, ⟨.intConst, .int 1, ⟨1, 5⟩⟩,
        ⟨.closeParen, .none, ⟨1, 6⟩⟩, ⟨.semicolon, .none, ⟨1, 7⟩⟩, ⟨.eof, .none, ⟨1, 8⟩⟩] := by
    decide +kernel
  obtain ⟨ps, hps, hmatch, -⟩ := write_ofTokens htokens (by decide +kernel)
  exact ⟨_, ps, htokens, hps, hmatch⟩

end Braced.Tree
