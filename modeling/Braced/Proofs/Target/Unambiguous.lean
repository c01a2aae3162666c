import Braced.Proofs.Compile
import Braced.Proofs.Target.Names

/-!
# Braced.Proofs.Target.Unambiguous

The text of a body tells its structure.

A body that was read is written as its shapes (`Tree.IsBody.hasStmts`), and no two lists of
shapes have the same text, so two bodies with the same text have the same structure.
Only a function that is imported under the empty name can be mistaken: a call of it is written
like its argument in parentheses.
-/

namespace Braced

open Target

namespace Tree

variable {lx lx' : Lexicon} {source source' : List UInt8} {t t' : Tree} {body body' : ScopeId}

/-- The scope is the body of a function of the program. -/
def IsBody (t : Tree) (body : ScopeId) : Prop :=
  ∃ id ∈ t.rootStatements, ∃ name result parameters,
    t.kind? id = some (.function name result parameters body .own)

/-- **A body that was read has a structure**, and its lines are those of the structure. -/
theorem IsBody.hasStmts (h : ofSource lx source = .ok t) (hnames : "" ∉ t.importedNames)
    (hbody : t.IsBody body) : ∃ ss shapes, t.block t.importedNames body = .ok ss ∧
      t.HasStmts t.importedNames (t.statements body) shapes ∧ Stmt.AllWrittenAs ss shapes := by
  have hspelled := spelled_of_ofSource h hnames
  obtain ⟨tokens, rfl, hclean⟩ := ofSource_eq_ok h
  obtain ⟨ps, ns, hreads, -, hwrites⟩ := build_reads tokens
  have hnone : ns = [] := by
    have hnested : (ofTokens tokens).2.filterMap Diagnostic.nestedPosition? = ns := hreads.nested
    rw [← hnested, hclean]
    rfl
  obtain ⟨id, hid, name, result, parameters, hkind⟩ := hbody
  obtain ⟨⟨position, kind⟩, hnode, rfl⟩ := Option.map_eq_some_iff.mp hkind
  exact hwrites.shaped hspelled hnone id hid position name result parameters body hnode

/-- **Text tells the structure of a body.**  In the trees of two sources that are accepted,
whatever their lexicons, two bodies whose blocks are written alike consist of the same
statements in the same order, with the same clauses, operators, operands and arguments, as
long as no function is imported under the empty name.  None is where the lexicon gives the
kinds that carry a value to no keyword and no operator. -/
theorem same_structure_of_texts_eq (h : ofSource lx source = .ok t)
    (h' : ofSource lx' source' = .ok t') :
    (lx.Bare → "" ∉ t.importedNames) ∧
    ("" ∉ t.importedNames → "" ∉ t'.importedNames → ∀ body body', t.IsBody body → t'.IsBody body' →
      ∃ ss ss', t.block t.importedNames body = .ok ss ∧ t'.block t'.importedNames body' = .ok ss' ∧
        (Stmt.texts 1 ss = Stmt.texts 1 ss' → ∃ shapes,
          t.HasStmts t.importedNames (t.statements body) shapes ∧
          t'.HasStmts t'.importedNames (t'.statements body') shapes)) := by
  refine ⟨fun hlx => not_mem_importedNames hlx h, fun hnames hnames' body body' hbody hbody' => ?_⟩
  obtain ⟨ss, shapes, hss, hshapes, htext⟩ := hbody.hasStmts h hnames
  obtain ⟨ss', shapes', hss', hshapes', htext'⟩ := hbody'.hasStmts h' hnames'
  refine ⟨ss, ss', hss, hss', fun heq => ⟨shapes, hshapes, ?_⟩⟩
  have hwrite : StmtShape.writeAll 1 shapes [] = StmtShape.writeAll 1 shapes' [] := by
    rw [← htext, ← htext', heq]
  rwa [StmtShape.writeAll_inj Nat.one_pos hwrite]

/-- The sources `f:(x:int)->int{return (x);}` and `g: (x: int) -> int { return ( x ); }` have
bodies of the same structure. -/
theorem same_structure_of_spaces : ∃ t t', ofSource .standard
      [102, 58, 40, 120, 58, 105, 110, 116, 41, 45, 62, 105, 110, 116, 123, 114, 101, 116,
      117, 114, 110, 32, 40, 120, 41, 59, 125] = .ok t ∧
    ofSource .standard
      [103, 58, 32, 40, 120, 58, 32, 105, 110, 116, 41, 32, 45, 62, 32, 105, 110, 116, 32,
      123, 32, 114, 101, 116, 117, 114, 110, 32, 40, 32, 120, 32, 41, 59, 32, 125] = .ok t' ∧
    ∃ shapes, t.HasStmts t.importedNames (t.statements ⟨1⟩) shapes ∧
      t'.HasStmts t'.importedNames (t'.statements ⟨1⟩) shapes := by
  have hread : ∀ source : List UInt8, ((ofSource .standard source).toOption.map fun t =>
      (t.rootStatements, t.kind? ⟨8⟩, (t.block t.importedNames ⟨1⟩).toOption.map (Stmt.texts 1)))
        = some ([⟨8⟩], some (.function ⟨0⟩ (some ⟨3⟩) [⟨⟨2⟩, ⟨1⟩⟩] ⟨1⟩ .own),
          some "    return (sc_x);\n") →
      ∃ t, ofSource .standard source = .ok t ∧ t.IsBody ⟨1⟩ ∧
        (t.block t.importedNames ⟨1⟩).toOption.map (Stmt.texts 1)
          = some "    return (sc_x);\n" := by
    intro source hsource
    refine exists_ok_of_toOption _ _ hsource fun t _ hfacts => ?_
    obtain ⟨hroot, hfacts⟩ := Prod.mk.inj hfacts
    obtain ⟨hkind, htext⟩ := Prod.mk.inj hfacts
    exact ⟨⟨⟨8⟩, by rw [hroot]; exact List.mem_cons_self .., _, _, _, hkind⟩, htext⟩
  obtain ⟨t, h, hbody, htext⟩ := hread [102, 58, 40, 120, 58, 105, 110, 116, 41, 45, 62,
    105, 110, 116, 123, 114, 101, 116, 117, 114, 110, 32, 40, 120, 41, 59, 125] (by decide +kernel)
  obtain ⟨t', h', hbody', htext'⟩ := hread [103, 58, 32, 40, 120, 58, 32, 105, 110, 116,
    41, 32, 45, 62, 32, 105, 110, 116, 32, 123, 32, 114, 101, 116, 117, 114, 110, 32, 40, 32, 120,
    32, 41, 59, 32, 125] (by decide +kernel)
  obtain ⟨hbare, hsame⟩ := same_structure_of_texts_eq h h'
  obtain ⟨ss, ss', hss, hss', hshapes⟩ := hsame (hbare Lexicon.bare_standard)
    ((same_structure_of_texts_eq h' h).1 Lexicon.bare_standard) _ _ hbody hbody'
  rw [hss] at htext
  rw [hss'] at htext'
  exact ⟨t, t', h, h', hshapes (Option.some.inj (htext.trans htext'.symm))⟩

/-- A statement that returns a value has the shape of one. -/
theorem HasStmts.of_returning {imports : List String} {id value : NodeId} {shapes : List StmtShape}
    (h : t.HasStmts imports [id] shapes)
    (hkind : t.kind? id = some (.jump .returning (some value))) :
    ∃ e, shapes = [.returning (some e)] ∧ t.HasShape imports value e := by
  obtain ⟨⟨position, kind⟩, hnode, rfl⟩ := Option.map_eq_some_iff.mp hkind
  cases shapes with
  | nil => cases h
  | cons s ss =>
    obtain ⟨_, _, hids, hs, hss⟩ := h
    obtain ⟨rfl, rfl⟩ := List.cons.inj hids
    obtain rfl : ss = [] := by
      cases ss with
      | nil => rfl
      | cons => obtain ⟨_, _, hnil, -⟩ := hss; cases hnil
    cases s with
    | returning value' =>
      obtain ⟨_, v, hnode', hvalue⟩ := hs
      rw [hnode] at hnode'
      cases hnode'
      cases value' with
      | none => cases hvalue
      | some e =>
        obtain ⟨_, heq, he⟩ := hvalue
        cases heq
        exact ⟨e, rfl, he⟩
    | _ => grind [HasStmt, HasOperand]

/-- Under a lexicon in which `$` is a name, the source
`#foreign from(m,$:(a:int)->int);f:(x:int)->int{return $(x);}g:(x:int)->int{return (x);}` has
a body that returns what a call gives, and one that returns an operand in parentheses, which
are written alike. -/
theorem same_text_of_empty_name : ∃ t, ofSource (Lexicon.standard.withOperator "$" .identifier)
      [35, 102, 111, 114, 101, 105, 103, 110, 32, 102, 114, 111, 109, 40, 109, 44, 36, 58,
      40, 97, 58, 105, 110, 116, 41, 45, 62, 105, 110, 116, 41, 59, 102, 58, 40, 120, 58,
      105, 110, 116, 41, 45, 62, 105, 110, 116, 123, 114, 101, 116, 117, 114, 110, 32, 36,
      40, 120, 41, 59, 125, 103, 58, 40, 120, 58, 105, 110, 116, 41, 45, 62, 105, 110, 116,
      123, 114, 101, 116, 117, 114, 110, 32, 40, 120, 41, 59, 125] = .ok t ∧
    ∃ body body' ss ss', t.IsBody body ∧ t.IsBody body' ∧
      t.block t.importedNames body = .ok ss ∧ t.block t.importedNames body' = .ok ss' ∧
      Stmt.texts 1 ss = Stmt.texts 1 ss' ∧
      ¬ ∃ shapes, t.HasStmts t.importedNames (t.statements body) shapes ∧
        t.HasStmts t.importedNames (t.statements body') shapes := by
  refine exists_ok_of_toOption
    (fun t => ([t.rootStatements, t.statements ⟨2⟩, t.statements ⟨3⟩],
      [⟨15⟩, ⟨24⟩, ⟨14⟩, ⟨23⟩, ⟨13⟩, ⟨22⟩].map t.kind?,
      [⟨2⟩, ⟨3⟩].map fun body => (t.block t.importedNames body).toOption.map (Stmt.texts 1)))
    ([[⟨4⟩, ⟨15⟩, ⟨24⟩], [⟨14⟩], [⟨23⟩]],
      [some (.function ⟨5⟩ (some ⟨8⟩) [⟨⟨7⟩, ⟨6⟩⟩] ⟨2⟩ .own),
        some (.function ⟨16⟩ (some ⟨19⟩) [⟨⟨18⟩, ⟨17⟩⟩] ⟨3⟩ .own),
        some (.jump .returning (some ⟨13⟩)), some (.jump .returning (some ⟨22⟩)),
        some (.primary (.call ⟨12⟩) none), some (.unary .nested ⟨21⟩)],
      [some "    return (sc_x);\n", some "    return (sc_x);\n"]) (by decide +kernel)
    fun t _ hread => ?_
  simp only [Prod.mk.injEq, List.map_cons, List.map_nil, List.cons.injEq, and_true] at hread
  obtain ⟨⟨hroot, hids, hids'⟩, ⟨hf, hg, hreturn, hreturn', hcall, hnested⟩, htext, htext'⟩ := hread
  cases hss : t.block t.importedNames ⟨2⟩ with
  | error e =>
    rw [hss] at htext
    cases htext
  | ok ss =>
    cases hss' : t.block t.importedNames ⟨3⟩ with
    | error e =>
      rw [hss'] at htext'
      cases htext'
    | ok ss' =>
      rw [hss] at htext
      rw [hss'] at htext'
      refine ⟨⟨2⟩, ⟨3⟩, ss, ss', ⟨⟨15⟩, by simp [hroot], _, _, _, hf⟩,
        ⟨⟨24⟩, by simp [hroot], _, _, _, hg⟩, hss, hss',
        (Option.some.inj htext).trans (Option.some.inj htext').symm, ?_⟩
      rintro ⟨shapes, hshapes, hshapes'⟩
      rw [hids] at hshapes
      rw [hids'] at hshapes'
      obtain ⟨e, rfl, he⟩ := hshapes.of_returning hreturn
      obtain ⟨e', heq, he'⟩ := hshapes'.of_returning hreturn'
      cases heq
      cases e <;> grind [HasShape, kind?]

end Tree

end Braced
