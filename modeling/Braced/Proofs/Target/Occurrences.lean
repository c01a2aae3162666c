import Braced.Target.OfTree
import Braced.Proofs.Tree.Uses

/-!
# Braced.Proofs.Target.Occurrences

The identifiers in a program of the target language, each with what is declared
around it.

There, declarations are known by their text alone.  A block begins with the
declarations that come before a place in it, a function's parameters are part of its
outermost block, and outside of all functions stand the prototypes and the variables
of the file.

The occurrences in the program of a tree are the uses in the tree, in the same order
(`Tree.occurrences_ofTree`).
-/

namespace Braced

namespace Target

/-- An identifier, and what is declared around it. -/
structure Occurrence where
  identifier : String
  around : Surroundings String
  deriving DecidableEq, Repr

/-- The innermost declarations of the identifier, with the number of frames around
them. -/
def Occurrence.declarations (o : Occurrence) : Option (Nat × List String) :=
  o.around.find (· = o.identifier)

/-! ## Expressions and statements -/

mutual

/-- The identifiers in an expression. -/
def Expr.identifiers : Expr → List String
  | .int _ | .float _ | .char _ | .string _ => []
  | .name n => [n.text]
  | .call function arguments => function.text :: Expr.allIdentifiers arguments
  | .binary _ left right => left.identifiers ++ right.identifiers
  | .unary _ operand => operand.identifiers
  | .stepped operand _ => operand.identifiers

def Expr.allIdentifiers : List Expr → List String
  | [] => []
  | e :: es => e.identifiers ++ Expr.allIdentifiers es

end

/-- What a statement declares in its block, for its own values too. -/
def Stmt.declared : Stmt → List String
  | .declare _ _ name _ => [name.text]
  | _ => []

mutual

/-- The occurrences in a statement. -/
def Stmt.occurrences (around : Surroundings String) : Stmt → List Occurrence
  | .declare _ _ _ values => (Expr.allIdentifiers values).map (⟨·, around⟩)
  | .assign name values => (name.text :: Expr.allIdentifiers values).map (⟨·, around⟩)
  | .call call => call.identifiers.map (⟨·, around⟩)
  | .returning value => (value.toList.flatMap Expr.identifiers).map (⟨·, around⟩)
  | .breaking | .continuing => []
  | .flow clauses => Clause.allOccurrences around clauses

/-- The occurrences in the statements of a block. -/
def Stmt.allOccurrences (around : Surroundings String) : List Stmt → List Occurrence
  | [] => []
  | s :: ss =>
    s.occurrences (around.declare s.declared) ++
      Stmt.allOccurrences (around.declare s.declared) ss

def Clause.occurrences (around : Surroundings String) : Clause → List Occurrence
  | .mk _ condition body =>
    (condition.toList.flatMap Expr.identifiers).map (⟨·, around⟩) ++
      Stmt.allOccurrences around.enter body

def Clause.allOccurrences (around : Surroundings String) : List Clause → List Occurrence
  | [] => []
  | c :: cs => c.occurrences around ++ Clause.allOccurrences around cs

end

/-! ## Programs -/

/-- What is declared outside of all functions. -/
def Program.declared (p : Program) : List String :=
  p.prototypes.map (·.name.text) ++ p.globals.map (·.2.text)

/-- The occurrences in a function. -/
def Function.occurrences (file : List String) (f : Function) : List Occurrence :=
  Stmt.allOccurrences ⟨[f.signature.parameters.map (·.2.text)], file⟩ f.body

/-- All occurrences: in the functions, and in the startup function, which stands behind
them and is itself declared outside. -/
def Program.occurrences (p : Program) : List Occurrence :=
  p.functions.flatMap (Function.occurrences p.declared) ++
    Stmt.allOccurrences ⟨[[]], startupName :: p.declared⟩ p.startup

theorem Expr.allIdentifiers_eq (es : List Expr) :
    Expr.allIdentifiers es = es.flatMap Expr.identifiers := by
  induction es with
  | nil => rfl
  | cons e es ih => rw [Expr.allIdentifiers, ih, List.flatMap_cons]

theorem Stmt.allOccurrences_eq (around : Surroundings String) (ss : List Stmt) :
    Stmt.allOccurrences around ss = around.along Stmt.declared Stmt.occurrences ss := by
  induction ss generalizing around with
  | nil => rfl
  | cons s ss ih => rw [Stmt.allOccurrences, ih, Surroundings.along]

theorem Clause.allOccurrences_eq (around : Surroundings String) (cs : List Clause) :
    Clause.allOccurrences around cs = cs.flatMap (Clause.occurrences around) := by
  induction cs with
  | nil => rfl
  | cons c cs ih => rw [Clause.allOccurrences, ih, List.flatMap_cons]

end Target

/-! ## How names are written -/

open Target

/-- The text of a function's name. -/
def functionText (imports : List String) (name : String) : String :=
  (if imports.contains name then Name.imported name else .own name).text

/-- The text of a variable's name. -/
def variableText (name : String) : String :=
  (Name.own name).text

/-- How the name of an entry is declared. -/
def Entry.text (imports : List String) (e : Entry) : String :=
  match e.kind with
  | .function => functionText imports e.name
  | _ => variableText e.name

def Mention.text (imports : List String) : Mention → String
  | .variable name => variableText name
  | .function name => functionText imports name

/-- How a use is written where `file` is declared outside of all functions. At the top
level there are no blocks around it, and it is written in the block of the startup
function. -/
def Use.written (imports file : List String) (u : Use) : Occurrence where
  identifier := u.mention.text imports
  around :=
    match u.around.blocks with
    | [] => ⟨[[]], startupName :: file⟩
    | blocks => ⟨blocks.map (·.map fun e => variableText e.name), file⟩

/-! ## Results that are given -/

section Results

variable {α β γ : Type}

theorem bind_eq_ok_iff {r : Except EmitError α} {f : α → Except EmitError β} {b : β} :
    (r >>= f) = .ok b ↔ ∃ a, r = .ok a ∧ f a = .ok b := by
  cases r with
  | error e => simp [bind, Except.bind]
  | ok a => simp [bind, Except.bind]

theorem pure_eq_ok_iff {a b : α} : (pure a : Except EmitError α) = .ok b ↔ a = b :=
  Except.ok.injEq a b ▸ Iff.rfl

theorem mapM_cons_eq_ok_iff {f : α → Except EmitError β} {a : α} {as : List α} {bs : List β} :
    (a :: as).mapM f = .ok bs ↔ ∃ b others, f a = .ok b ∧ as.mapM f = .ok others ∧
      b :: others = bs := by
  rw [List.mapM_cons]
  simp only [bind_eq_ok_iff, pure_eq_ok_iff]
  constructor
  · rintro ⟨b, hb, others, hothers, rfl⟩
    exact ⟨b, others, hb, hothers, rfl⟩
  · rintro ⟨b, others, hb, hothers, rfl⟩
    exact ⟨b, hb, others, hothers, rfl⟩

/-- What is put together from results is put together from what they are results of. -/
theorem flatMap_of_mapM {f : α → Except EmitError β} {g : β → List γ} {g' : α → List γ}
    (h : ∀ a b, f a = .ok b → g b = g' a) {as : List α} {bs : List β}
    (hmap : as.mapM f = .ok bs) : bs.flatMap g = as.flatMap g' := by
  induction as generalizing bs with
  | nil =>
    cases hmap
    rfl
  | cons a as ih =>
    obtain ⟨b, others, hb, hothers, rfl⟩ := mapM_cons_eq_ok_iff.mp hmap
    rw [List.flatMap_cons, List.flatMap_cons, h a b hb, ih hothers]

/-- Each of the results is what one of the arguments gives. -/
theorem exists_of_mapM {f : α → Except EmitError β} {as : List α} {bs : List β}
    (h : as.mapM f = .ok bs) {b : β} (hb : b ∈ bs) : ∃ a ∈ as, f a = .ok b := by
  induction as generalizing bs with
  | nil =>
    cases h
    cases hb
  | cons a as ih =>
    obtain ⟨b', others, hb', hothers, rfl⟩ := mapM_cons_eq_ok_iff.mp h
    obtain rfl | hb := List.mem_cons.mp hb
    · exact ⟨a, List.mem_cons_self .., hb'⟩
    · obtain ⟨a', ha', hread⟩ := ih hothers hb
      exact ⟨a', List.mem_cons_of_mem a ha', hread⟩

theorem toList_of_mapM {f : α → Except EmitError β} {g : β → List γ} {g' : α → List γ}
    (h : ∀ a b, f a = .ok b → g b = g' a) {a : Option α} {b : Option β}
    (hmap : a.mapM f = .ok b) : b.toList.flatMap g = a.toList.flatMap g' := by
  cases a with
  | none =>
    cases hmap
    rfl
  | some a =>
    have hmap : (some <$> f a) = Except.ok b := hmap
    simp only [map_eq_pure_bind, bind_eq_ok_iff, pure_eq_ok_iff] at hmap
    obtain ⟨b', hb, rfl⟩ := hmap
    simp [h a b' hb]

end Results

namespace Tree

variable {t : Tree} {imports : List String}

/-! ## Expressions -/

theorem get_eq_ok_iff {id : NodeId} {node : Node} :
    t.get id = .ok node ↔ t.node? id = some node := by
  rw [get]
  cases t.node? id with
  | none => simp
  | some node' => simp

theorem ident?_of_identName {id : NodeId} {name : String} (h : t.identName id = .ok name) :
    t.ident? id = some name := by
  simp only [identName, bind_eq_ok_iff, get_eq_ok_iff] at h
  obtain ⟨⟨position, kind⟩, hnode, h⟩ := h
  cases kind <;> cases h
  rw [ident?, hnode]

theorem text_variableName {id : NodeId} {name : Name} (h : t.variableName id = .ok name) :
    ∃ n, t.ident? id = some n ∧ name.text = variableText n := by
  simp only [variableName, bind_eq_ok_iff, pure_eq_ok_iff] at h
  obtain ⟨n, hn, rfl⟩ := h
  exact ⟨n, ident?_of_identName hn, rfl⟩

theorem text_functionName {id : NodeId} {name : Name} (h : t.functionName imports id = .ok name) :
    ∃ n, t.ident? id = some n ∧ name.text = functionText imports n := by
  simp only [functionName, bind_eq_ok_iff, pure_eq_ok_iff] at h
  obtain ⟨n, hn, rfl⟩ := h
  exact ⟨n, ident?_of_identName hn, rfl⟩

/-- **The identifiers in the expression of a node** are the names in the node. -/
theorem identifiers_targetExpr {fuel : Nat} {id : NodeId} {e : Expr}
    (h : t.targetExpr imports fuel id = .ok e) :
    e.identifiers = (t.mentions fuel id).map (Mention.text imports) := by
  induction fuel generalizing id e with
  | zero => cases h
  | succ fuel ih =>
    simp only [targetExpr, bind_eq_ok_iff, get_eq_ok_iff] at h
    obtain ⟨⟨position, kind⟩, hnode, h⟩ := h
    rw [mentions, kind?, hnode]
    cases kind with
    | binary op left right =>
      simp only [bind_eq_ok_iff, pure_eq_ok_iff] at h
      obtain ⟨l, hl, r, hr, rfl⟩ := h
      simp [Expr.identifiers, ih hl, ih hr]
    | unary op operand =>
      simp only [bind_eq_ok_iff, pure_eq_ok_iff] at h
      obtain ⟨o, ho, rfl⟩ := h
      simp [Expr.identifiers, ih ho]
    | primary value step =>
      -- the operator behind an operand mentions nothing
      cases value with
      | name name =>
        simp only [map_eq_pure_bind, bind_eq_ok_iff, pure_eq_ok_iff] at h
        obtain ⟨_, ⟨n, hn, rfl⟩, rfl⟩ := h
        obtain ⟨text, htext, heq⟩ := text_variableName hn
        cases step <;> simp [Expr.identifiers, htext, heq, Mention.text]
      | call call =>
        simp only [bind_eq_ok_iff, pure_eq_ok_iff] at h
        obtain ⟨operand, hoperand, rfl⟩ := h
        have hmentions := ih hoperand
        cases step <;> exact hmentions
      | _ =>
        simp only [bind_eq_ok_iff, pure_eq_ok_iff] at h
        obtain ⟨_, rfl, rfl⟩ := h
        cases step <;> rfl
    | call callee arguments isDirective =>
      simp only [bind_eq_ok_iff, pure_eq_ok_iff] at h
      obtain ⟨f, hf, as, has, rfl⟩ := h
      obtain ⟨n, hn, htext⟩ := text_functionName hf
      simp [Expr.identifiers, Expr.allIdentifiers_eq, hn, htext, Mention.text,
        flatMap_of_mapM (fun a b => ih) has, List.map_flatMap]
    | ident name =>
      cases h
      rfl
    | _ => cases h

theorem identifiers_expr {id : NodeId} {e : Expr} (h : t.expr imports id = .ok e) :
    e.identifiers = (t.mentionsOf id).map (Mention.text imports) :=
  identifiers_targetExpr h

theorem identifiers_values {values : List NodeId} {es : List Expr}
    (h : values.mapM (t.expr imports) = .ok es) :
    Expr.allIdentifiers es = (values.flatMap t.mentionsOf).map (Mention.text imports) := by
  rw [Expr.allIdentifiers_eq, flatMap_of_mapM (fun _ _ => identifiers_expr) h, List.map_flatMap]

theorem identifiers_option {value : Option NodeId} {e : Option Expr}
    (h : value.mapM (t.expr imports) = .ok e) : e.toList.flatMap Expr.identifiers =
      (value.toList.flatMap t.mentionsOf).map (Mention.text imports) := by
  rw [toList_of_mapM (fun _ _ => identifiers_expr) h, List.map_flatMap]

theorem identifiers_assigned {name : NodeId} {n : Name} {values : List NodeId} {es : List Expr}
    (hname : t.variableName name = .ok n) (hvalues : values.mapM (t.expr imports) = .ok es) :
    n.text :: Expr.allIdentifiers es = (t.assigned name values).map (Mention.text imports) := by
  obtain ⟨text, htext, heq⟩ := text_variableName hname
  simp [assigned, htext, heq, Mention.text, identifiers_values hvalues]

/-! ## Statements -/

/-- What surrounds a place inside of a function, as it is written. -/
def writtenAround (file : List String) (around : Surroundings Entry) : Surroundings String :=
  ⟨around.blocks.map (·.map fun e => variableText e.name), file⟩

variable {file : List String} {around : Surroundings Entry}

theorem written_of_block (h : around.blocks ≠ []) (m : Mention) (scope : ScopeId) :
    Use.written imports file ⟨m, scope, around⟩
      = ⟨m.text imports, writtenAround file around⟩ := by
  obtain ⟨block, blocks, hblocks⟩ := List.exists_cons_of_ne_nil h
  simp [Use.written, writtenAround, hblocks]

theorem map_written (h : around.blocks ≠ []) (ms : List Mention) (scope : ScopeId) :
    (ms.map fun m => (⟨m, scope, around⟩ : Use)).map (Use.written imports file) =
      (ms.map (Mention.text imports)).map (⟨·, writtenAround file around⟩) := by
  simp [written_of_block h]

theorem writtenAround_enter : writtenAround file around.enter = (writtenAround file around).enter :=
  rfl

theorem writtenAround_declare (h : around.blocks ≠ []) (new : List Entry) :
    writtenAround file (around.declare new)
      = (writtenAround file around).declare (new.map fun e => variableText e.name) := by
  obtain ⟨block, blocks, hblocks⟩ := List.exists_cons_of_ne_nil h
  simp [writtenAround, Surroundings.declare, hblocks]

theorem blocks_declare (h : around.blocks ≠ []) (new : List Entry) :
    (around.declare new).blocks ≠ [] := by
  obtain ⟨block, blocks, hblocks⟩ := List.exists_cons_of_ne_nil h
  simp [Surroundings.declare, hblocks]

/-- The statement of a node, and the node, declare the same in a block. -/
def Matches (t : Tree) (imports file : List String) (uses : Surroundings Entry → List Use)
    (id : NodeId) (s : Stmt) : Prop :=
  s.declared = (t.bindings id).map (fun e => variableText e.name) ∧
    ∀ around : Surroundings Entry, around.blocks ≠ [] →
      s.occurrences (writtenAround file around) = (uses around).map (Use.written imports file)

/-- Statements that match nodes one by one match them as a block. -/
theorem along_of_mapM {f : NodeId → Except EmitError Stmt}
    {uses : Surroundings Entry → NodeId → List Use}
    (h : ∀ id s, f id = .ok s → t.Matches imports file (uses · id) id s) {ids : List NodeId}
    {ss : List Stmt} (hmap : ids.mapM f = .ok ss) (hblocks : around.blocks ≠ []) :
    Stmt.allOccurrences (writtenAround file around) ss =
      (around.along t.bindings uses ids).map (Use.written imports file) := by
  rw [Stmt.allOccurrences_eq]
  induction ids generalizing ss around with
  | nil =>
    cases hmap
    rfl
  | cons id ids ih =>
    obtain ⟨s, others, hs, hothers, rfl⟩ := mapM_cons_eq_ok_iff.mp hmap
    obtain ⟨hdeclared, hoccurrences⟩ := h id s hs
    have hblocks' := blocks_declare hblocks (t.bindings id)
    rw [Surroundings.along, Surroundings.along, List.map_append, hdeclared,
      ← writtenAround_declare hblocks, hoccurrences _ hblocks', ih hothers hblocks']

/-- Clauses have the occurrences that are told, in any block. -/
def MatchesClauses (imports file : List String) (uses : Surroundings Entry → List Use)
    (cs : List Clause) : Prop :=
  ∀ around : Surroundings Entry, around.blocks ≠ [] →
    Clause.allOccurrences (writtenAround file around) cs =
      (uses around).map (Use.written imports file)

variable {fuel : Nat} {scope : ScopeId} {id : NodeId}

/-- A statement matches its node if clauses do whose parts nest less deep. -/
theorem matches_targetStmt
    (ihclauses : ∀ cs, t.targetClauses imports fuel id = .ok cs →
      MatchesClauses imports file (t.clauseUses fuel scope · id) cs)
    {s : Stmt} (h : t.targetStmt imports (fuel + 1) id = .ok s) :
    t.Matches imports file (t.stmtUses (fuel + 1) scope · id) id s := by
  simp only [targetStmt, bind_eq_ok_iff, get_eq_ok_iff] at h
  obtain ⟨⟨position, kind⟩, hnode, h⟩ := h
  cases kind with
  | declaration type name values =>
    cases type with
    | some type =>
      simp only [bind_eq_ok_iff, pure_eq_ok_iff] at h
      obtain ⟨⟨atom, isConst⟩, htype, n, hn, es, hes, rfl⟩ := h
      obtain ⟨text, htext, heq⟩ := text_variableName hn
      refine ⟨by simp [Stmt.declared, bindings, kind?, hnode, htext, heq], fun around hblocks => ?_⟩
      simp only [Stmt.occurrences, stmtUses, kind?, hnode, Option.map_some, identifiers_values hes,
        map_written hblocks]
    | none =>
      simp only [bind_eq_ok_iff, pure_eq_ok_iff] at h
      obtain ⟨n, hn, es, hes, rfl⟩ := h
      refine ⟨by simp [Stmt.declared, bindings, kind?, hnode], fun around hblocks => ?_⟩
      simp only [Stmt.occurrences, stmtUses, kind?, hnode, Option.map_some,
        identifiers_assigned hn hes, map_written hblocks]
  | call callee arguments isDirective =>
    simp only [bind_eq_ok_iff, pure_eq_ok_iff] at h
    obtain ⟨e, he, rfl⟩ := h
    refine ⟨by simp [Stmt.declared, bindings, kind?, hnode], fun around hblocks => ?_⟩
    simp only [Stmt.occurrences, stmtUses, kind?, hnode, Option.map_some, identifiers_expr he,
      map_written hblocks]
  | jump jump value =>
    cases jump with
    | returning =>
      simp only [bind_eq_ok_iff, pure_eq_ok_iff] at h
      obtain ⟨e, he, rfl⟩ := h
      refine ⟨by simp [Stmt.declared, bindings, kind?, hnode], fun around hblocks => ?_⟩
      simp only [Stmt.occurrences, stmtUses, kind?, hnode, Option.map_some, identifiers_option he,
        map_written hblocks]
    | breaking | continuing =>
      cases h
      exact ⟨by simp [Stmt.declared, bindings, kind?, hnode], fun around _ => by
        simp [Stmt.occurrences, stmtUses, kind?, hnode]⟩
  | flow flow condition body next =>
    simp only [bind_eq_ok_iff, pure_eq_ok_iff] at h
    obtain ⟨cs, hcs, rfl⟩ := h
    refine ⟨by simp [Stmt.declared, bindings, kind?, hnode], fun around hblocks => ?_⟩
    simp only [Stmt.occurrences, stmtUses, kind?, hnode, Option.map_some,
      ihclauses cs hcs around hblocks]
  | _ => cases h

/-- What the clauses from a node on are put together from. -/
theorem parts_of_targetClauses {position : Position} {flow : Flow} {condition next : Option NodeId}
    {body : ScopeId} {cs : List Clause}
    (hnode : t.node? id = some ⟨position, .flow flow condition body next⟩)
    (h : t.targetClauses imports (fuel + 1) id = .ok cs) :
    ∃ e ss others, condition.mapM (t.expr imports) = .ok e ∧
      (t.statements body).mapM (t.targetStmt imports fuel) = .ok ss ∧
      next.elim (.ok []) (t.targetClauses imports fuel) = .ok others ∧
      cs = .mk flow e ss :: others := by
  rw [targetClauses, get_eq_ok_iff.mpr hnode] at h
  cases next with
  | none =>
    simp only [bind_eq_ok_iff, pure_eq_ok_iff, Except.ok.injEq, exists_eq_left'] at h
    obtain ⟨e, he, ss, hss, rfl⟩ := h
    exact ⟨e, ss, [], he, hss, rfl, rfl⟩
  | some next =>
    simp only [bind_eq_ok_iff, pure_eq_ok_iff, Except.ok.injEq, exists_eq_left'] at h
    obtain ⟨e, he, ss, hss, others, hothers, rfl⟩ := h
    exact ⟨e, ss, others, he, hss, hothers, rfl⟩

/-- Clauses match their node if statements and clauses do whose parts nest less deep. -/
theorem matches_targetClauses
    (ihstmt : ∀ scope id s, t.targetStmt imports fuel id = .ok s →
      t.Matches imports file (t.stmtUses fuel scope · id) id s)
    (ihclauses : ∀ id cs, t.targetClauses imports fuel id = .ok cs →
      MatchesClauses imports file (t.clauseUses fuel scope · id) cs)
    {cs : List Clause} (h : t.targetClauses imports (fuel + 1) id = .ok cs) :
    MatchesClauses imports file (t.clauseUses (fuel + 1) scope · id) cs := by
  intro around hblocks
  have hread := h
  simp only [targetClauses, bind_eq_ok_iff, get_eq_ok_iff] at h
  obtain ⟨⟨position, kind⟩, hnode, h⟩ := h
  cases kind with
  | flow flow condition body next =>
    obtain ⟨e, ss, others, he, hss, hnext, rfl⟩ := parts_of_targetClauses hnode hread
    have hothers : Clause.allOccurrences (writtenAround file around) others =
        (next.toList.flatMap (t.clauseUses fuel scope around)).map (Use.written imports file) := by
      cases next with
      | none =>
        cases hnext
        rfl
      | some next => simpa using ihclauses next others hnext around hblocks
    simp only [clauseUses, kind?, hnode, Option.map_some, Clause.allOccurrences, Clause.occurrences,
      List.map_append, hothers, identifiers_option he, map_written hblocks]
    rw [← writtenAround_enter, along_of_mapM (ihstmt body) hss (by simp [Surroundings.enter])]
  | _ => cases h

/-- **The occurrences in the statement of a node** are the uses in the node. -/
theorem matches_stmt_and_clauses (fuel : Nat) :
    (∀ scope id s, t.targetStmt imports fuel id = .ok s →
      t.Matches imports file (t.stmtUses fuel scope · id) id s) ∧
    ∀ scope id cs, t.targetClauses imports fuel id = .ok cs →
      MatchesClauses imports file (t.clauseUses fuel scope · id) cs := by
  induction fuel with
  | zero =>
    refine ⟨fun scope id s h => ?_, fun scope id cs h => ?_⟩
    · cases h
    · cases h
  | succ fuel ih =>
    obtain ⟨ihstmt, ihclauses⟩ := ih
    exact ⟨fun scope id s h => matches_targetStmt (ihclauses scope id) h,
      fun scope id cs h => matches_targetClauses ihstmt (ihclauses scope) h⟩

theorem occurrences_block {body : ScopeId} {ss : List Stmt} (h : t.block imports body = .ok ss)
    (hblocks : around.blocks ≠ []) : Stmt.allOccurrences (writtenAround file around) ss
      = (t.blockUses body around).map (Use.written imports file) :=
  along_of_mapM ((matches_stmt_and_clauses _).1 body) h hblocks

/-! ## The top level -/

/-- What is collected from the top level and put together is put together along it. -/
theorem flatMap_of_collect {α β : Type} {f : NodeId × NodeKind → Except EmitError (List α)}
    {g : α → List β} {g' : Surroundings Entry → NodeId → List β}
    (h : ∀ around : Surroundings Entry, around.blocks = [] → ∀ id,
      (∀ node as, t.node? id = some node → f (id, node.kind) = .ok as →
        as.flatMap g = g' around id) ∧
      (t.node? id = none → g' around id = []))
    {as : List α} (hcollect : t.collect f = .ok as) :
    as.flatMap g = Surroundings.along t.bindings g' ⟨[], []⟩ t.rootStatements := by
  simp only [collect, bind_eq_ok_iff, pure_eq_ok_iff] at hcollect
  obtain ⟨parts, hparts, rfl⟩ := hcollect
  have hgo : ∀ (ids : List NodeId) (around : Surroundings Entry) (parts : List (List α)),
      around.blocks = [] →
      (ids.filterMap fun id => (t.node? id).map fun node => (id, node.kind)).mapM f = .ok parts →
      parts.flatten.flatMap g = Surroundings.along t.bindings g' around ids := by
    intro ids
    induction ids with
    | nil =>
      intro around parts _ hmap
      cases hmap
      rfl
    | cons id ids ih =>
      intro around parts hblocks hmap
      have hblocks' : (around.declare (t.bindings id)).blocks = [] := by
        simp [Surroundings.declare, hblocks]
      obtain ⟨hsome, hnone⟩ := h _ hblocks' id
      cases hnode : t.node? id with
      | none =>
        rw [List.filterMap_cons_none (by rw [hnode]; rfl)] at hmap
        rw [Surroundings.along, hnone hnode, ih _ _ hblocks' hmap, List.nil_append]
      | some node =>
        rw [List.filterMap_cons_some (by rw [hnode]; rfl)] at hmap
        obtain ⟨first, others, hfirst, hothers, rfl⟩ := mapM_cons_eq_ok_iff.mp hmap
        rw [Surroundings.along, List.flatten_cons, List.flatMap_append,
          hsome node first hnode hfirst, ih _ _ hblocks' hothers]
  exact hgo _ _ _ rfl hparts

theorem text_targetParameter {p : Parameter} {q : TypeAtom × Name}
    (h : t.targetParameter p = .ok q) : [q.2.text] =
      ((t.ident? p.name).toList.map (⟨·, .declaration⟩ : String → Entry)).map
        fun e => variableText e.name := by
  simp only [targetParameter, bind_eq_ok_iff, pure_eq_ok_iff] at h
  obtain ⟨atom, hatom, name, hname, rfl⟩ := h
  obtain ⟨n, hn, heq⟩ := text_variableName hname
  simp [hn, heq]

theorem text_signature {name : NodeId} {result : Option NodeId} {parameters : List Parameter}
    {s : Signature} (h : t.signature imports name result parameters = .ok s) :
    (∃ n, t.ident? name = some n ∧ s.name.text = functionText imports n) ∧
      s.parameters.map (·.2.text)
        = (t.parameterBindings parameters).map fun e => variableText e.name := by
  simp only [signature, bind_eq_ok_iff, pure_eq_ok_iff] at h
  obtain ⟨result', hresult, name', hname, parameters', hparameters, rfl⟩ := h
  refine ⟨text_functionName hname, ?_⟩
  rw [parameterBindings, List.map_flatMap, List.map_eq_flatMap,
    flatMap_of_mapM (fun _ _ => text_targetParameter) hparameters]

/-- The occurrences in a function are the uses in its node. -/
theorem occurrences_functionOf (h : around.blocks = []) {id : NodeId} {node : Node}
    (hnode : t.node? id = some node) {fs : List Function}
    (hfs : t.functionOf imports (id, node.kind) = .ok fs) :
    fs.flatMap (Function.occurrences file)
      = (t.functionUses around id).map (Use.written imports file) := by
  obtain ⟨position, kind⟩ := node
  unfold functionOf at hfs
  split at hfs
  · next name result parameters body heq =>
    cases heq
    simp only [bind_eq_ok_iff, pure_eq_ok_iff] at hfs
    obtain ⟨s, hs, ss, hss, rfl⟩ := hfs
    have haround : writtenAround file (around.enter.declare (t.parameterBindings parameters))
        = ⟨[s.parameters.map (·.2.text)], file⟩ := by
      simp [writtenAround, Surroundings.enter, Surroundings.declare, h, (text_signature hs).2]
    simp only [functionUses, kind?, hnode, Option.map_some, List.flatMap_cons, List.flatMap_nil,
      List.append_nil, Function.occurrences]
    rw [← haround]
    exact occurrences_block hss (by simp [Surroundings.enter, Surroundings.declare])
  · next hother =>
    cases hfs
    simp only [functionUses, kind?, hnode, Option.map_some]
    split
    · next heq =>
      cases heq
      exact (hother _ _ _ _ _ rfl).elim
    · rfl

theorem map_written_root (h : around.blocks = []) (ms : List Mention) :
    (ms.map fun m => (⟨m, .root, around⟩ : Use)).map (Use.written imports file) =
      (ms.map (Mention.text imports)).map (⟨·, ⟨[[]], startupName :: file⟩⟩) := by
  simp [Use.written, h]

/-- An assignment at startup has the uses of its node, and declares nothing. -/
theorem occurrences_assignmentOf (file : List String) (h : around.blocks = []) {id : NodeId}
    {node : Node} (hnode : t.node? id = some node) {ss : List Stmt}
    (hss : t.assignmentOf imports (id, node.kind) = .ok ss) :
    ss.flatMap (Stmt.occurrences ⟨[[]], startupName :: file⟩)
        = (t.assignmentUses around id).map (Use.written imports file) ∧
      ss.flatMap Stmt.declared = [] := by
  obtain ⟨position, kind⟩ := node
  cases kind with
  | declaration type name values =>
    rw [assignmentOf] at hss
    simp only [assignmentUses, kind?, hnode, Option.map_some]
    split at hss
    · next hwritten =>
      simp only [bind_eq_ok_iff, pure_eq_ok_iff] at hss
      obtain ⟨n, hn, es, hes, rfl⟩ := hss
      rw [if_pos hwritten, map_written_root h, ← identifiers_assigned hn hes]
      simp [Stmt.occurrences, Stmt.declared]
    · next hwritten =>
      cases hss
      rw [if_neg hwritten]
      exact ⟨rfl, rfl⟩
  | _ =>
    cases hss
    exact ⟨by simp [assignmentUses, kind?, hnode], rfl⟩

/-- A call at startup has the uses of its node, and declares nothing. -/
theorem occurrences_callOf (file : List String) (h : around.blocks = []) {id : NodeId}
    {node : Node} (hnode : t.node? id = some node) {ss : List Stmt}
    (hss : t.callOf imports (id, node.kind) = .ok ss) :
    ss.flatMap (Stmt.occurrences ⟨[[]], startupName :: file⟩)
        = (t.callUses around id).map (Use.written imports file) ∧
      ss.flatMap Stmt.declared = [] := by
  obtain ⟨position, kind⟩ := node
  cases kind with
  | call callee arguments isDirective =>
    cases isDirective with
    | true =>
      simp only [callOf, bind_eq_ok_iff, pure_eq_ok_iff] at hss
      obtain ⟨e, he, rfl⟩ := hss
      simp only [callUses, kind?, hnode, Option.map_some]
      rw [map_written_root h, ← identifiers_expr he]
      simp [Stmt.occurrences, Stmt.declared]
    | false =>
      cases hss
      exact ⟨by simp [callUses, kind?, hnode], rfl⟩
  | _ =>
    cases hss
    exact ⟨by simp [callUses, kind?, hnode], rfl⟩

/-- What prototypes declare is what the functions among the top-level nodes bind. -/
theorem declared_prototypeOf {id : NodeId} {node : Node} (hnode : t.node? id = some node)
    {ss : List Signature} (hss : t.prototypeOf imports (id, node.kind) = .ok ss) :
    ss.flatMap (fun s => [s.name.text])
      = ((t.bindings id).filter (·.kind = .function)).map (Entry.text imports) := by
  obtain ⟨position, kind⟩ := node
  cases kind with
  | function name result parameters body origin =>
    simp only [prototypeOf, bind_eq_ok_iff, pure_eq_ok_iff] at hss
    obtain ⟨s, hs, rfl⟩ := hss
    obtain ⟨n, hn, heq⟩ := (text_signature hs).1
    simp [bindings, kind?, hnode, hn, heq, Entry.text]
  | declaration type name values =>
    cases hss
    cases type with
    | none => simp [bindings, kind?, hnode]
    | some type => cases hname : t.ident? name <;> simp [bindings, kind?, hnode, hname]
  | _ =>
    cases hss
    simp [bindings, kind?, hnode]

/-- The variables of the file are those that the top-level nodes bind. -/
theorem declared_globalOf (imports : List String) {id : NodeId} {node : Node}
    (hnode : t.node? id = some node) {gs : List (TypeAtom × Name)}
    (hgs : t.globalOf (id, node.kind) = .ok gs) :
    gs.flatMap (fun g => [g.2.text])
      = ((t.bindings id).filter (·.kind = .declaration)).map (Entry.text imports) := by
  obtain ⟨position, kind⟩ := node
  cases kind with
  | function name result parameters body origin =>
    cases hgs
    cases hname : t.ident? name <;> simp [bindings, kind?, hnode, hname]
  | declaration type name values =>
    cases type with
    | none =>
      cases hgs
      simp [bindings, kind?, hnode]
    | some type =>
      simp only [globalOf, bind_eq_ok_iff, pure_eq_ok_iff] at hgs
      obtain ⟨atom, hatom, n, hn, rfl⟩ := hgs
      obtain ⟨text, htext, heq⟩ := text_variableName hn
      simp [bindings, kind?, hnode, htext, heq, Entry.text]
  | _ =>
    cases hgs
    simp [bindings, kind?, hnode]

/-- What the root binds. -/
def rootBindings (t : Tree) : List Entry :=
  t.rootStatements.flatMap t.bindings

/-- **The occurrences in the program of a tree** are the uses in the tree as they are
written, and what is declared outside of its functions is what the root binds. -/
theorem occurrences_ofTree {p : Program} (h : Program.ofTree t = .ok p) :
    p.occurrences = t.uses.map (Use.written t.importedNames p.declared) ∧
    p.declared = (t.rootBindings.filter (·.kind = .function) ++
      t.rootBindings.filter (·.kind = .declaration)).map (Entry.text t.importedNames) := by
  simp only [Program.ofTree, bind_eq_ok_iff, pure_eq_ok_iff] at h
  obtain ⟨prototypes, hprototypes, globals, hglobals, functions, hfunctions, assignments,
    hassignments, calls, hcalls, rfl⟩ := h
  have hnothing : ∀ {f : NodeId × NodeKind → Except EmitError (List Stmt)} {ss : List Stmt},
      (∀ around : Surroundings Entry, around.blocks = [] → ∀ id node ss, t.node? id = some node →
        f (id, node.kind) = .ok ss → ss.flatMap Stmt.declared = []) →
      t.collect f = .ok ss → ss.flatMap Stmt.declared = [] := by
    intro f ss hf hss
    rw [flatMap_of_collect (fun around h id =>
      ⟨fun node ss hnode hss => hf around h id node ss hnode hss, fun _ => rfl⟩) hss,
      Surroundings.along_const]
    simp
  constructor
  · have hstartup : (assignments ++ calls).flatMap Stmt.declared = [] := by
      rw [List.flatMap_append, List.append_eq_nil_iff]
      exact ⟨hnothing (fun _ h _ _ _ hnode hss =>
          (occurrences_assignmentOf [] h hnode hss).2) hassignments,
        hnothing (fun _ h _ _ _ hnode hss =>
          (occurrences_callOf [] h hnode hss).2) hcalls⟩
    simp only [Program.occurrences, uses, alongRoot, List.map_append, Surroundings.map_along,
      Stmt.allOccurrences_eq, Surroundings.along_of_declared_eq_nil hstartup,
      List.flatMap_append, List.append_assoc]
    congr 1
    · exact flatMap_of_collect (fun around h id =>
        ⟨fun node fs hnode hfs => occurrences_functionOf h hnode hfs,
          fun hnone => by simp [functionUses, kind?, hnone]⟩) hfunctions
    · congr 1
      · exact flatMap_of_collect (fun around h id =>
          ⟨fun node ss hnode hss => (occurrences_assignmentOf _ h hnode hss).1,
            fun hnone => by simp [assignmentUses, kind?, hnone]⟩) hassignments
      · exact flatMap_of_collect (fun around h id =>
          ⟨fun node ss hnode hss => (occurrences_callOf _ h hnode hss).1,
            fun hnone => by simp [callUses, kind?, hnone]⟩) hcalls
  · show prototypes.map (·.name.text) ++ globals.map (·.2.text) = _
    rw [List.map_append, rootBindings, List.filter_flatMap, List.filter_flatMap, List.map_flatMap,
      List.map_flatMap]
    congr 1
    · rw [List.map_eq_flatMap, flatMap_of_collect (fun _ _ id =>
        ⟨fun node ss hnode hss => declared_prototypeOf hnode hss,
          fun hnone => by simp [bindings, kind?, hnone]⟩) hprototypes, Surroundings.along_const]
    · rw [List.map_eq_flatMap, flatMap_of_collect (fun _ _ id =>
        ⟨fun node gs hnode hgs => declared_globalOf t.importedNames hnode hgs,
          fun hnone => by simp [bindings, kind?, hnone]⟩) hglobals, Surroundings.along_const]

end Tree

end Braced
