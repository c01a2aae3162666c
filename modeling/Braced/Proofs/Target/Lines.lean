import Braced.Proofs.Target.Binding
import Braced.Proofs.Target.Structure

/-!
# Braced.Proofs.Target.Lines

What is written for the nodes of a tree, line by line.

`Tree.Wording` tells the text of an expression from the nodes of the tree alone, and
`Tree.wording_targetExpr` that this is what the emitter writes for it.  Where all names are
words no such text has a newline in it, so a statement of a block is a number of whole lines,
each of them indented (`Tree.lines_block`).
-/

namespace Braced

open Target

/-! ## Lines -/

namespace Target

/-- There is no newline in the text. -/
def Unbroken (text : String) : Prop :=
  '\n' ∉ text.toList

instance (text : String) : Decidable (Unbroken text) := inferInstanceAs (Decidable (¬ _))

/-- Lines, with a newline behind each. -/
def unlines (lines : List String) : String :=
  String.join (lines.map (· ++ "\n"))

/-- A line inside of a block. -/
def Indented (line : String) : Prop :=
  Unbroken line ∧ ∃ rest, line = "    " ++ rest

@[simp] theorem unbroken_append {text text' : String} :
    Unbroken (text ++ text') ↔ Unbroken text ∧ Unbroken text' := by
  simp [Unbroken]

theorem unbroken_of_all {p : Char → Bool} (hp : p '\n' = false) {text : String}
    (h : text.toList.all p = true) : Unbroken text := by
  intro hmem
  rw [List.all_eq_true.mp h _ hmem] at hp
  cases hp

theorem unbroken_of_isWord {text : String} (h : text.toList.all isWordChar = true) :
    Unbroken text :=
  unbroken_of_all rfl h

@[simp] theorem unbroken_ofList {cs : List Char} : Unbroken (String.ofList cs) ↔ '\n' ∉ cs := by
  rw [Unbroken, String.toList_ofList]

theorem unbroken_intercalate {mark : String} (hmark : Unbroken mark) {texts : List String}
    (h : ∀ text ∈ texts, Unbroken text) : Unbroken (mark.intercalate texts) := by
  induction texts with
  | nil => simp [Unbroken]
  | cons text texts ih =>
    rw [List.forall_mem_cons] at h
    cases texts with
    | nil => simpa using h.1
    | cons next others =>
      rw [String.intercalate_cons_cons, unbroken_append, unbroken_append]
      exact ⟨⟨h.1, hmark⟩, ih h.2⟩

@[simp] theorem unlines_nil : unlines [] = "" := rfl

@[simp] theorem unlines_cons (line : String) (lines : List String) :
    unlines (line :: lines) = line ++ "\n" ++ unlines lines := by
  rw [unlines, List.map_cons, String.join_cons, unlines]

@[simp] theorem unlines_append (lines lines' : List String) :
    unlines (lines ++ lines') = unlines lines ++ unlines lines' := by
  rw [unlines, List.map_append, String.join_append, unlines, unlines]

end Target

/-! ## Names and literals -/

namespace Tree

variable {t : Tree}

/-- Names are words. -/
def Worded (t : Tree) : Prop :=
  ∀ id text, t.ident? id = some text → text.toList.all isWordChar = true

/-- What is written for the name of a function: an imported one keeps its name. -/
def functionWord (t : Tree) (name : String) : String :=
  if name ∈ t.importedNames then name else "sc_" ++ name

theorem functionText_importedNames (name : String) :
    functionText t.importedNames name = t.functionWord name := by
  rw [functionWord]
  split
  · next h => exact functionText_of_mem h
  · next h => exact functionText_of_not_mem h

theorem Worded.unbroken_variable (h : t.Worded) {id : NodeId} {name : String}
    (hname : t.ident? id = some name) : Unbroken ("sc_" ++ name) :=
  unbroken_append.mpr ⟨by decide, unbroken_of_isWord (h id name hname)⟩

theorem Worded.unbroken_function (h : t.Worded) {id : NodeId} {name : String}
    (hname : t.ident? id = some name) : Unbroken (t.functionWord name) := by
  rw [functionWord]
  split
  · exact unbroken_of_isWord (h id name hname)
  · exact h.unbroken_variable hname

end Tree

namespace Target

theorem unbroken_int (value : Int) : Unbroken (toString value) := by
  obtain ⟨c, cs, hchars, -, hall, -⟩ := toList_toString_int value
  exact unbroken_of_all rfl (hchars ▸ hall)

theorem newline_not_mem_of_isNumeral {before : Char} {cs : List Char}
    (h : isNumeral before cs = true) : '\n' ∉ cs := by
  induction cs generalizing before with
  | nil => exact List.not_mem_nil
  | cons c cs ih =>
    rw [isNumeral, Bool.and_eq_true] at h
    refine List.not_mem_cons_of_ne_of_not_mem ?_ (ih h.2)
    rintro rfl
    have hnewline := h.1
    simp [numeralGoesOn] at hnewline

theorem unbroken_float (value : Binary64) : Unbroken value.literalText := by
  have hfraction := value.isFraction_literalText
  simp only [isFraction, Bool.or_eq_true, beq_iff_eq, Bool.and_eq_true] at hfraction
  obtain (hinf | hnan) | ⟨⟨-, hnumeral⟩, -⟩ := hfraction
  · rw [Unbroken, hinf]
    decide
  · rw [Unbroken, hnan]
    decide
  · exact newline_not_mem_of_isNumeral hnumeral

theorem newline_not_mem_escapeByte {quote : UInt8}
    (hquote : quote = Ascii.singleQuote ∨ quote = Ascii.doubleQuote) (b : UInt8) :
    '\n' ∉ Literal.escapeByte quote b :=
  fun hmem => absurd (Literal.isPrintable_escapeByte hquote b _ hmem) (by decide)

theorem unbroken_char (value : UInt8) : Unbroken (Literal.char value) := by
  simp only [Literal.char, unbroken_append, unbroken_ofList]
  exact ⟨⟨by decide, newline_not_mem_escapeByte (.inl rfl) value⟩, by decide⟩

theorem unbroken_string (bytes : List UInt8) : Unbroken (Literal.string bytes) := by
  have hescape : '\n' ∉ Literal.escape Ascii.doubleQuote bytes := by
    intro hmem
    obtain ⟨b, -, hb⟩ := List.mem_flatMap.mp hmem
    exact newline_not_mem_escapeByte (.inr rfl) b hb
  simp only [Literal.string, unbroken_append, unbroken_ofList]
  exact ⟨⟨by decide, hescape⟩, by decide⟩

end Target

/-! ## Expressions -/

namespace Tree

/-- What is written for a part of an expression. -/
inductive Wording (t : Tree) : ExprPart → String → Prop
  | int {id : NodeId} {value : Int} {step : Option Step}
      (hkind : t.kind? id = some (.primary (.int value) step)) :
      Wording t (.expression id) (toString value ++ step.elim "" stepText)
  | float {id : NodeId} {value : Binary64} {step : Option Step}
      (hkind : t.kind? id = some (.primary (.float value) step)) :
      Wording t (.expression id) (value.literalText ++ step.elim "" stepText)
  | char {id : NodeId} {value : UInt8} {step : Option Step}
      (hkind : t.kind? id = some (.primary (.char value) step)) :
      Wording t (.expression id) (Literal.char value ++ step.elim "" stepText)
  | string {id : NodeId} {bytes : List UInt8} {step : Option Step}
      (hkind : t.kind? id = some (.primary (.string bytes) step)) :
      Wording t (.expression id) (Literal.string bytes ++ step.elim "" stepText)
  | name {id name : NodeId} {text : String} {step : Option Step}
      (hkind : t.kind? id = some (.primary (.name name) step)) (hname : t.ident? name = some text) :
      Wording t (.expression id) ("sc_" ++ text ++ step.elim "" stepText)
  | called {id call : NodeId} {text : String} {step : Option Step}
      (hkind : t.kind? id = some (.primary (.call call) step))
      (hcall : Wording t (.expression call) text) :
      Wording t (.expression id) (text ++ step.elim "" stepText)
  | ident {id : NodeId} {text : String} (hname : t.ident? id = some text) :
      Wording t (.expression id) ("sc_" ++ text)
  | call {id callee : NodeId} {arguments : List NodeId} {isDirective : Bool} {name text : String}
      (hkind : t.kind? id = some (.call callee arguments isDirective))
      (hname : t.ident? callee = some name) (harguments : Wording t (.arguments arguments) text) :
      Wording t (.expression id) (t.functionWord name ++ "(" ++ text ++ ")")
  | unary {id operand : NodeId} {op : UnaryOp} {text : String}
      (hkind : t.kind? id = some (.unary op operand))
      (hoperand : Wording t (.expression operand) text) :
      Wording t (.expression id) (unaryText op ++ "(" ++ text ++ ")")
  | binary {id left right : NodeId} {op : BinaryOp} {text text' : String}
      (hkind : t.kind? id = some (.binary op left right))
      (hleft : Wording t (.expression left) text) (hright : Wording t (.expression right) text') :
      Wording t (.expression id) ("(" ++ text ++ " " ++ op.symbol ++ " " ++ text' ++ ")")
  | noArguments : Wording t (.arguments []) ""
  | lastArgument {id : NodeId} {text : String} (hid : Wording t (.expression id) text) :
      Wording t (.arguments [id]) text
  | argument {id next : NodeId} {others : List NodeId} {text text' : String}
      (hid : Wording t (.expression id) text)
      (hothers : Wording t (.arguments (next :: others)) text') :
      Wording t (.arguments (id :: next :: others)) (text ++ ", " ++ text')
  | noValues : Wording t (.values []) ""
  | value {id : NodeId} {others : List NodeId} {text text' : String}
      (hid : Wording t (.expression id) text) (hothers : Wording t (.values others) text') :
      Wording t (.values (id :: others)) (" = " ++ text ++ text')

variable {t : Tree}

theorem unbroken_step (step : Option Step) : Unbroken (step.elim "" stepText) := by
  cases step with
  | none => decide
  | some step => cases step <;> decide

/-- No part of an expression has a newline in it. -/
theorem Wording.unbroken (hwords : t.Worded) {part : ExprPart} {text : String}
    (h : t.Wording part text) : Unbroken text := by
  induction h with
  | int => exact unbroken_append.mpr ⟨unbroken_int _, unbroken_step _⟩
  | float => exact unbroken_append.mpr ⟨unbroken_float _, unbroken_step _⟩
  | char => exact unbroken_append.mpr ⟨unbroken_char _, unbroken_step _⟩
  | string => exact unbroken_append.mpr ⟨unbroken_string _, unbroken_step _⟩
  | name _ hname => exact unbroken_append.mpr ⟨hwords.unbroken_variable hname, unbroken_step _⟩
  | called _ _ ih => exact unbroken_append.mpr ⟨ih, unbroken_step _⟩
  | ident hname => exact hwords.unbroken_variable hname
  | call _ hname _ ih =>
    simp only [unbroken_append]
    exact ⟨⟨⟨hwords.unbroken_function hname, by decide⟩, ih⟩, by decide⟩
  | @unary _ _ op _ _ _ ih =>
    have hop : Unbroken (unaryText op) := by
      cases op <;> decide
    simp only [unbroken_append]
    exact ⟨⟨⟨hop, by decide⟩, ih⟩, by decide⟩
  | @binary _ _ _ op _ _ _ _ _ ih ih' =>
    have hop : Unbroken op.symbol := by
      cases op <;> decide
    simp only [unbroken_append]
    exact ⟨⟨⟨⟨⟨⟨by decide, ih⟩, by decide⟩, hop⟩, by decide⟩, ih'⟩, by decide⟩
  | noArguments | noValues => decide
  | lastArgument _ ih => exact ih
  | argument _ _ ih ih' =>
    simp only [unbroken_append]
    exact ⟨⟨ih, by decide⟩, ih'⟩
  | value _ _ ih ih' =>
    simp only [unbroken_append]
    exact ⟨⟨by decide, ih⟩, ih'⟩

/-- A call is written as one. -/
theorem Wording.of_call {id callee : NodeId} {arguments : List NodeId} {isDirective : Bool}
    {text : String} (h : t.Wording (.expression id) text)
    (hkind : t.kind? id = some (.call callee arguments isDirective)) :
    ∃ name argumentsText, t.ident? callee = some name ∧
      t.Wording (.arguments arguments) argumentsText ∧
      text = t.functionWord name ++ "(" ++ argumentsText ++ ")" := by
  cases h with
  | call hkind' hname harguments =>
    cases hkind.symm.trans hkind'
    exact ⟨_, _, hname, harguments, rfl⟩
  | ident hname =>
    rw [ident?] at hname
    split at hname
    · next hnode =>
      rw [kind?, hnode] at hkind
      cases hkind
    · cases hname
  | int hkind' | float hkind' | char hkind' | string hkind' | name hkind' | called hkind'
  | unary hkind' | binary hkind' => cases hkind.symm.trans hkind'

/-! ## What is written -/

section

variable {f : NodeId → Except EmitError Expr}
  (hf : ∀ id e, f id = .ok e → t.Wording (.expression id) e.text)

include hf

theorem wording_arguments {ids : List NodeId} {es : List Expr} (h : ids.mapM f = .ok es) :
    t.Wording (.arguments ids) (commaSeparated (Expr.texts es)) := by
  induction ids generalizing es with
  | nil =>
    cases h
    exact .noArguments
  | cons id ids ih =>
    obtain ⟨e, others, he, hothers, rfl⟩ := mapM_cons_eq_ok_iff.mp h
    have hrest := ih hothers
    cases ids with
    | nil =>
      cases hothers
      simpa [Expr.texts, commaSeparated] using Wording.lastArgument (hf id e he)
    | cons next ids =>
      obtain ⟨e', others, -, -, rfl⟩ := mapM_cons_eq_ok_iff.mp hothers
      rw [commaSeparated, Expr.texts, Expr.texts, String.intercalate_cons_cons]
      exact .argument (hf id e he) hrest

theorem wording_values {ids : List NodeId} {es : List Expr} (h : ids.mapM f = .ok es) :
    t.Wording (.values ids) (String.join ((Expr.texts es).map fun value => " = " ++ value)) := by
  induction ids generalizing es with
  | nil =>
    cases h
    exact .noValues
  | cons id ids ih =>
    obtain ⟨e, others, he, hothers, rfl⟩ := mapM_cons_eq_ok_iff.mp h
    rw [Expr.texts, List.map_cons, String.join_cons]
    exact .value (hf id e he) (ih hothers)

end

theorem text_variable {id : NodeId} {name : Name} (h : t.variableName id = .ok name) :
    ∃ text, t.ident? id = some text ∧ name.text = "sc_" ++ text :=
  text_variableName h

theorem text_function {id : NodeId} {name : Name}
    (h : t.functionName t.importedNames id = .ok name) :
    ∃ text, t.ident? id = some text ∧ name.text = t.functionWord text := by
  obtain ⟨text, htext, hname⟩ := text_functionName h
  exact ⟨text, htext, hname.trans (functionText_importedNames text)⟩

theorem text_stepped (o : Expr) (step : Option Step) :
    (step.elim o (.stepped o)).text = o.text ++ step.elim "" stepText := by
  cases step with
  | none => exact String.append_empty.symm
  | some step => rfl

/-- An operand is written as its node tells, with what stands behind it. -/
theorem wording_targetOperand {fuel : Nat} {id : NodeId} {value : Primary} {step : Option Step}
    {o : Expr} (hkind : t.kind? id = some (.primary value step))
    (hcall : ∀ call e, t.targetExpr t.importedNames fuel call = .ok e →
      t.Wording (.expression call) e.text)
    (h : t.targetOperand t.importedNames fuel value = .ok o) :
    t.Wording (.expression id) (o.text ++ step.elim "" stepText) := by
  cases value with
  | int value =>
    cases h
    exact .int hkind
  | float value =>
    cases h
    exact .float hkind
  | char value =>
    cases h
    exact .char hkind
  | string bytes =>
    cases h
    exact .string hkind
  | name name =>
    simp only [targetOperand, map_eq_pure_bind, bind_eq_ok_iff, pure_eq_ok_iff] at h
    obtain ⟨n, hn, rfl⟩ := h
    obtain ⟨text, htext, hname⟩ := text_variable hn
    rw [Expr.text, hname]
    exact .name hkind htext
  | call call => exact .called hkind (hcall call o h)

/-- **An expression is written as its nodes tell.** -/
theorem wording_targetExpr {fuel : Nat} {id : NodeId} {e : Expr}
    (h : t.targetExpr t.importedNames fuel id = .ok e) : t.Wording (.expression id) e.text := by
  induction fuel generalizing id e with
  | zero => cases h
  | succ fuel ih =>
    have hread := h
    simp only [targetExpr, bind_eq_ok_iff, get_eq_ok_iff] at h
    obtain ⟨⟨position, kind⟩, hnode, h⟩ := h
    have hkind : t.kind? id = some kind := by rw [kind?, hnode]; rfl
    cases kind with
    | binary op left right =>
      simp only [bind_eq_ok_iff, pure_eq_ok_iff] at h
      obtain ⟨l, hl, r, hr, rfl⟩ := h
      exact .binary hkind (ih hl) (ih hr)
    | unary op operand =>
      simp only [bind_eq_ok_iff, pure_eq_ok_iff] at h
      obtain ⟨o, ho, rfl⟩ := h
      exact .unary hkind (ih ho)
    | primary value step =>
      rw [targetExpr_primary hnode] at hread
      cases ho : t.targetOperand t.importedNames fuel value with
      | error error =>
        rw [ho] at hread
        cases hread
      | ok o =>
        rw [ho] at hread
        cases hread
        rw [text_stepped]
        exact wording_targetOperand hkind (fun _ _ => ih) ho
    | call callee arguments isDirective =>
      simp only [bind_eq_ok_iff, pure_eq_ok_iff] at h
      obtain ⟨n, hn, as, has, rfl⟩ := h
      obtain ⟨text, htext, hname⟩ := text_function hn
      rw [Expr.text, hname]
      exact .call hkind htext (wording_arguments (fun _ _ => ih) has)
    | ident name =>
      cases h
      exact .ident (by rw [ident?, hnode])
    | _ => cases h

end Tree

/-! ## Statements -/

namespace Target

theorem unbroken_indentation (depth : Nat) : Unbroken (indentation depth) := by
  simp [indentation, List.mem_replicate]

theorem Indented.append {line text : String} (h : Indented line) (htext : Unbroken text) :
    Indented (line ++ text) := by
  obtain ⟨hline, rest, rfl⟩ := h
  exact ⟨unbroken_append.mpr ⟨hline, htext⟩, rest ++ text, String.append_assoc⟩

theorem indented_indentation (depth : Nat) : Indented (indentation (depth + 1)) := by
  refine ⟨unbroken_indentation _, indentation depth, ?_⟩
  rw [indentation, indentation, Nat.mul_succ, Nat.add_comm, List.replicate_add,
    String.ofList_append]
  rfl

/-- Inside of a block the statement is a number of whole lines. -/
def Stmt.Whole (s : Stmt) : Prop :=
  ∀ depth, ∃ lines, lines ≠ [] ∧ unlines lines = s.text (depth + 1) ∧ ∀ line ∈ lines, Indented line

/-- Behind the beginning of a line, the clauses go on with whole lines, up to the end of their
last block. -/
def Clause.AllWhole (cs : List Clause) : Prop :=
  ∀ depth front, Indented front → ∃ lines last,
    unlines lines ++ last = front ++ Clause.texts (depth + 1) cs ∧
      (∀ line ∈ lines, Indented line) ∧ Indented last

theorem Stmt.whole_of_unbroken {s : Stmt} {text : String} (htext : Unbroken text)
    (h : ∀ depth, s.text depth = indentation depth ++ (text ++ "\n")) : s.Whole := by
  intro depth
  refine ⟨[indentation (depth + 1) ++ text], List.cons_ne_nil _ _, ?_, ?_⟩
  · rw [h, unlines_cons, unlines_nil, String.append_empty, String.append_assoc]
  · rw [List.forall_mem_singleton]
    exact (indented_indentation depth).append htext

theorem unbroken_targetName (type : TypeAtom) : Unbroken type.targetName := by
  cases type <;> decide

theorem Stmt.whole_declare {isConst : Bool} {type : TypeAtom} {name : Name} {values : List Expr}
    (h : Unbroken (assignmentText name values)) :
    (Stmt.declare isConst type name values).Whole := by
  have hconst : Unbroken (if isConst then "const " else "") := by
    cases isConst <;> decide
  have htext : Unbroken ((if isConst then "const " else "") ++ (type.targetName ++
      (" " ++ (assignmentText name values ++ ";")))) := by
    simp only [unbroken_append]
    exact ⟨hconst, unbroken_targetName type, by decide, h, by decide⟩
  refine whole_of_unbroken htext fun depth => ?_
  simp only [Stmt.text, String.append_assoc]
  rfl

theorem Stmt.whole_assign {name : Name} {values : List Expr}
    (h : Unbroken (assignmentText name values)) : (Stmt.assign name values).Whole := by
  have htext : Unbroken (assignmentText name values ++ ";") :=
    unbroken_append.mpr ⟨h, by decide⟩
  refine whole_of_unbroken htext fun depth => ?_
  simp only [Stmt.text, String.append_assoc]
  rfl

theorem Stmt.whole_call {e : Expr} (h : Unbroken e.text) : (Stmt.call e).Whole := by
  have htext : Unbroken (e.text ++ ";") := unbroken_append.mpr ⟨h, by decide⟩
  refine whole_of_unbroken htext fun depth => ?_
  simp only [Stmt.text, String.append_assoc]
  rfl

theorem Stmt.whole_returning {value : Option Expr} (h : ∀ e ∈ value, Unbroken e.text) :
    (Stmt.returning value).Whole := by
  cases value with
  | none =>
    have htext : Unbroken "return;" := by decide
    exact whole_of_unbroken htext fun _ => rfl
  | some e =>
    have htext : Unbroken ("return " ++ (e.text ++ ";")) := by
      simp only [unbroken_append]
      exact ⟨by decide, h e rfl, by decide⟩
    refine whole_of_unbroken htext fun depth => ?_
    simp only [Stmt.text, String.append_assoc]
    rfl

theorem Stmt.exists_lines {ss : List Stmt} (h : ∀ s ∈ ss, s.Whole) (depth : Nat) :
    ∃ lines, unlines lines = Stmt.texts (depth + 1) ss ∧ ∀ line ∈ lines, Indented line := by
  induction ss with
  | nil => exact ⟨[], rfl, List.forall_mem_nil _⟩
  | cons s ss ih =>
    rw [List.forall_mem_cons] at h
    obtain ⟨lines, -, htext, hlines⟩ := h.1 depth
    obtain ⟨others, htexts, hothers⟩ := ih h.2
    refine ⟨lines ++ others, ?_, List.forall_mem_append.mpr ⟨hlines, hothers⟩⟩
    rw [unlines_append, htext, htexts, Stmt.texts]

theorem Stmt.whole_flow {cs : List Clause} (h : Clause.AllWhole cs) : (Stmt.flow cs).Whole := by
  intro depth
  obtain ⟨lines, last, htext, hlines, hlast⟩ := h depth _ (indented_indentation depth)
  refine ⟨lines ++ [last], by simp, ?_, ?_⟩
  · rw [unlines_append, unlines_cons, unlines_nil, String.append_empty, ← String.append_assoc,
      htext, Stmt.text]
  · rw [List.forall_mem_append, List.forall_mem_singleton]
    exact ⟨hlines, hlast⟩

theorem Clause.allWhole_nil : Clause.AllWhole [] := by
  intro depth front hfront
  refine ⟨[], front, ?_, List.forall_mem_nil _, hfront⟩
  rw [unlines_nil, String.empty_append, Clause.texts, String.append_empty]

theorem Clause.allWhole_cons {flow : Flow} {condition : Option Expr} {body : List Stmt}
    {cs : List Clause} (hcondition : Unbroken (conditionText condition))
    (hbody : ∀ s ∈ body, s.Whole) (hcs : Clause.AllWhole cs) :
    Clause.AllWhole (.mk flow condition body :: cs) := by
  intro depth front hfront
  have hflow : Unbroken (flowText flow) := by
    cases flow <;> decide
  obtain ⟨lines, htext, hlines⟩ := Stmt.exists_lines hbody (depth + 1)
  obtain ⟨others, last, htexts, hothers, hlast⟩ := hcs depth (indentation (depth + 1) ++ "\x7d")
    ((indented_indentation depth).append (by decide))
  refine ⟨(front ++ (flowText flow ++ (conditionText condition ++ " \x7b"))) :: lines ++ others,
    last, ?_, ?_, hlast⟩
  · have hopen : " \x7b\n" = " \x7b" ++ "\n" := by decide
    rw [Clause.texts, Clause.text, ← htext, hopen]
    simp only [List.cons_append, unlines_cons, unlines_append, String.append_assoc, htexts]
  · rw [List.cons_append, List.forall_mem_cons, List.forall_mem_append]
    refine ⟨hfront.append ?_, hlines, hothers⟩
    simp only [unbroken_append]
    exact ⟨hflow, hcondition, by decide⟩

end Target

namespace Tree

variable {t : Tree}

theorem unbroken_expr (hwords : t.Worded) {id : NodeId} {e : Expr}
    (h : t.expr t.importedNames id = .ok e) : Unbroken e.text :=
  (wording_targetExpr h).unbroken hwords

theorem unbroken_assignmentText (hwords : t.Worded) {name : NodeId} {values : List NodeId}
    {n : Name} {es : List Expr} (hname : t.variableName name = .ok n)
    (hvalues : values.mapM (t.expr t.importedNames) = .ok es) : Unbroken (assignmentText n es) := by
  obtain ⟨text, htext, hn⟩ := text_variable hname
  rw [assignmentText, unbroken_append, hn]
  exact ⟨hwords.unbroken_variable htext,
    (wording_values (fun _ _ => wording_targetExpr) hvalues).unbroken hwords⟩

theorem unbroken_of_mapM (hwords : t.Worded) {value : Option NodeId} {e : Option Expr}
    (h : value.mapM (t.expr t.importedNames) = .ok e) : ∀ e' ∈ e, Unbroken e'.text := by
  cases value with
  | none =>
    cases h
    simp
  | some id =>
    have h : (some <$> t.expr t.importedNames id) = .ok e := h
    simp only [map_eq_pure_bind, bind_eq_ok_iff, pure_eq_ok_iff] at h
    obtain ⟨e', he', rfl⟩ := h
    simpa using unbroken_expr hwords he'

variable {fuel : Nat} {id : NodeId}

theorem whole_targetStmt (hwords : t.Worded)
    (hclauses : ∀ cs, t.targetClauses t.importedNames fuel id = .ok cs → Clause.AllWhole cs)
    {s : Stmt} (h : t.targetStmt t.importedNames (fuel + 1) id = .ok s) : s.Whole := by
  simp only [targetStmt, bind_eq_ok_iff, get_eq_ok_iff] at h
  obtain ⟨⟨position, kind⟩, -, h⟩ := h
  cases kind with
  | declaration type name values =>
    cases type with
    | some type =>
      simp only [bind_eq_ok_iff, pure_eq_ok_iff] at h
      obtain ⟨⟨atom, isConst⟩, -, n, hn, es, hes, rfl⟩ := h
      exact Stmt.whole_declare (unbroken_assignmentText hwords hn hes)
    | none =>
      simp only [bind_eq_ok_iff, pure_eq_ok_iff] at h
      obtain ⟨n, hn, es, hes, rfl⟩ := h
      exact Stmt.whole_assign (unbroken_assignmentText hwords hn hes)
  | call callee arguments isDirective =>
    simp only [bind_eq_ok_iff, pure_eq_ok_iff] at h
    obtain ⟨e, he, rfl⟩ := h
    exact Stmt.whole_call (unbroken_expr hwords he)
  | jump jump value =>
    cases jump with
    | returning =>
      simp only [bind_eq_ok_iff, pure_eq_ok_iff] at h
      obtain ⟨e, he, rfl⟩ := h
      exact Stmt.whole_returning (unbroken_of_mapM hwords he)
    | breaking =>
      cases h
      have htext : Unbroken "break;" := by decide
      exact Stmt.whole_of_unbroken htext fun _ => rfl
    | continuing =>
      cases h
      have htext : Unbroken "continue;" := by decide
      exact Stmt.whole_of_unbroken htext fun _ => rfl
  | flow flow condition body next =>
    simp only [bind_eq_ok_iff, pure_eq_ok_iff] at h
    obtain ⟨cs, hcs, rfl⟩ := h
    exact Stmt.whole_flow (hclauses cs hcs)
  | _ => cases h

theorem allWhole_targetClauses (hwords : t.Worded)
    (hstmt : ∀ id s, t.targetStmt t.importedNames fuel id = .ok s → s.Whole)
    (hclauses : ∀ id cs, t.targetClauses t.importedNames fuel id = .ok cs → Clause.AllWhole cs)
    {cs : List Clause} (h : t.targetClauses t.importedNames (fuel + 1) id = .ok cs) :
    Clause.AllWhole cs := by
  have hread := h
  simp only [targetClauses, bind_eq_ok_iff, get_eq_ok_iff] at h
  obtain ⟨⟨position, kind⟩, hnode, h⟩ := h
  cases kind with
  | flow flow condition body next =>
    obtain ⟨e, ss, others, he, hss, hnext, rfl⟩ := parts_of_targetClauses hnode hread
    refine Clause.allWhole_cons ?_ (fun s hs => ?_) ?_
    · cases e with
      | none => exact (by decide : Unbroken "")
      | some e =>
        simp only [conditionText, unbroken_append]
        exact ⟨⟨by decide, unbroken_of_mapM hwords he e rfl⟩, by decide⟩
    · obtain ⟨id, -, hid⟩ := exists_of_mapM hss hs
      exact hstmt id s hid
    · cases next with
      | none =>
        cases hnext
        exact Clause.allWhole_nil
      | some next => exact hclauses next others hnext
  | _ => cases h

theorem whole_stmt_and_clauses (hwords : t.Worded) (fuel : Nat) :
    (∀ id s, t.targetStmt t.importedNames fuel id = .ok s → s.Whole) ∧
    ∀ id cs, t.targetClauses t.importedNames fuel id = .ok cs → Clause.AllWhole cs := by
  induction fuel with
  | zero =>
    refine ⟨fun id s h => ?_, fun id cs h => ?_⟩
    · cases h
    · cases h
  | succ fuel ih =>
    obtain ⟨hstmt, hclauses⟩ := ih
    exact ⟨fun id s h => whole_targetStmt hwords (hclauses id) h,
      fun id cs h => allWhole_targetClauses hwords hstmt hclauses h⟩

/-- What is written for a statement of a function's body: some lines, and all of them are
inside of the block. -/
inductive StatementLines (t : Tree) (id : NodeId) : List String → Prop
  | lines {s : Stmt} {lines : List String} (htext : unlines lines = s.text 1)
      (hread : t.targetStmt t.importedNames (2 * t.nodes.size) id = .ok s) (hsome : lines ≠ [])
      (hindented : ∀ line ∈ lines, Indented line) : StatementLines t id lines

/-- **A body is written statement by statement**, each in lines of its own. -/
theorem lines_block (hwords : t.Worded) {body : ScopeId} {ss : List Stmt}
    (h : t.block t.importedNames body = .ok ss) :
    ∃ parts, List.Forall₂ t.StatementLines (t.statements body) parts ∧
      unlines parts.flatten = Stmt.texts 1 ss := by
  rw [block] at h
  generalize t.statements body = ids at h ⊢
  induction ids generalizing ss with
  | nil =>
    cases h
    exact ⟨[], .nil, rfl⟩
  | cons id ids ih =>
    obtain ⟨s, others, hs, hothers, rfl⟩ := mapM_cons_eq_ok_iff.mp h
    obtain ⟨parts, hparts, htexts⟩ := ih hothers
    obtain ⟨lines, hsome, htext, hindented⟩ := (whole_stmt_and_clauses hwords _).1 id s hs 0
    refine ⟨lines :: parts, .cons (.lines htext hs hsome hindented) hparts, ?_⟩
    rw [List.flatten_cons, unlines_append, htext, htexts, Stmt.texts]

end Tree

end Braced
