import Braced.Proofs.Compile
import Braced.Proofs.Parse.Directives
import Braced.Proofs.Parse.Owns
import Braced.Proofs.Target.Lines
import Braced.Proofs.Target.Names

/-!
# Braced.Proofs.Target.Layout

How an emitted file is laid out.

The file is written in five passes over the statements of the root, each of which picks
those that it has lines for (`Tree.forall₂_of_collect`).  `FileParts.lines` are the lines behind
the preamble, one after the other, and `FileParts.Of` says which statement each of them stands
for and what it reads, by the nodes of the tree.
-/

namespace Braced

open Target

/-! ## Statements by their kind -/

namespace NodeKind

def isFunction : NodeKind → Bool
  | function _ _ _ _ _ => true
  | _ => false

/-- Whether it is a function with a body. -/
def isOwnFunction : NodeKind → Bool
  | function _ _ _ _ .own => true
  | _ => false

/-- Whether it is a declaration with a type. -/
def isTyped : NodeKind → Bool
  | declaration atom _ _ => atom.isSome
  | _ => false

/-- Whether it gives a value to a variable that is known already, or to one that it
declares. -/
def isAssigned : NodeKind → Bool
  | declaration atom _ values => atom.isNone || !values.isEmpty
  | _ => false

def isCall : NodeKind → Bool
  | call _ _ _ => true
  | _ => false

end NodeKind

namespace Tree

variable {t : Tree}

/-- The statements of the root that are of such a kind, in their order. -/
def rootsOf (t : Tree) (p : NodeKind → Bool) : List NodeId :=
  t.rootStatements.filter fun id => (t.kind? id).any p

/-! ## What stands for a statement -/

/-- What is written for the result of a function. -/
inductive ResultWord (t : Tree) : Option NodeId → String → Prop
  | void : ResultWord t none "void"
  | type {id : NodeId} {atom : TypeAtom} {isConst : Bool}
      (hkind : t.kind? id = some (.type atom isConst)) : ResultWord t (some id) atom.targetName

/-- What is written for a parameter. -/
inductive ParameterWords (t : Tree) (p : Parameter) : String → Prop
  | parameter {atom : TypeAtom} {isConst : Bool} {name : String}
      (htype : t.kind? p.type = some (.type atom isConst)) (hname : t.ident? p.name = some name) :
      ParameterWords t p (atom.targetName ++ " sc_" ++ name)

/-- What a function looks like to its callers. -/
inductive Heading (t : Tree) (name : NodeId) (result : Option NodeId)
    (parameters : List Parameter) : String → Prop
  | heading {word text : String} {texts : List String} (hresult : t.ResultWord result word)
      (hname : t.ident? name = some text)
      (hparameters : List.Forall₂ t.ParameterWords parameters texts) :
      Heading t name result parameters (word ++ " " ++ t.functionWord text ++ "("
        ++ (if texts.isEmpty then "void" else ", ".intercalate texts) ++ ")")

/-- The prototype of a function. -/
inductive PrototypeLine (t : Tree) (id : NodeId) : String → Prop
  | prototype {name : NodeId} {result : Option NodeId} {parameters : List Parameter}
      {body : ScopeId} {origin : Origin} {text : String}
      (hkind : t.kind? id = some (.function name result parameters body origin))
      (hheading : t.Heading name result parameters text) : PrototypeLine t id (text ++ ";")

/-- A variable of the file, without a value. -/
inductive GlobalLine (t : Tree) (id : NodeId) : String → Prop
  | global {type name : NodeId} {values : List NodeId} {atom : TypeAtom} {isConst : Bool}
      {text : String} (hkind : t.kind? id = some (.declaration (some type) name values))
      (htype : t.kind? type = some (.type atom isConst)) (hname : t.ident? name = some text) :
      GlobalLine t id (atom.targetName ++ " sc_" ++ text ++ ";")

/-- A function with the lines of its statements. -/
inductive Definition (t : Tree) (id : NodeId) : List String → Prop
  | definition {name : NodeId} {result : Option NodeId} {parameters : List Parameter}
      {body : ScopeId} {text : String} {parts : List (List String)}
      (hkind : t.kind? id = some (.function name result parameters body .own))
      (hheading : t.Heading name result parameters text)
      (hbody : List.Forall₂ t.StatementLines (t.statements body) parts) :
      Definition t id ((text ++ " \x7b") :: (parts.flatten ++ ["\x7d"]))

/-- The values of a declaration, or an assignment. -/
inductive AssignmentLine (t : Tree) (id : NodeId) : String → Prop
  | assignment {type : Option NodeId} {name : NodeId} {values : List NodeId}
      {text valuesText : String} (hkind : t.kind? id = some (.declaration type name values))
      (hname : t.ident? name = some text) (hvalues : t.Wording (.values values) valuesText) :
      AssignmentLine t id ("    sc_" ++ text ++ valuesText ++ ";")

/-- A call that is made at startup. -/
inductive CallLine (t : Tree) (id : NodeId) : String → Prop
  | call {callee : NodeId} {arguments : List NodeId} {text argumentsText : String}
      (hkind : t.kind? id = some (.call callee arguments true))
      (hname : t.ident? callee = some text)
      (harguments : t.Wording (.arguments arguments) argumentsText) :
      CallLine t id ("    " ++ t.functionWord text ++ "(" ++ argumentsText ++ ");")

end Tree

/-- The lines that a file is made of. -/
structure FileParts where
  prototypes : List String
  globals : List String
  definitions : List (List String)
  assignments : List String
  calls : List String

/-- Lines that are set off by an empty one, if there are any. -/
def setOff (lines : List String) : List String :=
  if lines.isEmpty then [] else "" :: lines

/-- What a file begins with, for a source with the given name and modules. -/
def preamble (file : String) (modules : List String) : String :=
  "/* generated by scopec from " ++ file ++ " */\n"
    ++ "#include <stdio.h>\n#include <stdint.h>\n#include <stdbool.h>\n"
    ++ (if modules.isEmpty then ""
        else "\n/* foreign modules: " ++ ", ".intercalate modules ++ " */\n")

namespace FileParts

/-- The lines of a file behind its preamble. -/
def lines (parts : FileParts) : List String :=
  setOff parts.prototypes
    ++ setOff parts.globals
    ++ parts.definitions.flatMap ("" :: ·)
    ++ ["", "static void __scopec_startup(void) \x7b"]
    ++ parts.assignments
    ++ parts.calls
    ++ ["\x7d", "", "int main(void) \x7b", "    __scopec_startup();", "    return 0;", "\x7d"]

/-- Each part stands for one of the statements of the root, in their order. -/
structure Of (parts : FileParts) (t : Tree) : Prop where
  prototypes : List.Forall₂ t.PrototypeLine (t.rootsOf NodeKind.isFunction) parts.prototypes
  globals : List.Forall₂ t.GlobalLine (t.rootsOf NodeKind.isTyped) parts.globals
  definitions : List.Forall₂ t.Definition (t.rootsOf NodeKind.isOwnFunction) parts.definitions
  assignments : List.Forall₂ t.AssignmentLine (t.rootsOf NodeKind.isAssigned) parts.assignments
  calls : List.Forall₂ t.CallLine (t.rootsOf NodeKind.isCall) parts.calls

end FileParts

namespace Tree

variable {t : Tree}

/-! ## Lines -/

/-- There is no newline in the lines of some statements, if there is none in any of them. -/
theorem unbroken_of_forall₂ {R : NodeId → String → Prop} {ids : List NodeId} {lines : List String}
    (h : List.Forall₂ R ids lines) (hline : ∀ id line, R id line → Unbroken line) :
    ∀ line ∈ lines, Unbroken line := by
  intro line hmem
  obtain ⟨id, -, hid⟩ := exists_of_forall₂ h.flip hmem
  exact hline id line hid

theorem Heading.unbroken (hwords : t.Worded) {name : NodeId} {result : Option NodeId}
    {parameters : List Parameter} {text : String} (h : t.Heading name result parameters text) :
    Unbroken text := by
  obtain @⟨word, text, texts, hresult, hname, hparameters⟩ := h
  have hword : Unbroken word := by
    cases hresult with
    | void => decide
    | type => exact unbroken_targetName _
  have htexts : ∀ text ∈ texts, Unbroken text := by
    intro text htext
    obtain ⟨p, -, htype, hname⟩ := exists_of_forall₂ hparameters.flip htext
    simp only [unbroken_append]
    exact ⟨⟨unbroken_targetName _, by decide⟩, unbroken_of_isWord (hwords _ _ hname)⟩
  have hlist : Unbroken (if texts.isEmpty then "void" else ", ".intercalate texts) := by
    split
    · decide
    · exact unbroken_intercalate (by decide) htexts
  simp only [unbroken_append]
  exact ⟨⟨⟨⟨⟨hword, by decide⟩, hwords.unbroken_function hname⟩, by decide⟩, hlist⟩, by decide⟩

theorem PrototypeLine.unbroken (hwords : t.Worded) {id : NodeId} {line : String}
    (h : t.PrototypeLine id line) : Unbroken line := by
  obtain ⟨-, hheading⟩ := h
  exact unbroken_append.mpr ⟨hheading.unbroken hwords, by decide⟩

theorem GlobalLine.unbroken (hwords : t.Worded) {id : NodeId} {line : String}
    (h : t.GlobalLine id line) : Unbroken line := by
  obtain ⟨-, -, hname⟩ := h
  simp only [unbroken_append]
  exact ⟨⟨⟨unbroken_targetName _, by decide⟩, unbroken_of_isWord (hwords _ _ hname)⟩, by decide⟩

theorem Definition.unbroken (hwords : t.Worded) {id : NodeId} {lines : List String}
    (h : t.Definition id lines) : ∀ line ∈ lines, Unbroken line := by
  obtain @⟨_, _, _, _, _, parts, -, hheading, hbody⟩ := h
  have hparts : ∀ line ∈ parts.flatten, Unbroken line := by
    intro line hline
    obtain ⟨lines, hlines, hline⟩ := List.mem_flatten.mp hline
    obtain ⟨id, -, hstatement⟩ := exists_of_forall₂ hbody.flip hlines
    obtain ⟨-, -, -, hindented⟩ := hstatement
    exact (hindented line hline).1
  rw [List.forall_mem_cons, List.forall_mem_append, List.forall_mem_singleton, unbroken_append]
  exact ⟨⟨hheading.unbroken hwords, by decide⟩, hparts, by decide⟩

theorem AssignmentLine.unbroken (hwords : t.Worded) {id : NodeId} {line : String}
    (h : t.AssignmentLine id line) : Unbroken line := by
  obtain ⟨-, hname, hvalues⟩ := h
  simp only [unbroken_append]
  exact ⟨⟨⟨by decide, unbroken_of_isWord (hwords _ _ hname)⟩, hvalues.unbroken hwords⟩, by decide⟩

theorem CallLine.unbroken (hwords : t.Worded) {id : NodeId} {line : String}
    (h : t.CallLine id line) : Unbroken line := by
  obtain ⟨-, hname, harguments⟩ := h
  simp only [unbroken_append]
  exact ⟨⟨⟨⟨by decide, hwords.unbroken_function hname⟩, by decide⟩, harguments.unbroken hwords⟩,
    by decide⟩

/-- No line of a file goes on in the next one. -/
theorem unbroken_of_of {parts : FileParts} (hwords : t.Worded) (h : parts.Of t) :
    ∀ line ∈ parts.lines, Unbroken line := by
  have hsetOff : ∀ {lines : List String}, (∀ line ∈ lines, Unbroken line) →
      ∀ line ∈ setOff lines, Unbroken line := by
    intro lines hlines
    rw [setOff]
    split
    · exact List.forall_mem_nil _
    · exact List.forall_mem_cons.mpr ⟨by decide, hlines⟩
  have hprototypes := unbroken_of_forall₂ h.prototypes fun _ _ hid => hid.unbroken hwords
  have hglobals := unbroken_of_forall₂ h.globals fun _ _ hid => hid.unbroken hwords
  have hassignments := unbroken_of_forall₂ h.assignments fun _ _ hid => hid.unbroken hwords
  have hcalls := unbroken_of_forall₂ h.calls fun _ _ hid => hid.unbroken hwords
  have hdefinitions : ∀ line ∈ parts.definitions.flatMap ("" :: ·), Unbroken line := by
    intro line hline
    obtain ⟨lines, hlines, hline⟩ := List.mem_flatMap.mp hline
    obtain ⟨id, -, hid⟩ := exists_of_forall₂ h.definitions.flip hlines
    obtain rfl | hline := List.mem_cons.mp hline
    · decide
    · exact hid.unbroken hwords line hline
  simp only [FileParts.lines, List.forall_mem_append]
  exact ⟨⟨⟨⟨⟨⟨hsetOff hprototypes, hsetOff hglobals⟩, hdefinitions⟩, by decide⟩, hassignments⟩,
    hcalls⟩, by decide⟩

/-! ## What is written -/

theorem kind?_of_typeAtom {id : NodeId} {atom : TypeAtom} {isConst : Bool}
    (h : t.typeAtom id = .ok (atom, isConst)) : t.kind? id = some (.type atom isConst) := by
  simp only [typeAtom, bind_eq_ok_iff, get_eq_ok_iff] at h
  obtain ⟨⟨position, kind⟩, hnode, h⟩ := h
  cases kind <;> cases h
  rw [kind?, hnode]
  rfl

theorem resultWord_of_mapM {result : Option NodeId} {atom : Option TypeAtom}
    (h : (result.mapM fun id => return (← t.typeAtom id).1) = .ok atom) :
    t.ResultWord result (resultText atom) := by
  cases result with
  | none =>
    cases h
    exact .void
  | some id =>
    have h : (some <$> (do return (← t.typeAtom id).1)) = Except.ok atom := h
    simp only [map_eq_pure_bind, bind_eq_ok_iff, pure_eq_ok_iff] at h
    obtain ⟨_, ⟨⟨atom, isConst⟩, htype, rfl⟩, rfl⟩ := h
    exact .type (kind?_of_typeAtom htype)

theorem append_variable {name : Name} {text : String} (h : name.text = "sc_" ++ text)
    (front : String) : front ++ " " ++ name.text = front ++ " sc_" ++ text := by
  have hspace : " " ++ "sc_" = " sc_" := rfl
  rw [h, ← hspace, String.append_assoc, String.append_assoc, String.append_assoc]

theorem parameterWords_of_mapM {parameters : List Parameter} {ps : List (TypeAtom × Name)}
    (h : parameters.mapM t.targetParameter = .ok ps) :
    List.Forall₂ t.ParameterWords parameters
      (ps.map fun (type, name) => type.targetName ++ " " ++ name.text) := by
  induction parameters generalizing ps with
  | nil =>
    cases h
    exact .nil
  | cons p parameters ih =>
    obtain ⟨_, others, hp, hothers, rfl⟩ := mapM_cons_eq_ok_iff.mp h
    simp only [targetParameter, bind_eq_ok_iff, pure_eq_ok_iff] at hp
    obtain ⟨⟨atom, isConst⟩, htype, name, hname, rfl⟩ := hp
    obtain ⟨text, htext, hword⟩ := text_variable hname
    refine .cons ?_ (ih hothers)
    show t.ParameterWords p (atom.targetName ++ " " ++ name.text)
    rw [append_variable hword]
    exact .parameter (kind?_of_typeAtom htype) htext

theorem parametersText_eq (ps : List (TypeAtom × Name)) :
    let texts := ps.map fun (type, name) => type.targetName ++ " " ++ name.text
    parametersText ps = if texts.isEmpty then "void" else ", ".intercalate texts := by
  cases ps with
  | nil => rfl
  | cons p ps => rfl

theorem heading_signature {name : NodeId} {result : Option NodeId} {parameters : List Parameter}
    {s : Signature} (h : t.signature t.importedNames name result parameters = .ok s) :
    t.Heading name result parameters s.text := by
  simp only [signature, bind_eq_ok_iff, pure_eq_ok_iff] at h
  obtain ⟨atom, hatom, n, hn, ps, hps, rfl⟩ := h
  obtain ⟨text, htext, hname⟩ := text_function hn
  rw [Signature.text, hname, parametersText_eq]
  exact .heading (resultWord_of_mapM hatom) htext (parameterWords_of_mapM hps)

/-! ## The passes -/

section Passes

variable {α β : Type}

/-- A pass gives one result for each statement that it picks, in their order. -/
theorem forall₂_of_collect {f : NodeId × NodeKind → Except EmitError (List α)}
    {p : NodeKind → Bool} {R : NodeId → α → Prop}
    (hpick : ∀ id ∈ t.rootStatements, ∀ kind as, t.kind? id = some kind → f (id, kind) = .ok as →
      if p kind then ∃ a, as = [a] ∧ R id a else as = [])
    {as : List α} (hcollect : t.collect f = .ok as) : List.Forall₂ R (t.rootsOf p) as := by
  simp only [collect, bind_eq_ok_iff, pure_eq_ok_iff] at hcollect
  obtain ⟨parts, hparts, rfl⟩ := hcollect
  rw [rootNodes] at hparts
  rw [rootsOf]
  -- each statement is passed over or gives one result, so both lists shrink together
  generalize t.rootStatements = ids at hpick hparts ⊢
  induction ids generalizing parts with
  | nil =>
    cases hparts
    exact .nil
  | cons id ids ih =>
    have hpick' := fun other hother => hpick other (List.mem_cons_of_mem id hother)
    cases hnode : t.node? id with
    | none =>
      rw [List.filterMap_cons_none (by rw [hnode]; rfl)] at hparts
      rw [List.filter_cons_of_neg (by simp [kind?, hnode])]
      exact ih _ hpick' hparts
    | some node =>
      have hkind : t.kind? id = some node.kind := by rw [kind?, hnode]; rfl
      rw [List.filterMap_cons_some (by rw [hnode]; rfl)] at hparts
      obtain ⟨first, others, hfirst, hothers, rfl⟩ := mapM_cons_eq_ok_iff.mp hparts
      have hone := hpick id List.mem_cons_self _ _ hkind hfirst
      split at hone
      · next hp =>
        obtain ⟨a, rfl, ha⟩ := hone
        rw [List.filter_cons_of_pos (by simp [hkind, hp])]
        exact .cons ha (ih _ hpick' hothers)
      · next hp =>
        subst hone
        rw [List.filter_cons_of_neg (by simp [hkind, hp])]
        exact ih others hpick' hothers

/-- Results that are each written in lines of their own are written one behind the other. -/
theorem exists_lines {write : α → String} {lines : β → List String} {D : NodeId → β → Prop}
    {ids : List NodeId} {as : List α}
    (h : List.Forall₂ (fun id a => ∃ b, D id b ∧ write a = unlines (lines b)) ids as) :
    ∃ bs, List.Forall₂ D ids bs ∧ String.join (as.map write) = unlines (bs.flatMap lines) := by
  induction h with
  | nil => exact ⟨[], .nil, rfl⟩
  | @cons id a ids as ha _ ih =>
    obtain ⟨b, hb, hwrite⟩ := ha
    obtain ⟨bs, hbs, hwrites⟩ := ih
    refine ⟨b :: bs, .cons hb hbs, ?_⟩
    rw [List.map_cons, String.join_cons, hwrite, hwrites, List.flatMap_cons, unlines_append]

/-- Results that are each written in one line are written as these lines. -/
theorem exists_singleLines {write : α → String} {D : NodeId → String → Prop} {ids : List NodeId}
    {as : List α}
    (h : List.Forall₂ (fun id a => ∃ line, D id line ∧ write a = line ++ "\n") ids as) :
    ∃ lines, List.Forall₂ D ids lines ∧ String.join (as.map write) = unlines lines := by
  have hlines : List.Forall₂ (fun id a => ∃ line, D id line ∧ write a = unlines [line]) ids as :=
    h.imp fun _ _ ⟨line, hline, hwrite⟩ =>
      ⟨line, hline, by rw [hwrite, unlines_cons, unlines_nil, String.append_empty]⟩
  obtain ⟨lines, hD, htext⟩ := exists_lines hlines
  exact ⟨lines, hD, htext.trans (congrArg unlines (List.flatMap_singleton' lines))⟩

end Passes

theorem append_end (text : String) : text ++ ";\n" = text ++ ";" ++ "\n" := by
  rw [String.append_assoc]
  rfl

theorem forall₂_prototypes {ss : List Signature}
    (h : t.collect (t.prototypeOf t.importedNames) = .ok ss) :
    List.Forall₂ (fun id s => ∃ line, t.PrototypeLine id line ∧ s.text ++ ";\n" = line ++ "\n")
      (t.rootsOf NodeKind.isFunction) ss := by
  refine forall₂_of_collect (fun id _ kind as hkind has => ?_) h
  cases kind with
  | function name result parameters body origin =>
    simp only [prototypeOf, bind_eq_ok_iff, pure_eq_ok_iff] at has
    obtain ⟨s, hs, rfl⟩ := has
    exact ⟨s, rfl, _, .prototype hkind (heading_signature hs), append_end s.text⟩
  | _ =>
    cases has
    rfl

theorem forall₂_globals {gs : List (TypeAtom × Name)} (h : t.collect t.globalOf = .ok gs) :
    List.Forall₂ (fun id (type, name) => ∃ line, t.GlobalLine id line ∧
      type.targetName ++ " " ++ name.text ++ ";\n" = line ++ "\n")
      (t.rootsOf NodeKind.isTyped) gs := by
  refine forall₂_of_collect (fun id _ kind as hkind has => ?_) h
  cases kind with
  | declaration type name values =>
    cases type with
    | none =>
      cases has
      rfl
    | some type =>
      simp only [globalOf, bind_eq_ok_iff, pure_eq_ok_iff] at has
      obtain ⟨⟨atom, isConst⟩, htype, n, hn, rfl⟩ := has
      obtain ⟨text, htext, hname⟩ := text_variable hn
      refine ⟨_, rfl, _, .global hkind (kind?_of_typeAtom htype) htext, ?_⟩
      rw [append_variable hname, append_end]
  | _ =>
    cases has
    rfl

theorem forall₂_definitions (hwords : t.Worded) {fs : List Function}
    (h : t.collect (t.functionOf t.importedNames) = .ok fs) :
    List.Forall₂ (fun id f => ∃ lines, t.Definition id lines ∧ f.text = unlines ("" :: lines))
      (t.rootsOf NodeKind.isOwnFunction) fs := by
  refine forall₂_of_collect (fun id _ kind as hkind has => ?_) h
  cases kind with
  | function name result parameters body origin =>
    cases origin with
    | own =>
      simp only [functionOf, bind_eq_ok_iff, pure_eq_ok_iff] at has
      obtain ⟨s, hs, ss, hss, rfl⟩ := has
      obtain ⟨parts, hparts, htext⟩ := lines_block hwords hss
      refine ⟨_, rfl, _, .definition hkind (heading_signature hs) hparts, ?_⟩
      simp [Function.text, htext, String.append_assoc]
    | imported module =>
      cases has
      rfl
  | _ =>
    cases has
    rfl

theorem forall₂_assignments {ss : List Stmt}
    (h : t.collect (t.assignmentOf t.importedNames) = .ok ss) :
    List.Forall₂ (fun id s => ∃ line, t.AssignmentLine id line ∧ Stmt.text 1 s = line ++ "\n")
      (t.rootsOf NodeKind.isAssigned) ss := by
  refine forall₂_of_collect (fun id _ kind as hkind has => ?_) h
  cases kind with
  | declaration type name values =>
    rw [assignmentOf] at has
    rw [NodeKind.isAssigned]
    split at has
    · next hwritten =>
      simp only [bind_eq_ok_iff, pure_eq_ok_iff] at has
      obtain ⟨n, hn, es, hes, rfl⟩ := has
      obtain ⟨text, htext, hname⟩ := text_variable hn
      have hvalues := wording_values (fun _ _ => wording_targetExpr) hes
      have hindent : "    sc_" = indentation 1 ++ "sc_" := rfl
      rw [if_pos hwritten]
      refine ⟨_, rfl, _, .assignment hkind htext hvalues, ?_⟩
      simp [Stmt.text, assignmentText, hname, hindent, String.append_assoc]
    · next hwritten =>
      cases has
      rw [if_neg hwritten]
  | _ =>
    cases has
    rfl

/-- The calls of the root are all made at startup. -/
theorem forall₂_calls {ss : List Stmt}
    (hroot : ∀ id ∈ t.rootStatements, ∀ kind, t.kind? id = some kind → kind.isTopLevel)
    (h : t.collect (t.callOf t.importedNames) = .ok ss) :
    List.Forall₂ (fun id s => ∃ line, t.CallLine id line ∧ Stmt.text 1 s = line ++ "\n")
      (t.rootsOf NodeKind.isCall) ss := by
  refine forall₂_of_collect (fun id hid kind as hkind has => ?_) h
  cases kind with
  | call callee arguments isDirective =>
    cases isDirective with
    | true =>
      simp only [callOf, bind_eq_ok_iff, pure_eq_ok_iff] at has
      obtain ⟨e, he, rfl⟩ := has
      obtain ⟨text, argumentsText, htext, harguments, hcall⟩ :=
        (wording_targetExpr he).of_call hkind
      have hindent : "    " = indentation 1 := rfl
      refine ⟨_, rfl, _, .call hkind htext harguments, ?_⟩
      simp [Stmt.text, hcall, hindent, String.append_assoc]
    | false => cases hroot id hid _ hkind
  | _ =>
    cases has
    rfl

/-! ## The file -/

theorem texts_eq_join (depth : Nat) (ss : List Stmt) :
    Stmt.texts depth ss = String.join (ss.map (Stmt.text depth)) := by
  induction ss with
  | nil => rfl
  | cons s ss ih => rw [Stmt.texts, ih, List.map_cons, String.join_cons]

/-- Lines that are set off are written as a paragraph. -/
theorem paragraph_eq {texts lines : List String} (hlength : texts.length = lines.length)
    (h : String.join texts = unlines lines) : paragraph texts = unlines (setOff lines) := by
  cases texts with
  | nil =>
    obtain rfl := List.length_eq_zero_iff.mp hlength.symm
    rfl
  | cons text texts =>
    cases lines with
    | nil => cases hlength
    | cons line lines =>
      have hsetOff : setOff (line :: lines) = "" :: line :: lines := rfl
      rw [hsetOff, unlines_cons, String.empty_append, ← h]
      rfl

/-- A program is written as the lines of its parts. -/
theorem text_eq {p : Program} {parts : FileParts} (file : String)
    (hprototypes : paragraph (p.prototypes.map fun s => s.text ++ ";\n") =
      unlines (setOff parts.prototypes))
    (hglobals : paragraph (p.globals.map fun (type, name) =>
      type.targetName ++ " " ++ name.text ++ ";\n") = unlines (setOff parts.globals))
    (hfunctions : String.join (p.functions.map Function.text) =
      unlines (parts.definitions.flatMap ("" :: ·)))
    (hstartup : Stmt.texts 1 p.startup = unlines parts.assignments ++ unlines parts.calls) :
    p.text file = preamble file p.modules ++ unlines parts.lines := by
  have hopen : unlines ["", "static void __scopec_startup(void) \x7b"] =
      "\nstatic void " ++ startupName ++ "(void) \x7b\n" := by
    decide +kernel
  have hend : unlines ["\x7d", "", "int main(void) \x7b", "    __scopec_startup();",
      "    return 0;", "\x7d"] = "\x7d\n" ++ "\nint main(void) \x7b\n    " ++ startupName ++
        "();\n    return 0;\n\x7d\n" := by
    decide +kernel
  have hmodules : commaSeparated p.modules = ", ".intercalate p.modules := rfl
  unfold Program.text preamble FileParts.lines
  rw [hmodules, hprototypes, hglobals, hfunctions, hstartup]
  simp only [unlines_append, hopen, hend, String.append_assoc]

/-- The program of a tree is written in lines that stand for the statements of the root. -/
theorem exists_fileParts {p : Program} (hwords : t.Worded)
    (hroot : ∀ id ∈ t.rootStatements, ∀ kind, t.kind? id = some kind → kind.isTopLevel)
    (h : Program.ofTree t = .ok p) :
    ∃ parts : FileParts, parts.Of t ∧ ∀ file,
      p.text file = preamble file (t.modules.entries.map Entry.name) ++ unlines parts.lines := by
  simp only [Program.ofTree, bind_eq_ok_iff, pure_eq_ok_iff] at h
  obtain ⟨ss, hss, gs, hgs, fs, hfs, assigned, hassigned, called, hcalled, rfl⟩ := h
  obtain ⟨prototypes, hprototypes, hprototypesText⟩ := exists_singleLines (forall₂_prototypes hss)
  obtain ⟨globals, hglobals, hglobalsText⟩ := exists_singleLines (forall₂_globals hgs)
  obtain ⟨definitions, hdefinitions, hdefinitionsText⟩ :=
    exists_lines (forall₂_definitions hwords hfs)
  obtain ⟨assignments, hassignments, hassignmentsText⟩ :=
    exists_singleLines (forall₂_assignments hassigned)
  obtain ⟨calls, hcalls, hcallsText⟩ := exists_singleLines (forall₂_calls hroot hcalled)
  refine ⟨⟨prototypes, globals, definitions, assignments, calls⟩,
    ⟨hprototypes, hglobals, hdefinitions, hassignments, hcalls⟩, fun file => ?_⟩
  have hprototypesLength : ss.length = prototypes.length :=
    (forall₂_prototypes hss).length_eq.symm.trans hprototypes.length_eq
  have hglobalsLength : gs.length = globals.length :=
    (forall₂_globals hgs).length_eq.symm.trans hglobals.length_eq
  refine text_eq file (paragraph_eq (by simpa using hprototypesLength) hprototypesText)
    (paragraph_eq (by simpa using hglobalsLength) hglobalsText) hdefinitionsText ?_
  rw [texts_eq_join, List.map_append, String.join_append, hassignmentsText, hcallsText]

/-- No statement stands in the root twice. -/
theorem nodup_rootStatements (tokens : List Token) : (ofTokens tokens).1.rootStatements.Nodup := by
  rcases hroot : (ofTokens tokens).1.rootStatements with _ | ⟨id, ids⟩
  · exact List.nodup_nil
  · have hid : id ∈ (ofTokens tokens).1.statements .root :=
      List.mem_of_mem_head? (by rw [← rootStatements, hroot]; rfl)
    have hscope : ScopeId.root ∈ (ofTokens tokens).1.scopeIds :=
      mem_scopeIds.mpr (mem_statements_lt hid)
    obtain ⟨lost, -, haccount⟩ := exists_accounted tokens
    have honce := (haccount.owned (Builder.leads_build tokens).sound.scopes.ordered).once
    have hstatements := (List.nodup_append.mp honce).2.1
    exact hroot ▸ (List.nodup_flatMap.mp hstatements).1 _ hscope

/-- A statement that the root may have is picked by one of the passes. -/
theorem mem_rootsOf_of_isTopLevel {id : NodeId} {kind : NodeKind} (hid : id ∈ t.rootStatements)
    (hkind : t.kind? id = some kind) (htop : kind.isTopLevel) :
    id ∈ t.rootsOf NodeKind.isFunction ∨ id ∈ t.rootsOf NodeKind.isTyped ∨
      id ∈ t.rootsOf NodeKind.isAssigned ∨ id ∈ t.rootsOf NodeKind.isCall := by
  simp only [rootsOf, List.mem_filter, hid, hkind, Option.any_some, true_and]
  cases kind with
  | function => exact .inl rfl
  | declaration type name values =>
    cases type with
    | none => exact .inr (.inr (.inl rfl))
    | some type => exact .inr (.inl rfl)
  | call => exact .inr (.inr (.inr rfl))
  | _ => cases htop

/-- **Every statement of the root is emitted, once and in its order.**  In the tree of any
list of tokens, the calls that are made at startup are those among the statements of the
root.  For a source that is accepted, the statements of the root are distinct and stand in
the order of the tokens that they begin with.  Behind the preamble its file has a line with the
prototype of each function among them, a line with each variable that is declared with a type,
the lines of each function that has a body, and those of a startup function that makes all
assignments and then all calls, each of these in the order of the statements.  No statement is
left out, and no line has a newline in it. -/
theorem emit_layout :
    (∀ (tokens : List Token) (id callee : NodeId) (arguments : List NodeId) (isDirective : Bool),
      (ofTokens tokens).1.kind? id = some (.call callee arguments isDirective) →
        (isDirective = true ↔ id ∈ (ofTokens tokens).1.rootStatements)) ∧
    ∀ (lx : Lexicon) (source : List UInt8) (t : Tree), ofSource lx source = .ok t →
      t.rootStatements.Nodup ∧
      (∃ tokens firsts, Token.ofSource lx source = .ok tokens ∧ firsts.Sublist tokens ∧
        List.Forall₂ t.TopLevelAt t.rootStatements firsts) ∧
      (∀ id ∈ t.rootStatements,
        id ∈ t.rootsOf NodeKind.isFunction ∨ id ∈ t.rootsOf NodeKind.isTyped ∨
          id ∈ t.rootsOf NodeKind.isAssigned ∨ id ∈ t.rootsOf NodeKind.isCall) ∧
      ∃ parts : FileParts, parts.Of t ∧ (∀ line ∈ parts.lines, Unbroken line) ∧
        ∀ file, t.emit file =
          .ok (preamble file (t.modules.entries.map Entry.name) ++ unlines parts.lines) := by
  refine ⟨fun tokens _ _ _ _ => isDirective_iff_mem_rootStatements tokens,
    fun lx source t h => ?_⟩
  obtain ⟨p, hp⟩ := exists_program h
  have hwords : t.Worded := fun _ _ hident => (isWord_of_ofSource h hident).1
  obtain ⟨tokens, htokens, rfl, -⟩ := tokens_of_ofSource h
  obtain ⟨firsts, hsublist, hplaces⟩ := rootStatements_inOrder tokens
  have htop : ∀ id ∈ (ofTokens tokens).1.rootStatements, ∃ kind,
      (ofTokens tokens).1.kind? id = some kind ∧ kind.isTopLevel := by
    intro id hid
    obtain ⟨token, -, kind, hnode, hkind⟩ := exists_of_forall₂ hplaces hid
    exact ⟨kind, by rw [kind?, hnode]; rfl, hkind⟩
  obtain ⟨parts, hparts, htext⟩ := exists_fileParts hwords (fun id hid kind hkind => by
    obtain ⟨kind', hkind', hall⟩ := htop id hid
    rw [hkind] at hkind'
    cases hkind'
    exact hall) hp
  refine ⟨nodup_rootStatements tokens, ⟨tokens, firsts, htokens, hsublist, hplaces⟩,
    fun id hid => ?_, parts, hparts, unbroken_of_of hwords hparts, fun file => ?_⟩
  · obtain ⟨kind, hkind, hall⟩ := htop id hid
    exact mem_rootsOf_of_isTopLevel hid hkind hall
  · rw [emit, hp, ← htext]
    rfl

/-- In the source `f:(){}f();x:int=1;` the call comes first, and is made at startup behind
the assignment. -/
theorem emit_layout_call :
    ∃ t, ofSource .standard [102, 58, 40, 41, 123, 125, 102, 40, 41, 59, 120, 58, 105, 110, 116,
        61, 49, 59] = .ok t ∧
      ∃ parts : FileParts, parts.Of t ∧
        t.emit "a.sc" = .ok (preamble "a.sc" [] ++ unlines parts.lines) ∧
        parts.assignments.length = 1 ∧ parts.calls.length = 1 := by
  refine exists_ok_of_toOption
    (fun t => ((t.rootsOf NodeKind.isAssigned).length, (t.rootsOf NodeKind.isCall).length,
      t.modules.entries.map Entry.name)) (1, 1, []) (by decide +kernel) fun t hsource hread => ?_
  obtain ⟨hassigned, hrest⟩ := Prod.mk.inj hread
  obtain ⟨hcalls, hmodules⟩ := Prod.mk.inj hrest
  obtain ⟨-, -, -, parts, hparts, -, hemit⟩ := emit_layout.2 _ _ t hsource
  exact ⟨parts, hparts, hmodules ▸ hemit "a.sc", hparts.assignments.length_eq ▸ hassigned,
    hparts.calls.length_eq ▸ hcalls⟩

end Tree

end Braced
