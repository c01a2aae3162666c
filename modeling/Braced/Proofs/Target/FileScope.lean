import Braced.Proofs.Compile
import Braced.Proofs.Target.Binding

/-!
# Braced.Proofs.Target.FileScope

Which names of an emitted file meet.

Outside of all functions stand the functions and variables of the program, `main` and the
startup function.  What the program itself names is marked, and an imported function keeps
the name that its module knows it by.  A mark never makes two names the same, and neither
`main` nor the startup function bears one.  So names meet exactly where an imported
function has one of the marked names, or one of the two others.
-/

namespace Braced

open Target

/-- The names that a program's file declares outside of all functions. -/
def Target.Program.fileNames (p : Program) : List String :=
  "main" :: startupName :: p.declared

theorem variableText_ne_main (name : String) : variableText name ≠ "main" := by
  intro h
  have hlist := congrArg String.toList h
  simp [variableText, Name.text, ownMark, String.toList_append] at hlist

namespace Tree

variable {t : Tree}

/-- The names that the top-level statements bind, without those of imported functions. -/
def ownNames (t : Tree) : List String :=
  (t.rootBindings.map Entry.name).filter fun name => !t.importedNames.contains name

theorem mem_ownNames {name : String} :
    name ∈ t.ownNames ↔ name ∈ t.rootBindings.map Entry.name ∧ name ∉ t.importedNames := by
  simp [ownNames]

/-- The functions that are imported, in the order in which the root binds them. -/
theorem importedNames_sublist (t : Tree) :
    t.importedNames.Sublist ((t.rootBindings.filter (·.kind = .function)).map Entry.name) := by
  rw [importedNames, rootNodes, rootBindings]
  induction t.rootStatements with
  | nil => exact List.nil_sublist _
  | cons id ids ih =>
    rw [List.flatMap_cons, List.filter_append, List.map_append]
    cases hnode : t.node? id with
    | none =>
      rw [List.filterMap_cons_none (by rw [hnode]; rfl)]
      exact ih.trans (List.sublist_append_right _ _)
    | some node =>
      rw [List.filterMap_cons_some (by rw [hnode]; rfl), ← List.singleton_append,
        List.filterMap_append]
      refine List.Sublist.append ?_ ih
      obtain ⟨position, kind⟩ := node
      rw [List.filterMap_cons, List.filterMap_nil]
      split
      · exact List.nil_sublist _
      · next name hname =>
        split at hname
        · next heq =>
          cases heq
          simp [bindings, kind?, hnode, hname]
        · cases hname

/-- An imported function is bound as a function, and nothing else has its name. -/
theorem kind_eq_of_mem_importedNames (hnodup : (t.rootBindings.map Entry.name).Nodup) {e : Entry}
    (he : e ∈ t.rootBindings) (hname : e.name ∈ t.importedNames) : e.kind = .function := by
  obtain ⟨f, hf, hsame⟩ := List.mem_map.mp (t.importedNames_sublist.subset hname)
  obtain ⟨hf, hkind⟩ := List.mem_filter.mp hf
  rw [← List.inj_on_of_nodup_map hnodup hf he hsame]
  exact of_decide_eq_true hkind

/-- Where the root binds no name twice, its names are split by whether they are imported. -/
theorem perm_ownNames (hnodup : (t.rootBindings.map Entry.name).Nodup) :
    (t.rootBindings.map Entry.name).Perm (t.ownNames ++ t.importedNames) := by
  have hsublist : t.importedNames.Sublist (t.rootBindings.map Entry.name) :=
    t.importedNames_sublist.trans (List.filter_sublist.map _)
  refine (List.perm_ext_iff_of_nodup hnodup ?_).mpr fun name => ?_
  · refine List.Nodup.append (hnodup.filter _) (hnodup.sublist hsublist) fun name hown => ?_
    exact (mem_ownNames.mp hown).2
  · rw [List.mem_append, mem_ownNames]
    by_cases himported : name ∈ t.importedNames
    · simp [himported, hsublist.subset himported]
    · simp [himported]

/-- What the root binds is declared as a function of its name would be. -/
theorem text_eq_functionText (hnodup : (t.rootBindings.map Entry.name).Nodup) {e : Entry}
    (he : e ∈ t.rootBindings) :
    e.text t.importedNames = functionText t.importedNames e.name := by
  rw [Entry.text]
  split
  · rfl
  · next hkind =>
    have hname : e.name ∉ t.importedNames :=
      fun hname => hkind (kind_eq_of_mem_importedNames hnodup he hname)
    exact (functionText_of_not_mem hname).symm

/-- Where the root binds no name twice, its imported functions are declared under their
names, and the rest with a mark. -/
theorem perm_map_text (hnodup : (t.rootBindings.map Entry.name).Nodup) :
    (t.rootBindings.map (Entry.text t.importedNames)).Perm
      (t.ownNames.map variableText ++ t.importedNames) := by
  have htext : t.rootBindings.map (Entry.text t.importedNames)
      = (t.rootBindings.map Entry.name).map (functionText t.importedNames) := by
    rw [List.map_map]
    exact List.map_congr_left fun e he => text_eq_functionText hnodup he
  have hown : t.ownNames.map (functionText t.importedNames) = t.ownNames.map variableText :=
    List.map_congr_left fun name hname => functionText_of_not_mem (mem_ownNames.mp hname).2
  have himported : t.importedNames.map (functionText t.importedNames) = t.importedNames :=
    (List.map_congr_left fun name hname => functionText_of_mem hname).trans (List.map_id _)
  have hmap : (t.ownNames ++ t.importedNames).map (functionText t.importedNames)
      = t.ownNames.map variableText ++ t.importedNames := by
    rw [List.map_append, hown, himported]
  rw [htext, ← hmap]
  exact (perm_ownNames hnodup).map _

/-- **Names of a file meet where an imported function has a marked name, or a name of the
file's own.**  What the text of a source that is accepted declares outside of all functions
are its own names with a mark and the names of the functions that it imports.  Own names stay
distinct, and differ from `main` and the startup function; imported names are distinct.  So
all of them are distinct exactly if no imported function has the name of `main`, of the
startup function, or of an own name with its mark. -/
theorem nodup_fileNames_iff {lx : Lexicon} {source : List UInt8}
    (h : ofSource lx source = .ok t) :
    ∃ p, Program.ofTree t = .ok p ∧ (∀ file, t.emit file = .ok (p.text file)) ∧
      p.declared.Perm (t.ownNames.map variableText ++ t.importedNames) ∧
      ("main" :: startupName :: t.ownNames.map variableText).Nodup ∧ t.importedNames.Nodup ∧
      (p.fileNames.Nodup ↔ ∀ name ∈ t.importedNames,
        name ≠ "main" ∧ name ≠ startupName ∧ ∀ own ∈ t.ownNames, name ≠ variableText own) := by
  obtain ⟨p, hp⟩ := exists_program h
  have hnodup := nodup_rootBindings h
  have hdeclared : p.declared.Perm (t.ownNames.map variableText ++ t.importedNames) := by
    rw [(occurrences_ofTree hp).2]
    exact ((perm_rootBindings t).map _).trans (perm_map_text hnodup)
  have hown : (t.ownNames.map variableText).Nodup :=
    (hnodup.filter _).map fun a b hab => variableText_inj.mp hab
  have himported : t.importedNames.Nodup :=
    hnodup.sublist (t.importedNames_sublist.trans (List.filter_sublist.map _))
  have hreserved : ("main" :: startupName :: t.ownNames.map variableText).Nodup := by
    refine List.nodup_cons.mpr ⟨?_, List.nodup_cons.mpr ⟨?_, hown⟩⟩
    · simp [variableText_ne_main, startupName]
    · simp [variableText_ne_startupName]
  refine ⟨p, hp, fun file => by rw [emit, hp]; rfl, hdeclared, hreserved, himported, ?_⟩
  -- what the program names meets neither itself nor the two others, so imports are left
  rw [Program.fileNames, ((hdeclared.cons startupName).cons "main").nodup_iff,
    ← List.cons_append, ← List.cons_append, List.nodup_append]
  constructor
  · rintro ⟨-, -, hne⟩ name hname
    refine ⟨fun heq => ?_, fun heq => ?_, fun own hmem heq => ?_⟩
    · exact hne "main" (by simp) name hname heq.symm
    · exact hne startupName (by simp) name hname heq.symm
    · exact hne _ (List.mem_cons_of_mem _ (List.mem_cons_of_mem _ (List.mem_map_of_mem hmem)))
        name hname heq.symm
  · intro hne
    refine ⟨hreserved, himported, fun text htext name hname heq => ?_⟩
    obtain ⟨hmain, hstartup, hmarked⟩ := hne name hname
    rw [List.mem_cons, List.mem_cons, List.mem_map] at htext
    rcases htext with rfl | rfl | ⟨own, hmem, rfl⟩
    · exact hmain heq.symm
    · exact hstartup heq.symm
    · exact hmarked own hmem heq.symm

/-- In `#foreign from(m,p:());main:int;f:(){p();}` an own variable is called `main`, and
nothing meets. -/
theorem nodup_fileNames_iff_main :
    ∃ t, ofSource .standard [35, 102, 111, 114, 101, 105, 103, 110, 32, 102, 114, 111, 109, 40, 109,
        44, 112, 58, 40, 41, 41, 59, 109, 97, 105, 110, 58, 105, 110, 116, 59, 102, 58, 40, 41, 123,
        112, 40, 41, 59, 125] = .ok t ∧
      ∃ p, Program.ofTree t = .ok p ∧ t.ownNames = ["main", "f"] ∧ p.fileNames.Nodup := by
  refine exists_ok_of_toOption (fun t => (t.importedNames, t.ownNames)) (["p"], ["main", "f"])
    (by decide +kernel) fun t hsource hnames => ?_
  obtain ⟨himported, hown⟩ := Prod.mk.inj hnames
  obtain ⟨p, hp, -, -, -, -, hiff⟩ := nodup_fileNames_iff hsource
  refine ⟨p, hp, hown, hiff.mpr ?_⟩
  rw [himported, hown]
  decide

/-- In `#foreign from(m,sc_x:());x:int;` an imported function has the name of a variable
with its mark. -/
theorem declared_of_marked_import :
    ∃ t, ofSource .standard [35, 102, 111, 114, 101, 105, 103, 110, 32, 102, 114, 111, 109, 40, 109,
        44, 115, 99, 95, 120, 58, 40, 41, 41, 59, 120, 58, 105, 110, 116, 59] = .ok t ∧
      ∃ p, Program.ofTree t = .ok p ∧ p.declared = ["sc_x", "sc_x"] ∧ ¬ p.declared.Nodup := by
  refine exists_ok_of_toOption (fun t => (Program.ofTree t).toOption.map Program.declared)
    (some ["sc_x", "sc_x"]) (by decide +kernel) fun t _ hdeclared => ?_
  refine exists_ok_of_toOption Program.declared ["sc_x", "sc_x"] hdeclared fun p _ hmeet => ?_
  exact ⟨hmeet, by rw [hmeet]; decide⟩

end Tree

end Braced
