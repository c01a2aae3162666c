import Braced.Proofs.Parse.Resolves
import Braced.Proofs.Target.Emits
import Braced.Proofs.Target.Occurrences

/-!
# Braced.Proofs.Target.Binding

What the identifiers of an emitted program refer to.

In a tree, variables are looked for in the scopes around them and functions in the root
alone, and it does not matter which functions are imported.  All of this is written into
one space of names, where the innermost declaration counts.  So a use refers to what it
stands for (`Use.Survives`) unless a block around a call declares the text of the
function, a variable is an imported function, or two texts meet outside of all
functions (`Use.Captured`), and there are no other cases.
-/

namespace Braced

open Target

/-! ## Texts of names -/

theorem variableText_inj {a b : String} : variableText a = variableText b ↔ a = b := by
  simp [variableText, Name.text]

theorem variableText_ne (name : String) : variableText name ≠ name := by
  intro h
  have hlength := congrArg String.length h
  simp [variableText, Name.text, ownMark, String.length_append] at hlength

theorem variableText_ne_startupName (name : String) : variableText name ≠ startupName := by
  intro h
  have hlist := congrArg String.toList h
  simp [variableText, Name.text, ownMark, startupName, String.toList_append] at hlist

theorem functionText_of_mem {imports : List String} {name : String} (h : name ∈ imports) :
    functionText imports name = name := by
  simp [functionText, Name.text, h]

theorem functionText_of_not_mem {imports : List String} {name : String} (h : name ∉ imports) :
    functionText imports name = variableText name := by
  simp [functionText, variableText, h]

namespace Use

/-! ## Uses that survive -/

/-- How a binding is declared that is `depth` scopes inside of the root. In blocks there
are only variables. -/
def bindingText (imports : List String) (depth : Nat) (e : Entry) : String :=
  if depth = 0 then e.text imports else variableText e.name

/-- The identifier that the use is written as is declared, and its innermost declaration
is that of what the use stands for. -/
def Survives (u : Use) (imports file : List String) : Prop :=
  ∃ depth e, u.binding = some (depth, [e]) ∧
    (u.written imports file).declarations = some (depth, [bindingText imports depth e])

/-- The identifier that the use is written as does not refer to what the use stands for. -/
inductive Captured (u : Use) (t : Tree) : Prop
  /-- A block around a call declares what the function's name is written as. -/
  | hidden {name : String} (hmention : u.mention = .function name) {block : List Entry}
      (hblock : block ∈ u.around.blocks) {e : Entry} (he : e ∈ block)
      (htext : variableText e.name = functionText t.importedNames name)
  /-- A variable stands for an imported function. -/
  | imported {name : String} (hmention : u.mention = .variable name) {e : Entry}
      (hbinding : u.binding = some (0, [e])) (hkind : e.kind = .function)
      (hname : name ∈ t.importedNames)
  /-- Something else that the root binds is written in the same way. -/
  | ambiguous {e other : Entry} (hbinding : u.binding = some (0, [e]))
      (hother : other ∈ t.rootBindings) (hne : other ≠ e)
      (htext : other.text t.importedNames = e.text t.importedNames)
  /-- The startup function is written in the same way. -/
  | startup (hmention : u.mention = .function startupName)
      (hname : startupName ∈ t.importedNames) (hblocks : u.around.blocks = [])

/-! ## What is found -/

/-- What is declared outside of the blocks where the use is written. -/
def outermost (u : Use) (file : List String) : List String :=
  match u.around.blocks with
  | [] => startupName :: file
  | _ => file

/-- One frame further in. -/
def deeper (found : Nat × α) : Nat × α :=
  (found.1 + 1, found.2)

theorem declarations_written (u : Use) (imports file : List String) :
    (u.written imports file).declarations =
      ((Surroundings.innermost (· = u.mention.text imports)
          (u.around.blocks.map (List.map fun e => variableText e.name))).map deeper).or
        (Surroundings.innermost (· = u.mention.text imports) [u.outermost file]) := by
  rw [Occurrence.declarations, written, outermost, Surroundings.find]
  cases u.around.blocks with
  | nil => rfl
  | cons block blocks => exact Surroundings.innermost_append_eq _ _ _

theorem binding_variable {u : Use} {name : String} (h : u.mention = .variable name) :
    u.binding = ((Surroundings.innermost (·.name = name) u.around.blocks).map deeper).or
      (Surroundings.innermost (·.name = name) [u.around.outside]) := by
  rw [binding, h]
  exact Surroundings.innermost_append_eq _ _ _

theorem binding_function {u : Use} {name : String} (h : u.mention = .function name) :
    u.binding = Surroundings.innermost (·.name = name) [u.around.outside] := by
  rw [binding, h]
  rfl

/-- No block around declares the text. -/
theorem innermost_blocks_eq_none_iff {blocks : List (List Entry)} {text : String} :
    Surroundings.innermost (· = text) (blocks.map (List.map fun e => variableText e.name)) = none ↔
      ∀ block ∈ blocks, ∀ e ∈ block, variableText e.name ≠ text := by
  simp [Surroundings.innermost_eq_none_iff]

end Use

/-! ## What is declared once -/

theorem filter_eq_singleton_iff {l : List String} {text other : String} :
    l.filter (· = text) = [other] ↔ text = other ∧ l.count other = 1 := by
  have hfilter : l.filter (· = text) = List.replicate (l.count text) text := by
    rw [← List.filter_beq]
    exact List.filter_congr fun x _ => by simp [beq_eq_decide]
  rw [hfilter]
  constructor
  · intro h
    have hmem : other ∈ List.replicate (l.count text) text := h ▸ List.mem_singleton_self other
    obtain rfl := (List.mem_replicate.mp hmem).2
    exact ⟨rfl, by simpa using congrArg List.length h⟩
  · rintro ⟨rfl, hcount⟩
    rw [hcount]
    rfl

/-- A text is declared once if nothing else that is bound is written in this way. -/
theorem count_text_eq_one_iff {imports : List String} {bound : List Entry} (hbound : bound.Nodup)
    {e : Entry} (he : e ∈ bound) :
    (bound.map (Entry.text imports)).count (e.text imports) = 1 ↔
      ∀ other ∈ bound, other ≠ e → other.text imports ≠ e.text imports := by
  obtain ⟨before, after, rfl⟩ := List.append_of_mem he
  have hothers : ∀ other ∈ before ++ after, other ≠ e := by
    rintro other hother rfl
    exact (List.nodup_cons.mp (List.nodup_middle.mp hbound)).1 hother
  have hcount : ((before ++ e :: after).map (Entry.text imports)).count (e.text imports)
      = ((before ++ after).map (Entry.text imports)).count (e.text imports) + 1 := by
    simp only [List.map_append, List.map_cons, List.count_append, List.count_cons_self]
    omega
  rw [hcount, Nat.add_eq_right, List.count_eq_zero, List.mem_map]
  constructor
  · intro h other hother hne htext
    have hother' : other ∈ before ++ after := by
      rw [List.mem_append, List.mem_cons] at hother
      rcases hother with hother | hother | hother
      · exact List.mem_append_left _ hother
      · exact absurd hother hne
      · exact List.mem_append_right _ hother
    exact h ⟨other, hother', htext⟩
  · rintro h ⟨other, hother, htext⟩
    refine h other ?_ (hothers other hother) htext
    rcases List.mem_append.mp hother with hother | hother
    · exact List.mem_append_left _ hother
    · exact List.mem_append_right _ (List.mem_cons_of_mem _ hother)

/-- Where no block around declares what the use is written as, it survives if its text is
that of its binding, and is declared once. -/
theorem Use.survives_iff_of_outermost {u : Use} {imports file : List String} {e : Entry}
    (hbinding : u.binding = some (0, [e]))
    (hdeclarations : (u.written imports file).declarations =
      Surroundings.innermost (· = u.mention.text imports) [u.outermost file]) :
    u.Survives imports file ↔ u.mention.text imports = e.text imports ∧
      (u.outermost file).count (e.text imports) = 1 := by
  rw [← filter_eq_singleton_iff]
  constructor
  · rintro ⟨depth, e', hbinding', hfound⟩
    cases hbinding.symm.trans hbinding'
    exact (Surroundings.innermost_singleton_eq_some_iff.mp (hdeclarations.symm.trans hfound)).2.2
  · intro hfilter
    refine ⟨0, e, hbinding, hdeclarations.trans ?_⟩
    exact Surroundings.innermost_singleton_eq_some_iff.mpr ⟨rfl, List.cons_ne_nil _ _, hfilter⟩

namespace Tree

variable {t : Tree} {u : Use} {file : List String}

/-- Top-level statements bind functions and variables. -/
theorem perm_rootBindings (t : Tree) : (t.rootBindings.filter (·.kind = .function) ++
    t.rootBindings.filter (·.kind = .declaration)).Perm t.rootBindings := by
  have hkinds : ∀ e ∈ t.rootBindings,
      decide (e.kind = .declaration) = !decide (e.kind = .function) := by
    intro e he
    obtain ⟨id, -, he⟩ := List.mem_flatMap.mp he
    unfold bindings at he
    split at he
    · obtain ⟨name, -, rfl⟩ := List.mem_map.mp he
      rfl
    · obtain ⟨name, -, rfl⟩ := List.mem_map.mp he
      rfl
    · cases he
  rw [List.filter_congr hkinds]
  exact List.filter_append_perm _ _

/-- Outside of all functions each binding of the root is declared, and no binding twice. -/
structure Declares (t : Tree) (file : List String) : Prop where
  nodup : t.rootBindings.Nodup
  perm : file.Perm (t.rootBindings.map (Entry.text t.importedNames))

/-- What a binding of the root is declared as is declared once. -/
theorem Declares.count_outermost (h : t.Declares file) (u : Use) {e : Entry}
    (he : e ∈ t.rootBindings) :
    (u.outermost file).count (e.text t.importedNames) = 1 ↔
      (∀ other ∈ t.rootBindings, other ≠ e →
        other.text t.importedNames ≠ e.text t.importedNames) ∧
      ¬ (u.around.blocks = [] ∧ e.text t.importedNames = startupName) := by
  rw [← count_text_eq_one_iff h.nodup he, ← h.perm.count_eq]
  have hpos : 0 < file.count (e.text t.importedNames) :=
    List.count_pos_iff.mpr (h.perm.mem_iff.mpr (List.mem_map_of_mem he))
  unfold Use.outermost
  split
  · next hblocks =>
    by_cases hstartup : e.text t.importedNames = startupName
    · rw [hstartup] at hpos ⊢
      simp only [List.count_cons_self, hblocks, and_self, not_true, and_false, iff_false]
      omega
    · rw [List.count_cons_of_ne (Ne.symm hstartup)]
      simp [hstartup]
  · next hblocks =>
    have hne : ¬ (u.around.blocks = [] ∧ e.text t.importedNames = startupName) :=
      fun hnil => hblocks hnil.1
    simp [hne]

section Survives

variable (h : t.Declares file) (hu : u.Resolves t) (hroot : t.scopes.bound .root = t.rootBindings)

include hu hroot in
/-- What is found outside of all blocks is bound by the root. -/
theorem mem_rootBindings_of_innermost {name : String} {depth : Nat} {e : Entry}
    (hfound : Surroundings.innermost (·.name = name) [u.around.outside] = some (depth, [e])) :
    depth = 0 ∧ e.name = name ∧ e ∈ t.rootBindings := by
  obtain ⟨hdepth, -, hfilter⟩ := Surroundings.innermost_singleton_eq_some_iff.mp hfound
  have he : e ∈ u.around.outside.filter fun e => decide (e.name = name) :=
    hfilter ▸ List.mem_singleton_self e
  rw [List.mem_filter, decide_eq_true_eq] at he
  exact ⟨hdepth, he.2, hroot ▸ hu.outside.subset he.1⟩

include h hu hroot

/-- A variable survives unless it is an imported function, or two texts meet. -/
theorem survives_variable_iff {name : String} (hmention : u.mention = .variable name) :
    u.Survives t.importedNames file ↔ ¬ u.Captured t := by
  obtain ⟨depth, e, hbinding, -⟩ := hu.binding
  have hsame : ((fun text => decide (text = u.mention.text t.importedNames)) ∘
      fun e : Entry => variableText e.name) = fun e : Entry => decide (e.name = name) := by
    funext e
    simp [hmention, Mention.text, variableText_inj]
  have hdeclarations := u.declarations_written t.importedNames file
  rw [Surroundings.innermost_map, hsame] at hdeclarations
  have hwhere := hbinding.symm.trans (Use.binding_variable hmention)
  cases hblocks : Surroundings.innermost (fun e => decide (e.name = name)) u.around.blocks with
  | some found =>
    -- the same block has it here and there
    rw [hblocks] at hwhere hdeclarations
    obtain ⟨n, as⟩ := found
    cases hwhere
    refine iff_of_true ⟨n + 1, e, hbinding, hdeclarations⟩ fun hcaptured => ?_
    cases hcaptured with
    | hidden h => simp [hmention] at h
    | imported _ h => simp [hbinding] at h
    | ambiguous h => simp [hbinding] at h
    | startup h => simp [hmention] at h
  | none =>
    rw [hblocks] at hwhere hdeclarations
    obtain ⟨rfl, rfl, he⟩ := mem_rootBindings_of_innermost hu hroot hwhere.symm
    rw [Use.survives_iff_of_outermost hbinding hdeclarations, h.count_outermost u he, hmention]
    constructor
    · rintro ⟨htext, hother, -⟩ hcaptured
      cases hcaptured with
      | hidden h => simp [hmention] at h
      | imported hname hbinding' hkind h =>
        cases hbinding.symm.trans hbinding'
        cases hmention.symm.trans hname
        rw [Entry.text, hkind, functionText_of_mem h] at htext
        exact variableText_ne _ htext
      | ambiguous hbinding' hmem hne htext =>
        cases hbinding.symm.trans hbinding'
        exact hother _ hmem hne htext
      | startup h => simp [hmention] at h
    · intro hcaptured
      have htext : variableText e.name = e.text t.importedNames := by
        rw [Entry.text]
        split
        · next hkind =>
          exact (functionText_of_not_mem fun hname =>
            hcaptured (.imported hmention hbinding hkind hname)).symm
        · rfl
      refine ⟨htext, fun other hother hne htext => hcaptured (.ambiguous hbinding hother hne htext),
        fun hstartup => variableText_ne_startupName e.name (htext.trans hstartup.2)⟩

/-- A call survives unless a block around declares the function's text, or two texts
meet. -/
theorem survives_function_iff {name : String} (hmention : u.mention = .function name) :
    u.Survives t.importedNames file ↔ ¬ u.Captured t := by
  obtain ⟨depth, e, hbinding, hkind⟩ := hu.binding
  have hkind := hkind name hmention
  obtain ⟨rfl, rfl, he⟩ := mem_rootBindings_of_innermost hu hroot
    ((Use.binding_function hmention).symm.trans hbinding)
  have hetext : e.text t.importedNames = functionText t.importedNames e.name := by
    rw [Entry.text, hkind]
  have hwritten : u.mention.text t.importedNames = functionText t.importedNames e.name := by
    rw [hmention]
    rfl
  have hdeclarations := u.declarations_written t.importedNames file
  by_cases hblocks : ∀ block ∈ u.around.blocks, ∀ e' ∈ block,
      variableText e'.name ≠ u.mention.text t.importedNames
  · rw [Use.innermost_blocks_eq_none_iff.mpr hblocks] at hdeclarations
    rw [Use.survives_iff_of_outermost hbinding hdeclarations, h.count_outermost u he]
    constructor
    · rintro ⟨-, hother, hstartup⟩ hcaptured
      cases hcaptured with
      | hidden hname hblock he' htext =>
        cases hmention.symm.trans hname
        exact hblocks _ hblock _ he' (htext.trans hwritten.symm)
      | imported h => simp [hmention] at h
      | ambiguous hbinding' hmem hne htext =>
        cases hbinding.symm.trans hbinding'
        exact hother _ hmem hne htext
      | startup hname himported hnil =>
        have hname := Mention.function.inj (hmention.symm.trans hname)
        rw [hetext, hname, functionText_of_mem himported] at hstartup
        exact hstartup ⟨hnil, rfl⟩
    · intro hcaptured
      refine ⟨hwritten.trans hetext.symm,
        fun other hother hne htext => hcaptured (.ambiguous hbinding hother hne htext), ?_⟩
      rintro ⟨hnil, hstartup⟩
      rw [hetext] at hstartup
      by_cases himported : e.name ∈ t.importedNames
      · rw [functionText_of_mem himported] at hstartup
        exact hcaptured (.startup (hstartup ▸ hmention) (hstartup ▸ himported) hnil)
      · rw [functionText_of_not_mem himported] at hstartup
        exact variableText_ne_startupName _ hstartup
  · -- some block declares the text, and so the function is hidden
    refine iff_of_false ?_ fun hcaptured => hblocks fun block hblock e' he' htext =>
      hcaptured (.hidden hmention hblock he' (htext.trans hwritten))
    rintro ⟨depth, e', hbinding', hfound⟩
    cases hbinding.symm.trans hbinding'
    obtain ⟨found, hsome⟩ :=
      Option.ne_none_iff_exists'.mp (mt Use.innermost_blocks_eq_none_iff.mp hblocks)
    simp [hdeclarations, hsome, Use.deeper] at hfound

end Survives

/-- **Where names keep their meaning.**  Each source that is accepted has a program, whose
identifiers are the uses in the tree in the same order; each use is resolved in the tree,
and its identifier is declared and refers to what the use stands for exactly if it is
not captured. -/
theorem binding_survives_iff {lx : Lexicon} {source : List UInt8} {t : Tree}
    (h : Tree.ofSource lx source = .ok t) :
    ∃ p, Program.ofTree t = .ok p ∧
      p.occurrences = t.uses.map (Use.written t.importedNames p.declared) ∧
      ∀ u ∈ t.uses, u.Resolves t ∧
        (u.Survives t.importedNames p.declared ↔ ¬ u.Captured t) := by
  obtain ⟨tokens, rfl, hclean⟩ := ofSource_eq_ok h
  have hemits := failsAt_find?_ofTokens "" tokens
  rw [hclean] at hemits
  obtain ⟨text, htext⟩ := hemits
  obtain ⟨p, hp⟩ : ∃ p, Program.ofTree (ofTokens tokens).1 = .ok p := by
    rw [emit] at htext
    cases hp : Program.ofTree (ofTokens tokens).1 with
    | error e =>
      rw [hp] at htext
      cases htext
    | ok p => exact ⟨p, rfl⟩
  obtain ⟨hoccurrences, hdeclared⟩ := occurrences_ofTree hp
  obtain ⟨hresolves, hroot⟩ := ofTokens_resolves hclean
  have hdistinct : (ofTokens tokens).1.scopes.Distinct := (Builder.leads_build tokens).distinct
  have hdeclares : (ofTokens tokens).1.Declares p.declared := by
    refine ⟨?_, hdeclared ▸ (perm_rootBindings _).map _⟩
    rw [rootBindings, ← hroot]
    exact List.Nodup.of_map _ (hdistinct .root)
  refine ⟨p, hp, hoccurrences, fun u hu => ⟨hresolves u hu, ?_⟩⟩
  rcases hmention : u.mention with name | name
  · exact survives_variable_iff hdeclares (hresolves u hu) hroot hmention
  · exact survives_function_iff hdeclares (hresolves u hu) hroot hmention

/-- In the source `f:(){}g:(){f:int=1;f();}` the call is of the function, and what it is
written as refers to the variable. -/
theorem binding_survives_iff_hidden :
    ∃ t p, Tree.ofSource .standard [102, 58, 40, 41, 123, 125, 103, 58, 40, 41, 123, 102, 58, 105,
        110, 116, 61, 49, 59, 102, 40, 41, 59, 125] = .ok t ∧
      Program.ofTree t = .ok p ∧ ∃ u ∈ t.uses, u.binding = some (0, [⟨"f", .function⟩]) ∧
        ¬ u.Survives t.importedNames p.declared := by
  have hread : (Tree.ofSource .standard [102, 58, 40, 41, 123, 125, 103, 58, 40, 41, 123, 102, 58,
      105, 110, 116, 61, 49, 59, 102, 40, 41, 59, 125]).toOption.map
        (fun t => (t.uses, t.importedNames)) =
      some ([⟨.function "f", ⟨2⟩, ⟨[[⟨"f", .declaration⟩]], [⟨"f", .function⟩, ⟨"g", .function⟩]⟩⟩],
        []) := by
    decide +kernel
  obtain ⟨t, ht, hpair⟩ := Option.map_eq_some_iff.mp hread
  obtain ⟨huses, himports⟩ := Prod.mk.inj hpair
  cases hsource : Tree.ofSource .standard _ with
  | error ds => rw [hsource] at ht; cases ht
  | ok t' =>
    rw [hsource] at ht
    cases ht
    obtain ⟨p, hp, -, hall⟩ := binding_survives_iff hsource
    refine ⟨t, p, rfl, hp, _, huses ▸ List.mem_singleton_self _, by decide, fun hsurvives => ?_⟩
    refine (hall _ (huses ▸ List.mem_singleton_self _)).2.mp hsurvives ?_
    refine .hidden rfl (List.mem_singleton_self _) (List.mem_singleton_self _) ?_
    rw [himports]
    decide

end Tree

end Braced
