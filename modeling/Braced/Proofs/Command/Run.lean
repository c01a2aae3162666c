import Braced.Command.Run
import Braced.Proofs.Compile

/-!
# Braced.Proofs.Command.Run

How a run ends, and which files it leaves.

A run without a source that is accepted, or without a place for its program, fails and
leaves all files as they were (`runWith_of_not_writes`).  Any other run writes one file, its
program, and then, unless it is told not to, has it linked (`runWith_of_writes`).  Where
that fails the program stays, in place of what was there before: no stage takes back what
an earlier one did.
-/

namespace Braced.Command

/-! ## Files -/

namespace Disk

variable {d : Disk} {way way' : List String} {content : List UInt8}

/-- A file that is put leaves the others as they are. -/
theorem file?_put_of_ne (h : way' ≠ way) : (d.put way content).file? way' = d.file? way' := by
  have hother : (way' == way) = false := beq_false_of_ne h
  have hkeep (files : List (List String × List UInt8)) :
      (files.filter (·.1 ≠ way)).lookup way' = files.lookup way' := by
    induction files with
    | nil => rfl
    | cons entry files ih =>
      by_cases hentry : entry.1 = way
      · rw [List.filter_cons_of_neg (by simp [hentry]), ih, List.lookup_cons, hentry, hother]
      · rw [List.filter_cons_of_pos (by simp [hentry]), List.lookup_cons, List.lookup_cons, ih]
  rw [file?, put, List.lookup_cons, hother, hkeep, file?]

/-- Putting a file changes nothing only where it is there already, with that content. -/
theorem file?_put_eq_iff : (∀ way', (d.put way content).file? way' = d.file? way') ↔
    d.file? way = some content := by
  constructor
  · intro hsame
    rw [← hsame way, file?_put]
  · intro hfile way'
    by_cases hway : way' = way
    · rw [hway, file?_put, hfile]
    · exact file?_put_of_ne hway

/-- What is written is put where its path leads, unless that is a directory. -/
theorem write_eq_ok_iff {path : String} {d' : Disk} : d.write path content = .ok d' ↔
    ∃ way, d.way path = .ok way ∧ d.find? way ≠ some .directory ∧ d' = d.put way content := by
  unfold write
  cases d.way path with
  | error e => simp [bind, Except.bind]
  | ok way =>
    cases hfind : d.find? way with
    | none => simp [bind, Except.bind, pure, Except.pure, hfind, eq_comm]
    | some found =>
      cases found <;>
        simp [bind, Except.bind, pure, Except.pure, throw, throwThe, MonadExceptOf.throw, hfind,
          eq_comm]

end Disk

/-! ## Stages -/

section Stages

variable {o : Options}

theorem readStage_result (read : Except FileError (List UInt8)) :
    (readStage o read).result = read.toOption := by
  cases read <;> rfl

theorem writeStage_result (written : Except FileError α) :
    (writeStage o written).result = written.toOption := by
  cases written <;> rfl

/-- The program of a source that is accepted is the text of its tree. -/
theorem compileStage_result_eq_some_iff {source : List UInt8} {text : String} :
    (compileStage o source).result = some text ↔
      ∃ t, Tree.ofSource .standard source = .ok t ∧ t.emit (baseName o.input) = .ok text := by
  unfold compileStage Tree.ofSource Tree.ofTokens?
  cases Token.ofSource .standard source with
  | error d => simp
  | ok tokens =>
    cases hread : Tree.ofTokens tokens with
    | mk tree diagnostics =>
      cases diagnostics with
      | nil => cases hemit : tree.emit (baseName o.input) <;> simp [hread, hemit]
      | cons d others => simp [hread]

end Stages

namespace Outcome

variable {stage : Stage α} {next : α → Outcome} {disk d : Disk} {status : Nat}

/-- The run has that status, and leaves those files. -/
def Ends (outcome : Outcome) (status : Nat) (disk : Disk) : Prop :=
  outcome.status = status ∧ outcome.disk = disk

/-- A run goes on behind a stage with a result. -/
theorem ends_after {result : α} (h : stage.result = some result)
    (hnext : (next result).Ends status d) : (after disk stage next).Ends status d := by
  rw [after, h]
  exact hnext

/-- A run fails at a stage without a result. -/
theorem ends_after_of_none (h : stage.result = none) : (after disk stage next).Ends 1 disk := by
  simp [after, h, Ends]

end Outcome

/-! ## Runs -/

/-- What a run does once its program is written. -/
def restOfRun (compiler : Compiler) (o : Options) (disk : Disk) : Outcome :=
  if o.emitOnly then ⟨0, [lastLine], disk⟩
  else
    .after disk ⟨[linkLine o], some ()⟩ fun () =>
      .after disk (linkStage o (compiler o.compiler (programPath o) o.output disk)) fun disk =>
        ⟨0, [lastLine], disk⟩

/-- A run reads, compiles and writes, and then does the rest. -/
theorem runWith_eq (compiler : Compiler) (disk : Disk) (o : Options) :
    runWith compiler disk o = .after disk (readStage o (disk.read o.input)) fun source =>
      .after disk (compileStage o source) fun text =>
        .after disk (writeStage o (disk.write (programPath o) (Text.Utf8.encode text)))
          (restOfRun compiler o) :=
  rfl

section Rest

variable {compiler : Compiler} {o : Options} {disk : Disk}

/-- Nothing is linked where that is not asked for. -/
theorem restOfRun_of_emitOnly (h : o.emitOnly) : (restOfRun compiler o disk).Ends 0 disk := by
  rw [restOfRun, if_pos h]
  exact ⟨rfl, rfl⟩

theorem restOfRun_of_linked (h : o.emitOnly = false) {linked : Disk}
    (hlinked : compiler o.compiler (programPath o) o.output disk = .linked linked) :
    (restOfRun compiler o disk).Ends 0 linked := by
  have hresult : (linkStage o (compiler o.compiler (programPath o) o.output disk)).result
      = some linked := by rw [hlinked, linkStage]
  rw [restOfRun, h, if_neg Bool.false_ne_true]
  exact Outcome.ends_after rfl (Outcome.ends_after hresult ⟨rfl, rfl⟩)

/-- When the compiler fails, or there is none, the files stay as they are. -/
theorem restOfRun_of_not_linked (h : o.emitOnly = false)
    (hfailed : ∀ linked, compiler o.compiler (programPath o) o.output disk ≠ .linked linked) :
    (restOfRun compiler o disk).Ends 1 disk := by
  rw [restOfRun, h, if_neg Bool.false_ne_true]
  refine Outcome.ends_after rfl (Outcome.ends_after_of_none ?_)
  cases hlinking : compiler o.compiler (programPath o) o.output disk with
  | linked linked => exact absurd hlinking (hfailed linked)
  | failed | unavailable => rfl

end Rest

/-- The source of a run is accepted, and its program can be written there. -/
structure Writes (disk : Disk) (o : Options) (way : List String) (content : List UInt8) :
    Prop where
  accepted : ∃ source t text, disk.read o.input = .ok source ∧
    Tree.ofSource .standard source = .ok t ∧ t.emit (baseName o.input) = .ok text ∧
    Text.Utf8.encode text = content
  leads : disk.way (programPath o) = .ok way
  free : disk.find? way ≠ some .directory

section Runs

variable {compiler : Compiler} {disk : Disk} {o : Options} {way : List String}
  {content : List UInt8}

/-- **A run that can write its program does**, and then ends as its rest does. -/
theorem runWith_of_writes (h : Writes disk o way content) {status : Nat} {d : Disk}
    (hrest : (restOfRun compiler o (disk.put way content)).Ends status d) :
    (runWith compiler disk o).Ends status d := by
  obtain ⟨source, t, text, hread, hsource, hemit, rfl⟩ := h.accepted
  have hwrite : disk.write (programPath o) (Text.Utf8.encode text)
      = .ok (disk.put way (Text.Utf8.encode text)) :=
    Disk.write_eq_ok_iff.mpr ⟨way, h.leads, h.free, rfl⟩
  rw [runWith_eq]
  refine Outcome.ends_after (by rw [readStage_result, hread]; rfl) ?_
  refine Outcome.ends_after (compileStage_result_eq_some_iff.mpr ⟨t, hsource, hemit⟩) ?_
  exact Outcome.ends_after (by rw [writeStage_result, hwrite]; rfl) hrest

/-- **A run that cannot write its program leaves all files as they are**, and fails. -/
theorem runWith_of_not_writes (h : ∀ way content, ¬ Writes disk o way content) :
    (runWith compiler disk o).Ends 1 disk := by
  unfold runWith
  cases hread : disk.read o.input with
  | error e => exact Outcome.ends_after_of_none rfl
  | ok source =>
    refine Outcome.ends_after rfl ?_
    cases hcompile : (compileStage o source).result with
    | none => exact Outcome.ends_after_of_none hcompile
    | some text =>
      refine Outcome.ends_after hcompile (Outcome.ends_after_of_none ?_)
      rw [writeStage_result]
      cases hwrite : disk.write (programPath o) (Text.Utf8.encode text) with
      | error e => rfl
      | ok written =>
        obtain ⟨t, hsource, hemit⟩ := compileStage_result_eq_some_iff.mp hcompile
        obtain ⟨way, hleads, hfree, -⟩ := Disk.write_eq_ok_iff.mp hwrite
        exact absurd ⟨⟨source, t, text, hread, hsource, hemit, rfl⟩, hleads, hfree⟩ (h way _)

/-- The program that a run writes is not linked, though it should be. -/
def Leaves (compiler : Compiler) (environment : Option String) (disk : Disk)
    (arguments : List String) (way : List String) (content : List UInt8) : Prop :=
  ∃ o, Options.ofArguments environment arguments = .ok o ∧ o.emitOnly = false ∧
    Writes disk o way content ∧
    ∀ linked, compiler o.compiler (programPath o) o.output (disk.put way content) ≠ .linked linked

variable {environment : Option String} {arguments : List String}

/-- A run that leaves its program behind fails. -/
theorem ends_of_leaves (h : Leaves compiler environment disk arguments way content) :
    (run compiler environment disk arguments).Ends 1 (disk.put way content) := by
  obtain ⟨o, hoptions, hlink, hwrites, hfailed⟩ := h
  rw [run, hoptions]
  exact runWith_of_writes hwrites (restOfRun_of_not_linked hlink hfailed)

/-- Any other run that fails leaves all files as they are. -/
theorem disk_of_not_leaves (hfailed : (run compiler environment disk arguments).status ≠ 0)
    (h : ∀ way content, ¬ Leaves compiler environment disk arguments way content) :
    (run compiler environment disk arguments).disk = disk := by
  unfold run at hfailed ⊢
  cases hoptions : Options.ofArguments environment arguments with
  | error stop => rfl
  | ok o =>
    rw [hoptions] at hfailed
    by_cases hwrites : ∃ way content, Writes disk o way content
    · obtain ⟨way, content, hwrites⟩ := hwrites
      cases hlink : o.emitOnly with
      | true =>
        exact absurd (runWith_of_writes hwrites (restOfRun_of_emitOnly hlink)).1 hfailed
      | false =>
        refine absurd ⟨o, hoptions, hlink, hwrites, fun linked hlinked => ?_⟩ (h way content)
        exact hfailed (runWith_of_writes hwrites (restOfRun_of_linked hlink hlinked)).1
    · exact (runWith_of_not_writes fun way content hw => hwrites ⟨way, content, hw⟩).2

/-- **What a run that fails leaves.**  A run that fails changes no file, with one exception:
the program that it has written stays where it is when no compiler links it, and then this
file is all that it changes.  So everything is as it was before unless there is such a
program, and it is not what was there already.  A write is all or nothing here; what one leaves
that fails half-way, on a full disk say, is not modelled. -/
theorem run_failed (hfailed : (run compiler environment disk arguments).status ≠ 0) :
    (∀ way content, Leaves compiler environment disk arguments way content →
      (run compiler environment disk arguments).disk = disk.put way content) ∧
    ((∀ way content, ¬ Leaves compiler environment disk arguments way content) →
      (run compiler environment disk arguments).disk = disk) ∧
    ((∀ way, (run compiler environment disk arguments).disk.file? way = disk.file? way) ↔
      ∀ way content, Leaves compiler environment disk arguments way content →
        disk.file? way = some content) := by
  refine ⟨fun _ _ h => (ends_of_leaves h).2, disk_of_not_leaves hfailed, fun hsame => ?_,
    fun hleft => ?_⟩
  · intro way content h
    rw [(ends_of_leaves h).2] at hsame
    exact Disk.file?_put_eq_iff.mp hsame
  · by_cases hleaves : ∃ way content, Leaves compiler environment disk arguments way content
    · obtain ⟨way, content, h⟩ := hleaves
      rw [(ends_of_leaves h).2]
      exact Disk.file?_put_eq_iff.mpr (hleft way content h)
    · rw [disk_of_not_leaves hfailed fun way content h => hleaves ⟨way, content, h⟩]
      exact fun _ => rfl

end Runs

/-- With `false` for a compiler, a run for the source `x:int=1;` fails, and leaves a program
where there was none. -/
theorem run_failed_unlinked :
    let compiler := Compiler.ofStatuses [("true", 0), ("false", 1)]
    let disk : Disk := ⟨[(["main.sc"], [120, 58, 105, 110, 116, 61, 49, 59])]⟩
    let arguments := ["main.sc", "out", "--cc", "false"]
    let outcome := run compiler none disk arguments
    outcome.status ≠ 0 ∧ disk.file? ["out.c"] = none ∧
      (outcome.disk.file? ["out.c"]).isSome ∧
      ∃ way content, Leaves compiler none disk arguments way content ∧
        outcome.disk = disk.put way content := by
  intro compiler disk arguments outcome
  have hfailed : outcome.status ≠ 0 := by decide +kernel
  have hnew : (outcome.disk.file? ["out.c"]).isSome := by decide +kernel
  obtain ⟨hleaves, hothers, -⟩ := run_failed hfailed
  refine ⟨hfailed, rfl, hnew, Classical.byContradiction fun hnone => ?_⟩
  have hsame : outcome.disk = disk := hothers fun way content h =>
    hnone ⟨way, content, h, hleaves way content h⟩
  rw [hsame] at hnew
  cases hnew

end Braced.Command
