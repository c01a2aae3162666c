import Braced.Proofs.Scope.Chain
import Mathlib.Data.List.Pairwise

/-!
# Braced.Proofs.Scope.Table

What a table holds and finds after any names have been added to it.

An entry is refused or already there exactly if one of the table blocks it, and nothing else
changes a table than an entry at its end.  So no entry of a table blocks another
(`SymbolTable.apart_ofEntries`), and what a name is looked up to can be told from what was
added, whatever was refused in between (`SymbolTable.lookup_ofEntries`).
-/

namespace Braced

namespace Entry

/-- An entry blocks the same entry, and where it binds a name any other that does. -/
theorem blocks_iff (e : Entry) (name : String) (kind : EntryKind) : e.blocks name kind ↔
    e = ⟨name, kind⟩ ∨ kind.isBinding ∧ e.name = name ∧ e.kind.isBinding := by
  cases e
  simp only [blocks, Bool.and_eq_true, Bool.or_eq_true, decide_eq_true_eq, mk.injEq]
  grind

/-- Of two entries each blocks the other, or neither does. -/
instance : Std.Symm fun e e' : Entry => ¬ e.blocks e'.name e'.kind where
  symm e e' h hblocks := by
    rcases (blocks_iff ..).mp hblocks with heq | ⟨hkind, hname, hkind'⟩
    · exact h ((blocks_iff ..).mpr (.inl heq.symm))
    · exact h ((blocks_iff ..).mpr (.inr ⟨hkind', hname.symm, hkind⟩))

theorem binds_iff (e : Entry) (name : String) :
    e.binds name ↔ e.name = name ∧ e.kind.isBinding := by
  simp [binds]

end Entry

namespace SymbolTable

variable {t : SymbolTable} {name : String} {kind : EntryKind}

/-! ## Adding one name -/

/-- The table binds the name, and would bind it once more. -/
def Refuses (t : SymbolTable) (name : String) (kind : EntryKind) : Prop :=
  kind.isBinding ∧ t.Binds name

/-- The table has the entry, which does not bind the name. -/
def Holds (t : SymbolTable) (name : String) (kind : EntryKind) : Prop :=
  ¬ kind.isBinding ∧ ⟨name, kind⟩ ∈ t.entries

theorem exists_blocks_iff (t : SymbolTable) (name : String) (kind : EntryKind) :
    (∃ e ∈ t.entries, e.blocks name kind) ↔ t.Refuses name kind ∨ t.Holds name kind := by
  simp only [Entry.blocks_iff, Refuses, Holds, Binds]
  grind

/-- The answer to adding a name, with the table that is there then. -/
def attempt (t : SymbolTable) (name : String) (kind : EntryKind) :
    Except Fault Entry × SymbolTable :=
  match t.insert name kind with
  | .ok (entry, t') => (.ok entry, t')
  | .error fault => (.error fault, t)

theorem attempt_of_refuses (h : t.Refuses name kind) :
    t.attempt name kind = (.error (.redeclaration name), t) := by
  have hsome : (t.entries.find? (·.blocks name kind)).isSome := by
    rw [List.find?_isSome]
    exact (t.exists_blocks_iff name kind).mpr (.inl h)
  obtain ⟨present, hpresent⟩ := Option.isSome_iff_exists.mp hsome
  rw [attempt, insert, hpresent]
  simp only [h.1, if_true]

theorem attempt_of_holds (h : t.Holds name kind) :
    t.attempt name kind = (.ok ⟨name, kind⟩, t) := by
  have hsome : (t.entries.find? (·.blocks name kind)).isSome := by
    rw [List.find?_isSome]
    exact (t.exists_blocks_iff name kind).mpr (.inr h)
  obtain ⟨present, hpresent⟩ := Option.isSome_iff_exists.mp hsome
  have hblocks : present.blocks name kind := by simpa using List.find?_some hpresent
  obtain rfl : present = ⟨name, kind⟩ :=
    ((present.blocks_iff name kind).mp hblocks).resolve_right fun hbinds => h.1 hbinds.1
  rw [attempt, insert, hpresent]
  simp only [h.1, if_false, Bool.false_eq_true]

theorem attempt_of_free (hrefuses : ¬ t.Refuses name kind) (hholds : ¬ t.Holds name kind) :
    t.attempt name kind = (.ok ⟨name, kind⟩, ⟨t.entries ++ [⟨name, kind⟩]⟩) := by
  have hnone : t.entries.find? (·.blocks name kind) = none := by
    rw [List.find?_eq_none]
    intro e he hblocks
    exact ((t.exists_blocks_iff name kind).mp ⟨e, he, hblocks⟩).elim hrefuses hholds
  rw [attempt, insert, hnone]

/-- No answer can be taken for another one. -/
theorem attempt_eq_refused_iff : t.attempt name kind = (.error (.redeclaration name), t) ↔
    t.Refuses name kind := by
  refine ⟨fun h => ?_, attempt_of_refuses⟩
  by_contra hrefuses
  by_cases hholds : t.Holds name kind
  · simp [attempt_of_holds hholds] at h
  · simp [attempt_of_free hrefuses hholds] at h

theorem attempt_eq_held_iff : t.attempt name kind = (.ok ⟨name, kind⟩, t) ↔
    t.Holds name kind := by
  refine ⟨fun h => ?_, attempt_of_holds⟩
  by_contra hholds
  by_cases hrefuses : t.Refuses name kind
  · simp [attempt_of_refuses hrefuses] at h
  · have hentries := congrArg (·.2.entries.length) h
    simp [attempt_of_free hrefuses hholds] at hentries

theorem attempt_eq_taken_iff :
    t.attempt name kind = (.ok ⟨name, kind⟩, ⟨t.entries ++ [⟨name, kind⟩]⟩) ↔
      ¬ t.Refuses name kind ∧ ¬ t.Holds name kind := by
  refine ⟨fun h => ⟨fun hrefuses => ?_, fun hholds => ?_⟩, fun h => attempt_of_free h.1 h.2⟩
  · simp [attempt_of_refuses hrefuses] at h
  · have hentries := congrArg (·.2.entries.length) h
    simp [attempt_of_holds hholds] at hentries

/-! ## Adding many -/

/-- The table after adding an entry. One that is refused leaves the table as it is. -/
def add (t : SymbolTable) (e : Entry) : SymbolTable :=
  (t.attempt e.name e.kind).2

/-- The table after adding entries to an empty one, in order. -/
def ofEntries (added : List Entry) : SymbolTable :=
  added.foldl add .empty

/-- What an entry does to a table: it is put at the end, unless one of the table blocks it. -/
theorem add_cases (t : SymbolTable) (e : Entry) :
    (t.add e = t ∧ ∃ present ∈ t.entries, present.blocks e.name e.kind) ∨
      ((t.add e).entries = t.entries ++ [e] ∧
        ∀ present ∈ t.entries, ¬ present.blocks e.name e.kind) := by
  have hblocks := t.exists_blocks_iff e.name e.kind
  by_cases hrefuses : t.Refuses e.name e.kind
  · exact .inl ⟨by rw [add, attempt_of_refuses hrefuses], hblocks.mpr (.inl hrefuses)⟩
  by_cases hholds : t.Holds e.name e.kind
  · exact .inl ⟨by rw [add, attempt_of_holds hholds], hblocks.mpr (.inr hholds)⟩
  · refine .inr ⟨by rw [add, attempt_of_free hrefuses hholds], fun present hpresent h => ?_⟩
    exact (hblocks.mp ⟨present, hpresent, h⟩).elim hrefuses hholds

/-- No entry of the table blocks a later one. -/
def Apart (t : SymbolTable) : Prop :=
  t.entries.Pairwise fun e e' => ¬ e.blocks e'.name e'.kind

theorem Apart.add (h : t.Apart) (e : Entry) : (t.add e).Apart := by
  rcases t.add_cases e with ⟨heq, -⟩ | ⟨heq, hfree⟩
  · rwa [heq]
  · rw [Apart, heq, List.pairwise_append]
    exact ⟨h, List.pairwise_singleton .., by simpa using hfree⟩

theorem Apart.foldl_add (h : t.Apart) (added : List Entry) :
    (added.foldl SymbolTable.add t).Apart := by
  induction added generalizing t with
  | nil => exact h
  | cons e added ih => exact ih (h.add e)

/-- **Entries of a table do not block each other**, whatever has been added. -/
theorem apart_ofEntries (added : List Entry) : (ofEntries added).Apart :=
  Apart.foldl_add .nil added

theorem Apart.nodup (h : t.Apart) : t.entries.Nodup := by
  refine h.imp fun {e e'} hblocks => ?_
  rintro rfl
  exact hblocks ((e.blocks_iff ..).mpr (.inl rfl))

/-- Two entries that bind a name would block each other. -/
theorem Apart.eq_of_binds (h : t.Apart) {e e' : Entry} (he : e ∈ t.entries)
    (he' : e' ∈ t.entries) (hbinds : e.binds name) (hbinds' : e'.binds name) : e = e' := by
  by_contra hne
  refine List.Pairwise.forall h he he' hne ?_
  rw [Entry.binds_iff] at hbinds hbinds'
  exact (e.blocks_iff ..).mpr (.inr ⟨hbinds'.2, hbinds.1.trans hbinds'.1.symm, hbinds.2⟩)

/-! ## Looking a name up -/

/-- What an entry matters to: if it is blocked, then by one that matters as well. -/
def Kept (p : Entry → Bool) : Prop :=
  ∀ e present : Entry, present.blocks e.name e.kind → p e → p present

/-- An entry is found if it was there, or else if it is the one that was added. -/
theorem find?_add {p : Entry → Bool} (hp : Kept p) (t : SymbolTable) (e : Entry) :
    (t.add e).entries.find? p = (t.entries.find? p).or ([e].find? p) := by
  rcases t.add_cases e with ⟨heq, present, hpresent, hblocks⟩ | ⟨heq, -⟩
  · rw [heq]
    by_cases he : p e
    · have hsome : (t.entries.find? p).isSome :=
        List.find?_isSome.mpr ⟨present, hpresent, hp e present hblocks he⟩
      rw [Option.or_of_isSome hsome]
    · simp [he]
  · rw [heq, List.find?_append]

theorem find?_foldl_add {p : Entry → Bool} (hp : Kept p) (t : SymbolTable)
    (added : List Entry) :
    (added.foldl add t).entries.find? p = (t.entries.find? p).or (added.find? p) := by
  induction added generalizing t with
  | nil => simp
  | cons e added ih =>
    rw [List.foldl_cons, ih, find?_add hp, Option.or_assoc, ← List.find?_append,
      List.singleton_append]

theorem kept_name (name : String) : Kept fun e => decide (e.name = name) := by
  intro e present hblocks he
  rw [decide_eq_true_eq] at he ⊢
  rcases (Entry.blocks_iff ..).mp hblocks with rfl | ⟨-, heq, -⟩
  · exact he
  · exact heq.trans he

theorem kept_binds (name : String) : Kept fun e => e.binds name := by
  intro e present hblocks he
  rw [Entry.binds_iff] at he ⊢
  rcases (Entry.blocks_iff ..).mp hblocks with rfl | ⟨-, heq, hkind⟩
  · exact he
  · exact ⟨heq.trans he.1, hkind⟩

/-- **A name is looked up to the first entry added that binds it**, or else to the first one
of that name, whatever has been refused. -/
theorem lookup_ofEntries (added : List Entry) (name : String) : (ofEntries added).lookup name =
    (added.find? (·.binds name)).or (added.find? (·.name = name)) := by
  rw [lookup, ofEntries, find?_foldl_add (kept_binds name),
    find?_foldl_add (kept_name name)]
  rfl

/-- The entry that a name is looked up to binds it, or is the first one of the name where none
does. -/
theorem lookup_eq_some_iff (h : t.Apart) (name : String) (e : Entry) : t.lookup name = some e ↔
    e ∈ t.entries ∧ e.binds name ∨ ¬ t.Binds name ∧
      ∃ before after, t.entries = before ++ e :: after ∧ e.name = name ∧
        ∀ e' ∈ before, e'.name ≠ name := by
  have hbinds : t.Binds name ↔ ∃ e ∈ t.entries, e.binds name := by
    simp only [Binds, Entry.binds_iff]
  rw [lookup, Option.or_eq_some_iff, List.find?_eq_none, hbinds]
  refine or_congr ⟨fun hfound => ?_, fun hentry => ?_⟩ (and_congr (by simp) ?_)
  · exact ⟨List.mem_of_find?_eq_some hfound, by simpa using List.find?_some hfound⟩
  · -- the entry that is found binds the name too
    obtain ⟨he, hname⟩ := hentry
    have hsome : (t.entries.find? (·.binds name)).isSome := List.find?_isSome.mpr ⟨e, he, hname⟩
    obtain ⟨found, hfound⟩ := Option.isSome_iff_exists.mp hsome
    have hname' : found.binds name := by simpa using List.find?_some hfound
    rw [hfound, h.eq_of_binds he (List.mem_of_find?_eq_some hfound) hname hname']
  · rw [List.find?_eq_some_iff_append]
    simp only [decide_eq_true_eq, Bool.not_eq_true', decide_eq_false_iff_not]
    grind

theorem lookup_eq_none_iff (t : SymbolTable) (name : String) :
    t.lookup name = none ↔ ∀ e ∈ t.entries, e.name ≠ name := by
  rw [← Option.not_isSome_iff_eq_none, lookup_isSome_iff]
  simp

/-- **The law of a table.**  Whatever has been added, some of it perhaps refused: no entry is
there twice, and no name is bound twice.  A name that is added then is refused exactly if it
would be bound once more, and is there already exactly if its entry binds nothing and is among
those of the table; neither changes the table, and in any other case the entry is put at the
end.  A name is looked up to the entry that binds it, or else to the first one of that name,
and to nothing if there is none; and that is what the first entries added say. -/
theorem ofEntries_lawful (added : List Entry) :
    let t := ofEntries added
    t.entries.Nodup ∧
    (∀ name, ∀ e ∈ t.entries, ∀ e' ∈ t.entries, e.binds name → e'.binds name → e = e') ∧
    (∀ name kind,
      (t.attempt name kind = (.error (.redeclaration name), t) ↔
        kind.isBinding ∧ t.Binds name) ∧
      (t.attempt name kind = (.ok ⟨name, kind⟩, t) ↔
        ¬ kind.isBinding ∧ ⟨name, kind⟩ ∈ t.entries) ∧
      (t.attempt name kind = (.ok ⟨name, kind⟩, ⟨t.entries ++ [⟨name, kind⟩]⟩) ↔
        ¬ (kind.isBinding ∧ t.Binds name) ∧ ¬ (¬ kind.isBinding ∧ ⟨name, kind⟩ ∈ t.entries)) ∧
      ofEntries (added ++ [⟨name, kind⟩]) = (t.attempt name kind).2) ∧
    ∀ name,
      (∀ e, t.lookup name = some e ↔ e ∈ t.entries ∧ e.binds name ∨ ¬ t.Binds name ∧
        ∃ before after, t.entries = before ++ e :: after ∧ e.name = name ∧
          ∀ e' ∈ before, e'.name ≠ name) ∧
      (t.lookup name = none ↔ ∀ e ∈ t.entries, e.name ≠ name) ∧
      t.lookup name = (added.find? (·.binds name)).or (added.find? (·.name = name)) := by
  intro t
  have hapart : t.Apart := apart_ofEntries added
  refine ⟨hapart.nodup, fun name e he e' he' => hapart.eq_of_binds he he',
    fun name kind => ⟨attempt_eq_refused_iff, attempt_eq_held_iff, attempt_eq_taken_iff, ?_⟩,
    fun name => ⟨lookup_eq_some_iff hapart name,
      t.lookup_eq_none_iff name, lookup_ofEntries added name⟩⟩
  simp [ofEntries, add, t]

example : (ofEntries [⟨"x", .reference⟩, ⟨"x", .declaration⟩, ⟨"x", .function⟩]).lookup "x" =
    some ⟨"x", .declaration⟩ := by
  decide

end SymbolTable

end Braced
