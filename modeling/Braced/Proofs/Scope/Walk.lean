import Braced.Proofs.Scope.Table

/-!
# Braced.Proofs.Scope.Walk

What a walk outwards finds, and what it does not notice.

However scopes are entered and names are added, each scope comes after the one around it
(`ScopeForest.Built.ordered`), so the scopes from any one outwards are a finite list
(`ScopeForest.Chain`), and a walk comes to its end before its bound.  A name that is added to
one scope is noticed from another only where the list of that one has the first on it, with no
entry for the name in front.
-/

namespace Braced

/-- Two searches of a list that differ only at `a` differ as a whole only if both come to it. -/
theorem exists_eq_append_of_findSome?_ne {α β : Type} {p q : α → Option β}
    {a : α} (hsame : ∀ b, b ≠ a → p b = q b) {l : List α} (h : l.findSome? p ≠ l.findSome? q) :
    ∃ front rest, l = front ++ a :: rest ∧ ∀ b ∈ front, q b = none := by
  induction l with
  | nil => exact absurd rfl h
  | cons b l ih =>
    by_cases hb : b = a
    · exact ⟨[], l, by rw [hb, List.nil_append], by simp⟩
    · rw [List.findSome?_cons, List.findSome?_cons, hsame b hb] at h
      cases hq : q b with
      | some found => simp [hq] at h
      | none =>
        obtain ⟨front, rest, rfl, hfront⟩ := ih (by simpa [hq] using h)
        exact ⟨b :: front, rest, rfl, List.forall_mem_cons.mpr ⟨hq, hfront⟩⟩

/-- An entry says nothing about other names. -/
theorem SymbolTable.lookup_add_of_ne {name : String} (t : SymbolTable) {e : Entry}
    (h : e.name ≠ name) : (t.add e).lookup name = t.lookup name := by
  rw [lookup, find?_add (kept_binds name), find?_add (kept_name name)]
  simp [lookup, Entry.binds, h]

namespace ScopeForest

variable {f : ScopeForest} {id : ScopeId} {chain : List ScopeId}

/-! ## Entering scopes and adding names -/

/-- The scopes after adding an entry to one of them. One that is refused leaves all as they
are. -/
def add (f : ScopeForest) (id : ScopeId) (e : Entry) : ScopeForest :=
  match f.insert id e.name e.kind with
  | .ok (_, g) => g
  | .error _ => f

/-- The scopes have been entered, each by itself or inside of one that was there, and have been
given names. -/
inductive Built : ScopeForest → Prop
  | empty : Built .empty
  | push {f : ScopeForest} (hf : Built f) (parent : Option ScopeId) (position : Position)
      (hparent : ∀ id ∈ parent, id.index < f.size) : Built (f.push parent position).2
  | add {f : ScopeForest} (hf : Built f) (id : ScopeId) (e : Entry) (hid : id.index < f.size) :
      Built (f.add id e)

/-- Adding an entry to a scope does that to its table, or nothing. -/
theorem add_cases (f : ScopeForest) (id : ScopeId) (e : Entry) : f.add id e = f ∨
    f.add id e = ⟨f.scopes.modify id fun scope => { scope with table := (f.table id).add e }⟩ := by
  unfold add
  cases hinsert : f.insert id e.name e.kind with
  | error fault => exact .inl rfl
  | ok found =>
    obtain ⟨table, htable, hfound⟩ := insert_eq hinsert
    rw [SymbolTable.add, SymbolTable.attempt, htable]
    exact .inr hfound

@[simp] theorem size_add (f : ScopeForest) (id : ScopeId) (e : Entry) :
    (f.add id e).size = f.size := by
  rcases f.add_cases id e with heq | heq
  · rw [heq]
  · rw [heq]
    simp [size]

@[simp] theorem parent?_add (f : ScopeForest) (id : ScopeId) (e : Entry) (other : ScopeId) :
    (f.add id e).parent? other = f.parent? other := by
  rcases f.add_cases id e with heq | heq
  · rw [heq]
  · rw [heq]
    exact f.parent?_modify _ (fun _ => by rfl) id other

/-- An entry is noticed in its own scope and under its own name only. -/
theorem lookupLocal_add (f : ScopeForest) (id : ScopeId) (e : Entry) {other : ScopeId}
    {name : String} (h : other = id → e.name ≠ name) :
    (f.add id e).lookupLocal other name = f.lookupLocal other name := by
  rcases f.add_cases id e with heq | heq
  · rw [heq]
  · rw [heq, lookupLocal, table, get?_modify]
    split
    · next hother =>
      subst hother
      cases hscope : f.get? id with
      | none => simp [lookupLocal, table, hscope]
      | some scope => exact SymbolTable.lookup_add_of_ne _ (h rfl)
    · rfl

/-- **A scope comes after the one around it**, however scopes are entered. -/
theorem Built.ordered (h : f.Built) : f.Ordered := by
  induction h with
  | empty =>
    intro id parent hparent
    cases hparent
  | @push f _ around position haround ih =>
    intro id parent hparent
    rw [parent?_push] at hparent
    split at hparent
    · next hnew => exact hnew ▸ haround parent hparent
    · exact ih id parent hparent
  | add _ id e _ ih =>
    intro other parent hparent
    rw [parent?_add] at hparent
    exact ih other parent hparent

/-! ## The scopes that a walk passes -/

/-- These are a scope and the scopes around it, from the inside outwards, all of them. -/
inductive Chain (f : ScopeForest) : ScopeId → List ScopeId → Prop
  | outermost {id : ScopeId} (h : f.parent? id = none) : Chain f id [id]
  | inner {id parent : ScopeId} {chain : List ScopeId} (h : f.parent? id = some parent)
      (hchain : Chain f parent chain) : Chain f id (id :: chain)

/-- A walk comes to an end. -/
theorem Ordered.exists_chain (hf : f.Ordered) (id : ScopeId) : ∃ chain, f.Chain id chain := by
  cases hparent : f.parent? id with
  | none => exact ⟨[id], .outermost hparent⟩
  | some parent =>
    have hlt := hf id parent hparent
    obtain ⟨chain, hchain⟩ := hf.exists_chain parent
    exact ⟨id :: chain, .inner hparent hchain⟩
termination_by id.index

/-- A walk passes no scope twice, so it is no longer than there are scopes up to the first. -/
theorem Chain.length_le (h : f.Chain id chain) (hf : f.Ordered) :
    chain.length ≤ id.index + 1 := by
  induction h with
  | outermost => simp
  | @inner id parent chain hparent _ ih =>
    have hlt := hf id parent hparent
    rw [List.length_cons]
    omega

/-- What is on the chain is the scope or around it. -/
theorem Chain.mem_iff (h : f.Chain id chain) (outer : ScopeId) :
    outer ∈ chain ↔ f.Encloses outer id := by
  induction h with
  | outermost hparent =>
    rw [encloses_iff]
    simp [hparent]
  | inner hparent _ ih =>
    rw [encloses_iff, List.mem_cons, ih]
    simp [hparent]

theorem Chain.lookupUp_eq (h : f.Chain id chain) (name : String) {fuel : Nat}
    (hfuel : chain.length ≤ fuel) :
    f.lookupUp name fuel id = chain.findSome? (f.lookupLocal · name) := by
  induction h generalizing fuel with
  | outermost hparent =>
    obtain ⟨fuel, rfl⟩ := Nat.exists_eq_add_of_le' hfuel
    simp [lookupUp, hparent]
  | inner hparent _ ih =>
    obtain ⟨fuel, rfl⟩ := Nat.exists_eq_add_of_le' hfuel
    rw [List.length_cons, ← Nat.add_assoc, lookupUp, hparent, Option.bind_some,
      ih (Nat.le_add_left ..), List.findSome?_cons]
    cases f.lookupLocal _ name <;> rfl

theorem Chain.depthUp_eq (h : f.Chain id chain) {fuel : Nat} (hfuel : chain.length ≤ fuel) :
    f.depthUp fuel id + 1 = chain.length := by
  induction h generalizing fuel with
  | outermost hparent =>
    obtain ⟨fuel, rfl⟩ := Nat.exists_eq_add_of_le' hfuel
    simp [depthUp, hparent]
  | inner hparent _ ih =>
    obtain ⟨fuel, rfl⟩ := Nat.exists_eq_add_of_le' hfuel
    simp only [List.length_cons, ← Nat.add_assoc, depthUp, hparent, ih (Nat.le_add_left ..)]

/-- Adding a name leaves every chain as it is. -/
theorem Chain.add (h : f.Chain id chain) (other : ScopeId) (e : Entry) :
    (f.add other e).Chain id chain := by
  induction h with
  | outermost hparent => exact .outermost ((f.parent?_add ..).trans hparent)
  | inner hparent _ ih => exact .inner ((f.parent?_add ..).trans hparent) ih

/-- **What a walk outwards finds.**  However scopes have been entered and names been added, the
scopes from one of them outwards are a finite list, and no bound beyond the number of scopes is
felt.  Its length is the depth, and a name is looked up to what the first table says that has
an entry for it, or to nothing if none has one.  And adding an entry to a scope changes what is
found under a name from another one only if it is the name of the entry, and the scope is on
the list with no entry for the name in front of it. -/
theorem built_walks (h : f.Built) (hid : id.index < f.size) :
    ∃ chain, f.Chain id chain ∧
      (∀ fuel, f.size ≤ fuel → f.depthUp fuel id = f.depth id ∧
        ∀ name, f.lookupUp name fuel id = f.lookup id name) ∧
      f.depth id + 1 = chain.length ∧
      (∀ name e, f.lookup id name = some e ↔ ∃ front outer rest, chain = front ++ outer :: rest ∧
        (f.table outer).lookup name = some e ∧
        ∀ inner ∈ front, ∀ e' ∈ (f.table inner).entries, e'.name ≠ name) ∧
      (∀ name, f.lookup id name = none ↔
        ∀ outer ∈ chain, ∀ e ∈ (f.table outer).entries, e.name ≠ name) ∧
      ∀ changed e name, (f.add changed e).lookup id name ≠ f.lookup id name →
        name = e.name ∧ f.Encloses changed id ∧
        ∃ front rest, chain = front ++ changed :: rest ∧
          ∀ inner ∈ front, ∀ e' ∈ (f.table inner).entries, e'.name ≠ name := by
  obtain ⟨chain, hchain⟩ := h.ordered.exists_chain id
  have hlength := hchain.length_le h.ordered
  have hnone : ∀ inner name, f.lookupLocal inner name = none ↔
      ∀ e ∈ (f.table inner).entries, e.name ≠ name :=
    fun inner name => (f.table inner).lookup_eq_none_iff name
  have hlookup : ∀ name, f.lookup id name = chain.findSome? (f.lookupLocal · name) :=
    fun name => hchain.lookupUp_eq name (by omega)
  have hdepth : f.depth id + 1 = chain.length := hchain.depthUp_eq (by omega)
  refine ⟨chain, hchain, fun fuel hfuel => ⟨?_, fun name => ?_⟩, hdepth, fun name e => ?_,
    fun name => ?_, fun changed e name hne => ?_⟩
  · have hmore : f.depthUp fuel id + 1 = chain.length := hchain.depthUp_eq (by omega)
    omega
  · rw [hlookup]
    exact hchain.lookupUp_eq name (by omega)
  · simp only [hlookup, List.findSome?_eq_some_iff, hnone]
    rfl
  · simp only [hlookup, List.findSome?_eq_none_iff, hnone]
  · have hadd : (f.add changed e).lookup id name =
        chain.findSome? ((f.add changed e).lookupLocal · name) :=
      (hchain.add changed e).lookupUp_eq name (by rw [size_add]; omega)
    rw [hadd, hlookup] at hne
    have hname : name = e.name := by
      by_contra hother
      refine hne (congrArg chain.findSome? (funext fun inner => ?_))
      exact f.lookupLocal_add changed e fun _ => Ne.symm hother
    obtain ⟨front, rest, hsplit, hfront⟩ :=
      exists_eq_append_of_findSome?_ne (a := changed) (fun inner hinner =>
        f.lookupLocal_add changed e (absurd · hinner)) hne
    refine ⟨hname, (hchain.mem_iff changed).mp (by simp [hsplit]), front, rest, hsplit, ?_⟩
    exact fun inner hinner => (hnone inner name).mp (hfront inner hinner)

/-- Inside of a root that binds `x` there is a scope in which nothing is known, so adding `y`
to the root is noticed there. -/
theorem built_walks_inside :
    let f := (((ScopeForest.empty.push none .start).2.add .root ⟨"x", .declaration⟩).push
      (some .root) ⟨2, 1⟩).2
    f.Built ∧ 1 < f.size ∧
      f.lookup ⟨1⟩ "x" = some ⟨"x", .declaration⟩ ∧
      (f.add .root ⟨"y", .function⟩).lookup ⟨1⟩ "y" ≠ f.lookup ⟨1⟩ "y" ∧
      ∃ chain, f.Chain ⟨1⟩ chain ∧ f.depth ⟨1⟩ + 1 = chain.length ∧
        ∃ front rest, chain = front ++ .root :: rest ∧
          ∀ inner ∈ front, ∀ e' ∈ (f.table inner).entries, e'.name ≠ "y" := by
  intro f
  have hroot : ScopeForest.Built (ScopeForest.empty.push none .start).2 :=
    Built.empty.push none .start (by simp)
  have hbuilt : f.Built :=
    (hroot.add .root ⟨"x", .declaration⟩ Nat.zero_lt_one).push (some .root) ⟨2, 1⟩ (by
      rintro id ⟨⟩
      decide)
  have hnotices : (f.add .root ⟨"y", .function⟩).lookup ⟨1⟩ "y" ≠ f.lookup ⟨1⟩ "y" := by
    decide +kernel
  obtain ⟨chain, hchain, -, hdepth, -, -, hframe⟩ := @built_walks f ⟨1⟩ hbuilt (by decide)
  exact ⟨hbuilt, by decide, by decide +kernel, hnotices, chain, hchain, hdepth,
    (hframe _ _ _ hnotices).2.2⟩

end ScopeForest

end Braced
