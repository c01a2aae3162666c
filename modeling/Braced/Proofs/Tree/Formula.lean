import Braced.Proofs.Tree.Writes
import Braced.Tree.RuleBook

/-!
# Braced.Proofs.Tree.Formula

Expressions by themselves, without nodes and places.

A `Formula` is what an expression node and all that hangs below it stand for.  It is
written as a list of symbols (`Formula.symbols`).  In a layered formula
(`Formula.Layered`) the operators of one power group to the left and the stronger ones
take their operands first, as in a grammar with one layer for each power.

A layered formula is known from its symbols (`Formula.Layered.symbols_inj`).  To see
this it is taken apart into the operand that it begins with (`Formula.seed`) and the
operators behind it with their right operands (`Formula.steps`), from left to right.
-/

namespace Braced

/-! ## Symbols -/

/-- What a token is read as: its kind, and the value that it stands for. -/
abbrev Symbol : Type := TokenKind × TokenValue

/-- A token that stands for nothing but its kind. -/
def Symbol.bare (kind : TokenKind) : Symbol :=
  (kind, .none)

@[simp] theorem Symbol.bare_inj {kind kind' : TokenKind} :
    bare kind = bare kind' ↔ kind = kind' := by
  simp [bare]

/-- A constant, or a variable by its name. -/
inductive Atom
  | int (value : Int)
  | float (value : Binary64)
  | string (bytes : List UInt8)
  | char (value : UInt8)
  | name (text : String)

def Atom.symbol : Atom → Symbol
  | int value => (.intConst, .int value)
  | float value => (.floatConst, .float value)
  | string bytes => (.stringConst, .string bytes)
  | char value => (.charConst, .char value)
  | name text => (.identifier, .identifier text)

theorem Atom.symbol_ne_bare (a : Atom) {kind : TokenKind} : a.symbol ≠ .bare kind := by
  cases a <;> simp [symbol, Symbol.bare]

theorem Atom.symbol_inj {a a' : Atom} (h : a.symbol = a'.symbol) : a = a' := by
  cases a <;> cases a' <;> simp_all [symbol]

theorem Power.rank_le (power : Power) : power.rank ≤ Power.multiplicative.rank := by
  cases power <;> decide

/-- How strongly an operator binds. -/
def BinaryOp.power : BinaryOp → Power
  | add | subtract => .additive
  | multiply | divide | modulo => .multiplicative
  | equals | notEquals | less | greater | lessEquals | greaterEquals => .relational

theorem BinaryOp.power_of_token (op : BinaryOp) :
    RuleBook.standard.power? op.token = some op.power := by
  cases op <;> rfl

theorem BinaryOp.token_inj {op op' : BinaryOp} : op.token = op'.token ↔ op = op' := by
  constructor
  · intro h
    cases op <;> cases op' <;> first | rfl | cases h
  · exact congrArg BinaryOp.token

theorem UnaryOp.token?_inj {op op' : UnaryOp} {kind : TokenKind} (h : op.token? = some kind)
    (h' : op'.token? = some kind) : op = op' := by
  cases op <;> cases h <;> cases op' <;> first | rfl | cases h'

theorem BinaryOp.rank_pos (op : BinaryOp) : 0 < op.power.rank := by
  cases op <;> decide

theorem BinaryOp.rank_le (op : BinaryOp) : op.power.rank ≤ Power.multiplicative.rank :=
  op.power.rank_le

/-! ## Formulas -/

inductive Formula
  /-- A constant or a variable, and what stands behind it. -/
  | atom (atom : Atom) (step : Option Step)
  /-- A call, and what stands behind it. -/
  | call (callee : String) (arguments : List Formula) (step : Option Step)
  /-- An operator in front of an operand, or parentheses around it. -/
  | unary (op : UnaryOp) (operand : Formula)
  | binary (op : BinaryOp) (left right : Formula)

/-- The operator behind an operand. -/
def stepSymbols (step : Option Step) : List Symbol :=
  (step.map fun step => Symbol.bare step.token).toList

namespace Formula

mutual

/-- The symbols that a formula is written as. -/
def symbols : Formula → List Symbol
  | atom a step => a.symbol :: stepSymbols step
  | call callee arguments step =>
    (Atom.name callee).symbol :: .bare .openParen ::
      ((listed arguments).tail ++ .bare .closeParen :: stepSymbols step)
  | unary op operand =>
    match op.token? with
    | some kind => .bare kind :: operand.symbols
    | none => .bare .openParen :: (operand.symbols ++ [.bare .closeParen])
  | binary op left right => left.symbols ++ .bare op.token :: right.symbols

/-- Formulas, with a comma in front of each. -/
def listed : List Formula → List Symbol
  | [] => []
  | argument :: others => .bare .comma :: (argument.symbols ++ listed others)

end

/-- How strongly a formula holds together: as its outermost operator does, and an
operand more strongly than every operator. -/
def rank : Formula → Nat
  | binary op .. => op.power.rank
  | _ => Power.multiplicative.rank + 1

mutual

/-- Operators of one power group to the left, and stronger ones take their operands
first. -/
def Layered : Formula → Prop
  | atom .. => True
  | call _ arguments _ => AllLayered arguments
  | unary op operand => operand.Layered ∧ (op = .nested ∨ Power.multiplicative.rank < operand.rank)
  | binary op left right =>
    left.Layered ∧ right.Layered ∧ op.power.rank ≤ left.rank ∧ op.power.rank < right.rank

def AllLayered : List Formula → Prop
  | [] => True
  | argument :: others => argument.Layered ∧ AllLayered others

end

theorem symbols_prefixed {op : UnaryOp} {kind : TokenKind} (h : op.token? = some kind)
    (operand : Formula) : (unary op operand).symbols = .bare kind :: operand.symbols := by
  simp only [symbols, h]

theorem symbols_nested (operand : Formula) : (unary .nested operand).symbols
    = .bare .openParen :: (operand.symbols ++ [.bare .closeParen]) := by
  simp only [symbols, UnaryOp.token?]

/-- What begins with an operator begins with a token that carries nothing. -/
theorem symbols_unary (op : UnaryOp) (operand : Formula) :
    ∃ kind others, (unary op operand).symbols = .bare kind :: others ∧ kind ≠ .closeParen := by
  cases hop : op.token? with
  | none =>
    cases op <;> cases hop
    exact ⟨_, _, symbols_nested operand, by decide⟩
  | some kind =>
    refine ⟨kind, _, symbols_prefixed hop operand, ?_⟩
    cases op <;> cases hop <;> decide

theorem rank_pos (e : Formula) : 0 < e.rank := by
  cases e with
  | binary op => exact op.rank_pos
  | _ => exact Nat.succ_pos _

theorem rank_le (e : Formula) : e.rank ≤ Power.multiplicative.rank + 1 := by
  cases e with
  | binary op => exact Nat.le_succ_of_le op.rank_le
  | _ => exact Nat.le_refl _

/-! ## Taking formulas apart -/

/-- The operand that a formula begins with. -/
def seed : Formula → Formula
  | binary _ left _ => left.seed
  | e => e

/-- The operators behind the operand that a formula begins with, and their right
operands. -/
def steps : Formula → List (BinaryOp × Formula)
  | binary op left right => left.steps ++ [(op, right)]
  | _ => []

/-- The formula that an operand and the operators behind it make up. -/
def ofSteps (seed : Formula) (steps : List (BinaryOp × Formula)) : Formula :=
  steps.foldl (fun left step => binary step.1 left step.2) seed

/-- An operator and its right operand. -/
def stepOf (step : BinaryOp × Formula) : List Symbol :=
  .bare step.1.token :: step.2.symbols

/-- **Induction along the left operands** of a formula, down to the one that it begins
with. -/
@[elab_as_elim]
theorem spineInduction {motive : Formula → Prop}
    (operand : ∀ e : Formula, e.seed = e → e.steps = [] → e.rank = Power.multiplicative.rank + 1 →
      motive e)
    (binary : ∀ op left right, motive left → motive (.binary op left right)) : ∀ e, motive e
  | atom .. => operand _ rfl rfl rfl
  | call .. => operand _ rfl rfl rfl
  | unary .. => operand _ rfl rfl rfl
  | .binary op left right => binary op left right (spineInduction operand binary left)

theorem ofSteps_spine (e : Formula) : ofSteps e.seed e.steps = e := by
  induction e using spineInduction with
  | operand e hseed hsteps =>
    rw [hseed, hsteps]
    rfl
  | binary op left right ih =>
    rw [ofSteps] at ih
    rw [seed, steps, ofSteps, List.foldl_append, ih]
    rfl

theorem symbols_spine (e : Formula) : e.symbols = e.seed.symbols ++ e.steps.flatMap stepOf := by
  induction e using spineInduction with
  | operand e hseed hsteps => simp [hseed, hsteps]
  | binary op left right ih => simp [symbols, seed, steps, stepOf, ih]

/-- The operators get weaker, if anything, from left to right; each binds more strongly
than `bound`, and less strongly than its right operand does. -/
structure Falls (bound : Nat) (steps : List (BinaryOp × Formula)) : Prop where
  pairwise : steps.Pairwise fun a b => b.1.power.rank ≤ a.1.power.rank
  binds : ∀ step ∈ steps, bound < step.1.power.rank
  right : ∀ step ∈ steps, step.2.Layered ∧ step.1.power.rank < step.2.rank

theorem Falls.tail {bound : Nat} {step : BinaryOp × Formula} {steps : List (BinaryOp × Formula)}
    (h : Falls bound (step :: steps)) : Falls bound steps where
  pairwise := (List.pairwise_cons.mp h.pairwise).2
  binds := (List.forall_mem_cons.mp h.binds).2
  right := (List.forall_mem_cons.mp h.right).2

namespace Layered

variable {e : Formula}

/-- No operator of a formula binds less strongly than the outermost one. -/
theorem rank_le_of_mem_steps (h : e.Layered) :
    ∀ step ∈ e.steps, e.rank ≤ step.1.power.rank := by
  induction e using spineInduction with
  | operand e hseed hsteps => simp [hsteps]
  | binary op left right ih =>
    obtain ⟨hleft, -, hrank, -⟩ := h
    rw [Formula.steps, List.forall_mem_append]
    exact ⟨fun step hstep => Nat.le_trans hrank (ih hleft step hstep), by simp [rank]⟩

/-- The operators of a formula fall, and bind more strongly than whatever the outermost
one does. -/
theorem falls (h : e.Layered) {bound : Nat} (hbound : bound < e.rank) : Falls bound e.steps := by
  induction e using spineInduction with
  | operand e hseed hsteps =>
    rw [hsteps]
    exact ⟨.nil, by simp, by simp⟩
  | binary op left right ih =>
    obtain ⟨hleft, hright, hrank, hlt⟩ := h
    have ih := ih hleft (Nat.lt_of_lt_of_le hbound hrank)
    refine ⟨?_, ?_, ?_⟩ <;> rw [Formula.steps]
    · rw [List.pairwise_append]
      refine ⟨ih.pairwise, List.pairwise_singleton _ _, fun step hstep last hlast => ?_⟩
      rw [List.mem_singleton.mp hlast]
      exact Nat.le_trans hrank (hleft.rank_le_of_mem_steps step hstep)
    · rw [List.forall_mem_append]
      exact ⟨ih.binds, by simpa [rank] using hbound⟩
    · rw [List.forall_mem_append]
      exact ⟨ih.right, by simpa using ⟨hright, hlt⟩⟩

/-- What a formula begins with is an operand. -/
theorem seed (h : e.Layered) : e.seed.Layered ∧ Power.multiplicative.rank < e.seed.rank := by
  induction e using spineInduction with
  | operand e hseed hsteps hrank =>
    rw [hseed, hrank]
    exact ⟨h, Nat.lt_succ_self _⟩
  | binary op left right ih => exact ih h.1

end Layered

/-! ## What may follow -/

/-- The symbols go on with nothing that would belong to a formula before them whose
operators bind more strongly than `bound`. -/
def Stops (bound : Nat) (rest : List Symbol) : Prop :=
  ∀ symbol ∈ rest.head?, symbol = .bare .closeParen ∨ symbol = .bare .comma ∨
    ∃ op : BinaryOp, symbol = .bare op.token ∧ op.power.rank ≤ bound

theorem Stops.mono {bound bound' : Nat} {rest : List Symbol} (h : Stops bound rest)
    (hle : bound ≤ bound') : Stops bound' rest := by
  intro symbol hsymbol
  obtain hclose | hcomma | ⟨op, hop, hrank⟩ := h symbol hsymbol
  · exact .inl hclose
  · exact .inr (.inl hcomma)
  · exact .inr (.inr ⟨op, hop, by omega⟩)

theorem stops_closeParen (bound : Nat) (rest : List Symbol) :
    Stops bound (.bare .closeParen :: rest) := by
  simp [Stops]

theorem stops_comma (bound : Nat) (rest : List Symbol) : Stops bound (.bare .comma :: rest) := by
  simp [Stops]

theorem stops_nil (bound : Nat) : Stops bound [] := by
  simp [Stops]

/-- Behind the operand that a formula begins with come its operators, or what follows
the formula. -/
theorem stops_steps {bound top : Nat} {steps : List (BinaryOp × Formula)} {rest : List Symbol}
    (hsteps : ∀ step ∈ steps, step.1.power.rank ≤ top) (hrest : Stops bound rest)
    (hle : bound ≤ top) : Stops top (steps.flatMap stepOf ++ rest) := by
  cases steps with
  | nil => simpa using hrest.mono hle
  | cons step steps =>
    intro symbol hsymbol
    have hop : symbol = .bare step.1.token := by simpa [stepOf, eq_comm] using hsymbol
    exact .inr (.inr ⟨step.1, hop, hsteps step (List.mem_cons_self ..)⟩)

/-- An operator that binds more strongly than `bound` does belong to a formula before it. -/
theorem Falls.not_stops {bound : Nat} {rest others : List Symbol} {step : BinaryOp × Formula}
    {steps : List (BinaryOp × Formula)} (h : Falls bound (step :: steps))
    (heq : rest = (step :: steps).flatMap stepOf ++ others) : ¬Stops bound rest := by
  intro hrest
  have hbound := h.binds step (List.mem_cons_self ..)
  obtain hclose | hcomma | ⟨op, hop, hrank⟩ := hrest (.bare step.1.token) (by simp [heq, stepOf])
  · cases hop : step.1 <;> simp [hop, BinaryOp.token] at hclose
  · cases hop : step.1 <;> simp [hop, BinaryOp.token] at hcomma
  · rw [Symbol.bare_inj, BinaryOp.token_inj] at hop
    rw [hop] at hbound
    omega

/-! ## Formulas are known from their symbols -/

/-- Among the layered formulas whose operators bind more strongly than `bound`, the
symbols of `e` begin no other, and they show where it ends. -/
def Told (bound : Nat) (e : Formula) : Prop :=
  ∀ (e' : Formula) (rest rest' : List Symbol), e'.Layered → bound < e'.rank →
    Stops bound rest → Stops bound rest' → e.symbols ++ rest = e'.symbols ++ rest' →
      e = e' ∧ rest = rest'

/-- Operators and their right operands are known from their symbols. -/
theorem Falls.told {bound : Nat} {steps steps' : List (BinaryOp × Formula)}
    {rest rest' : List Symbol} (hsteps : Falls bound steps) (hsteps' : Falls bound steps')
    (htold : ∀ step ∈ steps, ∀ bound < step.2.rank, Told bound step.2)
    (hrest : Stops bound rest) (hrest' : Stops bound rest')
    (h : steps.flatMap stepOf ++ rest = steps'.flatMap stepOf ++ rest') :
    steps = steps' ∧ rest = rest' := by
  induction steps generalizing steps' with
  | nil =>
    cases steps' with
    | nil => exact ⟨rfl, h⟩
    | cons step' steps' => exact absurd hrest (hsteps'.not_stops h)
  | cons step steps ih =>
    cases steps' with
    | nil => exact absurd hrest' (hsteps.not_stops h.symm)
    | cons step' steps' =>
      simp only [List.flatMap_cons, stepOf, List.cons_append, List.append_assoc, List.cons.injEq,
        Symbol.bare_inj, BinaryOp.token_inj] at h
      obtain ⟨hop, h⟩ := h
      -- the right operands end where the next operator, which is no stronger, begins
      have hbound := hsteps.binds step (List.mem_cons_self ..)
      have hrank := (hsteps.right step (List.mem_cons_self ..)).2
      have hright' := hsteps'.right step' (List.mem_cons_self ..)
      have hends := stops_steps (List.pairwise_cons.mp hsteps.pairwise).1 hrest
        (Nat.le_of_lt hbound)
      have hends' := stops_steps (List.pairwise_cons.mp hsteps'.pairwise).1 hrest'
        (Nat.le_of_lt (hsteps'.binds step' (List.mem_cons_self ..)))
      rw [← hop] at hright' hends'
      obtain ⟨hright, h⟩ := htold step (List.mem_cons_self ..) _ hrank step'.2 _ _ hright'.1
        hright'.2 hends hends' h
      obtain ⟨hothers, hrests⟩ := ih hsteps.tail hsteps'.tail
        (fun step hstep => htold step (List.mem_cons_of_mem _ hstep)) h
      exact ⟨by rw [Prod.ext hop hright, hothers], hrests⟩

/-- A formula is known when the operand is that it begins with, and its right operands. -/
theorem Layered.told {e : Formula} (h : e.Layered)
    (hseed : Told Power.multiplicative.rank e.seed)
    (hsteps : ∀ step ∈ e.steps, ∀ bound < step.2.rank, Told bound step.2) {bound : Nat}
    (hbound : bound < e.rank) : Told bound e := by
  intro e' rest rest' h' hbound' hrest hrest' heq
  have hle : bound ≤ Power.multiplicative.rank := by have := e.rank_le; omega
  rw [symbols_spine e, symbols_spine e', List.append_assoc, List.append_assoc] at heq
  obtain ⟨hseeds, heq⟩ := hseed e'.seed _ _ h'.seed.1 h'.seed.2
    (stops_steps (fun step _ => step.1.rank_le) hrest hle)
    (stops_steps (fun step _ => step.1.rank_le) hrest' hle) heq
  obtain ⟨hothers, hrests⟩ := (h.falls hbound).told (h'.falls hbound') hsteps hrest hrest' heq
  exact ⟨by rw [← ofSteps_spine e, ← ofSteps_spine e', hseeds, hothers], hrests⟩

/-! ### Operands -/

/-- An operator behind an operand belongs to it, and so does a parenthesis behind a name. -/
theorem not_stops_bare {bound : Nat} {kind : TokenKind} {rest : List Symbol}
    (hkind : kind = .openParen ∨ ∃ step : Step, kind = step.token) :
    ¬Stops bound (.bare kind :: rest) := by
  intro h
  obtain hclose | hcomma | ⟨op, hop, -⟩ := h _ rfl
  · obtain rfl | ⟨step, rfl⟩ := hkind
    · simp at hclose
    · cases step <;> simp [Step.token] at hclose
  · obtain rfl | ⟨step, rfl⟩ := hkind
    · simp at hcomma
    · cases step <;> simp [Step.token] at hcomma
  · obtain rfl | ⟨step, rfl⟩ := hkind
    · cases op <;> simp [BinaryOp.token] at hop
    · cases op <;> cases step <;> simp [BinaryOp.token, Step.token] at hop

theorem stepSymbols_told {bound : Nat} {step step' : Option Step} {rest rest' : List Symbol}
    (hrest : Stops bound rest) (hrest' : Stops bound rest')
    (h : stepSymbols step ++ rest = stepSymbols step' ++ rest') : step = step' ∧ rest = rest' := by
  cases step with
  | none =>
    cases step' with
    | none => exact ⟨rfl, h⟩
    | some step' =>
      have heq : rest = .bare step'.token :: rest' := h
      exact absurd hrest (heq ▸ not_stops_bare (.inr ⟨step', rfl⟩))
  | some step =>
    cases step' with
    | none =>
      have heq : rest' = .bare step.token :: rest := h.symm
      exact absurd hrest' (heq ▸ not_stops_bare (.inr ⟨step, rfl⟩))
    | some step' =>
      have heq : Symbol.bare step.token :: rest = .bare step'.token :: rest' := h
      rw [List.cons.injEq, Symbol.bare_inj] at heq
      obtain ⟨htoken, hrests⟩ := heq
      cases step <;> cases step' <;> first | exact ⟨rfl, hrests⟩ | cases htoken

/-- No operator behind a name is a parenthesis. -/
theorem stepSymbols_ne_openParen {bound : Nat} {step : Option Step} {rest others : List Symbol}
    (hrest : Stops bound rest) : stepSymbols step ++ rest ≠ .bare .openParen :: others := by
  intro h
  cases step with
  | none =>
    have heq : rest = .bare .openParen :: others := h
    exact not_stops_bare (.inl rfl) (heq ▸ hrest)
  | some step => cases step <;> simp [stepSymbols, Step.token] at h

theorem atom_told (a : Atom) (step : Option Step) :
    Told Power.multiplicative.rank (atom a step) := by
  intro e' rest rest' h' hrank' hrest hrest' heq
  cases e' with
  | atom a' step' =>
    simp only [symbols, List.cons_append, List.cons.injEq] at heq
    obtain ⟨ha, heq⟩ := heq
    obtain ⟨hstep, hrests⟩ := stepSymbols_told hrest hrest' heq
    exact ⟨by rw [Atom.symbol_inj ha, hstep], hrests⟩
  | call callee' arguments' step' =>
    simp only [symbols, List.cons_append, List.cons.injEq] at heq
    exact absurd heq.2 (stepSymbols_ne_openParen hrest)
  | unary op' operand' =>
    obtain ⟨kind, others, hsymbols, -⟩ := symbols_unary op' operand'
    rw [hsymbols] at heq
    exact absurd (List.cons.inj heq).1 a.symbol_ne_bare
  | binary op' => exact absurd hrank' (Nat.not_lt_of_le op'.rank_le)

/-- No formula begins with a closing parenthesis. -/
theorem symbols_ne_closeParen (e : Formula) {rest others : List Symbol} :
    e.symbols ++ rest ≠ .bare .closeParen :: others := by
  induction e using spineInduction generalizing rest with
  | operand e hseed hsteps hrank =>
    intro h
    cases e with
    | atom a => exact absurd (List.cons.inj h).1 a.symbol_ne_bare
    | call callee => exact absurd (List.cons.inj h).1 (Atom.name callee).symbol_ne_bare
    | unary op operand =>
      obtain ⟨kind, others, hsymbols, hkind⟩ := symbols_unary op operand
      rw [hsymbols] at h
      exact hkind (Symbol.bare_inj.mp (List.cons.inj h).1)
    | binary op => simp [steps] at hsteps
  | binary op left right ih =>
    rw [symbols, List.append_assoc]
    exact ih

theorem stops_listed (bound : Nat) (arguments : List Formula) (rest : List Symbol) :
    Stops bound (listed arguments ++ .bare .closeParen :: rest) := by
  cases arguments with
  | nil => exact stops_closeParen bound rest
  | cons argument others =>
    rw [listed, List.cons_append]
    exact stops_comma bound _

/-- Arguments are known from their symbols, with a comma in front of each. -/
theorem listed_told {arguments arguments' : List Formula} {rest rest' : List Symbol}
    (htold : ∀ e ∈ arguments, Told 0 e) (h' : AllLayered arguments')
    (h : listed arguments ++ .bare .closeParen :: rest =
      listed arguments' ++ .bare .closeParen :: rest') :
    arguments = arguments' ∧ rest = rest' := by
  induction arguments generalizing arguments' with
  | nil =>
    cases arguments' with
    | nil => exact ⟨rfl, (List.cons.inj h).2⟩
    | cons argument' others' => simp [listed] at h
  | cons argument others ih =>
    cases arguments' with
    | nil => simp [listed] at h
    | cons argument' others' =>
      obtain ⟨hargument', hothers'⟩ := h'
      simp only [listed, List.cons_append, List.append_assoc, List.cons.injEq, true_and] at h
      obtain ⟨htold, hall⟩ := List.forall_mem_cons.mp htold
      obtain ⟨hargument, h⟩ := htold argument' _ _ hargument' argument'.rank_pos
        (stops_listed 0 others rest) (stops_listed 0 others' rest') h
      obtain ⟨hothers, hrests⟩ := ih hall hothers' h
      exact ⟨by rw [hargument, hothers], hrests⟩

/-- Arguments are known from their symbols, with commas between them. -/
theorem arguments_told {arguments arguments' : List Formula} {rest rest' : List Symbol}
    (htold : ∀ e ∈ arguments, Told 0 e) (h' : AllLayered arguments')
    (h : (listed arguments).tail ++ .bare .closeParen :: rest =
      (listed arguments').tail ++ .bare .closeParen :: rest') :
    arguments = arguments' ∧ rest = rest' := by
  cases arguments with
  | nil =>
    cases arguments' with
    | nil => exact ⟨rfl, (List.cons.inj h).2⟩
    | cons argument' others' =>
      rw [listed, listed, List.tail_cons, List.append_assoc] at h
      exact absurd h.symm argument'.symbols_ne_closeParen
  | cons argument others =>
    cases arguments' with
    | nil =>
      rw [listed, listed, List.tail_cons, List.append_assoc] at h
      exact absurd h argument.symbols_ne_closeParen
    | cons argument' others' =>
      refine listed_told htold h' ?_
      rw [listed, List.tail_cons] at h
      rw [listed, List.cons_append, h, listed, List.tail_cons, List.cons_append]

theorem call_told {callee : String} {arguments : List Formula} {step : Option Step}
    (htold : ∀ e ∈ arguments, Told 0 e) :
    Told Power.multiplicative.rank (call callee arguments step) := by
  intro e' rest rest' h' hrank' hrest hrest' heq
  cases e' with
  | atom a' step' =>
    simp only [symbols, List.cons_append, List.cons.injEq] at heq
    exact absurd heq.2.symm (stepSymbols_ne_openParen hrest')
  | call callee' arguments' step' =>
    simp only [symbols, List.cons_append, List.cons.injEq, List.append_assoc] at heq
    obtain ⟨hcallee, -, heq⟩ := heq
    obtain ⟨harguments, heq⟩ := arguments_told htold h' heq
    obtain ⟨hstep, hrests⟩ := stepSymbols_told hrest hrest' heq
    have hname := Atom.name.inj (Atom.symbol_inj hcallee)
    exact ⟨by rw [hname, harguments, hstep], hrests⟩
  | unary op' operand' =>
    obtain ⟨kind, others, hsymbols, -⟩ := symbols_unary op' operand'
    rw [hsymbols] at heq
    exact absurd (List.cons.inj heq).1 (Atom.name callee).symbol_ne_bare
  | binary op' => exact absurd hrank' (Nat.not_lt_of_le op'.rank_le)

theorem prefixed_told {op : UnaryOp} {kind : TokenKind} {operand : Formula}
    (hop : op.token? = some kind) (htold : Told Power.multiplicative.rank operand) :
    Told Power.multiplicative.rank (unary op operand) := by
  intro e' rest rest' h' hrank' hrest hrest' heq
  rw [symbols_prefixed hop] at heq
  cases e' with
  | atom a' => exact absurd (List.cons.inj heq).1.symm a'.symbol_ne_bare
  | call callee' => exact absurd (List.cons.inj heq).1.symm (Atom.name callee').symbol_ne_bare
  | unary op' operand' =>
    cases hop' : op'.token? with
    | none =>
      cases op' <;> cases hop'
      rw [symbols_nested] at heq
      have hkind := Symbol.bare_inj.mp (List.cons.inj heq).1
      cases op <;> cases hop <;> cases hkind
    | some kind' =>
      rw [symbols_prefixed hop'] at heq
      obtain ⟨hkind, heq⟩ := List.cons.inj heq
      rw [Symbol.bare_inj] at hkind
      have hops : op = op' := UnaryOp.token?_inj hop (hkind ▸ hop')
      have hnested : op' ≠ .nested := by
        rintro rfl
        cases hop'
      obtain ⟨hoperand, hrests⟩ := htold operand' rest rest' h'.1 (h'.2.resolve_left hnested)
        hrest hrest' heq
      exact ⟨by rw [hops, hoperand], hrests⟩
  | binary op' => exact absurd hrank' (Nat.not_lt_of_le op'.rank_le)

theorem nested_told {operand : Formula} (htold : Told 0 operand) :
    Told Power.multiplicative.rank (unary .nested operand) := by
  intro e' rest rest' h' hrank' hrest hrest' heq
  rw [symbols_nested] at heq
  cases e' with
  | atom a' => exact absurd (List.cons.inj heq).1.symm a'.symbol_ne_bare
  | call callee' => exact absurd (List.cons.inj heq).1.symm (Atom.name callee').symbol_ne_bare
  | unary op' operand' =>
    cases hop' : op'.token? with
    | none =>
      cases op' <;> cases hop'
      rw [symbols_nested] at heq
      simp only [List.cons_append, List.append_assoc, List.cons.injEq, true_and,
        List.nil_append] at heq
      obtain ⟨hoperand, hrests⟩ := htold operand' _ _ h'.1 operand'.rank_pos
        (stops_closeParen 0 rest) (stops_closeParen 0 rest') heq
      exact ⟨by rw [hoperand], (List.cons.inj hrests).2⟩
    | some kind' =>
      rw [symbols_prefixed hop'] at heq
      have hkind := Symbol.bare_inj.mp (List.cons.inj heq).1
      cases op' <;> cases hop' <;> cases hkind
  | binary op' => exact absurd hrank' (Nat.not_lt_of_le op'.rank_le)

/-! ### All formulas -/

mutual

/-- The operand that a layered formula begins with is known from its symbols, and so are
its right operands. -/
theorem Layered.parts_told : ∀ {e : Formula}, e.Layered →
    Told Power.multiplicative.rank e.seed ∧
      ∀ step ∈ e.steps, ∀ bound < step.2.rank, Told bound step.2
  | atom a step, _ => ⟨atom_told a step, by simp [steps]⟩
  | call callee arguments step, h => ⟨call_told (AllLayered.told h), by simp [steps]⟩
  | unary op operand, h => by
    have hparts := h.1.parts_told
    refine ⟨?_, by simp [steps]⟩
    cases hop : op.token? with
    | none =>
      cases op <;> cases hop
      exact nested_told (h.1.told hparts.1 hparts.2 operand.rank_pos)
    | some kind =>
      have hnested : op ≠ .nested := by
        rintro rfl
        cases hop
      exact prefixed_told hop (h.1.told hparts.1 hparts.2 (h.2.resolve_left hnested))
  | binary op left right, ⟨hleft, hright, _⟩ => by
    obtain ⟨hseed, hsteps⟩ := hleft.parts_told
    obtain ⟨hseed', hsteps'⟩ := hright.parts_told
    refine ⟨hseed, ?_⟩
    rw [steps, List.forall_mem_append]
    refine ⟨hsteps, ?_⟩
    simpa using fun bound hbound => hright.told hseed' hsteps' hbound

theorem AllLayered.told : ∀ {arguments : List Formula}, AllLayered arguments →
    ∀ e ∈ arguments, Told 0 e
  | [], _ => by simp
  | argument :: others, ⟨hargument, hothers⟩ => by
    obtain ⟨hseed, hsteps⟩ := hargument.parts_told
    rw [List.forall_mem_cons]
    exact ⟨hargument.told hseed hsteps argument.rank_pos, AllLayered.told hothers⟩

end

/-- **A layered formula is known from its symbols.** -/
theorem Layered.symbols_inj {e e' : Formula} (h : e.Layered) (h' : e'.Layered)
    (heq : e.symbols = e'.symbols) : e = e' := by
  obtain ⟨hseed, hsteps⟩ := h.parts_told
  exact (h.told hseed hsteps e.rank_pos e' [] [] h' e'.rank_pos (stops_nil 0) (stops_nil 0)
    (by rw [heq])).1

end Formula

end Braced
