import Braced.Proofs.Parse.Keeps
import Braced.Proofs.Tree.Formula
import Mathlib.Data.Nat.Choose.Basic

/-!
# Braced.Proofs.Tree.Denotes

The formula that an expression node stands for, and how deep a tree can be below it.

`t.Denotes id e` says that the node `id` of the tree and all that hangs below it are the
formula `e`.  A node stands for one formula at most, and goes on to do so when the tree
grows elsewhere.

A path downwards through expression nodes is a `Tree.Descent`.  How long it can be is
read off the formula: `Formula.demand` is how many levels have to be open at a time to
read the formula, where a level that the left operand of an operator took is free again
behind it, but the operator itself holds one.  So each step of a path costs a level, but
for those into left operands, which have a level of their own from the operator's chain.
-/

namespace Braced

/-! ## The formula of a node -/

namespace Tree

/-- The constant or the variable that an operand without operators is. -/
def atom? (t : Tree) : Primary → Option Atom
  | .int value => some (.int value)
  | .float value => some (.float value)
  | .string bytes => some (.string bytes)
  | .char value => some (.char value)
  | .name name => (t.ident? name).map .name
  | .call _ => none

mutual

/-- The node stands for the formula. -/
def Denotes (t : Tree) (id : NodeId) : Formula → Prop
  | .atom a step => ∃ position value, t.node? id = some ⟨position, .primary value step⟩ ∧
      t.atom? value = some a
  | .call text arguments step => ∃ position call position' callee ids,
      t.node? id = some ⟨position, .primary (.call call) step⟩ ∧
      t.node? call = some ⟨position', .call callee ids false⟩ ∧
      t.ident? callee = some text ∧ t.DenotesAll ids arguments
  | .unary op e => ∃ position operand, t.node? id = some ⟨position, .unary op operand⟩ ∧
      t.Denotes operand e
  | .binary op e e' => ∃ position left right,
      t.node? id = some ⟨position, .binary op left right⟩ ∧ t.Denotes left e ∧ t.Denotes right e'

/-- The nodes stand for the formulas, each for one. -/
def DenotesAll (t : Tree) (ids : List NodeId) : List Formula → Prop
  | [] => ids = []
  | e :: es => ∃ id others, ids = id :: others ∧ t.Denotes id e ∧ t.DenotesAll others es

end

variable {t t' : Tree} {id : NodeId} {ids : List NodeId}

theorem ident?_mono (ht : t.KeepsNodes t') {text : String} (h : t.ident? id = some text) :
    t'.ident? id = some text := by
  rw [ident?] at h ⊢
  cases hnode : t.node? id with
  | none => simp [hnode] at h
  | some node => rwa [ht id node hnode, ← hnode]

theorem atom?_mono (ht : t.KeepsNodes t') {value : Primary} {a : Atom}
    (h : t.atom? value = some a) : t'.atom? value = some a := by
  cases value with
  | name name =>
    obtain ⟨text, htext, rfl⟩ := Option.map_eq_some_iff.mp h
    rw [atom?, ident?_mono ht htext]
    rfl
  | _ => exact h

mutual

/-- What a node stands for stays the same when the tree grows elsewhere. -/
theorem Denotes.mono (ht : t.KeepsNodes t') {id : NodeId} :
    ∀ {e : Formula}, t.Denotes id e → t'.Denotes id e
  | .atom .., ⟨position, value, hnode, hatom⟩ =>
    ⟨position, value, ht _ _ hnode, atom?_mono ht hatom⟩
  | .call .., ⟨position, call, position', callee, ids, hnode, hcall, hcallee, harguments⟩ =>
    ⟨position, call, position', callee, ids, ht _ _ hnode, ht _ _ hcall, ident?_mono ht hcallee,
      DenotesAll.mono ht harguments⟩
  | .unary .., ⟨position, operand, hnode, hoperand⟩ =>
    ⟨position, operand, ht _ _ hnode, Denotes.mono ht hoperand⟩
  | .binary .., ⟨position, left, right, hnode, hleft, hright⟩ =>
    ⟨position, left, right, ht _ _ hnode, Denotes.mono ht hleft, Denotes.mono ht hright⟩

theorem DenotesAll.mono (ht : t.KeepsNodes t') {ids : List NodeId} :
    ∀ {es : List Formula}, t.DenotesAll ids es → t'.DenotesAll ids es
  | [], h => h
  | _ :: _, ⟨id, others, hids, hid, hothers⟩ =>
    ⟨id, others, hids, Denotes.mono ht hid, DenotesAll.mono ht hothers⟩

end

/-! ### What the kind of a node tells -/

namespace Denotes

variable {position : Position} {e : Formula}

theorem of_atom (h : t.Denotes id e) {value : Primary} {step : Option Step}
    (hnode : t.node? id = some ⟨position, .primary value step⟩) {a : Atom}
    (ha : t.atom? value = some a) : e = .atom a step := by
  cases e <;> grind [Denotes, atom?]

theorem of_call (h : t.Denotes id e) {call : NodeId} {step : Option Step}
    (hnode : t.node? id = some ⟨position, .primary (.call call) step⟩) :
    ∃ text arguments position' callee ids, e = .call text arguments step ∧
      t.node? call = some ⟨position', .call callee ids false⟩ ∧ t.ident? callee = some text ∧
      t.DenotesAll ids arguments := by
  cases e <;> grind [Denotes, atom?]

theorem of_unary (h : t.Denotes id e) {op : UnaryOp} {operand : NodeId}
    (hnode : t.node? id = some ⟨position, .unary op operand⟩) :
    ∃ e', e = .unary op e' ∧ t.Denotes operand e' := by
  cases e <;> grind [Denotes]

theorem of_binary (h : t.Denotes id e) {op : BinaryOp} {left right : NodeId}
    (hnode : t.node? id = some ⟨position, .binary op left right⟩) :
    ∃ e₁ e₂, e = .binary op e₁ e₂ ∧ t.Denotes left e₁ ∧ t.Denotes right e₂ := by
  cases e <;> grind [Denotes]

end Denotes

mutual

/-- A node stands for one formula at most. -/
theorem Denotes.unique {id : NodeId} : ∀ {e e' : Formula}, t.Denotes id e → t.Denotes id e' → e = e'
  | .atom .., e', ⟨_, _, hnode, hatom⟩, h' => (h'.of_atom hnode hatom).symm
  | .call .., e', ⟨_, _, _, _, _, hnode, hcall, hcallee, hall⟩, h' => by
    obtain ⟨_, _, _, _, _, rfl, hcall', hcallee', hall'⟩ := h'.of_call hnode
    cases hcall.symm.trans hcall'
    cases hcallee.symm.trans hcallee'
    rw [DenotesAll.unique hall hall']
  | .unary .., e', ⟨_, _, hnode, hoperand⟩, h' => by
    obtain ⟨operand, rfl, hoperand'⟩ := h'.of_unary hnode
    rw [Denotes.unique hoperand hoperand']
  | .binary .., e', ⟨_, _, _, hnode, hleft, hright⟩, h' => by
    obtain ⟨left, right, rfl, hleft', hright'⟩ := h'.of_binary hnode
    rw [Denotes.unique hleft hleft', Denotes.unique hright hright']

theorem DenotesAll.unique {ids : List NodeId} : ∀ {es es' : List Formula},
    t.DenotesAll ids es → t.DenotesAll ids es' → es = es'
  | [], es', h, h' => by
    subst h
    cases es' with
    | nil => rfl
    | cons => obtain ⟨_, _, hids, _⟩ := h'; cases hids
  | e :: es, es', ⟨id, others, hids, hid, hothers⟩, h' => by
    subst hids
    cases es' with
    | nil => cases h'
    | cons =>
      obtain ⟨_, _, hids, hid', hothers'⟩ := h'
      cases hids
      rw [Denotes.unique hid hid', DenotesAll.unique hothers hothers']

end

/-- Each of some arguments stands for a formula among those of the call. -/
theorem DenotesAll.exists_of_mem : ∀ {ids : List NodeId} {es : List Formula},
    t.DenotesAll ids es → ∀ id ∈ ids, ∃ e ∈ es, t.Denotes id e
  | ids, [], h, id, hid => by
    subst h
    cases hid
  | ids, e :: es, ⟨_, others, hids, he, hothers⟩, id, hid => by
    subst hids
    obtain rfl | hid := List.mem_cons.mp hid
    · exact ⟨e, List.mem_cons_self .., he⟩
    · obtain ⟨e', hmem, he'⟩ := hothers.exists_of_mem id hid
      exact ⟨e', List.mem_cons_of_mem _ hmem, he'⟩

end Tree

/-! ## How much depth a formula takes -/

namespace Formula

/-- How many operators follow the operand that a formula begins with, one after the
other. -/
def folds : Formula → Nat
  | binary _ left _ => left.folds + 1
  | _ => 0

/-- No operator follows an operand. -/
theorem folds_eq_zero (e : Formula) (h : Power.multiplicative.rank < e.rank) : e.folds = 0 := by
  cases e with
  | binary op => exact absurd h (Nat.not_lt_of_le op.rank_le)
  | _ => rfl

mutual

/-- How many levels are open at a time while the formula is read. -/
def demand : Formula → Nat
  | atom .. => 1
  | call _ arguments _ => demands arguments + 1
  | unary _ operand => operand.demand + 1
  | binary _ left right => max left.demand (left.folds + 1 + right.demand)

/-- The most levels that one of some arguments takes. -/
def demands : List Formula → Nat
  | [] => 0
  | argument :: others => max argument.demand (demands others)

end

theorem demand_le_demands : ∀ {arguments : List Formula}, ∀ e ∈ arguments,
    e.demand ≤ demands arguments
  | argument :: others, e, he => by
    rw [demands]
    obtain rfl | he := List.mem_cons.mp he
    · exact Nat.le_max_left ..
    · exact Nat.le_trans (demand_le_demands e he) (Nat.le_max_right ..)

theorem demands_le {n : Nat} : ∀ {arguments : List Formula}, (∀ e ∈ arguments, e.demand ≤ n) →
    demands arguments ≤ n
  | [], _ => Nat.zero_le n
  | argument :: others, h => by
    rw [demands]
    exact Nat.max_le.mpr ⟨h argument (List.mem_cons_self ..),
      demands_le fun e he => h e (List.mem_cons_of_mem _ he)⟩

theorem demand_pos : ∀ e : Formula, 0 < e.demand
  | atom .. | call .. | unary .. => by simp [demand]
  | binary _ left right => by
    rw [demand]
    omega

/-- Each operator of a chain takes a level, and its right operand one more. -/
theorem folds_lt_demand (e : Formula) : e.folds < e.demand := by
  cases e with
  | binary op left right =>
    have hright := right.demand_pos
    simp only [folds, demand]
    omega
  | _ => exact demand_pos _

/-- The nodes of an operand's chain and those of the levels below it, together. -/
theorem spread_le_choose (e : Formula) :
    e.folds + 1 + e.demand.choose 2 ≤ (e.demand + 1).choose 2 := by
  have hfolds := e.folds_lt_demand
  have hchoose : (e.demand + 1).choose 2 = e.demand + e.demand.choose 2 := by
    rw [Nat.choose_succ_succ', Nat.choose_one_right]
  omega

end Formula

/-! ## Paths downwards -/

namespace Tree

/-- The node is an expression. -/
def IsExpression (t : Tree) (id : NodeId) : Prop :=
  ∃ node, t.node? id = some node ∧ node.kind.isExpression

/-- A path downwards through expression nodes that begins with the node `id`: how many
nodes it has, and how many of them are left operands of the one before.  The arguments of
a call hang below the node of the operand that the call is. -/
inductive Descent (t : Tree) : NodeId → (length lefts : Nat) → Prop
  | single {id : NodeId} (h : t.IsExpression id) : Descent t id 1 0
  | left {id left right : NodeId} {position : Position} {op : BinaryOp} {n l : Nat}
      (hnode : t.node? id = some ⟨position, .binary op left right⟩) (h : Descent t left n l) :
      Descent t id (n + 1) (l + 1)
  | right {id left right : NodeId} {position : Position} {op : BinaryOp} {n l : Nat}
      (hnode : t.node? id = some ⟨position, .binary op left right⟩) (h : Descent t right n l) :
      Descent t id (n + 1) l
  | operand {id operand : NodeId} {position : Position} {op : UnaryOp} {n l : Nat}
      (hnode : t.node? id = some ⟨position, .unary op operand⟩) (h : Descent t operand n l) :
      Descent t id (n + 1) l
  | argument {id call callee argument : NodeId} {position position' : Position}
      {step : Option Step} {arguments : List NodeId} {isDirective : Bool} {n l : Nat}
      (hnode : t.node? id = some ⟨position, .primary (.call call) step⟩)
      (hcall : t.node? call = some ⟨position', .call callee arguments isDirective⟩)
      (hargument : argument ∈ arguments) (h : Descent t argument n l) : Descent t id (n + 1) l

namespace Descent

variable {t : Tree} {id : NodeId} {e : Formula} {n l : Nat}

/-- **How long a path can be.**  Each step down takes a level, unless it goes into a left
operand; and the chain of an operand can be as long as its demand, one time for each level
that it takes. -/
theorem bounds (h : t.Descent id n l) (he : t.Denotes id e) :
    n ≤ l + e.demand ∧ n ≤ e.folds + 1 + e.demand.choose 2 := by
  induction h generalizing e with
  | single =>
    have hdemand := e.demand_pos
    omega
  | @left _ _ _ _ op _ _ hnode _ ih =>
    obtain ⟨left, right, rfl, hleft, -⟩ := he.of_binary hnode
    obtain ⟨ih, ih'⟩ := ih hleft
    have hle : left.demand ≤ (Formula.binary op left right).demand := by
      rw [Formula.demand]
      exact Nat.le_max_left ..
    have hchoose := Nat.choose_le_choose 2 hle
    rw [Formula.folds]
    omega
  | @right _ _ _ _ op _ _ hnode _ ih =>
    obtain ⟨left, right, rfl, -, hright⟩ := he.of_binary hnode
    obtain ⟨ih, ih'⟩ := ih hright
    have hle : right.demand + 1 ≤ (Formula.binary op left right).demand := by
      rw [Formula.demand]
      omega
    have hchoose := Nat.le_trans (right.spread_le_choose) (Nat.choose_le_choose 2 hle)
    omega
  | operand hnode _ ih =>
    obtain ⟨operand, rfl, hoperand⟩ := he.of_unary hnode
    obtain ⟨ih, ih'⟩ := ih hoperand
    have hchoose := operand.spread_le_choose
    rw [Formula.demand]
    omega
  | @argument _ _ _ _ _ _ step _ _ _ _ hnode hcall hargument _ ih =>
    obtain ⟨text, arguments, _, _, _, rfl, hcall', -, hall⟩ := he.of_call hnode
    cases hcall.symm.trans hcall'
    obtain ⟨argument, hmem, hdenotes⟩ := hall.exists_of_mem _ hargument
    obtain ⟨ih, ih'⟩ := ih hdenotes
    have hle : argument.demand + 1 ≤ (Formula.call text arguments step).demand := by
      rw [Formula.demand]
      exact Nat.succ_le_succ (Formula.demand_le_demands argument hmem)
    have hchoose := Nat.le_trans argument.spread_le_choose (Nat.choose_le_choose 2 hle)
    omega

/-- How long a path can be below a node that can be read with so many levels. -/
theorem le_of_demand_le (h : t.Descent id n l) (he : t.Denotes id e) {depth : Nat}
    (hdepth : e.demand ≤ depth) : n ≤ l + depth ∧ n ≤ depth * (depth + 1) / 2 := by
  obtain ⟨hle, hle'⟩ := h.bounds he
  have hchoose := Nat.le_trans e.spread_le_choose
    (Nat.choose_le_choose 2 (Nat.add_le_add_right hdepth 1))
  have htwo : (depth + 1).choose 2 = depth * (depth + 1) / 2 := by
    rw [Nat.choose_two_right, Nat.add_sub_cancel, Nat.mul_comm]
  omega

end Descent

end Tree

end Braced
