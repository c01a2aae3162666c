import Braced.Proofs.Compile
import Braced.Proofs.Parse.Forms
import Braced.Proofs.Parse.Named

/-!
# Braced.Proofs.Parse.Depth

How deep an expression can be.

No expression that is read takes more levels than there are (`Tree.bounded_build`): what is
known of the parts of expressions (`Parse.FormsExpressions`) says so of those that other
parts refer to, and all that is read around expressions keeps it.

That does not bound the height of the tree by the number of levels.  Behind a left operand
the levels that it took are free again, so a path downwards can be longer by one node for
each left operand on it, and long in all where long chains of operators stand in each
other's left operands.
-/

namespace Braced

/-! ## Reading without the insides of expressions -/

/-- Whether the part is one inside of an expression, which is read at a depth, a token or a
left operand that is known there. -/
def Goal.isInside : Goal α → Bool
  | production .primary | production .prefixed | production .grouping
  | operators .. | binary .. => true
  | _ => false

/-- Reading without the insides of expressions. -/
def Reach.shallow (reach : Reach) : Reach :=
  fun goal => if goal.isInside then fun _ => none else reach goal

namespace Parse

open Builder (Bounds)

variable (reach : Reach)

theorem declaration_shallow : Tree.Statement.declaration .standard reach.shallow
    = Tree.Statement.declaration .standard reach := by
  funext s
  refine declaration_congr fun production hproduction => ?_
  rcases production_of_declaration hproduction with ⟨rfl, -⟩ | ⟨rfl, -⟩ <;> rfl

theorem statement_shallow : Tree.Statement.statement .standard reach.shallow
    = Tree.Statement.statement .standard reach := by
  funext s
  refine statement_congr fun production hproduction => ?_
  rcases production_of_statement hproduction with
    ⟨rfl, -⟩ | ⟨rfl, -⟩ | ⟨rfl, -⟩ | ⟨rfl, -⟩ | ⟨rfl, -⟩ <;> rfl

/-- A part that is no expression refers to whole expressions only. -/
theorem step_shallow : ∀ {α : Type} (goal : Goal α), goal.isExpression = false →
    goal.step .standard reach.shallow = goal.step .standard reach
  | _, .production .declaration, _ => declaration_shallow reach
  | _, .production .statement, _ => statement_shallow reach
  | _, .production .identifierStatement, _ => rfl
  | _, .production .variableStatement, _ => rfl
  | _, .production .function, _ => rfl
  | _, .production .foreignImport, _ => rfl
  | _, .production .returnStatement, _ => rfl
  | _, .production .loopControl, _ => rfl
  | _, .production .ifStatement, _ => rfl
  | _, .production .whileStatement, _ => rfl
  | _, .production .type, _ => rfl
  | _, .values, _ => rfl
  | _, .parameters, _ => rfl
  | _, .elseClause, _ => rfl
  | _, .block, _ => rfl
  | _, .statements, _ => rfl
  | _, .declarations, _ => rfl

variable {reach}

/-- No whole expression that is read takes too many levels, and no argument. -/
theorem FormsExpressions.bounds (hr : FormsExpressions reach) : ∀ {α : Type} (goal : Goal α),
    goal.isExpression → goal.isInside = false → Keeps Bounds (reach goal)
  | _, .production .unary, _, _ => fun s => (hr.unary s).imp fun _ _ h => h.bounds
  | _, .expression power, _, _ => fun s => (hr.expression power s).imp fun _ _ h => h.bounds
  | _, .call isStatement, _, _ => fun s => (hr.call isStatement s).imp fun _ _ h => h.bounds
  | _, .arguments, _, _ => fun s => (hr.arguments s).imp fun _ _ h => h.bounds

/-- One step of reading what stands around expressions. -/
theorem bounds_step (hr : ∀ {α : Type} (goal : Goal α), Keeps Bounds (reach.shallow goal))
    (goal : Goal α) (hgoal : goal.isExpression = false) :
    Keeps Bounds (goal.step .standard reach) := by
  have hnode {position name result parameters body origin} :
      Keeps Bounds (alloc position (.function name result parameters body origin)) :=
    keeps_act fun s => s.bounds_alloc_other position rfl
  rw [← step_shallow reach goal hgoal]
  exact Goal.step_keeps_outside hr (keepsDeclaring hr)
    (keepsScopes_of hr (keeps_function hr (keeps_signature hr) hnode)
      (keeps_foreignImport (keeps_signature hr) hnode)) goal hgoal

/-- Whatever is read but the insides of expressions, no expression takes too many levels. -/
theorem bounds_reach (fuel : Nat) : ∀ {α : Type} (goal : Goal α),
    Keeps Bounds (Reach.shallow (Goal.reach .standard fuel) goal) := by
  induction fuel with
  | zero =>
    intro α goal s a s' hread
    unfold Reach.shallow at hread
    split at hread <;> cases hread
  | succ fuel ih =>
    intro α goal
    unfold Reach.shallow
    split
    · exact fun s a s' hread => by cases hread
    · next hinner =>
      cases hgoal : goal.isExpression with
      | true => exact (formsExpressions_reach (fuel + 1)).bounds goal hgoal (by simpa using hinner)
      | false => exact bounds_step ih goal hgoal

end Parse

/-! ## The tree of a source -/

namespace Tree

/-- **No expression of a tree takes more levels than there are.** -/
theorem bounded_build (tokens : List Token) : (build tokens).Bounded := by
  obtain ⟨fuel, hread⟩ := build_spec tokens
  have hbounds := Parse.bounds_reach fuel .declarations _ _ _ hread
  refine hbounds.bounded fun id hid => ?_
  -- a builder starts without nodes
  obtain ⟨node, hnode, -⟩ := hid
  simp [Builder.tree, Builder.ofTokens, node?, Arena.empty, Arena.get?] at hnode

theorem Descent.isExpression {t : Tree} {id : NodeId} {n l : Nat} (h : t.Descent id n l) :
    t.IsExpression id := by
  cases h with
  | single h => exact h
  | left hnode | right hnode | operand hnode | argument hnode => exact ⟨_, hnode, rfl⟩

/-- **How deep expressions can be.**  In the tree of a source, a path downwards through
expressions has no more nodes than there are levels, but for one more with each left operand
that it goes into; and no more than half the product of their number and the next one,
however many left operands there are. -/
theorem descent_le {lx : Lexicon} {source : List UInt8} {t : Tree} {id : NodeId} {n l : Nat}
    (h : ofSource lx source = .ok t) (hpath : t.Descent id n l) :
    n ≤ l + maxExpressionDepth ∧ n ≤ maxExpressionDepth * (maxExpressionDepth + 1) / 2 := by
  obtain ⟨tokens, -, rfl, -⟩ := tokens_of_ofSource h
  obtain ⟨e, he, hdemand⟩ := bounded_build tokens id hpath.isExpression
  exact hpath.le_of_demand_le he hdemand

/-- A path through parentheses inside of parentheses. -/
theorem Descent.nested {t : Tree} {first n : Nat} (hfirst : t.IsExpression ⟨first⟩)
    (h : ∀ k < n, (t.node? ⟨first + k + 1⟩).map Node.kind = some (.unary .nested ⟨first + k⟩)) :
    t.Descent ⟨first + n⟩ (n + 1) 0 := by
  induction n with
  | zero => exact .single hfirst
  | succ n ih =>
    obtain ⟨⟨position, kind⟩, hnode, rfl⟩ := Option.map_eq_some_iff.mp (h n (Nat.lt_succ_self n))
    exact .operand hnode (ih fun k hk => h k (Nat.lt_succ_of_lt hk))

/-- The source `x:int=(((…(1)…)))+1;` with 255 parentheses is accepted, with a path of 257
nodes, one more than there are levels. -/
theorem descent_le_parentheses :
    ∃ t, ofSource .standard ([120, 58, 105, 110, 116, 61] ++ List.replicate 255 40 ++ [49]
        ++ List.replicate 255 41 ++ [43, 49, 59]) = .ok t ∧
      t.Descent ⟨259⟩ 257 1 ∧ 257 ≤ 1 + maxExpressionDepth ∧
      257 ≤ maxExpressionDepth * (maxExpressionDepth + 1) / 2 := by
  refine exists_ok_of_toOption (fun t => ((t.node? ⟨2⟩).map Node.kind,
    (List.range 255).map fun k => (t.node? ⟨2 + k + 1⟩).map Node.kind,
    (t.node? ⟨259⟩).map Node.kind)) (some (.primary (.int 1) none),
    (List.range 255).map fun k => some (.unary .nested ⟨2 + k⟩),
    some (.binary .add ⟨257⟩ ⟨258⟩)) (by decide +kernel) fun t hsource hread => ?_
  obtain ⟨hfirst, hread⟩ := Prod.mk.inj hread
  obtain ⟨hnested, hlast⟩ := Prod.mk.inj hread
  obtain ⟨first, hfirst, hkind⟩ := Option.map_eq_some_iff.mp hfirst
  obtain ⟨⟨position, kind⟩, hlast, rfl⟩ := Option.map_eq_some_iff.mp hlast
  have hchain : t.Descent ⟨2 + 255⟩ (255 + 1) 0 :=
    .nested ⟨first, hfirst, by rw [hkind]; rfl⟩ fun k hk =>
      List.map_inj_left.mp hnested k (List.mem_range.mpr hk)
  have hpath : t.Descent ⟨259⟩ 257 1 := .left hlast hchain
  exact ⟨hpath, descent_le hsource hpath⟩

end Tree

end Braced
