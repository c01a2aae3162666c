import Braced.Proofs.Tree.Owned
import Braced.Token

/-!
# Braced.Proofs.Tree.Jumps

The jumps of a tree that need a loop, with the bodies around them.

`t.LoopJumps around ids js` goes through statements and the blocks in them: `js` are
the `break` and `continue` statements that are found there, in the order of the source,
each with what the scopes around it are the bodies of.  A statement has one such list at
most (`Tree.LoopJumps.unique`).  A jump is in a loop if it comes to a loop on its way
outwards before it comes to the body of a function (`Body.inLoop`).
-/

namespace Braced

/-- What the scope of a node is the body of. -/
inductive Body
  | function
  | loop
  /-- A clause of a conditional. -/
  | branch
  deriving DecidableEq, Repr

/-- Whether there is a loop among the bodies around, from the innermost one up to the one of
the innermost function. -/
def Body.inLoop (around : List Body) : Bool :=
  (around.takeWhile (· ≠ .function)).contains .loop

/-- How many loops of the innermost function are open in a body, if there are that many
around it. -/
def Body.depth : Body → Nat → Nat
  | function, _ => 0
  | loop, depth => depth + 1
  | branch, depth => depth

namespace NodeKind

/-- The scope of a node, with what it is the body of. -/
def enclosure? : NodeKind → Option (Body × ScopeId)
  | function _ _ _ body _ => some (.function, body)
  | flow .whileLoop _ body _ => some (.loop, body)
  | flow _ _ body _ => some (.branch, body)
  | _ => none

/-- The keyword of a jump that needs a loop around it. -/
def loopKeyword? : NodeKind → Option TokenKind
  | jump .breaking _ => some .kwBreak
  | jump .continuing _ => some .kwContinue
  | _ => none

end NodeKind

/-- The keyword and the place of a jump that needs a loop around it. -/
def Node.loopJump? (node : Node) : Option (TokenKind × Position) :=
  node.kind.loopKeyword?.map (·, node.position)

/-- A jump that needs a loop around it, with the bodies that it is in, innermost first. -/
structure LoopJump where
  keyword : TokenKind
  position : Position
  around : List Body
  deriving DecidableEq, Repr

namespace LoopJump

/-- What a report of the jump says of it. -/
def site (j : LoopJump) : TokenKind × Position :=
  (j.keyword, j.position)

/-- Whether the loop is missing that the jump needs. -/
def isMisplaced (j : LoopJump) : Bool :=
  !Body.inLoop j.around

end LoopJump

namespace Tree

/-- The jumps that need a loop, in some statements and in all that stands in them, in the
order of the source. -/
inductive LoopJumps (t : Tree) : List Body → List NodeId → List LoopJump → Prop
  | nil (around : List Body) : LoopJumps t around [] []
  | jump {around : List Body} {id : NodeId} {node : Node} {keyword : TokenKind}
      {ids : List NodeId} {js : List LoopJump} (hnode : t.node? id = some node)
      (hkeyword : node.kind.loopKeyword? = some keyword) (hrest : LoopJumps t around ids js) :
      LoopJumps t around (id :: ids) (⟨keyword, node.position, around⟩ :: js)
  | block {around : List Body} {id : NodeId} {node : Node} {body : Body} {scope : ScopeId}
      {ids : List NodeId} {inner next js : List LoopJump} (hnode : t.node? id = some node)
      (hbody : node.kind.enclosure? = some (body, scope))
      (hinner : LoopJumps t (body :: around) (t.statements scope) inner)
      (hnext : LoopJumps t around node.kind.next?.toList next)
      (hrest : LoopJumps t around ids js) :
      LoopJumps t around (id :: ids) (inner ++ next ++ js)
  | plain {around : List Body} {id : NodeId} {node : Node} {ids : List NodeId}
      {js : List LoopJump} (hnode : t.node? id = some node)
      (hkeyword : node.kind.loopKeyword? = none) (hbody : node.kind.enclosure? = none)
      (hrest : LoopJumps t around ids js) : LoopJumps t around (id :: ids) js

namespace LoopJumps

variable {t : Tree} {around : List Body} {ids ids' : List NodeId} {js js' : List LoopJump}

theorem append (h : t.LoopJumps around ids js) (h' : t.LoopJumps around ids' js') :
    t.LoopJumps around (ids ++ ids') (js ++ js') := by
  induction h with
  | nil => exact h'
  | jump hnode hkeyword _ ih => exact .jump hnode hkeyword (ih h')
  | block hnode hbody hinner hnext _ _ _ ih =>
    rw [List.append_assoc]
    exact .block hnode hbody hinner hnext (ih h')
  | plain hnode hkeyword hbody _ ih => exact .plain hnode hkeyword hbody (ih h')

/-- A node with a scope is no jump. -/
theorem loopKeyword?_of_enclosure {kind : NodeKind} {enclosure : Body × ScopeId}
    (h : kind.enclosure? = some enclosure) : kind.loopKeyword? = none := by
  cases kind <;> first | rfl | cases h

/-- **Statements have one list of jumps.** -/
theorem unique (h : t.LoopJumps around ids js) (h' : t.LoopJumps around ids js') : js = js' := by
  induction h generalizing js' with
  | nil =>
    cases h'
    rfl
  | jump hnode hkeyword _ ih =>
    cases h' with
    | jump hnode' hkeyword' hrest =>
      cases hnode.symm.trans hnode'
      cases hkeyword.symm.trans hkeyword'
      rw [ih hrest]
    | block hnode' hbody' =>
      cases hnode.symm.trans hnode'
      cases hkeyword.symm.trans (loopKeyword?_of_enclosure hbody')
    | plain hnode' hkeyword' =>
      cases hnode.symm.trans hnode'
      cases hkeyword.symm.trans hkeyword'
  | block hnode hbody _ _ _ ihinner ihnext ihrest =>
    cases h' with
    | jump hnode' hkeyword' =>
      cases hnode.symm.trans hnode'
      cases hkeyword'.symm.trans (loopKeyword?_of_enclosure hbody)
    | block hnode' hbody' hinner hnext hrest =>
      cases hnode.symm.trans hnode'
      cases hbody.symm.trans hbody'
      rw [ihinner hinner, ihnext hnext, ihrest hrest]
    | plain hnode' _ hbody' =>
      cases hnode.symm.trans hnode'
      cases hbody.symm.trans hbody'
  | plain hnode hkeyword hbody _ ih =>
    cases h' with
    | jump hnode' hkeyword' =>
      cases hnode.symm.trans hnode'
      cases hkeyword.symm.trans hkeyword'
    | block hnode' hbody' =>
      cases hnode.symm.trans hnode'
      cases hbody.symm.trans hbody'
    | plain hnode' _ _ hrest => exact ih hrest

end LoopJumps

end Tree

/-! ## Loops around a body -/

namespace Body

@[simp] theorem inLoop_nil : inLoop [] = false := rfl

/-- In a function no loop is open, in a loop there is one, and in a branch the same ones are
open as around it. -/
theorem inLoop_cons (body : Body) (around : List Body) {depth : Nat}
    (h : inLoop around = decide (0 < depth)) :
    inLoop (body :: around) = decide (0 < body.depth depth) := by
  cases body with
  | function => simp [inLoop, Body.depth]
  | loop => simp [inLoop, Body.depth]
  | branch =>
    have hskip : inLoop (.branch :: around) = inLoop around := by simp [inLoop]
    rw [hskip, h]
    rfl

end Body

end Braced
