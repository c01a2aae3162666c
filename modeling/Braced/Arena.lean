/-!
# Braced.Arena

Storage that hands out a handle for every value it takes in. Values are never
removed, so a handle stays good, and handles count up from zero in the order in
which the values came.

Each arena has a handle type of its own, so that a handle of one is not used
with another by mistake.
-/

namespace Braced

/-- Types whose values stand for places in an arena. -/
class Handle (ι : Type) where
  ofIndex : Nat → ι
  index : ι → Nat
  index_ofIndex : ∀ n, index (ofIndex n) = n

/-- The handle that a word stands for where handles are written down. They are
    written as words of 32 bits. -/
def Handle.ofWord [Handle ι] (word : UInt32) : ι :=
  Handle.ofIndex word.toNat

/-- Values of type `α` under handles of type `ι`. -/
structure Arena (ι : Type) (α : Type) where
  items : Array α
  deriving Repr

namespace Arena

variable {ι α : Type}

def empty : Arena ι α := ⟨#[]⟩

instance : Inhabited (Arena ι α) := ⟨empty⟩

def size (a : Arena ι α) : Nat :=
  a.items.size

/-- All values, in the order in which they came. -/
def toList (a : Arena ι α) : List α :=
  a.items.toList

@[simp] theorem size_empty : (empty : Arena ι α).size = 0 := rfl

variable [Handle ι]

/-- The handle that the next value will get. -/
def nextHandle (a : Arena ι α) : ι :=
  Handle.ofIndex a.items.size

/-- Takes in a value, and gives its handle. -/
def alloc (a : Arena ι α) (value : α) : ι × Arena ι α :=
  (a.nextHandle, ⟨a.items.push value⟩)

/-- The value under a handle. -/
def get? (a : Arena ι α) (handle : ι) : Option α :=
  a.items[Handle.index handle]?

/-- Changes the value under a handle, if there is one. -/
def modify (a : Arena ι α) (handle : ι) (f : α → α) : Arena ι α :=
  ⟨a.items.modify (Handle.index handle) f⟩

/-- Replaces the value under a handle, if there is one. -/
def set (a : Arena ι α) (handle : ι) (value : α) : Arena ι α :=
  a.modify handle fun _ => value

@[simp] theorem size_alloc (a : Arena ι α) (value : α) :
    (a.alloc value).2.size = a.size + 1 := by
  simp [alloc, size]

@[simp] theorem size_modify (a : Arena ι α) (handle : ι) (f : α → α) :
    (a.modify handle f).size = a.size := by
  simp [modify, size]

@[simp] theorem toList_alloc (a : Arena ι α) (value : α) :
    (a.alloc value).2.toList = a.toList ++ [value] := by
  simp [alloc, toList]

/-- A value is found under the handle it got. -/
@[simp] theorem get?_alloc (a : Arena ι α) (value : α) :
    (a.alloc value).2.get? (a.alloc value).1 = some value := by
  simp [alloc, get?, nextHandle, Handle.index_ofIndex]

/-- Taking in a value changes nothing under the other handles. -/
theorem get?_alloc_eq (a : Arena ι α) (value : α) (handle : ι) :
    (a.alloc value).2.get? handle =
      if Handle.index handle = a.size then some value else a.get? handle := by
  exact Array.getElem?_push

theorem get?_modify (a : Arena ι α) (handle other : ι) (f : α → α) :
    (a.modify handle f).get? other =
      if Handle.index handle = Handle.index other then (a.get? other).map f
      else a.get? other := by
  simp [modify, get?, Array.getElem?_modify]

/-- There is a value under exactly the handles that were given out. -/
theorem get?_isSome_iff (a : Arena ι α) (handle : ι) :
    (a.get? handle).isSome ↔ Handle.index handle < a.size := by
  simp [get?, size]

end Arena

end Braced
