import Mathlib.Data.List.Basic

/-!
# Braced.Proofs.Scope.Surroundings

What is declared around a place of a program.

`Surroundings` are lists of declarations, one for each block around the place and
one for what is outside of all blocks; a name means the innermost declaration of
it.  The names of both languages are described in this way.
-/

namespace Braced

/-- What is declared around a place: in the blocks around it, the innermost block
first, and outside of all blocks. -/
structure Surroundings (α : Type) where
  blocks : List (List α)
  outside : List α
  deriving DecidableEq, Repr

namespace Surroundings

variable {α β γ : Type}

/-- All declarations, innermost first. -/
def frames (s : Surroundings α) : List (List α) :=
  s.blocks ++ [s.outside]

/-- Goes into a block without declarations. -/
def enter (s : Surroundings α) : Surroundings α :=
  { s with blocks := [] :: s.blocks }

/-- Adds declarations to the innermost block, or outside if there is no block. -/
def declare (s : Surroundings α) (new : List α) : Surroundings α :=
  match s.blocks with
  | [] => { s with outside := s.outside ++ new }
  | block :: blocks => { s with blocks := (block ++ new) :: blocks }

/-- Goes along a list of parts, each of which declares something for itself and for
those that come after it. -/
def along (declared : β → List α) (f : Surroundings α → β → List γ) :
    Surroundings α → List β → List γ
  | _, [] => []
  | s, part :: parts =>
    f (s.declare (declared part)) part ++ along declared f (s.declare (declared part)) parts

/-- What satisfies `p` in the innermost frame where something does, and the number
of frames around that one. -/
def innermost (p : α → Bool) : List (List α) → Option (Nat × List α)
  | [] => none
  | frame :: around =>
    if frame.any p then some (around.length, frame.filter p) else innermost p around

/-- The innermost declarations that satisfy `p`, and the number of frames around
them. -/
def find (s : Surroundings α) (p : α → Bool) : Option (Nat × List α) :=
  innermost p s.frames

/-! ## Going along -/

@[simp] theorem declare_nil (s : Surroundings α) : s.declare [] = s := by
  cases s with
  | mk blocks outside => cases blocks <;> simp [declare]

theorem declare_declare (s : Surroundings α) (new more : List α) :
    (s.declare new).declare more = s.declare (new ++ more) := by
  cases s with
  | mk blocks outside => cases blocks <;> simp [declare]

@[simp] theorem frames_enter (s : Surroundings α) : s.enter.frames = [] :: s.frames := rfl

/-- Declarations go to the innermost frame. -/
theorem frames_declare (s : Surroundings α) (new : List α) :
    ∃ frame around, s.frames = frame :: around ∧
      (s.declare new).frames = (frame ++ new) :: around := by
  cases s with
  | mk blocks outside =>
    cases blocks with
    | nil => exact ⟨_, _, rfl, rfl⟩
    | cons block blocks => exact ⟨_, _, rfl, rfl⟩

/-- Where nothing is declared, all parts have the same surroundings. -/
theorem along_of_declared_eq_nil {declared : β → List α} {parts : List β}
    (h : parts.flatMap declared = []) (f : Surroundings α → β → List γ) (s : Surroundings α) :
    along declared f s parts = parts.flatMap (f s) := by
  induction parts with
  | nil => rfl
  | cons part parts ih =>
    rw [List.flatMap_cons, List.append_eq_nil_iff] at h
    rw [along, h.1, declare_nil, ih h.2, List.flatMap_cons]

/-- What does not depend on the surroundings is collected from all parts. -/
theorem along_const (declared : β → List α) (f : β → List γ) (s : Surroundings α)
    (parts : List β) : along declared (fun _ => f) s parts = parts.flatMap f := by
  induction parts generalizing s with
  | nil => rfl
  | cons part parts ih => rw [along, ih, List.flatMap_cons]

theorem map_along {δ : Type} (declared : β → List α) (f : Surroundings α → β → List γ)
    (g : γ → δ) (s : Surroundings α) (parts : List β) :
    (along declared f s parts).map g = along declared (fun s part => (f s part).map g) s parts := by
  induction parts generalizing s with
  | nil => rfl
  | cons part parts ih => rw [along, List.map_append, ih, along]

/-! ## Finding -/

/-- Frames without such a declaration do not matter. -/
theorem innermost_append {p : α → Bool} {frames : List (List α)}
    (h : ∀ frame ∈ frames, ∀ a ∈ frame, p a = false) (around : List (List α)) :
    innermost p (frames ++ around) = innermost p around := by
  induction frames with
  | nil => rfl
  | cons frame frames ih =>
    rw [List.forall_mem_cons] at h
    have hnone : frame.any p = false := by simpa using h.1
    rw [List.cons_append, innermost, hnone, if_neg Bool.false_ne_true, ih h.2]

/-- A declaration that is the only one of its kind in its frame is found from there. -/
theorem innermost_cons {p : α → Bool} {frame : List α} {a : α} (h : frame.filter p = [a])
    (around : List (List α)) : innermost p (frame :: around) = some (around.length, [a]) := by
  have hmem : a ∈ frame.filter p := h ▸ List.mem_singleton_self a
  rw [List.mem_filter] at hmem
  rw [innermost, if_pos (List.any_eq_true.mpr ⟨a, hmem⟩), h]

theorem innermost_eq_none_iff {p : α → Bool} {frames : List (List α)} :
    innermost p frames = none ↔ ∀ frame ∈ frames, ∀ a ∈ frame, p a = false := by
  induction frames with
  | nil => simp [innermost]
  | cons frame frames ih =>
    rw [innermost, List.forall_mem_cons, ← ih]
    cases hframe : frame.any p with
    | true =>
      obtain ⟨a, ha, hp⟩ := List.any_eq_true.mp hframe
      simp only [if_true]
      exact ⟨fun h => absurd h (by simp), fun h => absurd (h.1 a ha) (by simp [hp])⟩
    | false =>
      have hnone : ∀ a ∈ frame, p a = false := by simpa using hframe
      simp only [Bool.false_eq_true, if_false]
      exact ⟨fun h => ⟨hnone, h⟩, fun h => h.2⟩

/-- Frames further out matter where those further in have no such declaration. -/
theorem innermost_append_eq (p : α → Bool) (frames around : List (List α)) :
    innermost p (frames ++ around) =
      ((innermost p frames).map fun found => (found.1 + around.length, found.2)).or
        (innermost p around) := by
  induction frames with
  | nil => rfl
  | cons frame frames ih =>
    rw [List.cons_append, innermost, innermost, ih]
    cases frame.any p with
    | true => simp
    | false => rfl

/-- Declarations may be told in another way. -/
theorem innermost_map (g : α → β) (q : β → Bool) (frames : List (List α)) :
    innermost q (frames.map (List.map g)) =
      (innermost (q ∘ g) frames).map fun found => (found.1, found.2.map g) := by
  induction frames with
  | nil => rfl
  | cons frame frames ih =>
    rw [List.map_cons, innermost, innermost, ih, List.any_map, List.filter_map, List.length_map]
    cases frame.any (q ∘ g) with
    | true => rfl
    | false => rfl

theorem innermost_singleton_eq_some_iff {p : α → Bool} {frame as : List α} {n : Nat} :
    innermost p [frame] = some (n, as) ↔ n = 0 ∧ as ≠ [] ∧ frame.filter p = as := by
  rw [innermost, innermost]
  cases hframe : frame.any p with
  | true =>
    have hne : frame.filter p ≠ [] := by
      obtain ⟨a, ha, hp⟩ := List.any_eq_true.mp hframe
      exact List.ne_nil_of_mem (List.mem_filter.mpr ⟨ha, hp⟩)
    simp only [if_true, Option.some.injEq, Prod.mk.injEq, List.length_nil]
    exact ⟨fun ⟨hn, has⟩ => ⟨hn.symm, has ▸ hne, has⟩, fun ⟨hn, _, has⟩ => ⟨hn.symm, has⟩⟩
  | false =>
    have hnil : frame.filter p = [] := by simpa using hframe
    simp only [Bool.false_eq_true, if_false, hnil]
    exact ⟨fun h => absurd h (by simp), fun ⟨_, hne, has⟩ => absurd has.symm hne⟩

/-- Where something is declared, there is an innermost frame that has it. -/
theorem exists_innermost {p : α → Bool} {frames : List (List α)}
    (h : ∃ frame ∈ frames, ∃ a ∈ frame, p a) :
    ∃ inner frame around, frames = inner ++ frame :: around ∧
      (∀ frame ∈ inner, ∀ a ∈ frame, p a = false) ∧ ∃ a ∈ frame, p a := by
  induction frames with
  | nil => simp at h
  | cons frame frames ih =>
    by_cases hframe : ∃ a ∈ frame, p a
    · exact ⟨[], frame, frames, rfl, by simp, hframe⟩
    · have hnone : ∀ a ∈ frame, p a = false := by simpa using hframe
      rw [List.exists_mem_cons_iff] at h
      obtain ⟨inner, found, around, rfl, hinner, hfound⟩ := ih (h.resolve_left hframe)
      exact ⟨frame :: inner, found, around, rfl, List.forall_mem_cons.mpr ⟨hnone, hinner⟩, hfound⟩

end Surroundings

end Braced
