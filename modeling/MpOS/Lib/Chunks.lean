import Mathlib.Algebra.BigOperators.Group.Finset.Basic
import Mathlib.Data.List.Flatten

/-!
# Reading a list in chunks

A list is read from the front by requests of the sizes `n 0`, `n 1`, and so on. Request
`i` starts at `position l n i` and gets `chunk l n i`, which is shorter than requested
where the list ends. The chunks put together are the list (`flatMap_chunk`), and positive
requests get to the end of it and no further (`exists_requested`, `chunk_eq_nil`).
-/

namespace Chunks

variable {α : Type*} (l : List α) (n : ℕ → ℕ)

/-- What the first `i` requests ask for in all. -/
def requested (i : ℕ) : ℕ :=
  ∑ j ∈ Finset.range i, n j

/-- Where request `i` starts. -/
def position (i : ℕ) : ℕ :=
  min (requested n i) l.length

/-- What request `i` gets. -/
def chunk (i : ℕ) : List α :=
  (l.drop (position l n i)).take (n i)

theorem requested_zero : requested n 0 = 0 :=
  Finset.sum_range_zero n

theorem requested_succ (i : ℕ) : requested n (i + 1) = requested n i + n i :=
  Finset.sum_range_succ n i

/-- Until the end is asked for, the position is what was asked for. -/
theorem position_of_le {i : ℕ} (h : requested n i ≤ l.length) : position l n i = requested n i :=
  Nat.min_eq_left h

/-- After it, the position is the end. -/
theorem position_of_ge {i : ℕ} (h : l.length ≤ requested n i) : position l n i = l.length :=
  Nat.min_eq_right h

/-- A chunk is as long as asked, or what is left. -/
theorem length_chunk (i : ℕ) : (chunk l n i).length = min (n i) (l.length - position l n i) := by
  rw [chunk, List.length_take, List.length_drop]

/-- Each chunk moves the position on by its length. -/
theorem position_succ (i : ℕ) :
    position l n (i + 1) = position l n i + (chunk l n i).length := by
  rw [length_chunk, position, position, requested_succ]
  omega

/-- The chunks put together are the part of the list that is read. -/
theorem flatMap_chunk (i : ℕ) :
    (List.range i).flatMap (chunk l n) = l.take (position l n i) := by
  induction i with
  | zero => simp [position, requested_zero]
  | succ i ih =>
    rw [List.range_succ, List.flatMap_append, ih, List.flatMap_singleton, position_succ,
      length_chunk, List.take_add, chunk, ← List.length_drop, ← List.take_eq_take_min]

/-- Behind the end of the list there is nothing left. -/
theorem chunk_eq_nil {i : ℕ} (h : l.length ≤ requested n i) : chunk l n i = [] := by
  rw [chunk, position_of_ge l n h, List.drop_length, List.take_nil]

/-- More requests ask for more. -/
theorem requested_mono : Monotone (requested n) :=
  monotone_nat_of_le_succ fun i => by
    rw [requested_succ]
    exact Nat.le_add_right _ _

variable {n}

/-- With every request positive, `i` of them ask for at least `i`. -/
theorem le_requested (hn : ∀ i, 0 < n i) (i : ℕ) : i ≤ requested n i := by
  induction i with
  | zero => exact Nat.zero_le _
  | succ i ih =>
    have hi := hn i
    rw [requested_succ]
    omega

/-- Positive requests get past every bound. -/
theorem exists_requested (hn : ∀ i, 0 < n i) (b : ℕ) :
    ∃ i, requested n i ≤ b ∧ b < requested n (i + 1) := by
  by_contra hno
  have hall : ∀ i, requested n i ≤ b := by
    intro i
    induction i with
    | zero => simp [requested_zero]
    | succ i ih =>
      by_contra hgt
      exact hno ⟨i, ih, by omega⟩
  have hle := (le_requested hn (b + 1)).trans (hall (b + 1))
  omega

end Chunks
