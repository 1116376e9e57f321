import Mathlib.Logic.Function.Basic
import Mathlib.Order.Basic
import Mathlib.Tactic.SplitIfs

/-!
# Text consoles

A console shows `rows` rows of `cols` cells and has a cursor. Cell `cols * y + x` is the
one in row `y` and column `x`. Writing a cell moves the cursor on, and leaving the last
row scrolls : every row moves up by one and the last is blank (`put`, `newline`).

Consoles that show the same (`Same`) show the same after each operation, whatever lies
behind their last cell, and the cursor stays on the screen (`InBounds`).

A line that is being edited stands right before the cursor (`EndsWith`). Writing adds a
cell to it and going back (`Back`) removes one, over the ends of rows and, as long as
the line leaves room for a row, over scrolls.
-/

/-- The cells, in reading order, and the cursor. -/
structure TextConsole (α : Type*) where
  cell : ℕ → α
  x : ℕ
  y : ℕ

namespace TextConsole

variable {α : Type*} (cols rows : ℕ) (blank : α)

/-- Every row moves up by one and the last is blank. -/
def scroll (c : TextConsole α) : TextConsole α where
  cell n := if n < cols * (rows - 1) then c.cell (n + cols) else blank
  x := c.x
  y := c.y - 1

/-- Scroll if the cursor has left the last row. -/
def settle (c : TextConsole α) : TextConsole α :=
  if c.y = rows then c.scroll cols rows blank else c

/-- Move the cursor to the start of the next row. -/
def newline (c : TextConsole α) : TextConsole α :=
  settle cols rows blank { c with x := 0, y := c.y + 1 }

/-- Write a cell at the cursor and move it on. -/
def put (a : α) (c : TextConsole α) : TextConsole α :=
  settle cols rows blank
    { cell := Function.update c.cell (cols * c.y + c.x) a
      x := (c.x + 1) % cols
      y := c.y + (c.x + 1) / cols }

/-- The cursor is on the screen. -/
structure InBounds (c : TextConsole α) : Prop where
  x : c.x < cols
  y : c.y < rows

/-- The consoles show the same. -/
structure Same (c c' : TextConsole α) : Prop where
  cell : ∀ n < cols * rows, c.cell n = c'.cell n
  x : c.x = c'.x
  y : c.y = c'.y

variable {cols rows blank} {c c' : TextConsole α}

/-- A cursor above the last line stays. -/
theorem settle_of_ne (h : c.y ≠ rows) : c.settle cols rows blank = c :=
  if_neg h

/-- A cursor below the last line scrolls. -/
theorem settle_of_eq (h : c.y = rows) : c.settle cols rows blank = c.scroll cols rows blank :=
  if_pos h

/-- A new line keeps the cursor on the screen, with the scroll it may need. -/
theorem InBounds.newline (h : c.InBounds cols rows) :
    (c.newline cols rows blank).InBounds cols rows := by
  have hx := h.x
  have hy := h.y
  unfold TextConsole.newline settle scroll
  split_ifs
  · exact ⟨by simp; omega, by simp; omega⟩
  · exact ⟨by simp; omega, by simp at *; omega⟩

/-- So does a character, at the right edge too. -/
theorem InBounds.put (h : c.InBounds cols rows) (a : α) :
    (c.put cols rows blank a).InBounds cols rows := by
  have hx := h.x
  have hy := h.y
  have hmod : (c.x + 1) % cols < cols := Nat.mod_lt _ (by omega)
  have hdiv : (c.x + 1) / cols ≤ 1 := by
    rw [Nat.div_le_iff_le_mul_add_pred (by omega)]
    omega
  unfold TextConsole.put settle scroll
  split_ifs
  · exact ⟨hmod, by simp; omega⟩
  · exact ⟨hmod, by simp at *; omega⟩

namespace Same

theorem refl (c : TextConsole α) : Same cols rows c c :=
  ⟨fun _ _ => rfl, rfl, rfl⟩

theorem symm (h : Same cols rows c c') : Same cols rows c' c :=
  ⟨fun n hn => (h.cell n hn).symm, h.x.symm, h.y.symm⟩

theorem trans {c'' : TextConsole α} (h : Same cols rows c c') (h' : Same cols rows c' c'') :
    Same cols rows c c'' :=
  ⟨fun n hn => (h.cell n hn).trans (h'.cell n hn), h.x.trans h'.x, h.y.trans h'.y⟩

theorem inBounds (h : Same cols rows c c') (hb : c.InBounds cols rows) : c'.InBounds cols rows :=
  ⟨h.x ▸ hb.x, h.y ▸ hb.y⟩

/-- Scrolling two screens that show the same leaves them so. -/
theorem settle (h : Same cols rows c c') :
    Same cols rows (c.settle cols rows blank) (c'.settle cols rows blank) := by
  by_cases hy : c.y = rows
  · rw [settle_of_eq hy, settle_of_eq (h.y ▸ hy)]
    refine ⟨fun n _ => ?_, h.x, congrArg (· - 1) h.y⟩
    simp only [scroll]
    split_ifs with hn
    · have hrow : n + cols < cols * rows := by
        have hmul : cols * (rows - 1) + cols ≤ cols * rows := by
          cases rows with
          | zero => simp at hn
          | succ r => exact Nat.le_of_eq (Nat.mul_succ cols r).symm
        omega
      exact h.cell _ hrow
    · rfl
  · rw [settle_of_ne hy, settle_of_ne (h.y ▸ hy)]
    exact h

/-- A new line on both. -/
theorem newline (h : Same cols rows c c') :
    Same cols rows (c.newline cols rows blank) (c'.newline cols rows blank) :=
  Same.settle ⟨h.cell, rfl, congrArg (· + 1) h.y⟩

/-- The same character on both. -/
theorem put (h : Same cols rows c c') (a : α) :
    Same cols rows (c.put cols rows blank a) (c'.put cols rows blank a) := by
  refine Same.settle ⟨fun n hn => ?_, ?_, ?_⟩
  · simp only [h.x, h.y]
    rcases eq_or_ne n (cols * c'.y + c'.x) with rfl | hne
    · rw [Function.update_self, Function.update_self]
    · rw [Function.update_of_ne hne, Function.update_of_ne hne]
      exact h.cell n hn
  · simp only [h.x]
  · simp only [h.x, h.y]

end Same

/-! ## Lines -/

variable (cols) in
/-- The place of the cursor in reading order. -/
def pos (c : TextConsole α) : ℕ :=
  cols * c.y + c.x

variable (cols) in
/-- The `n` cells before the cursor are the first `n` of `line`. -/
structure EndsWith (line : ℕ → α) (n : ℕ) (c : TextConsole α) : Prop where
  le : n ≤ c.pos cols
  cell : ∀ i < n, c.cell (c.pos cols - n + i) = line i

variable (cols) in
/-- The cursor has gone back by one cell, and the cells before that one are as they were. -/
structure Back (c c' : TextConsole α) : Prop where
  x : c'.x = if c.x = 0 then cols - 1 else c.x - 1
  y : c'.y = if c.x = 0 then c.y - 1 else c.y
  cell : ∀ n, n + 1 < c.pos cols → c'.cell n = c.cell n

/-- Writing a cell takes the cursor out of the last row. -/
def Leaves (cols rows : ℕ) (c : TextConsole α) : Prop :=
  c.y + (c.x + 1) / cols = rows

instance (cols rows : ℕ) (c : TextConsole α) : Decidable (c.Leaves cols rows) :=
  inferInstanceAs (Decidable (_ = _))

/-- The position is that of a cell. -/
theorem InBounds.pos_lt (h : c.InBounds cols rows) : c.pos cols < cols * rows := by
  have hy : c.y + 1 ≤ rows := h.y
  calc c.pos cols = cols * c.y + c.x := rfl
    _ < cols * c.y + cols := Nat.add_lt_add_left h.x _
    _ = cols * (c.y + 1) := (Nat.mul_succ cols c.y).symm
    _ ≤ cols * rows := Nat.mul_le_mul_left _ hy

theorem Same.pos (h : Same cols rows c c') : c'.pos cols = c.pos cols := by
  rw [TextConsole.pos, TextConsole.pos, h.x, h.y]

/-- What ends one screen ends the other. -/
theorem Same.endsWith (h : Same cols rows c c') (hb : c.InBounds cols rows) {line : ℕ → α} {n : ℕ}
    (hc : c.EndsWith cols line n) : c'.EndsWith cols line n := by
  have hlt := hb.pos_lt
  have hle := hc.le
  refine ⟨h.pos ▸ hc.le, fun i hi => ?_⟩
  rw [h.pos, ← h.cell _ (by omega)]
  exact hc.cell i hi

variable (blank) in
/-- A cell without a scroll. -/
theorem put_of_not_leaves (h : ¬c.Leaves cols rows) (a : α) :
    (c.put cols rows blank a).pos cols = c.pos cols + 1 ∧
      (c.put cols rows blank a).cell = Function.update c.cell (c.pos cols) a := by
  have hsettle : c.put cols rows blank a =
      { cell := Function.update c.cell (cols * c.y + c.x) a
        x := (c.x + 1) % cols
        y := c.y + (c.x + 1) / cols } := if_neg h
  rw [hsettle]
  refine ⟨?_, rfl⟩
  show cols * (c.y + (c.x + 1) / cols) + (c.x + 1) % cols = cols * c.y + c.x + 1
  rw [Nat.mul_add, Nat.add_assoc, Nat.div_add_mod, Nat.add_assoc]

variable (blank) in
/-- A cell with a scroll. -/
theorem put_of_leaves (hb : c.InBounds cols rows) (h : c.Leaves cols rows) (a : α) :
    c.pos cols + 1 = cols * (rows - 1) + cols ∧
      (c.put cols rows blank a).pos cols = cols * (rows - 1) ∧
      ∀ n < cols * (rows - 1), (c.put cols rows blank a).cell n =
        Function.update c.cell (c.pos cols) a (n + cols) := by
  have hx := hb.x
  have hy := hb.y
  have hleaves : c.y + (c.x + 1) / cols = rows := h
  -- the cursor is in the last cell
  have hend : c.x + 1 = cols := by
    by_contra hne
    rw [Nat.div_eq_of_lt (by omega)] at hleaves
    omega
  have hsettle : c.put cols rows blank a = scroll cols rows blank
      { cell := Function.update c.cell (cols * c.y + c.x) a
        x := (c.x + 1) % cols
        y := c.y + (c.x + 1) / cols } := if_pos h
  rw [hend, Nat.div_self (by omega)] at hleaves
  have hlast : c.y = rows - 1 := by omega
  refine ⟨?_, ?_, fun n hn => ?_⟩
  · rw [pos, hlast, Nat.add_assoc, hend]
  · rw [hsettle]
    show cols * (c.y + (c.x + 1) / cols - 1) + (c.x + 1) % cols = cols * (rows - 1)
    rw [hend, Nat.div_self (by omega), Nat.mod_self, hlast]
    rfl
  · rw [hsettle]
    exact if_pos hn

variable (blank) in
/-- A character moves the position on by one, less the line a scroll takes away. -/
theorem pos_put (hb : c.InBounds cols rows) (a : α) :
    (c.put cols rows blank a).pos cols + (if c.Leaves cols rows then cols else 0) =
      c.pos cols + 1 := by
  split_ifs with h
  · obtain ⟨hend, hpos, -⟩ := put_of_leaves blank hb h a
    rw [hpos, hend]
  · exact (put_of_not_leaves blank h a).1

/-- Only the first `n` of the line count. -/
theorem EndsWith.congr {line line' : ℕ → α} {n : ℕ} (h : c.EndsWith cols line n)
    (hl : ∀ i < n, line i = line' i) : c.EndsWith cols line' n :=
  ⟨h.le, fun i hi => (h.cell i hi).trans (hl i hi)⟩

variable (blank) in
/-- Writing a cell adds it to the line, if the line leaves a row for a scroll. -/
theorem EndsWith.put {line : ℕ → α} {n : ℕ} (h : c.EndsWith cols line n)
    (hb : c.InBounds cols rows) (hn : n < cols * (rows - 1)) (a : α) :
    (c.put cols rows blank a).EndsWith cols (Function.update line n a) (n + 1) := by
  have hle := h.le
  have hline : ∀ i < n + 1, Function.update c.cell (c.pos cols) a (c.pos cols - n + i) =
      Function.update line n a i := by
    intro i hi
    rcases eq_or_ne i n with rfl | hne
    · rw [Nat.sub_add_cancel hle, Function.update_self, Function.update_self]
    · rw [Function.update_of_ne (by omega), Function.update_of_ne hne]
      exact h.cell i (by omega)
  by_cases hleaves : c.Leaves cols rows
  · obtain ⟨hend, hpos, hcell⟩ := put_of_leaves blank hb hleaves a
    refine ⟨by omega, fun i hi => ?_⟩
    rw [hpos, hcell _ (by omega), ← hline i hi]
    congr 1
    omega
  · obtain ⟨hpos, hcell⟩ := put_of_not_leaves blank hleaves a
    refine ⟨by omega, fun i hi => ?_⟩
    rw [hpos, hcell, Nat.add_sub_add_right]
    exact hline i hi

/-- A step back from a position on the screen. -/
theorem Back.pos (h : Back cols c c') (hb : c.InBounds cols rows) (hpos : 0 < c.pos cols) :
    c'.pos cols + 1 = c.pos cols := by
  have hx := hb.x
  rw [TextConsole.pos, TextConsole.pos, h.x, h.y]
  split_ifs with h0
  · -- the cursor was at the start of a row, and not of the first
    have hy : c.y = c.y - 1 + 1 := by
      have hne : c.y ≠ 0 := by
        intro hy
        rw [TextConsole.pos, h0, hy] at hpos
        omega
      omega
    calc cols * (c.y - 1) + (cols - 1) + 1 = cols * (c.y - 1) + cols := by omega
      _ = cols * (c.y - 1 + 1) := (Nat.mul_succ _ _).symm
      _ = cols * c.y + c.x := by rw [← hy, h0, Nat.add_zero]
  · omega

/-- Going back takes the last cell off the line. -/
theorem EndsWith.back {line : ℕ → α} {n : ℕ} (h : c.EndsWith cols line (n + 1))
    (hback : Back cols c c') (hb : c.InBounds cols rows) : c'.EndsWith cols line n := by
  have hle := h.le
  have hpos := hback.pos hb (by omega)
  refine ⟨by omega, fun i hi => ?_⟩
  rw [hback.cell _ (by omega), ← h.cell i (by omega)]
  congr 1
  omega

end TextConsole
