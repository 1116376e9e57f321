import Mathlib.Dynamics.PeriodicPts.Defs

/-!
# Square waves

A level that is up for `on` ticks and down for `off` ticks by turns, counted down in the
ticks that are left of it. From its rise on it is up at the ticks whose residue modulo the
period is below `on` (`up_iterate_tick`).
-/

/-- A level, and the ticks left of it. -/
structure SquareWave where
  up : Bool
  left : ℕ

namespace SquareWave

variable {on off k : ℕ} {w : SquareWave}

/-- The ticks of a level. -/
def length (on off : ℕ) (up : Bool) : ℕ :=
  if up then on else off

/-- The last tick of a level turns it. -/
def tick (on off : ℕ) (w : SquareWave) : SquareWave :=
  if 1 < w.left then { w with left := w.left - 1 } else ⟨!w.up, length on off !w.up⟩

theorem tick_of_lt (h : 1 < w.left) : tick on off w = { w with left := w.left - 1 } :=
  if_pos h

theorem tick_of_le (h : w.left ≤ 1) : tick on off w = ⟨!w.up, length on off !w.up⟩ :=
  if_neg (Nat.not_lt.2 h)

/-- The level stays while there are ticks left of it. -/
theorem iterate_tick_of_lt (h : k < w.left) :
    (tick on off)^[k] w = ⟨w.up, w.left - k⟩ := by
  induction k with
  | zero => rfl
  | succ k ih =>
    have hleft : 1 < w.left - k := by omega
    rw [Function.iterate_succ_apply', ih (Nat.lt_of_succ_lt h), tick_of_lt hleft, Nat.sub_sub]

/-- The level turns with the last tick left of it. -/
theorem iterate_tick_left (h : 0 < w.left) :
    (tick on off)^[w.left] w = ⟨!w.up, length on off !w.up⟩ := by
  obtain ⟨k, hk⟩ := Nat.exists_eq_add_one_of_ne_zero (Nat.pos_iff_ne_zero.1 h)
  have hleft : w.left - k ≤ 1 := by omega
  rw [hk, Function.iterate_succ_apply', iterate_tick_of_lt (by omega : k < w.left),
    tick_of_le hleft]

/-- A rising level is back after a period. -/
theorem isPeriodicPt_tick (hon : 0 < on) (hoff : 0 < off) :
    Function.IsPeriodicPt (tick on off) (off + on) ⟨true, on⟩ := by
  have hfall : (tick on off)^[on] ⟨true, on⟩ = ⟨false, off⟩ :=
    iterate_tick_left (w := ⟨true, on⟩) hon
  have hrise : (tick on off)^[off] ⟨false, off⟩ = ⟨true, on⟩ :=
    iterate_tick_left (w := ⟨false, off⟩) hoff
  rw [Function.IsPeriodicPt, Function.IsFixedPt, Function.iterate_add_apply, hfall, hrise]

/-- The level some ticks after its rise. -/
theorem up_iterate_tick (hon : 0 < on) (hoff : 0 < off) (k : ℕ) :
    ((tick on off)^[k] ⟨true, on⟩).up = true ↔ k % (on + off) < on := by
  have hlt := Nat.mod_lt k (Nat.add_pos_left hon off)
  rw [← (isPeriodicPt_tick hon hoff).iterate_mod_apply k, Nat.add_comm off on]
  rcases Nat.lt_or_ge (k % (on + off)) on with h | h
  · rw [iterate_tick_of_lt (w := ⟨true, on⟩) h]
    exact iff_of_true rfl h
  · obtain ⟨m, hm⟩ := Nat.exists_eq_add_of_le' h
    have hfall : (tick on off)^[on] ⟨true, on⟩ = ⟨false, off⟩ :=
      iterate_tick_left (w := ⟨true, on⟩) hon
    have hleft : m < off := by omega
    rw [hm, Function.iterate_add_apply, hfall, iterate_tick_of_lt (w := ⟨false, off⟩) hleft]
    exact iff_of_false Bool.false_ne_true (by omega)

end SquareWave
