import MpOS.Descriptors

/-!
# RTC rates (`_rtc.c`)

`rtc_write` halves the frequency down to its odd part before it compares it with
`MAX_FREQ`. So the comparison sees the 1 that every power of two ends in, and the powers
above 1024 pass it like the others (`selectsRate_iff`).
-/

namespace MpOS

namespace Kernel

/-! ## The halving loop -/

/-- It stops at once at what is odd or not above 1. -/
theorem halve_of_stop {f : ℤ} (h : ¬(f % 2 = 0 ∧ f > 1)) (n : ℕ) (p : ℤ) (b : Bool) :
    halve n f p b = (f, p, b) := by
  cases n with
  | zero => rfl
  | succ n => rw [halve, if_neg h]

/-- It divides by two as often as the frequency has this factor, and has seen a 1 if that is what
is left. -/
theorem halve_eq {m : ℕ} (hm : m % 2 = 1) {j n : ℕ} (hn : j ≤ n) (p : ℤ) (b : Bool) :
    halve n ((2 ^ j * m : ℕ) : ℤ) p b = ((m : ℤ), p + j, b || decide (0 < j ∧ m = 1)) := by
  induction j generalizing n p b with
  | zero =>
    rw [halve_of_stop (by omega)]
    simp
  | succ j ih =>
    obtain ⟨n, rfl⟩ := Nat.exists_eq_add_one_of_ne_zero (by omega : n ≠ 0)
    have hhalf : ((2 ^ (j + 1) * m : ℕ) : ℤ) = 2 * ((2 ^ j * m : ℕ) : ℤ) := by
      push_cast
      ring
    have hpos : 0 < 2 ^ j * m := Nat.mul_pos (Nat.two_pow_pos j) (by omega)
    have hone : (((2 ^ j * m : ℕ) : ℤ) == 1) = decide (j = 0 ∧ m = 1) := by
      rw [Bool.eq_iff_iff, beq_iff_eq, decide_eq_true_eq, Nat.cast_eq_one]
      simp
    rw [halve, if_pos (by omega), hhalf, Int.mul_ediv_cancel_left _ (by decide), ih (by omega),
      hone, Prod.mk.injEq, Prod.mk.injEq]
    refine ⟨rfl, by push_cast; ring, ?_⟩
    have hor : (j = 0 ∧ m = 1 ∨ 0 < j ∧ m = 1) ↔ (0 < j + 1 ∧ m = 1) := by omega
    rw [Bool.or_assoc, ← Bool.decide_or, decide_eq_decide.2 hor]

/-- A positive `int32_t` is an odd number times a power of two below `2 ^ 31`. -/
theorem exists_odd_factor {f : ℤ} (h0 : 0 < f) (hf : f < 2 ^ 31) :
    ∃ j m : ℕ, j ≤ 30 ∧ m % 2 = 1 ∧ f = ((2 ^ j * m : ℕ) : ℤ) := by
  lift f to ℕ using h0.le
  obtain ⟨j, m, hm, rfl⟩ := Nat.exists_eq_two_pow_mul_odd (n := f) (by omega)
  refine ⟨j, m, ?_, Nat.odd_iff.1 hm, rfl⟩
  have hle : 2 ^ j ≤ 2 ^ j * m := Nat.le_mul_of_pos_right _ hm.pos
  have hlt : 2 ^ j < 2 ^ 31 := by omega
  have := (Nat.pow_lt_pow_iff_right (by decide)).1 hlt
  omega

theorem toInt_lt (w : Word) : toInt w < 2 ^ 31 :=
  w.toInt32.toInt_lt

/-! ## The two ways `rtc_write` ends -/

section Selection

variable (buf : ℕ → Byte) (k : Kernel)

theorem rtcWrite_of_pow {j : ℕ} (hj : 1 ≤ j) (h : toInt (wordAt buf 0) = 2 ^ j) :
    k.rtcWrite buf 4 = (0, k.setRate (maximumRate - j + 1)) := by
  have hlt : (2 : ℤ) ^ j < 2 ^ 31 := h ▸ toInt_lt _
  have hj31 : j < 31 := (pow_lt_pow_iff_right₀ (by decide)).1 hlt
  have hhalve := halve_eq (m := 1) rfl (by omega : j ≤ 31) 0 false
  rw [mul_one, Nat.cast_pow, Nat.cast_ofNat, ← h] at hhalve
  simp [rtcWrite, hhalve, maxFreq, Nat.pos_iff_ne_zero.1 hj]

theorem rtcWrite_of_not_pow (h : ¬∃ j, 1 ≤ j ∧ toInt (wordAt buf 0) = 2 ^ j) :
    k.rtcWrite buf 4 = (-1, k.setRate 0) := by
  have hhalve : (halve 31 (toInt (wordAt buf 0)) 0 false).2.2 = false := by
    by_cases h0 : 0 < toInt (wordAt buf 0)
    · obtain ⟨j, m, hj, hm, hf⟩ := exists_odd_factor h0 (toInt_lt _)
      rw [hf, halve_eq hm (by omega), Bool.false_or, decide_eq_false_iff_not]
      rintro ⟨hj1, rfl⟩
      exact h ⟨j, hj1, by simpa using hf⟩
    · rw [halve_of_stop (by omega)]
  simp [rtcWrite, hhalve]

/-! ## The rates it selects -/

/-- `rtc_write` on a frequency, as its comment has it : the powers of two up to `MAX_FREQ` are
accepted, and then the next interrupt programs the rate of that frequency. -/
structure SelectsRate (frequency : ℤ) (r : ℤ × Kernel) : Prop where
  accepts : r.1 = 0 ↔ ∃ j, 1 ≤ j ∧ j ≤ 10 ∧ frequency = 2 ^ j
  programs : r.1 = 0 → 32768 >>> (r.2.interruptRtc.rtc.rate.toNat - 1) = frequency
  rejects : r.1 ≠ 0 → r.1 = -1 ∧ r.2.rtc.rate = 0

theorem programmed_rate {j : ℕ} (h1 : 1 ≤ j) (hj : j ≤ 10) :
    (32768 : ℤ) >>> ((k.setRate (maximumRate - j + 1)).interruptRtc.rtc.rate.toNat - 1) =
      2 ^ j := by
  change (32768 : ℤ) >>> ((UInt8.ofNat ((15 - (j : ℤ) + 1) % 256).toNat &&& 0x0F).toNat - 1) = _
  interval_cases j <;> decide

theorem selectsRate_iff :
    SelectsRate (toInt (wordAt buf 0)) (k.rtcWrite buf 4) ↔
      ¬∃ j, 10 < j ∧ toInt (wordAt buf 0) = 2 ^ j := by
  constructor
  · rintro h ⟨j, hj, hf⟩
    have hret : (k.rtcWrite buf 4).1 = 0 := by rw [rtcWrite_of_pow buf k (by omega) hf]
    obtain ⟨i, -, hi, hfi⟩ := h.accepts.1 hret
    have : i = j := Int.pow_right_injective (by decide) (hfi.symm.trans hf)
    omega
  · intro h
    by_cases hp : ∃ j, 1 ≤ j ∧ toInt (wordAt buf 0) = 2 ^ j
    · obtain ⟨j, hj, hf⟩ := hp
      have hj10 : j ≤ 10 := Nat.not_lt.1 fun hlt => h ⟨j, hlt, hf⟩
      rw [rtcWrite_of_pow buf k hj hf]
      refine ⟨iff_of_true rfl ⟨j, hj, hj10, hf⟩, fun _ => ?_, fun hne => absurd rfl hne⟩
      rw [hf]
      exact programmed_rate k hj hj10
    · have hne : (-1 : ℤ) ≠ 0 := by decide
      rw [rtcWrite_of_not_pow buf k hp]
      refine ⟨iff_of_false hne ?_, fun h0 => absurd h0 hne, fun _ => ⟨rfl, rfl⟩⟩
      rintro ⟨j, hj, -, hf⟩
      exact hp ⟨j, hj, hf⟩

end Selection

/-- The argument 2048. -/
def buf2048 (i : ℕ) : Byte :=
  if i = 1 then 8 else 0

theorem not_selectsRate_2048 :
    ¬∃ k : Kernel, SelectsRate (toInt (wordAt buf2048 0)) (k.rtcWrite buf2048 4) := by
  rintro ⟨k, h⟩
  obtain ⟨j, -, hj, hf⟩ := h.accepts.1 rfl
  have h2048 : toInt (wordAt buf2048 0) = 2048 := by decide
  rw [h2048] at hf
  interval_cases j <;> exact absurd hf (by decide)

end Kernel

end MpOS
