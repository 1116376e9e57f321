import Mathlib.Data.Nat.Digits.Lemmas
import MpOS.BlockWalk
import MpOS.Lib.Loop
import MpOS.Lib.ZeroBuffer

/-!
# Number formatting (`lib.c`, `ece391support.c`)

`itoa` and `ece391_itoa` store a number's digits from the lowest on and reverse the
string in place. The user library's `ece391_strrev` returns at once where there is
nothing to swap, which the kernel's `strrev` finds out in its loop.

Both leave the numeral of the value (`numberFormat`) : digits of the radix, no leading
zero, read back as the value, in at most 33 bytes.
-/

open ZeroBuffer

namespace MpOS

/-! ## The source -/

/-- The table of digits. -/
def lookup : List Byte :=
  "0123456789ABCDEFGHIJKLMNOPQRSTUVWXYZ".toList.map Char.toUInt8

/-- What the loop over the place values works on. -/
structure PlaceLoop where
  newval : Word
  newbuf : ℕ
  buf : ℕ → Byte

/-- A pass of the loop over the place values. -/
def placePass (radix : Word) (l : PlaceLoop) : PlaceLoop ⊕ PlaceLoop :=
  if l.newval > 0 then
    let i := l.newval % radix
    .inl ⟨l.newval / radix, l.newbuf + 1, Function.update l.buf l.newbuf (lookup.getD i.toNat 0)⟩
  else .inr l

/-- What the reversal works on. -/
structure SwapLoop where
  beg : ℤ
  fin : ℤ
  s : ℕ → Byte

/-- A pass of the reversal. -/
def swapPass (l : SwapLoop) : SwapLoop ⊕ (ℕ → Byte) :=
  if l.beg < l.fin then
    let tmp := l.s l.fin.toNat
    let s := Function.update l.s l.fin.toNat (l.s l.beg.toNat)
    .inl ⟨l.beg + 1, l.fin - 1, Function.update s l.beg.toNat tmp⟩
  else .inr l.s

/-- `strrev`. -/
def strrev (passes : ℕ) (s : ℕ → Byte) : Option (ℕ → Byte) := do
  let len ← strlen passes s
  Loop.iterate swapPass passes ⟨0, len - 1, s⟩

/-- `ece391_strrev`. -/
def ece391Strrev (passes : ℕ) (s : ℕ → Byte) : Option (ℕ → Byte) := do
  let len ← strlen passes s
  if (len : ℤ) - 1 ≤ 0 then some s
  else Loop.iterate swapPass passes ⟨0, len - 1, s⟩

/-- The conversion of both libraries, with the library's reversal. -/
def itoaWith (reverse : (ℕ → Byte) → Option (ℕ → Byte)) (passes : ℕ) (value : Word)
    (buf : ℕ → Byte) (radix : ℤ) : Option (ℕ → Byte) :=
  if value = 0 then some (Function.update (Function.update buf 0 48) 1 0)
  else do
    let l ← Loop.iterate (placePass (toWord radix)) passes ⟨value, 0, buf⟩
    reverse (Function.update l.buf l.newbuf 0)

/-- `itoa`. -/
def itoa (passes : ℕ) (value : Word) (buf : ℕ → Byte) (radix : ℤ) : Option (ℕ → Byte) :=
  itoaWith (strrev passes) passes value buf radix

/-- `ece391_itoa`. -/
def ece391Itoa (passes : ℕ) (value : Word) (buf : ℕ → Byte) (radix : ℤ) : Option (ℕ → Byte) :=
  itoaWith (ece391Strrev passes) passes value buf radix

/-! ## Numerals -/

/-- The value of a digit. -/
def digitValue (c : Byte) : Option ℕ :=
  if 48 ≤ c ∧ c ≤ 57 then some (c.toNat - 48)
  else if 65 ≤ c ∧ c ≤ 90 then some (c.toNat - 55)
  else none

/-- The value of a string of digits of a radix. -/
def parse (radix : ℕ) (s : List Byte) : Option ℕ :=
  s.foldlM (fun n c => do
    let d ← digitValue c
    if d < radix then some (radix * n + d) else none) 0

/-- A string is the numeral of a value, and fits into 33 bytes with its terminator. -/
structure Numeral (radix value : ℕ) (s : List Byte) : Prop where
  ne_nil : s ≠ []
  digits : ∀ c ∈ s, ∃ d < radix, digitValue c = some d
  leading : s.head? = some 48 → value = 0 ∧ s = [48]
  parse_eq : parse radix s = some value
  length_lt : s.length < 33

/-- The string of a list of digits. -/
def digitString (ds : List ℕ) : List Byte :=
  ds.map fun d => lookup.getD d 0

/-- One character a digit. -/
theorem length_digitString (ds : List ℕ) : (digitString ds).length = ds.length :=
  List.length_map _

/-- Characters are reversed as their digits are. -/
theorem digitString_reverse (ds : List ℕ) : digitString ds.reverse = (digitString ds).reverse :=
  List.map_reverse

/-- The table's character for a digit reads back as the digit. -/
theorem digitValue_lookup {d : ℕ} (hd : d < 36) : digitValue (lookup.getD d 0) = some d := by
  revert d
  decide

/-- A terminator is no digit. -/
theorem digitValue_zero : digitValue 0 = none := by
  decide

/-- Each character of a numeral stands for one of its digits. -/
theorem mem_digitString {ds : List ℕ} (hds : ∀ d ∈ ds, d < 36) {c : Byte}
    (hc : c ∈ digitString ds) : ∃ d ∈ ds, digitValue c = some d := by
  obtain ⟨d, hd, rfl⟩ := List.mem_map.1 hc
  exact ⟨d, hd, digitValue_lookup (hds d hd)⟩

/-- The string of the digits reads back as their value. -/
theorem parse_digitString {radix : ℕ} {ds : List ℕ} (hds : ∀ d ∈ ds, d < radix)
    (hradix : radix ≤ 36) :
    parse radix (digitString ds.reverse) = some (Nat.ofDigits radix ds) := by
  have hstep : ∀ d ∈ ds.reverse, ∀ n, (do
      let d ← digitValue (lookup.getD d 0)
      if d < radix then some (radix * n + d) else none) = some (radix * n + d) := by
    intro d hd n
    have hd' := hds d (List.mem_reverse.1 hd)
    rw [digitValue_lookup (hd'.trans_le hradix)]
    exact if_pos hd'
  rw [parse, digitString, List.foldlM_map, Loop.foldlM_eq_some hstep, List.foldl_reverse,
    Nat.ofDigits_eq_foldr]
  simp [Nat.add_comm]

/-- The numeral of a value. -/
def numeral (radix value : ℕ) : List Byte :=
  if value = 0 then [48] else digitString (Nat.digits radix value).reverse

/-- The numeral of a value that is not zero is its digits, the highest first. -/
theorem numeral_of_ne_zero (radix : ℕ) {value : ℕ} (h0 : value ≠ 0) :
    numeral radix value = digitString (Nat.digits radix value).reverse :=
  if_neg h0

/-- A value below `radix ^ n` takes at most `n` digits. -/
theorem length_numeral_le {radix value n : ℕ} (h2 : 2 ≤ radix) (hn : 0 < n)
    (h : value < radix ^ n) : (numeral radix value).length ≤ n := by
  rw [numeral]
  split
  · exact hn
  · rw [length_digitString, List.length_reverse]
    exact (Nat.digits_length_le_iff h2 value).2 h

/-- A word takes at most 32 digits in any radix. -/
theorem length_numeral_lt (value : Word) {radix : ℕ} (h2 : 2 ≤ radix) :
    (numeral radix value.toNat).length < 33 := by
  have hpow : (2 : ℕ) ^ 32 ≤ radix ^ 32 := Nat.pow_le_pow_left h2 32
  exact Nat.lt_succ_of_le (length_numeral_le h2 (by decide) (value.toNat_lt.trans_le hpow))

theorem numeral_zero {radix : ℕ} (h2 : 2 ≤ radix) (h36 : radix ≤ 36) : Numeral radix 0 [48] := by
  have hzero : digitValue 48 = some 0 := by decide
  have hpos : 0 < radix := by omega
  refine ⟨by decide, fun c hc => ⟨0, hpos, ?_⟩, fun _ => ⟨rfl, rfl⟩, ?_, by decide⟩
  · rw [List.mem_singleton.1 hc, hzero]
  · have hdigit : ∀ d ∈ [0], d < radix := fun d hd => by rwa [List.mem_singleton.1 hd]
    have hparse := parse_digitString hdigit h36
    rwa [Nat.ofDigits_singleton] at hparse

/-- The string of digits is the numeral of its value. -/
theorem numeral_spec (value : Word) {radix : ℕ} (h2 : 2 ≤ radix) (h36 : radix ≤ 36) :
    Numeral radix value.toNat (numeral radix value.toNat) := by
  have hlength := length_numeral_lt value h2
  generalize value.toNat = value at hlength ⊢
  by_cases h0 : value = 0
  · subst h0
    exact numeral_zero h2 h36
  rw [numeral_of_ne_zero radix h0] at hlength ⊢
  have hlt : ∀ d ∈ Nat.digits radix value, d < radix := fun d hd => Nat.digits_lt_base h2 hd
  have hne : Nat.digits radix value ≠ [] := Nat.digits_ne_nil_iff_ne_zero.2 h0
  refine ⟨by simpa [digitString] using hne, ?_, ?_, ?_, hlength⟩
  · intro c hc
    have hmem : ∀ d ∈ (Nat.digits radix value).reverse, d < radix :=
      fun d hd => hlt d (List.mem_reverse.1 hd)
    obtain ⟨d, hd, hc⟩ := mem_digitString (fun d hd => (hmem d hd).trans_le h36) hc
    exact ⟨d, hmem d hd, hc⟩
  · intro hhead
    have hlast := Nat.getLast_digit_ne_zero radix h0
    have hval := digitValue_lookup ((hlt _ (List.getLast_mem hne)).trans_le h36)
    rw [digitString, List.head?_map, List.head?_reverse, List.getLast?_eq_some_getLast hne,
      Option.map_some, Option.some.injEq] at hhead
    rw [hhead] at hval
    exact absurd (Option.some.inj hval).symm hlast
  · rw [parse_digitString hlt h36, Nat.ofDigits_digits]

/-- The terminator does not occur in a numeral. -/
theorem zero_notMem_numeral (value : Word) {radix : ℕ} (h2 : 2 ≤ radix) (h36 : radix ≤ 36) :
    0 ∉ numeral radix value.toNat := by
  intro h0
  obtain ⟨d, -, hd⟩ := (numeral_spec value h2 h36).digits 0 h0
  rw [digitValue_zero] at hd
  cases hd

/-! ## The loop over the place values -/

/-- The lower digits of the value are stored, those of `newval` are not. -/
def Placed (radix value : ℕ) (buf : ℕ → Byte) (l : PlaceLoop) : Prop :=
  ∃ ds, ds ++ Nat.digits radix l.newval.toNat = Nat.digits radix value ∧
    l.newbuf = ds.length ∧ l.buf = fill buf (digitString ds)

section Place

variable {radix : Word} {value : ℕ} {buf : ℕ → Byte} {l l' : PlaceLoop}

/-- One digit is stored and the value divided by the radix. -/
theorem Placed.pass (h : Placed radix.toNat value buf l) (h2 : 2 ≤ radix.toNat)
    (hpass : placePass radix l = .inl l') : Placed radix.toNat value buf l' ∧
      (Nat.digits radix.toNat l'.newval.toNat).length <
        (Nat.digits radix.toNat l.newval.toNat).length := by
  obtain ⟨ds, hds, hnewbuf, hbuf⟩ := h
  rw [placePass] at hpass
  split at hpass <;> cases hpass
  rename_i hpos
  have hdigits := Nat.digits_def' h2 (UInt32.lt_iff_toNat_lt.1 hpos)
  have hlen : l.newbuf = (digitString ds).length := by rw [hnewbuf, length_digitString]
  rw [← UInt32.toNat_mod, ← UInt32.toNat_div] at hdigits
  refine ⟨⟨ds ++ [(l.newval % radix).toNat], ?_, ?_, ?_⟩, ?_⟩
  · rw [← hds, hdigits, List.append_assoc, List.singleton_append]
  · rw [hnewbuf, List.length_append, List.length_singleton]
  · rw [hlen, hbuf, update_fill, digitString, digitString, List.map_append, List.map_singleton]
  · rw [hdigits, List.length_cons]
    exact Nat.lt_succ_self _

/-- The loop ends with all digits stored, the lowest first. -/
theorem Placed.exit (h : Placed radix.toNat value buf l) (hpass : placePass radix l = .inr l') :
    l'.newbuf = (Nat.digits radix.toNat value).length ∧
      l'.buf = fill buf (digitString (Nat.digits radix.toNat value)) := by
  obtain ⟨ds, hds, hnewbuf, hbuf⟩ := h
  rw [placePass] at hpass
  split at hpass <;> cases hpass
  rename_i hpos
  have hzero : l.newval = 0 := UInt32.le_zero_iff.1 (UInt32.not_lt.1 hpos)
  rw [hzero, UInt32.toNat_zero, Nat.digits_zero, List.append_nil] at hds
  exact ⟨hds ▸ hnewbuf, hds ▸ hbuf⟩

/-- The loop leaves the digits from the lowest on. -/
theorem placeLoop_spec (h2 : 2 ≤ radix.toNat) (value : Word) (buf : ℕ → Byte) {passes : ℕ}
    (hpasses : (Nat.digits radix.toNat value.toNat).length < passes) :
    ∃ l, Loop.iterate (placePass radix) passes ⟨value, 0, buf⟩ = some l ∧
      l.newbuf = (Nat.digits radix.toNat value.toNat).length ∧
      l.buf = fill buf (digitString (Nat.digits radix.toNat value.toNat)) :=
  Loop.iterate_induction (Placed radix.toNat value.toNat buf) _
    (fun l => (Nat.digits radix.toNat l.newval.toNat).length)
    (fun _ _ h hpass => h.pass h2 hpass) (fun _ _ h hpass => h.exit hpass)
    ⟨[], rfl, rfl, rfl⟩ hpasses

end Place

/-! ## The reversal -/

/-- The cells outside `beg` to `fin` are swapped. -/
structure Swapped (s : ℕ → Byte) (len : ℕ) (l : SwapLoop) : Prop where
  beg_nonneg : 0 ≤ l.beg
  beg_add_fin : l.beg + l.fin = len - 1
  beg_le : l.beg ≤ l.fin + 1
  s_eq : ∀ i : ℕ, l.s i = if i < len ∧ (i < l.beg ∨ l.fin < i) then s (len - 1 - i) else s i

/-- One pair is exchanged and the two ends come closer. -/
theorem Swapped.pass {s : ℕ → Byte} {len : ℕ} {l l' : SwapLoop} (h : Swapped s len l)
    (hpass : swapPass l = .inl l') : Swapped s len l' ∧
      (l'.fin - l'.beg).toNat < (l.fin - l.beg).toNat := by
  obtain ⟨h0, hsum, hle, hs⟩ := h
  rw [swapPass] at hpass
  split at hpass <;> cases hpass
  rename_i hlt
  refine ⟨⟨by simp only; omega, by simp only; omega, by simp only; omega, fun i => ?_⟩,
    by simp only; omega⟩
  have hbeg := hs l.beg.toNat
  have hfin := hs l.fin.toNat
  rw [if_neg (by omega)] at hbeg hfin
  simp only
  rcases Decidable.em (i = l.beg.toNat) with rfl | hib
  · rw [Function.update_self, hfin, if_pos (by omega)]
    congr 1
    omega
  rw [Function.update_of_ne hib]
  rcases Decidable.em (i = l.fin.toNat) with rfl | hif
  · rw [Function.update_self, hbeg, if_pos (by omega)]
    congr 1
    omega
  · rw [Function.update_of_ne hif, hs i]
    congr 1
    rw [eq_iff_iff]
    omega

/-- The loop ends with the string reversed. -/
theorem Swapped.exit {s r : ℕ → Byte} {len : ℕ} {l : SwapLoop} (h : Swapped s len l)
    (hpass : swapPass l = .inr r) : ∀ i, r i = if i < len then s (len - 1 - i) else s i := by
  obtain ⟨h0, hsum, hle, hs⟩ := h
  rw [swapPass] at hpass
  split at hpass <;> cases hpass
  rename_i hlt
  intro i
  rw [hs i]
  split
  · rw [if_pos (by omega)]
  · split
    · congr 1
      omega
    · rfl

/-- The loop swaps all cells of the string. -/
theorem swapLoop_spec (s : ℕ → Byte) {len passes : ℕ} (hpasses : len ≤ passes) (h0 : 0 < passes) :
    ∃ r, Loop.iterate swapPass passes ⟨0, len - 1, s⟩ = some r ∧
      ∀ i, r i = if i < len then s (len - 1 - i) else s i := by
  refine Loop.iterate_induction (Swapped s len) _ (fun l => (l.fin - l.beg).toNat)
    (fun _ _ h hpass => h.pass hpass) (fun _ _ h hpass => h.exit hpass) ?_ ?_
  · refine ⟨Int.le_refl _, Int.zero_add _, by simp only; omega, fun i => ?_⟩
    rw [if_neg (by simp only; omega)]
  · simp only
    omega

/-- The string in a buffer is reversed. -/
theorem strrev_fill {w : List Byte} (h0 : 0 ∉ w) (buf : ℕ → Byte) {passes : ℕ}
    (hpasses : w.length < passes) :
    strrev passes (fill buf (w ++ [0])) = some (fill buf (w.reverse ++ [0])) := by
  obtain ⟨r, hr, hri⟩ := swapLoop_spec (fill buf (w ++ [0])) hpasses.le (by omega)
  rw [strrev, (holds_fill_zero buf w).strlen_eq h0 hpasses]
  refine hr.trans (congrArg some (funext fun i => ?_))
  rw [hri]
  split
  · rename_i hi
    rw [fill, fill, List.getD_append _ _ _ _ (by omega),
      List.getD_append _ _ _ _ (by rwa [List.length_reverse]),
      List.getD_eq_getElem _ _ (by omega), List.getD_eq_getElem _ _ (by rwa [List.length_reverse]),
      List.getElem_reverse]
  · rename_i hi
    rw [fill, fill, List.getD_append_right _ _ _ _ (by omega),
      List.getD_append_right _ _ _ _ (by rw [List.length_reverse]; omega), List.length_reverse]

/-- Where `ece391_strrev` returns at once, `strrev` swaps nothing. -/
theorem ece391Strrev_eq (passes : ℕ) (h0 : 0 < passes) (s : ℕ → Byte) :
    ece391Strrev passes s = strrev passes s := by
  rw [ece391Strrev, strrev]
  congr 1
  funext len
  split
  · rename_i hle
    obtain ⟨n, rfl⟩ := Nat.exists_eq_add_one_of_ne_zero h0.ne'
    rw [Loop.iterate_of_inr]
    rw [swapPass, if_neg (by simp only; omega)]
  · rfl

/-! ## Both conversions -/

/-- The user library's copy is the kernel's, once a pass is allowed. -/
theorem ece391Itoa_eq {passes : ℕ} (h0 : 0 < passes) (value : Word) (buf : ℕ → Byte) (radix : ℤ) :
    ece391Itoa passes value buf radix = itoa passes value buf radix := by
  rw [ece391Itoa, itoa, funext (ece391Strrev_eq passes h0)]

/-- `itoa` writes the numeral and its terminator, 33 passes are enough. -/
theorem itoa_spec (value : Word) {radix : ℤ} (h2 : 2 ≤ radix) (h36 : radix ≤ 36)
    (buf : ℕ → Byte) :
    itoa 33 value buf radix = some (fill buf (numeral radix.toNat value.toNat ++ [0])) := by
  obtain ⟨r, rfl⟩ := Int.eq_ofNat_of_zero_le (by omega : 0 ≤ radix)
  have hr : (toWord r).toNat = r := by rw [toWord_natCast (by omega), toNat_word (by omega)]
  rw [Int.toNat_natCast]
  by_cases hvalue : value = 0
  · subst hvalue
    have hfirst : Function.update buf 0 48 = fill buf [48] := update_fill buf [] 48
    rw [itoa, itoaWith, if_pos rfl, hfirst]
    exact congrArg some (update_fill buf [48] 0)
  · have hne : value.toNat ≠ 0 := fun h => hvalue (UInt32.toNat_inj.1 h)
    have hlen := length_numeral_lt value (by omega : 2 ≤ r)
    have hnul := zero_notMem_numeral value (by omega : 2 ≤ r) (by omega)
    rw [numeral_of_ne_zero r hne, digitString_reverse] at hlen hnul ⊢
    rw [List.length_reverse] at hlen
    rw [List.mem_reverse] at hnul
    have hradix : 2 ≤ (toWord r).toNat := by omega
    obtain ⟨l, hl, hnewbuf, hbuf⟩ := placeLoop_spec hradix value buf
      (by rwa [hr, ← length_digitString])
    have hend : Function.update l.buf l.newbuf 0 =
        fill buf (digitString (Nat.digits r value.toNat) ++ [0]) := by
      rw [hnewbuf, hbuf, hr, ← update_fill, length_digitString]
    rw [itoa, itoaWith, if_neg hvalue, hl]
    change strrev 33 (Function.update l.buf l.newbuf 0) = _
    rw [hend, strrev_fill hnul buf hlen]

/-- Both libraries leave the numeral of the value, and the rest of the buffer. -/
theorem numberFormat (value : Word) {radix : ℤ} (h2 : 2 ≤ radix) (h36 : radix ≤ 36)
    (buf : ℕ → Byte) : ∃ s, itoa 33 value buf radix = some (fill buf (s ++ [0])) ∧
      ece391Itoa 33 value buf radix = some (fill buf (s ++ [0])) ∧
      Numeral radix.toNat value.toNat s := by
  have hs := itoa_spec value h2 h36 buf
  exact ⟨_, hs, by rw [ece391Itoa_eq (by decide), hs], numeral_spec value (by omega) (by omega)⟩

/-- 48879 in base 16. -/
theorem numberFormat_beef : ∃ s,
    itoa 33 0xBEEF (fun _ => 0) 16 = some (fill (fun _ => 0) (s ++ [0])) ∧
    ece391Itoa 33 0xBEEF (fun _ => 0) 16 = some (fill (fun _ => 0) (s ++ [0])) ∧
    Numeral 16 0xBEEF s :=
  numberFormat 0xBEEF (by decide) (by decide) fun _ => 0

end MpOS
