import MpOS.BlockWalk
import MpOS.Lib.Loop

/-!
# `memset` and `memcpy` (`lib.c`)

Both routines run the same assembly around their moves : single bytes until the
destination is aligned, `rep` double words, and the bytes that are left. A pass of the
code goes from a label to the next jump. The direction flag is clear and the segments are
flat, so the code's `cld` and its copy of `%ds` have no effect here.

If a move of `k` bytes does the next `k` bytes of a job, the code does the whole job
(`routine_total`). With it, `memcpy` and `memset` equal their byte-by-byte definitions
(`memoryRoutines`), also where the destination runs over the end of the address space.
-/

namespace MpOS

/-! ## Bytes of a word -/

/-- A byte of a little-endian word. -/
def byteAt (w : Word) (i : ℕ) : Byte :=
  (w >>> UInt32.ofNat (8 * i)).toUInt8

/-- The bytes of a word loaded from memory. -/
theorem byteAt_wordAt (m : ℕ → Byte) (i : ℕ) {j : ℕ} (hj : j < 4) :
    byteAt (wordAt m i) j = m (i + j) := by
  rw [byteAt, wordAt, ← UInt8.toBitVec_inj]
  ext b hb
  interval_cases j <;> simp [hb] <;> grind

/-! ## The assembly -/

/-- What a move works on. -/
structure Operands where
  eax : Word
  esi : Word
  edi : Word
  mem : Word → Byte

namespace Operands

/-- The double word at an address. -/
def loadl (o : Operands) (a : Word) : Word :=
  wordAt (fun i => o.mem (a + UInt32.ofNat i)) 0

/-- Store a byte. -/
def storeb (o : Operands) (a : Word) (b : Byte) : Operands :=
  { o with mem := Function.update o.mem a b }

/-- Store a double word. -/
def storel (o : Operands) (a w : Word) : Operands :=
  { o with
    mem := fun a' => if (a' - a).toNat < 4 then byteAt w (a' - a).toNat else o.mem a' }

/-- `movb %al, (%edi)` and `addl $1, %edi`. -/
def setByte (o : Operands) : Operands :=
  { o.storeb o.edi o.eax.toUInt8 with edi := o.edi + 1 }

/-- `stosl`. -/
def stosl (o : Operands) : Operands :=
  { o.storel o.edi o.eax with edi := o.edi + 4 }

/-- `movb (%esi), %al`. -/
def loadAl (o : Operands) : Operands :=
  { o with eax := o.eax &&& 0xFFFFFF00 ||| (o.mem o.esi).toUInt32 }

/-- `movb (%esi), %al`, `movb %al, (%edi)` and `addl $1` to both pointers. -/
def copyByte (o : Operands) : Operands :=
  { o.loadAl.setByte with esi := o.esi + 1 }

/-- `movsl`. -/
def movsl (o : Operands) : Operands :=
  { o.storel o.edi (o.loadl o.esi) with esi := o.esi + 4, edi := o.edi + 4 }

end Operands

/-- The labels of the code, and its `rep`. -/
inductive Label
  | top
  | aligned
  | rep
  | bottom

/-- The code's state at a label. -/
structure Cpu where
  label : Label
  ecx : Word
  edx : Word
  operands : Operands

namespace Cpu

/-- A pass of the code, with the move it makes for a byte and the one it repeats. -/
def pass (byteMove dwordMove : Operands → Operands) (c : Cpu) : Cpu ⊕ Operands :=
  match c.label with
  | .top =>
    if c.ecx = 0 then .inr c.operands
    else if c.operands.edi &&& 3 = 0 then .inl { c with label := .aligned }
    else .inl { c with ecx := c.ecx - 1, operands := byteMove c.operands }
  | .aligned => .inl { c with label := .rep, ecx := c.ecx >>> 2, edx := c.ecx &&& 3 }
  | .rep =>
    if c.ecx = 0 then .inl { c with label := .bottom }
    else .inl { c with ecx := c.ecx - 1, operands := dwordMove c.operands }
  | .bottom =>
    if c.edx = 0 then .inr c.operands
    else .inl { c with edx := c.edx - 1, operands := byteMove c.operands }

end Cpu

/-- The value `memset` has in `%eax`. -/
def memsetEax (c : Word) : Word :=
  let c := c &&& 0xFF
  c <<< 24 ||| c <<< 16 ||| c <<< 8 ||| c

/-- `memset`, with the registers and the memory it finds. -/
def memset (passes : ℕ) (o : Operands) (edx s c n : Word) : Option Operands :=
  Loop.iterate (Cpu.pass Operands.setByte Operands.stosl) passes
    ⟨.top, n, edx, { o with eax := memsetEax c, edi := s }⟩

/-- `memcpy`, with the registers and the memory it finds. -/
def memcpy (passes : ℕ) (o : Operands) (edx dest src n : Word) : Option Operands :=
  Loop.iterate (Cpu.pass Operands.copyByte Operands.movsl) passes
    ⟨.top, n, edx, { o with esi := src, edi := dest }⟩

/-! ## The code does the whole job -/

namespace Cpu

/-- The bytes that are still to be moved. -/
def left (c : Cpu) : ℕ :=
  match c.label with
  | .top | .aligned => c.ecx.toNat
  | .rep => 4 * c.ecx.toNat + c.edx.toNat
  | .bottom => c.edx.toNat

/-- The labels that are still ahead. -/
def labelsLeft (c : Cpu) : ℕ :=
  match c.label with
  | .top => 3
  | .aligned => 2
  | .rep => 1
  | .bottom => 0

theorem toNat_sub_one {w : Word} (h : w ≠ 0) : (w - 1).toNat = w.toNat - 1 ∧ 0 < w.toNat := by
  have h0 : w.toNat ≠ 0 := fun h0 => h (UInt32.toNat_inj.1 h0)
  have hlt := w.toNat_lt
  rw [UInt32.toNat_sub, UInt32.toNat_one]
  omega

/-- The count in double words and the bytes after them. -/
theorem four_mul_shift_add (w : Word) : 4 * (w >>> 2).toNat + (w &&& 3).toNat = w.toNat := by
  have hshift : (w >>> 2).toNat = w.toNat / 4 := by
    rw [UInt32.toNat_shiftRight, Nat.shiftRight_eq_div_pow]
    rfl
  have hand : (w &&& 3).toNat = w.toNat % 4 := by
    rw [UInt32.toNat_and]
    exact Nat.and_two_pow_sub_one_eq_mod _ 2
  rw [hshift, hand]
  omega

section Total

variable {byteMove dwordMove : Operands → Operands} {Done : ℕ → Operands → Prop} {n : ℕ}

/-- A move that does the next `k` bytes of the job leaves `k` fewer. -/
theorem done_of_move {move : Operands → Operands} {k left left' : ℕ} {o : Operands}
    (hmove : ∀ i o, i + k ≤ n → Done i o → Done (i + k) (move o)) (hle : left ≤ n)
    (hleft : left' + k = left) (h : Done (n - left) o) : Done (n - left') (move o) := by
  have hnext : n - left + k = n - left' := by omega
  rw [← hnext]
  exact hmove _ _ (by omega) h

/-- A pass does as many bytes of the job as it takes off the count. -/
theorem pass_inl (hbyte : ∀ i o, i + 1 ≤ n → Done i o → Done (i + 1) (byteMove o))
    (hdword : ∀ i o, i + 4 ≤ n → Done i o → Done (i + 4) (dwordMove o)) {c c' : Cpu}
    (hc : c.left ≤ n ∧ Done (n - c.left) c.operands)
    (h : c.pass byteMove dwordMove = .inl c') :
    (c'.left ≤ n ∧ Done (n - c'.left) c'.operands) ∧
      4 * c'.left + c'.labelsLeft < 4 * c.left + c.labelsLeft := by
  obtain ⟨label, ecx, edx, o⟩ := c
  obtain ⟨hle, hdone⟩ := hc
  cases label with
  | top =>
    simp only [pass] at h
    split at h
    · cases h
    · rename_i hecx
      obtain ⟨hsub, hpos⟩ := toNat_sub_one hecx
      split at h <;> cases h
      · exact ⟨⟨hle, hdone⟩, by simp [left, labelsLeft]⟩
      · simp only [left, labelsLeft, hsub] at hle hdone ⊢
        exact ⟨⟨by omega, done_of_move hbyte hle (by omega) hdone⟩, by omega⟩
  | aligned =>
    cases h
    simp only [left, labelsLeft, four_mul_shift_add] at hle hdone ⊢
    exact ⟨⟨hle, hdone⟩, by omega⟩
  | rep =>
    simp only [pass] at h
    split at h <;> cases h
    · rename_i hecx
      subst hecx
      simp only [left, labelsLeft, UInt32.toNat_zero, Nat.mul_zero, Nat.zero_add] at hle hdone ⊢
      exact ⟨⟨hle, hdone⟩, by omega⟩
    · rename_i hecx
      obtain ⟨hsub, hpos⟩ := toNat_sub_one hecx
      simp only [left, labelsLeft, hsub] at hle hdone ⊢
      exact ⟨⟨by omega, done_of_move hdword hle (by omega) hdone⟩, by omega⟩
  | bottom =>
    simp only [pass] at h
    split at h <;> cases h
    rename_i hedx
    obtain ⟨hsub, hpos⟩ := toNat_sub_one hedx
    simp only [left, labelsLeft, hsub] at hle hdone ⊢
    exact ⟨⟨by omega, done_of_move hbyte hle (by omega) hdone⟩, by omega⟩

/-- The code leaves where no byte is left. -/
theorem pass_inr {c : Cpu} {o : Operands} (h : c.pass byteMove dwordMove = .inr o) :
    c.left = 0 ∧ o = c.operands := by
  obtain ⟨label, ecx, edx, o'⟩ := c
  cases label with
  | top =>
    simp only [pass] at h
    split at h
    · rename_i hecx
      cases h
      exact ⟨by simp [left, hecx], rfl⟩
    · split at h <;> cases h
  | aligned => cases h
  | rep =>
    simp only [pass] at h
    split at h <;> cases h
  | bottom =>
    simp only [pass] at h
    split at h <;> cases h
    rename_i hedx
    exact ⟨by simp [left, hedx], rfl⟩

/-- Four passes a byte and four more are enough for the whole job. -/
theorem routine_total {n : Word} (edx : Word) (o : Operands)
    (hbyte : ∀ i o, i + 1 ≤ n.toNat → Done i o → Done (i + 1) (byteMove o))
    (hdword : ∀ i o, i + 4 ≤ n.toNat → Done i o → Done (i + 4) (dwordMove o)) (h₀ : Done 0 o) :
    ∃ o', Loop.iterate (pass byteMove dwordMove) (4 * n.toNat + 4) ⟨.top, n, edx, o⟩ = some o' ∧
      Done n.toNat o' := by
  refine Loop.iterate_induction
    (fun c : Cpu => c.left ≤ n.toNat ∧ Done (n.toNat - c.left) c.operands) (Done n.toNat)
    (fun c => 4 * c.left + c.labelsLeft) (fun c c' hc h => pass_inl hbyte hdword hc h) ?_ ?_ ?_
  · rintro c o' ⟨-, hdone⟩ h
    obtain ⟨hleft, rfl⟩ := pass_inr h
    rwa [hleft, Nat.sub_zero] at hdone
  · exact ⟨Nat.le_refl _, by simpa [left] using h₀⟩
  · simp [left, labelsLeft]

end Total

end Cpu

/-! ## The jobs -/

/-- A memory with the first `n` bytes from an address on replaced. -/
def overwrite (mem : Word → Byte) (dest : Word) (value : ℕ → Byte) (n : ℕ) (a : Word) : Byte :=
  if (a - dest).toNat < n then value (a - dest).toNat else mem a

/-- The offset from a later start. -/
theorem toNat_sub_add (a dest : Word) {i : ℕ} (hi : i < 2 ^ 32) :
    (a - (dest + UInt32.ofNat i)).toNat =
      if i ≤ (a - dest).toNat then (a - dest).toNat - i else (a - dest).toNat + 2 ^ 32 - i := by
  have hd := (a - dest).toNat_lt
  have hsub : a - (dest + UInt32.ofNat i) = a - dest - UInt32.ofNat i := by grind
  rw [hsub, UInt32.toNat_sub, toNat_word hi]
  split <;> omega

/-- Two stretches that meet are one. -/
theorem overwrite_add (mem : Word → Byte) (dest : Word) (value : ℕ → Byte) {i k : ℕ}
    (hik : i + k < 2 ^ 32) :
    overwrite (overwrite mem dest value i) (dest + UInt32.ofNat i) (fun j => value (i + j)) k =
      overwrite mem dest value (i + k) := by
  funext a
  have hd := (a - dest).toNat_lt
  rw [overwrite, overwrite, overwrite, toNat_sub_add a dest (by omega)]
  by_cases hi : i ≤ (a - dest).toNat
  · rw [if_pos hi, if_neg (by omega : ¬(a - dest).toNat < i), Nat.add_sub_cancel' hi]
    simp only [show (a - dest).toNat - i < k ↔ (a - dest).toNat < i + k by omega]
  · rw [if_neg hi, if_neg (by omega), if_pos (by omega), if_pos (by omega)]

/-- Only the first `n` bytes of the value count. -/
theorem overwrite_congr (mem : Word → Byte) (dest : Word) {value value' : ℕ → Byte} {n : ℕ}
    (h : ∀ i < n, value i = value' i) :
    overwrite mem dest value n = overwrite mem dest value' n := by
  funext a
  rw [overwrite, overwrite]
  split
  · rename_i ha
    exact h _ ha
  · rfl

theorem overwrite_zero (mem : Word → Byte) (dest : Word) (value : ℕ → Byte) :
    overwrite mem dest value 0 = mem := by
  funext a
  rw [overwrite, if_neg (Nat.not_lt_zero _)]

theorem overwrite_one (mem : Word → Byte) (dest : Word) (value : ℕ → Byte) :
    overwrite mem dest value 1 = Function.update mem dest (value 0) := by
  funext a
  have hzero : (a - dest).toNat < 1 ↔ a = dest := by
    rw [Nat.lt_one_iff, ← UInt32.toNat_zero, UInt32.toNat_inj, UInt32.sub_eq_iff_eq_add,
      UInt32.zero_add]
  by_cases ha : a = dest
  · subst ha
    rw [overwrite, if_pos (hzero.2 rfl), Function.update_self, Nat.lt_one_iff.1 (hzero.2 rfl)]
  · rw [overwrite, if_neg (mt hzero.1 ha), Function.update_of_ne ha]

/-- What lies off the replaced bytes is kept. -/
theorem overwrite_of_ne (mem : Word → Byte) (dest : Word) (value : ℕ → Byte) {n : ℕ} {a : Word}
    (h : ∀ i < n, a ≠ dest + UInt32.ofNat i) : overwrite mem dest value n a = mem a := by
  rw [overwrite, if_neg]
  intro hlt
  refine h _ hlt ?_
  rw [UInt32.ofNat_toNat]
  grind

/-- The next bytes of a job. -/
theorem overwrite_next {mem : Word → Byte} {dest : Word} {value next : ℕ → Byte} {i k : ℕ}
    (hik : i + k < 2 ^ 32) (hnext : ∀ j < k, next j = value (i + j)) :
    overwrite (overwrite mem dest value i) (dest + UInt32.ofNat i) next k =
      overwrite mem dest value (i + k) := by
  rw [overwrite_congr _ _ hnext, overwrite_add mem dest value hik]

namespace Operands

variable {o : Operands}

/-- `movb` of `al` stores one byte. -/
theorem setByte_mem : o.setByte.mem = overwrite o.mem o.edi (fun _ => o.eax.toUInt8) 1 :=
  (overwrite_one o.mem o.edi fun _ => o.eax.toUInt8).symm

/-- `stosl` stores the four bytes of `eax`. -/
theorem stosl_mem : o.stosl.mem = overwrite o.mem o.edi (byteAt o.eax) 4 :=
  rfl

/-- `al` holds the byte at `esi`. -/
theorem loadAl_al : o.loadAl.eax.toUInt8 = o.mem o.esi := by
  rw [loadAl, ← UInt8.toBitVec_inj]
  ext b
  simp

/-- The byte loop's load and store together. -/
theorem copyByte_mem : o.copyByte.mem = overwrite o.mem o.edi (fun _ => o.mem o.esi) 1 := by
  have h := setByte_mem (o := o.loadAl)
  rwa [loadAl_al] at h

/-- `movsl` copies four bytes. -/
theorem movsl_mem :
    o.movsl.mem = overwrite o.mem o.edi (fun j => o.mem (o.esi + UInt32.ofNat j)) 4 :=
  overwrite_congr _ _ fun j hj => by rw [loadl, byteAt_wordAt _ _ hj, Nat.zero_add]

end Operands

/-! ## The two routines -/

/-- The argument's low byte is in all four bytes of `%eax`. -/
theorem byteAt_memsetEax (c : Word) {j : ℕ} (hj : j < 4) :
    byteAt (memsetEax c) j = c.toUInt8 := by
  have hlow : c &&& 0xFF = c.toUInt8.toUInt32 := by
    rw [← UInt32.toNat_inj, UInt32.toNat_and]
    exact Nat.and_two_pow_sub_one_eq_mod _ 8
  have hreverse (w₀ w₁ w₂ w₃ : Word) : w₃ ||| w₂ ||| w₁ ||| w₀ = w₀ ||| w₁ ||| w₂ ||| w₃ := by
    ac_rfl
  rw [memsetEax, hlow, hreverse]
  exact byteAt_wordAt (fun _ => c.toUInt8) 0 hj

theorem add_ofNat_zero (w : Word) : w + UInt32.ofNat 0 = w :=
  UInt32.add_zero w

theorem ofNat_add_ofNat (w : Word) (i k : ℕ) :
    w + UInt32.ofNat i + UInt32.ofNat k = w + UInt32.ofNat (i + k) := by
  rw [UInt32.ofNat_add, UInt32.add_assoc]

/-- The first `i` bytes are set. -/
structure Filled (mem : Word → Byte) (dest : Word) (b : Byte) (i : ℕ) (o : Operands) : Prop where
  eax : ∀ j < 4, byteAt o.eax j = b
  edi : o.edi = dest + UInt32.ofNat i
  mem : o.mem = overwrite mem dest (fun _ => b) i

namespace Filled

variable {mem : Word → Byte} {dest : Word} {b : Byte} {i : ℕ} {o : Operands}

/-- Nothing is filled at the start. -/
theorem start (o : Operands) (heax : ∀ j < 4, byteAt o.eax j = b) : Filled o.mem o.edi b 0 o :=
  ⟨heax, (add_ofNat_zero _).symm, (overwrite_zero _ _ _).symm⟩

/-- One byte more. -/
theorem setByte (h : Filled mem dest b i o) (hi : i + 1 < 2 ^ 32) :
    Filled mem dest b (i + 1) o.setByte := by
  have hal : o.eax.toUInt8 = b := by
    have h0 := h.eax 0 (by decide)
    rwa [byteAt, Nat.mul_zero, show UInt32.ofNat 0 = 0 from rfl, UInt32.shiftRight_zero] at h0
  refine ⟨h.eax, ?_, ?_⟩
  · rw [← ofNat_add_ofNat, ← h.edi]
    rfl
  · rw [Operands.setByte_mem, h.mem, h.edi, overwrite_next hi fun _ _ => hal]

/-- Four bytes more. -/
theorem stosl (h : Filled mem dest b i o) (hi : i + 4 < 2 ^ 32) :
    Filled mem dest b (i + 4) o.stosl := by
  refine ⟨h.eax, ?_, ?_⟩
  · rw [← ofNat_add_ofNat, ← h.edi]
    rfl
  · rw [Operands.stosl_mem, h.mem, h.edi, overwrite_next hi h.eax]

end Filled

/-- No byte of the source is one of the destination. -/
def NoOverlap (dest src : Word) (n : ℕ) : Prop :=
  ∀ i < n, ∀ j < n, src + UInt32.ofNat i ≠ dest + UInt32.ofNat j

/-- The first `i` bytes are copied. -/
structure Copied (mem : Word → Byte) (dest src : Word) (i : ℕ) (o : Operands) : Prop where
  esi : o.esi = src + UInt32.ofNat i
  edi : o.edi = dest + UInt32.ofNat i
  mem : o.mem = overwrite mem dest (fun j => mem (src + UInt32.ofNat j)) i

namespace Copied

variable {mem : Word → Byte} {dest src : Word} {n i : ℕ} {o : Operands}

/-- Nothing is copied at the start. -/
theorem start (o : Operands) : Copied o.mem o.edi o.esi 0 o :=
  ⟨(add_ofNat_zero _).symm, (add_ofNat_zero _).symm, (overwrite_zero _ _ _).symm⟩

/-- The source of what is not copied yet is as it was. -/
theorem load (h : Copied mem dest src i o) (hno : NoOverlap dest src n) {j : ℕ} (hj : i + j < n) :
    o.mem (o.esi + UInt32.ofNat j) = mem (src + UInt32.ofNat (i + j)) := by
  rw [h.esi, ofNat_add_ofNat, h.mem]
  exact overwrite_of_ne _ _ _ fun l hl => hno _ hj l (by omega)

/-- One byte more, read before any store reached it. -/
theorem copyByte (h : Copied mem dest src i o) (hno : NoOverlap dest src n) (hi : i + 1 ≤ n)
    (hn : n < 2 ^ 32) : Copied mem dest src (i + 1) o.copyByte := by
  have hload := h.load hno (j := 0) hi
  rw [add_ofNat_zero] at hload
  refine ⟨?_, ?_, ?_⟩
  · rw [← ofNat_add_ofNat, ← h.esi]
    rfl
  · rw [← ofNat_add_ofNat, ← h.edi]
    rfl
  · rw [Operands.copyByte_mem, hload, h.mem, h.edi]
    refine overwrite_next (by omega) fun j hj => ?_
    rw [Nat.lt_one_iff.1 hj]

/-- Four bytes more, read before any store reached them. -/
theorem movsl (h : Copied mem dest src i o) (hno : NoOverlap dest src n) (hi : i + 4 ≤ n)
    (hn : n < 2 ^ 32) : Copied mem dest src (i + 4) o.movsl := by
  refine ⟨?_, ?_, ?_⟩
  · rw [← ofNat_add_ofNat, ← h.esi]
    rfl
  · rw [← ofNat_add_ofNat, ← h.edi]
    rfl
  · have hload : ∀ j < 4, o.mem (o.esi + UInt32.ofNat j) = mem (src + UInt32.ofNat (i + j)) :=
      fun j hj => h.load hno (by omega)
    rw [Operands.movsl_mem, h.mem, h.edi, ← h.mem]
    exact (congrArg (fun m => overwrite m _ _ _) h.mem).trans (overwrite_next (by omega) hload)

end Copied

section Routines

variable (o : Operands) (edx dest src c n : Word)

/-- `memset` terminates with the first `n` bytes set. -/
theorem memset_spec : ∃ o', memset (4 * n.toNat + 4) o edx dest c n = some o' ∧
    o'.mem = overwrite o.mem dest (fun _ => c.toUInt8) n.toNat := by
  have hn := n.toNat_lt
  have hstart : Filled o.mem dest c.toUInt8 0 { o with eax := memsetEax c, edi := dest } :=
    Filled.start { o with eax := memsetEax c, edi := dest } fun _ hj => byteAt_memsetEax c hj
  have hbyte : ∀ i o', i + 1 ≤ n.toNat → Filled o.mem dest c.toUInt8 i o' →
      Filled o.mem dest c.toUInt8 (i + 1) o'.setByte := fun i o' hi h => h.setByte (by omega)
  have hdword : ∀ i o', i + 4 ≤ n.toNat → Filled o.mem dest c.toUInt8 i o' →
      Filled o.mem dest c.toUInt8 (i + 4) o'.stosl := fun i o' hi h => h.stosl (by omega)
  obtain ⟨o', ho', hdone⟩ := Cpu.routine_total edx _ hbyte hdword hstart
  rw [memset]
  exact ⟨o', ho', hdone.mem⟩

/-- `memcpy` terminates with the first `n` bytes copied. -/
theorem memcpy_spec (hno : NoOverlap dest src n.toNat) :
    ∃ o', memcpy (4 * n.toNat + 4) o edx dest src n = some o' ∧
      o'.mem = overwrite o.mem dest (fun i => o.mem (src + UInt32.ofNat i)) n.toNat := by
  have hn := n.toNat_lt
  have hbyte : ∀ i o', i + 1 ≤ n.toNat → Copied o.mem dest src i o' →
      Copied o.mem dest src (i + 1) o'.copyByte := fun i o' hi h => h.copyByte hno hi hn
  have hdword : ∀ i o', i + 4 ≤ n.toNat → Copied o.mem dest src i o' →
      Copied o.mem dest src (i + 4) o'.movsl := fun i o' hi h => h.movsl hno hi hn
  have hstart : Copied o.mem dest src 0 { o with esi := src, edi := dest } :=
    Copied.start { o with esi := src, edi := dest }
  obtain ⟨o', ho', hdone⟩ := Cpu.routine_total edx _ hbyte hdword hstart
  rw [memcpy]
  exact ⟨o', ho', hdone.mem⟩

/-- Both routines leave the bytes that their definitions byte by byte do, and change no others. -/
theorem memoryRoutines :
    (NoOverlap dest src n.toNat → ∃ o', memcpy (4 * n.toNat + 4) o edx dest src n = some o' ∧
      o'.mem = overwrite o.mem dest (fun i => o.mem (src + UInt32.ofNat i)) n.toNat) ∧
    ∃ o', memset (4 * n.toNat + 4) o edx dest c n = some o' ∧
      o'.mem = overwrite o.mem dest (fun _ => c.toUInt8) n.toNat :=
  ⟨memcpy_spec o edx dest src n, memset_spec o edx dest c n⟩

end Routines

/-- Seven bytes to an address that is not aligned. -/
theorem memcpy_seven : ∃ o', memcpy 32 ⟨0, 0, 0, fun a => a.toUInt8⟩ 0 0x101 0x80 7 = some o' ∧
    o'.mem = overwrite (fun a => a.toUInt8) 0x101
      (fun i => (0x80 + UInt32.ofNat i).toUInt8) 7 := by
  refine (memoryRoutines ⟨0, 0, 0, fun a => a.toUInt8⟩ 0 0x101 0x80 0 7).1 ?_
  intro i hi j hj
  change i < 7 at hi
  change j < 7 at hj
  interval_cases i <;> interval_cases j <;> decide

end MpOS
