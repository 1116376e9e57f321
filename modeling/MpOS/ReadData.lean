import MpOS.BlockWalk

/-!
# Requests to `read_data`

Inside a file `read_data` copies the request, or the part of it before the first block
number out of range (`readData_slice`). It stores more than was asked for where its
computation of the last block goes below zero : for an empty request at offset 0, and
for an empty file (`length_readData_le_iff`). `readDataTraced` is `read_data` with the
subscripts of `dblock[]` it evaluates and the block numbers it hands to
`get_dblock_mem`. The subscripts are compared with nothing, and the numbers with a count
minus one (`bounded_iff`).
-/

namespace MpOS

namespace Image

variable (img : Image) (inode : Word)

/-! ## The blocks of a file -/

/-- The data blocks of an inode, one after the other. -/
def blocks : List Byte :=
  (List.range 1023).flatMap fun j =>
    img.memcpy (img.getDblockMem (img.dblock inode (UInt32.ofNat j)) 0) blockSize

theorem flatMap_slice (n : ℕ) :
    ((List.range n).flatMap fun j => img.slice inode (4096 * j) 4096) =
      img.slice inode 0 (4096 * n) := by
  induction n with
  | zero => rfl
  | succ n ih =>
    rw [List.range_succ, List.flatMap_append, ih, List.flatMap_singleton, Nat.mul_succ, slice_add,
      Nat.zero_add]

theorem blocks_eq : img.blocks inode = img.slice inode 0 (4096 * 1023) := by
  have hzero : (0 : Word) = UInt32.ofNat 0 := by decide
  have hblock : blockSize = UInt32.ofNat 4096 := by decide
  have hcopy : ∀ j, img.memcpy (img.getDblockMem (img.dblock inode (UInt32.ofNat j)) 0) blockSize =
      img.slice inode (4096 * j) 4096 := by
    intro j
    rw [hzero, hblock, memcpy_block (by omega), Nat.add_zero]
  rw [blocks, ← flatMap_slice]
  exact List.flatMap_congr fun j _ => hcopy j

theorem take_drop_blocks {pos n : ℕ} (h : pos + n ≤ 1023 * 4096) :
    ((img.blocks inode).drop pos).take n = img.slice inode pos n := by
  have hsum : 4096 * 1023 = pos + (n + (4096 * 1023 - (pos + n))) := by omega
  rw [blocks_eq, hsum, slice_add, List.drop_left' (length_slice _ _), Nat.zero_add, slice_add,
    List.take_left' (length_slice _ _)]

variable {img inode}

theorem blocked_iff (hd : 1 ≤ img.fsDblocks) (j : ℕ) :
    img.Blocked inode (UInt32.ofNat j) ↔
      img.fsDblocks ≤ img.dblock inode (UInt32.ofNat j) := by
  rw [Blocked, gt_sub_one_iff, and_iff_right]
  intro h0
  rw [h0] at hd
  exact absurd hd (by decide)

/-- A request within the file gets it, if its blocks are in range, and otherwise what lies before
the first one that is not. -/
theorem readData_slice (hd : 1 ≤ img.fsDblocks) (hi : inode < img.fsInodes) {offset length : Word}
    (hlen : 0 < length.toNat) (hle : offset.toNat + length.toNat ≤ (img.length inode).toNat)
    (hmax : (img.length inode).toNat ≤ 1023 * 4096) :
    ((∀ j, offset.toNat / 4096 ≤ j → 4096 * j < offset.toNat + length.toNat →
        img.dblock inode (UInt32.ofNat j) < img.fsDblocks) →
      img.readData inode offset length =
        ((length.toNat : ℤ), ((img.blocks inode).drop offset.toNat).take length.toNat)) ∧
    ∀ J, offset.toNat / 4096 ≤ J → 4096 * J < offset.toNat + length.toNat →
      img.fsDblocks ≤ img.dblock inode (UInt32.ofNat J) →
      (∀ j, offset.toNat / 4096 ≤ j → j < J →
        img.dblock inode (UInt32.ofNat j) < img.fsDblocks) →
      img.readData inode offset length =
        (((4096 * J - offset.toNat : ℕ) : ℤ),
          ((img.blocks inode).drop offset.toNat).take (4096 * J - offset.toNat)) := by
  have hend := toNat_endBlock_of_le hlen hle
  have hrej : ¬img.Rejected inode := not_gt_sub_one hi
  refine ⟨fun hall => ?_, fun J hJ hlt hout hall => ?_⟩
  · have hok : ∀ j, offset.toNat / 4096 ≤ j → j ≤ (offset.toNat + length.toNat - 1) / 4096 →
        ¬img.Blocked inode (UInt32.ofNat j) :=
      fun j h₁ h₂ => not_gt_sub_one (hall j h₁ (by omega))
    have hcopy := @slice_append_lastCopy img inode offset.toNat length.toNat
      ((offset.toNat + length.toNat - 1) / 4096) (by omega) (by omega) (by omega)
    have hint := toInt_ofNat (by omega : length.toNat < 2 ^ 31)
    rw [UInt32.ofNat_toNat] at hcopy hint
    rw [take_drop_blocks _ _ (by omega), readData_eq_complete hrej hend (by omega) hok, hcopy, hint]
  · have hok : ∀ j, offset.toNat / 4096 ≤ j → j < J → ¬img.Blocked inode (UInt32.ofNat j) :=
      fun j h₁ h₂ => not_gt_sub_one (hall j h₁ h₂)
    rw [take_drop_blocks _ _ (by omega),
      readData_eq_stopped hrej hJ (by omega) hok ((blocked_iff hd J).2 hout),
      toInt_ofNat (by omega)]

/-- An image with one inode and one data block, whose file has the given length. -/
def fileImage (length : Byte) : Image where
  mem a := if a = 0 ∨ a = 4 ∨ a = 8 then 1 else if a = 4096 then length else 0

/-- An image of one file of three blocks, the second behind the first and the last out of range. -/
def blocksImage : Image where
  mem a :=
    if a < 8192 then
      (([(4, 1), (8, 2), (4096, 16), (4097, 32), (4100, 1), (4108, 2)] :
        List (Word × Byte)).lookup a).getD 0
    else if a < 12288 then 98 else 97

/-- A read over the border of two blocks, and one that ends where the blocks do. -/
theorem readData_slice_blocks :
    blocksImage.readData 0 4092 8 = (8, [97, 97, 97, 97, 98, 98, 98, 98]) ∧
      blocksImage.readData 0 8189 9 = (3, [98, 98, 98]) := by
  have h0 : blocksImage.dblock 0 (UInt32.ofNat 0) < blocksImage.fsDblocks := by decide
  have h1 : blocksImage.dblock 0 (UInt32.ofNat 1) < blocksImage.fsDblocks := by decide
  have hall : ∀ j < 2, blocksImage.dblock 0 (UInt32.ofNat j) < blocksImage.fsDblocks := by
    intro j hj
    interval_cases j
    · exact h0
    · exact h1
  constructor
  · rw [(readData_slice (by decide) (by decide) (by decide) (by decide) (by decide)).1
      fun j _ hj => hall j ?_, take_drop_blocks _ _ (by decide)]
    · decide +kernel
    · change 4096 * j < 4100 at hj
      omega
  · rw [(readData_slice (by decide) (by decide) (by decide) (by decide) (by decide)).2 2 (by decide)
      (by decide) (by decide) fun j _ hj => hall j hj, take_drop_blocks _ _ (by decide)]
    decide +kernel

/-! ## Stores past the request -/

theorem length_memcpy (start n : Word) : (img.memcpy start n).length = n.toNat := by
  rw [memcpy, List.length_map, List.length_range]

/-- What a complete walk stores, if the blocks it copies in whole fit in the request, and if
not. -/
theorem length_complete (pos E : ℕ) (start length : Word) (hE : 4096 * E < 2 ^ 32) :
    (img.slice inode pos (4096 * E - pos) ++
        img.memcpy start (length - UInt32.ofNat (4096 * E - pos))).length ≤ length.toNat ↔
      4096 * E - pos ≤ length.toNat := by
  have hlt := length.toNat_lt
  rw [List.length_append, length_slice, length_memcpy, UInt32.toNat_sub, toNat_word (by omega)]
  omega

/-- The computation of the last block goes below zero. -/
def Wraps (img : Image) (inode offset length : Word) : Prop :=
  offset = 0 ∧ length = 0 ∨ img.length inode = 0 ∧ offset + length ≠ 0

theorem toNat_endBlock_of_wraps {offset length : Word} (h : img.Wraps inode offset length) :
    (img.endBlock inode offset length).toNat = 0xFFFFF := by
  have hzero : min (img.length inode).toNat ((offset.toNat + length.toNat) % 2 ^ 32) = 0 := by
    rcases h with ⟨rfl, rfl⟩ | ⟨hl, -⟩
    · exact Nat.min_zero _
    · rw [hl]
      exact Nat.zero_min _
  rw [toNat_endBlock, hzero]
  rfl

/-- Otherwise the last block starts within the request. -/
theorem toNat_endBlock_of_not_wraps {offset length : Word} (h : ¬img.Wraps inode offset length) :
    4096 * (img.endBlock inode offset length).toNat ≤ offset.toNat + length.toNat := by
  have hlt := offset.toNat_lt
  have hzero : ∀ w : Word, w = 0 ↔ w.toNat = 0 := fun w => UInt32.toNat_inj.symm
  rw [Wraps, not_or, hzero, hzero, hzero, ne_eq, hzero, UInt32.toNat_add] at h
  rw [toNat_endBlock, lastBlock]
  split_ifs with h0
  · omega
  · omega

/-- Where the computation wraps, a row of blocks in range is stored whether it was asked for or
not. -/
theorem le_length_readData (hi : inode < img.fsInodes) {offset length : Word}
    (hw : img.Wraps inode offset length) {j : ℕ} (hj : offset.toNat / 4096 + j ≤ 0xFFFFF)
    (hall : ∀ i < j, ¬img.Blocked inode (UInt32.ofNat (offset.toNat / 4096 + i))) :
    4096 * j ≤ offset.toNat % 4096 + (img.readData inode offset length).2.length := by
  have hend := toNat_endBlock_of_wraps hw
  have hr := img.readData_result inode offset length
  generalize img.readData inode offset length = r at hr
  have hrow : ∀ J, offset.toNat / 4096 ≤ J → img.Blocked inode (UInt32.ofNat J) →
      offset.toNat / 4096 + j ≤ J := by
    intro J hJ hb
    by_contra hlt
    refine hall (J - offset.toNat / 4096) (by omega) ?_
    rw [Nat.add_sub_cancel' hJ]
    exact hb
  cases hr with
  | rejected hrej => exact absurd hrej (not_gt_sub_one hi)
  | nothing _ hno =>
    rw [hend] at hno
    rcases hno with hb | hgt
    · have := hrow _ (Nat.le_refl _) hb
      omega
    · omega
  | stopped J _ hs _ _ hb =>
    have := hrow J hs.le hb
    rw [length_slice]
    omega
  | complete E _ hE hs _ =>
    rw [hend] at hE
    rw [List.length_append, length_slice]
    omega

/-- A call stores more than was asked for exactly where its computation of the last block goes
below zero, and it finds more blocks in range in a row than the request takes up. -/
theorem length_readData_le_iff (hi : inode < img.fsInodes) (offset length : Word) :
    (img.readData inode offset length).2.length ≤ length.toNat ↔
      (offset = 0 ∧ length = 0 ∨ img.length inode = 0 ∧ offset + length ≠ 0 →
        ∀ j, offset.toNat / 4096 + j ≤ 0xFFFFF →
          (∀ i < j, ¬img.Blocked inode (UInt32.ofNat (offset.toNat / 4096 + i))) →
          4096 * j ≤ offset.toNat % 4096 + length.toNat) := by
  have hmod := Nat.div_add_mod offset.toNat 4096
  refine ⟨fun h hw j hj hall => ?_, fun h => ?_⟩
  · exact (le_length_readData hi hw hj hall).trans (Nat.add_le_add_left h _)
  · -- the blocks that are copied in whole fit in the request
    have hfit : ∀ J, offset.toNat / 4096 ≤ J → J ≤ (img.endBlock inode offset length).toNat →
        (∀ j, offset.toNat / 4096 ≤ j → j < J → ¬img.Blocked inode (UInt32.ofNat j)) →
        4096 * J - offset.toNat ≤ length.toNat := by
      intro J hs hJ hall
      by_cases hw : img.Wraps inode offset length
      · have hrow := h hw (J - offset.toNat / 4096)
          (by rw [toNat_endBlock_of_wraps hw] at hJ; omega)
          fun i hi => hall _ (Nat.le_add_right _ _) (by omega)
        omega
      · have := toNat_endBlock_of_not_wraps hw
        omega
    have hr := img.readData_result inode offset length
    generalize img.readData inode offset length = r at hr
    cases hr with
    | rejected _ => exact Nat.zero_le _
    | nothing _ _ => exact Nat.zero_le _
    | stopped J _ hs hJ hall _ =>
      rw [length_slice]
      exact hfit J hs.le hJ hall
    | complete E _ hE hs hall =>
      have hlt := img.endBlock_lt inode offset length
      rw [length_complete _ _ _ _ (by omega)]
      exact hfit E hs hE.le fun j h₁ h₂ => hall j h₁ h₂.le

theorem length_readData_le_fileImage :
    ((fileImage 40).readData 0 0 4).2.length ≤ (4 : Word).toNat := by
  refine (length_readData_le_iff (by decide) 0 4).2 fun h => ?_
  exact absurd h (by decide)

/-- A short request where the computation wraps is exceeded by the first block already. -/
theorem length_lt_readData (hi : inode < img.fsInodes) {offset length : Word}
    (hw : img.Wraps inode offset length)
    (hb : ¬img.Blocked inode (UInt32.ofNat (offset.toNat / 4096)))
    (hlt : offset.toNat % 4096 + length.toNat < 4096) (hs : offset.toNat / 4096 < 0xFFFFF) :
    length.toNat < (img.readData inode offset length).2.length := by
  have hrow : ∀ i < 1, ¬img.Blocked inode (UInt32.ofNat (offset.toNat / 4096 + i)) := by
    intro i hi
    obtain rfl : i = 0 := by omega
    exact hb
  have hlong := le_length_readData hi hw (Nat.succ_le_of_lt hs) hrow
  omega

/-- The read of the magic number of an empty file, and an empty read at offset 0. -/
theorem not_length_readData_le :
    (0 < (fileImage 0).fsInodes ∧
        ¬((fileImage 0).readData 0 0 4).2.length ≤ (4 : Word).toNat) ∧
      0 < (fileImage 40).fsInodes ∧
        ¬((fileImage 40).readData 0 0 0).2.length ≤ (0 : Word).toNat := by
  refine ⟨⟨by decide, Nat.not_le.2 ?_⟩, by decide, Nat.not_le.2 ?_⟩
  · exact length_lt_readData (by decide) (Or.inr (by decide)) (not_gt_sub_one (by decide))
      (by decide) (by decide)
  · exact length_lt_readData (by decide) (Or.inl (by decide)) (not_gt_sub_one (by decide))
      (by decide) (by decide)

/-! ## Subscripts and block numbers -/

/-- The subscripts of `dblock[]` a call evaluates, and the block numbers it passes to
`get_dblock_mem`. -/
structure Accesses where
  subscripts : List Word
  numbers : List Word

/-- `readBlocks` with its accesses. -/
def readBlocksTraced (img : Image) (inode : Word) :
    (n : ℕ) → (i copyLen length totalLen start : Word) → List Byte → Accesses →
      (Word × List Byte) × Accesses
  | 0, _, _, length, totalLen, start, stored, acc =>
    ((totalLen + length, stored ++ img.memcpy start length), acc)
  | n + 1, i, copyLen, length, totalLen, start, stored, acc =>
    let stored := stored ++ img.memcpy start copyLen
    let totalLen := totalLen + copyLen
    let length := length - copyLen
    let acc := { acc with subscripts := acc.subscripts ++ [i + 1] }
    if img.dblock inode (i + 1) > img.fsDblocks - 1 then ((totalLen, stored), acc)
    else
      let acc := ⟨acc.subscripts ++ [i + 1], acc.numbers ++ [img.dblock inode (i + 1)]⟩
      readBlocksTraced img inode n (i + 1) blockSize length totalLen
        (img.getDblockMem (img.dblock inode (i + 1)) 0) stored acc

/-- `readData` with its accesses. -/
def readDataTraced (img : Image) (inode offset length : Word) : (ℤ × List Byte) × Accesses :=
  let startBlock := offset / blockSize
  if inode > img.fsInodes - 1 then ((-1, []), ⟨[], []⟩)
  else
    let endBlock := img.endBlock inode offset length
    let acc : Accesses := ⟨[startBlock], []⟩
    if img.dblock inode startBlock > img.fsDblocks - 1 then ((0, []), acc)
    else if startBlock > endBlock then ((0, []), acc)
    else
      let acc := ⟨acc.subscripts ++ [startBlock], acc.numbers ++ [img.dblock inode startBlock]⟩
      let r := img.readBlocksTraced inode (endBlock.toNat - startBlock.toNat) startBlock
        (blockSize - offset % blockSize) length 0
        (img.getDblockMem (img.dblock inode startBlock) (offset % blockSize)) [] acc
      ((toInt r.1.1, r.1.2), r.2)

theorem fst_readBlocksTraced (n : ℕ) (i copyLen length totalLen start : Word) (stored : List Byte)
    (acc : Accesses) :
    (img.readBlocksTraced inode n i copyLen length totalLen start stored acc).1 =
      img.readBlocks inode n i copyLen length totalLen start stored := by
  induction n generalizing i copyLen length totalLen start stored acc with
  | zero => rfl
  | succ n ih =>
    rw [readBlocksTraced, readBlocks]
    split_ifs
    · rfl
    · exact ih _ _ _ _ _ _ _

/-- The trace is one of `read_data` itself. -/
theorem fst_readDataTraced (offset length : Word) :
    (img.readDataTraced inode offset length).1 = img.readData inode offset length := by
  rw [readData_eq_ite]
  simp only [readDataTraced]
  split_ifs
  · rfl
  · rfl
  · rfl
  · simp only [fst_readBlocksTraced]

section Trace

variable {b I : ℕ} (copyLen length total start : Word) (stored : List Byte) (acc : Accesses)

/-- The loop evaluates the subscripts of the blocks up to the first one out of range. -/
theorem mem_subscripts_readBlocksTraced {w : Word} :
    w ∈ (img.readBlocksTraced inode b (UInt32.ofNat I) copyLen length total start stored
        acc).2.subscripts ↔
      w ∈ acc.subscripts ∨ ∃ J, I < J ∧ J ≤ I + b ∧
        (∀ i, I < i → i < J → ¬img.Blocked inode (UInt32.ofNat i)) ∧ w = UInt32.ofNat J := by
  induction b generalizing I copyLen length total start stored acc with
  | zero =>
    rw [readBlocksTraced, or_iff_left]
    rintro ⟨J, h₁, h₂, -⟩
    omega
  | succ b ih =>
    simp only [readBlocksTraced, ofNat_succ]
    split_ifs with hblocked
    · simp only [List.mem_append, List.mem_singleton]
      refine or_congr_right ⟨fun hw => ⟨I + 1, by omega, by omega, fun i _ _ => by omega, hw⟩, ?_⟩
      rintro ⟨J, hI, -, hall, rfl⟩
      by_contra hne
      refine hall (I + 1) (by omega) ?_ hblocked
      rcases Nat.eq_or_lt_of_le hI with rfl | hlt
      · exact absurd rfl hne
      · exact hlt
    · rw [ih]
      simp only [List.mem_append, List.mem_singleton]
      constructor
      · rintro (((hw | hw) | hw) | ⟨J, hI, hJ, hall, hw⟩)
        · exact Or.inl hw
        · exact Or.inr ⟨I + 1, by omega, by omega, fun i _ _ => by omega, hw⟩
        · exact Or.inr ⟨I + 1, by omega, by omega, fun i _ _ => by omega, hw⟩
        · refine Or.inr ⟨J, by omega, by omega, fun i h₁ h₂ => ?_, hw⟩
          rcases Nat.eq_or_lt_of_le (Nat.succ_le_of_lt h₁) with rfl | hlt
          · exact hblocked
          · exact hall i hlt h₂
      · rintro (hw | ⟨J, hI, hJ, hall, hw⟩)
        · exact Or.inl (Or.inl (Or.inl hw))
        · rcases Nat.eq_or_lt_of_le (Nat.succ_le_of_lt hI) with rfl | hlt
          · exact Or.inl (Or.inr hw)
          · exact Or.inr ⟨J, hlt, by omega, fun i h₁ h₂ => hall i (by omega) h₂, hw⟩

/-- It asks for the memory of those in range. -/
theorem mem_numbers_readBlocksTraced {v : Word} :
    v ∈ (img.readBlocksTraced inode b (UInt32.ofNat I) copyLen length total start stored
        acc).2.numbers ↔
      v ∈ acc.numbers ∨ ∃ J, I < J ∧ J ≤ I + b ∧
        (∀ i, I < i → i ≤ J → ¬img.Blocked inode (UInt32.ofNat i)) ∧
          v = img.dblock inode (UInt32.ofNat J) := by
  induction b generalizing I copyLen length total start stored acc with
  | zero =>
    rw [readBlocksTraced, or_iff_left]
    rintro ⟨J, h₁, h₂, -⟩
    omega
  | succ b ih =>
    simp only [readBlocksTraced, ofNat_succ]
    split_ifs with hblocked
    · rw [or_iff_left]
      rintro ⟨J, hI, -, hall, -⟩
      exact hall (I + 1) (by omega) hI hblocked
    · rw [ih]
      simp only [List.mem_append, List.mem_singleton]
      constructor
      · rintro ((hv | hv) | ⟨J, hI, hJ, hall, hv⟩)
        · exact Or.inl hv
        · refine Or.inr ⟨I + 1, by omega, by omega, fun i h₁ h₂ => ?_, hv⟩
          obtain rfl : i = I + 1 := by omega
          exact hblocked
        · refine Or.inr ⟨J, by omega, by omega, fun i h₁ h₂ => ?_, hv⟩
          rcases Nat.eq_or_lt_of_le (Nat.succ_le_of_lt h₁) with rfl | hlt
          · exact hblocked
          · exact hall i hlt h₂
      · rintro (hv | ⟨J, hI, hJ, hall, hv⟩)
        · exact Or.inl (Or.inl hv)
        · rcases Nat.eq_or_lt_of_le (Nat.succ_le_of_lt hI) with rfl | hlt
          · exact Or.inl (Or.inr hv)
          · exact Or.inr ⟨J, hlt, by omega, fun i h₁ h₂ => hall i (by omega) h₂, hv⟩

end Trace

/-- A call that does not fail evaluates the subscript of its first block, and those of the blocks
it walks to. -/
theorem mem_subscripts {offset length : Word} (hrej : ¬img.Rejected inode) {w : Word} :
    w ∈ (img.readDataTraced inode offset length).2.subscripts ↔
      w = UInt32.ofNat (offset.toNat / 4096) ∨ ∃ J, offset.toNat / 4096 < J ∧
        J ≤ (img.endBlock inode offset length).toNat ∧
        (∀ i, offset.toNat / 4096 ≤ i → i < J → ¬img.Blocked inode (UInt32.ofNat i)) ∧
          w = UInt32.ofNat J := by
  have hlt := offset.toNat_lt
  have hrej' : ¬inode > img.fsInodes - 1 := hrej
  simp only [readDataTraced, div_blockSize, if_neg hrej', toNat_word
    (by omega : offset.toNat / 4096 < 2 ^ 32)]
  split_ifs with hblocked hgt
  · rw [List.mem_singleton, or_iff_left]
    rintro ⟨J, hJ, -, hall, -⟩
    exact hall _ (Nat.le_refl _) hJ hblocked
  · rw [gt_iff_lt, UInt32.lt_iff_toNat_lt, toNat_word (by omega)] at hgt
    rw [List.mem_singleton, or_iff_left]
    rintro ⟨J, h₁, h₂, -⟩
    omega
  · rw [gt_iff_lt, UInt32.lt_iff_toNat_lt, toNat_word (by omega), Nat.not_lt] at hgt
    rw [mem_subscripts_readBlocksTraced, Nat.add_sub_cancel' hgt]
    simp only [List.mem_append, List.mem_singleton, or_self]
    refine or_congr_right (exists_congr fun J => and_congr_right fun hJ => and_congr_right fun _ =>
      and_congr_left fun _ => ⟨fun h i h₁ h₂ => ?_, fun h i h₁ h₂ => h i h₁.le h₂⟩)
    rcases Nat.eq_or_lt_of_le h₁ with rfl | hlt
    · exact hblocked
    · exact h i hlt h₂

theorem mem_numbers {offset length : Word} (hrej : ¬img.Rejected inode) {v : Word} :
    v ∈ (img.readDataTraced inode offset length).2.numbers ↔
      ∃ J, offset.toNat / 4096 ≤ J ∧ J ≤ (img.endBlock inode offset length).toNat ∧
        (∀ i, offset.toNat / 4096 ≤ i → i ≤ J → ¬img.Blocked inode (UInt32.ofNat i)) ∧
          v = img.dblock inode (UInt32.ofNat J) := by
  have hlt := offset.toNat_lt
  have hrej' : ¬inode > img.fsInodes - 1 := hrej
  simp only [readDataTraced, div_blockSize, if_neg hrej', toNat_word
    (by omega : offset.toNat / 4096 < 2 ^ 32)]
  split_ifs with hblocked hgt
  · refine iff_of_false List.not_mem_nil ?_
    rintro ⟨J, hJ, -, hall, -⟩
    exact hall _ (Nat.le_refl _) hJ hblocked
  · rw [gt_iff_lt, UInt32.lt_iff_toNat_lt, toNat_word (by omega)] at hgt
    refine iff_of_false List.not_mem_nil ?_
    rintro ⟨J, h₁, h₂, -⟩
    omega
  · rw [gt_iff_lt, UInt32.lt_iff_toNat_lt, toNat_word (by omega), Nat.not_lt] at hgt
    rw [mem_numbers_readBlocksTraced, Nat.add_sub_cancel' hgt]
    simp only [List.nil_append, List.mem_singleton]
    constructor
    · rintro (hv | ⟨J, h₁, h₂, hall, hv⟩)
      · refine ⟨offset.toNat / 4096, Nat.le_refl _, hgt, fun i hi₁ hi₂ => ?_, hv⟩
        obtain rfl : i = offset.toNat / 4096 := by omega
        exact hblocked
      · refine ⟨J, h₁.le, h₂, fun i hi₁ hi₂ => ?_, hv⟩
        rcases Nat.eq_or_lt_of_le hi₁ with rfl | hlt
        · exact hblocked
        · exact hall i hlt hi₂
    · rintro ⟨J, h₁, h₂, hall, hv⟩
      rcases Nat.eq_or_lt_of_le h₁ with rfl | hlt
      · exact Or.inl hv
      · exact Or.inr ⟨J, hlt, h₂, fun i hi₁ hi₂ => hall i hi₁.le hi₂, hv⟩

/-- The accesses of a lookup by index and of a call of `read_data` stay within their tables. -/
structure Bounded (img : Image) (index inode offset length : Word) : Prop where
  lookup : ∀ d, img.readDentryByIndex index = some d → index < img.fsEntries
  fails : ¬inode < img.fsInodes → (img.readData inode offset length).1 = -1
  subscripts : ∀ w ∈ (img.readDataTraced inode offset length).2.subscripts, w < 1023
  numbers : ∀ v ∈ (img.readDataTraced inode offset length).2.numbers, v < img.fsDblocks

/-- When the accesses of `read_data` stay within their tables : the inode is out of range and
there are inodes, or it is in range (or there are none, and the walk is complete and its byte
count is itself -1), no subscript from 1023 on is walked to, and there are data blocks (or
the walk is empty). -/
def InTables (img : Image) (inode offset length : Word) : Prop :=
  let first := offset.toNat / 4096
  let last := lastBlock (min (img.length inode).toNat ((offset.toNat + length.toNat) % 2 ^ 32))
  img.Rejected inode ∨
    (inode < img.fsInodes ∨ length = 0xFFFFFFFF ∧ first ≤ last ∧
      ∀ j, first ≤ j → j ≤ last → ¬img.Blocked inode (UInt32.ofNat j)) ∧
    first < 1023 ∧
    (∀ J, first < J → J ≤ last →
      (∀ i, first ≤ i → i < J → ¬img.Blocked inode (UInt32.ofNat i)) → J < 1023) ∧
    (img.fsDblocks ≠ 0 ∨ last < first)

/-- A call that passes the check of the inode returns -1 only as its byte count. -/
theorem readData_eq_neg_one_iff {offset length : Word} (hrej : ¬img.Rejected inode) :
    (img.readData inode offset length).1 = -1 ↔ length = 0xFFFFFFFF ∧
      offset.toNat / 4096 ≤ (img.endBlock inode offset length).toNat ∧
      ∀ j, offset.toNat / 4096 ≤ j → j ≤ (img.endBlock inode offset length).toNat →
        ¬img.Blocked inode (UInt32.ofNat j) := by
  have hend := img.endBlock_lt inode offset length
  have hr := img.readData_result inode offset length
  generalize img.readData inode offset length = r at hr
  cases hr with
  | rejected hrej' => exact absurd hrej' hrej
  | nothing _ hno =>
    refine iff_of_false (by decide) ?_
    rintro ⟨-, hle, hall⟩
    rcases hno with hb | hgt
    · exact hall _ (Nat.le_refl _) hle hb
    · omega
  | stopped J _ hs hJ _ hb =>
    refine iff_of_false (fun hret => ?_) fun h => h.2.2 J hs.le hJ hb
    have hneg := toInt_eq_neg_one_iff.1 hret
    have hmax : (0xFFFFFFFF : Word).toNat = 2 ^ 32 - 1 := rfl
    rw [← UInt32.toNat_inj, toNat_word (by omega), hmax] at hneg
    omega
  | complete E _ hE hs hall =>
    rw [toInt_eq_neg_one_iff, ← hE]
    exact (and_iff_left ⟨hs, hall⟩).symm

theorem readDentryByIndex_lt_iff (img : Image) (index : Word) :
    (∀ d, img.readDentryByIndex index = some d → index < img.fsEntries) ↔ img.fsEntries ≠ 0 := by
  unfold readDentryByIndex
  split_ifs with h
  · exact iff_of_true (fun _ hd => hd.elim) (gt_sub_one_iff.1 h).1
  · rw [gt_sub_one_iff, not_and, UInt32.not_le] at h
    refine ⟨fun hlt h0 => ?_, fun h0 _ _ => h h0⟩
    have hneg := hlt _ rfl
    rw [h0] at hneg
    exact absurd hneg UInt32.not_lt_zero

/-- No subscript is walked to from 1023 on. -/
theorem subscripts_lt_iff {offset length : Word} (hrej : ¬img.Rejected inode) :
    (∀ w ∈ (img.readDataTraced inode offset length).2.subscripts, w < 1023) ↔
      offset.toNat / 4096 < 1023 ∧
        ∀ J, offset.toNat / 4096 < J → J ≤ (img.endBlock inode offset length).toNat →
          (∀ i, offset.toNat / 4096 ≤ i → i < J → ¬img.Blocked inode (UInt32.ofNat i)) →
            J < 1023 := by
  have hend := img.endBlock_lt inode offset length
  have hlt := offset.toNat_lt
  have hword : ∀ J < 2 ^ 32, UInt32.ofNat J < 1023 ↔ J < 1023 := by
    intro J hJ
    rw [UInt32.lt_iff_toNat_lt, toNat_word hJ]
    rfl
  simp only [mem_subscripts hrej]
  constructor
  · intro h
    refine ⟨(hword _ (by omega)).1 (h _ (Or.inl rfl)), fun J h₁ h₂ hall => ?_⟩
    exact (hword J (by omega)).1 (h _ (Or.inr ⟨J, h₁, h₂, hall, rfl⟩))
  · rintro ⟨hs, hJ⟩ w (rfl | ⟨J, h₁, h₂, hall, rfl⟩)
    · exact (hword _ (by omega)).2 hs
    · exact (hword J (by omega)).2 (hJ J h₁ h₂ hall)

theorem numbers_lt_iff {offset length : Word} (hrej : ¬img.Rejected inode) :
    (∀ v ∈ (img.readDataTraced inode offset length).2.numbers, v < img.fsDblocks) ↔
      img.fsDblocks ≠ 0 ∨ (img.endBlock inode offset length).toNat < offset.toNat / 4096 := by
  have hblocked : ∀ i, img.Blocked inode i ↔ img.fsDblocks ≠ 0 ∧
      img.fsDblocks ≤ img.dblock inode i := fun i => gt_sub_one_iff
  simp only [mem_numbers hrej]
  by_cases h0 : img.fsDblocks = 0
  · -- the check is void, so the first block already is not below the count
    rw [or_iff_right (not_not.2 h0)]
    refine ⟨fun h => ?_, fun hgt v ⟨J, h₁, h₂, _⟩ => absurd (h₁.trans h₂) (by omega)⟩
    by_contra hle
    have hneg := h _ ⟨offset.toNat / 4096, Nat.le_refl _, Nat.le_of_not_lt hle,
      fun i _ _ => by simp [hblocked, h0], rfl⟩
    rw [h0] at hneg
    exact absurd hneg UInt32.not_lt_zero
  · refine iff_of_true ?_ (Or.inl h0)
    rintro v ⟨J, h₁, -, hall, rfl⟩
    have hb := hall J h₁ (Nat.le_refl _)
    rw [hblocked, not_and, UInt32.not_le] at hb
    exact hb h0

/-- The tables are bounds-checked for a call exactly when there are entries and the call is in
`InTables`. -/
theorem bounded_iff (img : Image) (index inode offset length : Word) :
    Bounded img index inode offset length ↔
      img.fsEntries ≠ 0 ∧ InTables img inode offset length := by
  rw [← readDentryByIndex_lt_iff img index]
  simp only [InTables, ← toNat_endBlock]
  by_cases hrej : img.Rejected inode
  · have htrace : img.readDataTraced inode offset length = ((-1, []), ⟨[], []⟩) := if_pos hrej
    refine ⟨fun h => ⟨h.lookup, Or.inl hrej⟩, fun h => ⟨h.1, fun _ => ?_, ?_, ?_⟩⟩
    · rw [← fst_readDataTraced, htrace]
    · simp [htrace]
    · simp [htrace]
  · rw [or_iff_right hrej, ← readData_eq_neg_one_iff hrej, ← numbers_lt_iff hrej]
    constructor
    · rintro ⟨hlookup, hfails, hsubs, hnums⟩
      obtain ⟨hs, hJ⟩ := (subscripts_lt_iff hrej).1 hsubs
      exact ⟨hlookup, or_iff_not_imp_left.2 hfails, hs, hJ, hnums⟩
    · rintro ⟨hlookup, hfails, hs, hJ, hnums⟩
      exact ⟨hlookup, or_iff_not_imp_left.1 hfails, (subscripts_lt_iff hrej).2 ⟨hs, hJ⟩, hnums⟩

/-- Without entries and inodes the checks are void. With them, the first subscript of a call is
not compared with the size of the array. -/
theorem not_bounded :
    ((⟨fun _ => 0⟩ : Image).fsEntries = 0 ∧ (⟨fun _ => 0⟩ : Image).fsInodes = 0 ∧
        ¬Bounded ⟨fun _ => 0⟩ 0 0 4096 4) ∧
      (fileImage 40).fsEntries = 1 ∧ (fileImage 40).fsInodes = 1 ∧ (fileImage 40).fsDblocks = 1 ∧
        ¬Bounded (fileImage 40) 0 0 4190208 4 := by
  refine ⟨⟨by decide, by decide, fun h => ?_⟩, by decide, by decide, by decide, fun h => ?_⟩
  · exact absurd (h.lookup _ rfl) (by decide)
  · have hfirst : (1023 : Word) ∈ ((fileImage 40).readDataTraced 0 4190208 4).2.subscripts :=
      (mem_subscripts (not_gt_sub_one (by decide))).2 (Or.inl (by decide))
    exact absurd (h.subscripts _ hfirst) (by decide)

end Image

end MpOS
