import MpOS.Filesys

/-!
# The block walk of `read_data`

`read_data` computes the first and the last block of a request, copies the blocks
before the last one in whole, and then copies what is left of the requested length,
whatever that is. It stops early at a block number out of range. `DataResult` says what
it returns and stores in each of these cases, and `readData_result` that there are
no others. All its arithmetic is in 32 bits, so the last block is not always the
last block of the request, or the file's.
-/

namespace MpOS

/-! ## Words -/

/-- A small count, as the word the code holds. -/
theorem toWord_natCast {n : ℕ} (h : n < 2 ^ 32) : toWord n = UInt32.ofNat n := by
  have hmod : ((n : ℤ) % 2 ^ 32).toNat = n := by omega
  rw [toWord, hmod]

theorem toNat_word {n : ℕ} (h : n < 2 ^ 32) : (UInt32.ofNat n).toNat = n :=
  UInt32.toNat_ofNat_of_lt' h

theorem toInt_ofNat {n : ℕ} (h : n < 2 ^ 31) : toInt (UInt32.ofNat n) = n := by
  have hn : (UInt32.ofNat n).toBitVec.toNat = n := toNat_word (by omega)
  have hlt : 2 * (UInt32.ofNat n).toBitVec.toNat < 2 ^ 32 := by omega
  rw [toInt, Int32.toInt, UInt32.toBitVec_toInt32, BitVec.toInt_eq_toNat_of_lt hlt, hn]

theorem ofNat_succ (n : ℕ) : UInt32.ofNat n + 1 = UInt32.ofNat (n + 1) := by
  rw [UInt32.ofNat_add]
  rfl

theorem ofNat_sub {a b : ℕ} (h : b ≤ a) :
    UInt32.ofNat a - UInt32.ofNat b = UInt32.ofNat (a - b) := by
  obtain ⟨c, rfl⟩ := Nat.exists_eq_add_of_le h
  rw [Nat.add_sub_cancel_left, UInt32.ofNat_add]
  grind

/-- A word is determined by its signed value. -/
theorem toInt_inj {w w' : Word} : toInt w = toInt w' ↔ w = w' := by
  refine ⟨fun h => ?_, congrArg toInt⟩
  have hw : w.toInt32 = w'.toInt32 := Int32.toInt_inj.1 h
  rw [← w.toUInt32_toInt32, hw, w'.toUInt32_toInt32]

theorem eq_zero_of_toInt {w : Word} (h : toInt w = 0) : w = 0 :=
  toInt_inj.1 h

/-- The failure code as a word. -/
theorem toInt_eq_neg_one_iff {w : Word} : toInt w = -1 ↔ w = 0xFFFFFFFF := by
  have hneg : toInt 0xFFFFFFFF = -1 := by decide
  rw [← hneg, toInt_inj]

/-- A check against a count minus one is a check against the count, unless that is zero. -/
theorem gt_sub_one_iff {a b : Word} : a > b - 1 ↔ b ≠ 0 ∧ b ≤ a := by
  have ha := a.toNat_lt
  have hb := b.toNat_lt
  rw [gt_iff_lt, UInt32.lt_iff_toNat_lt, UInt32.toNat_sub, UInt32.toNat_one, UInt32.le_iff_toNat_le,
    ne_eq, ← UInt32.toNat_inj, UInt32.toNat_zero]
  omega

/-- The bounds checks `i > n - 1` of `filesys.c` pass below `n`. -/
theorem not_gt_sub_one {a b : Word} (h : a < b) : ¬a > b - 1 := by
  rw [gt_sub_one_iff, not_and, UInt32.not_le]
  exact fun _ => h

/-- The block of an offset. -/
theorem div_blockSize (w : Word) : w / blockSize = UInt32.ofNat (w.toNat / 4096) := by
  have hw := w.toNat_lt
  rw [← UInt32.toNat_inj, UInt32.toNat_div, toNat_word (by omega)]
  rfl

/-- The offset within the block. -/
theorem mod_blockSize (w : Word) : w % blockSize = UInt32.ofNat (w.toNat % 4096) := by
  rw [← UInt32.toNat_inj, UInt32.toNat_mod, toNat_word (by omega)]
  rfl

/-- What is left of the block. -/
theorem blockSize_sub_mod (w : Word) :
    blockSize - w % blockSize = UInt32.ofNat (4096 - w.toNat % 4096) := by
  have h4096 : blockSize = UInt32.ofNat 4096 := by decide
  rw [mod_blockSize, h4096, ofNat_sub (by omega)]

namespace Image

variable (img : Image) (inode : Word)

/-- The byte of a file at a position. -/
def byteAt (p : ℕ) : Byte :=
  img.mem (img.getDblockMem (img.dblock inode (UInt32.ofNat (p / 4096))) (UInt32.ofNat (p % 4096)))

/-- The contents of a file. -/
def contents : List Byte :=
  (List.range (img.length inode).toNat).map (img.byteAt inode)

/-- The bytes of a file from a position on. -/
def slice (pos n : ℕ) : List Byte :=
  (List.range n).map fun j => img.byteAt inode (pos + j)

/-- `read_data` gives up at block `i`. -/
def Blocked (i : Word) : Prop :=
  img.dblock inode i > img.fsDblocks - 1

/-- `read_data` fails for the inode. -/
def Rejected : Prop :=
  inode > img.fsInodes - 1

/-- `end_block` of `read_data`. -/
def endBlock (offset length : Word) : Word :=
  if img.length inode < offset + length then (img.length inode - 1) / blockSize
  else (offset + length - 1) / blockSize

/-- A file has as many bytes as its inode says. -/
theorem length_contents : (img.contents inode).length = (img.length inode).toNat := by
  rw [contents, List.length_map, List.length_range]

variable {img inode}

@[simp] theorem length_slice (pos n : ℕ) : (img.slice inode pos n).length = n := by
  rw [slice, List.length_map, List.length_range]

theorem slice_zero (pos : ℕ) : img.slice inode pos 0 = [] :=
  rfl

/-- Two slices that meet are one. -/
theorem slice_add (pos a b : ℕ) :
    img.slice inode pos (a + b) = img.slice inode pos a ++ img.slice inode (pos + a) b := by
  rw [slice, List.range_add, List.map_append, List.map_map]
  refine congrArg (_ ++ ·) (List.map_congr_left fun j _ => ?_)
  rw [Function.comp_apply, Nat.add_assoc]

/-- Inside the file a slice is a part of its contents. -/
theorem slice_eq_take_drop {pos n : ℕ} (h : pos + n ≤ (img.length inode).toNat) :
    img.slice inode pos n = ((img.contents inode).drop pos).take n := by
  refine List.ext_getElem ?_ fun i h₁ h₂ => ?_
  · rw [length_slice, List.length_take, List.length_drop, length_contents]
    omega
  · simp [slice, contents]

/-! ## The walk -/

/-- A copy from inside one block is a slice of the file. -/
theorem memcpy_block {I off n : ℕ} (h : off + n ≤ 4096) :
    img.memcpy (img.getDblockMem (img.dblock inode (UInt32.ofNat I)) (UInt32.ofNat off))
        (UInt32.ofNat n) = img.slice inode (4096 * I + off) n := by
  rw [memcpy, slice, toNat_word (by omega)]
  refine List.map_congr_left fun j hj => ?_
  rw [List.mem_range] at hj
  have hdiv : (4096 * I + off + j) / 4096 = I := by omega
  have hmod : (4096 * I + off + j) % 4096 = off + j := by omega
  rw [byteAt, hdiv, hmod, bytesAt, getDblockMem, getDblockMem, UInt32.ofNat_add, UInt32.add_assoc]

/-- The address of the last copy of a walk over `b` blocks, from offset `off` of block `I`. -/
def lastCopy (img : Image) (inode : Word) (I b off : ℕ) : Word :=
  img.getDblockMem (img.dblock inode (UInt32.ofNat (I + b)))
    (UInt32.ofNat (if b = 0 then off else 0))

variable {b I off : ℕ} {copyLen start : Word}

/-- A walk that finds all its blocks copies each but the last in whole, and then what is left of
the request. -/
theorem readBlocks_complete (length total : Word) (stored : List Byte)
    (hb : ∀ j, I < j → j ≤ I + b → ¬img.Blocked inode (UInt32.ofNat j)) (hoff : off < 4096)
    (hcopy : copyLen = UInt32.ofNat (4096 - off))
    (hstart : start = img.getDblockMem (img.dblock inode (UInt32.ofNat I)) (UInt32.ofNat off)) :
    img.readBlocks inode b (UInt32.ofNat I) copyLen length total start stored =
      (total + length, stored ++ (img.slice inode (4096 * I + off) (4096 * b - off) ++
        img.memcpy (img.lastCopy inode I b off) (length - UInt32.ofNat (4096 * b - off)))) := by
  subst hcopy hstart
  induction b generalizing I off length total stored with
  | zero =>
    have hzero : 4096 * 0 - off = 0 := by omega
    have hnone : length - UInt32.ofNat 0 = length := UInt32.sub_zero length
    rw [readBlocks, hzero, slice_zero, List.nil_append, lastCopy, if_pos rfl, Nat.add_zero, hnone]
  | succ b ih =>
    have hok : ¬img.dblock inode (UInt32.ofNat (I + 1)) > img.fsDblocks - 1 :=
      hb (I + 1) (by omega) (by omega)
    have hblock : blockSize = UInt32.ofNat (4096 - 0) := by decide
    have hzero : (0 : Word) = UInt32.ofNat 0 := by decide
    have hsum : 4096 * (b + 1) - off = 4096 - off + (4096 * b - 0) := by omega
    have hnext : 4096 * I + off + (4096 - off) = 4096 * (I + 1) + 0 := by omega
    have hlast : img.lastCopy inode (I + 1) b 0 = img.lastCopy inode I (b + 1) off := by
      rw [lastCopy, lastCopy, ite_self, if_neg b.succ_ne_zero, Nat.add_right_comm, Nat.add_assoc]
    rw [readBlocks, ofNat_succ, if_neg hok, memcpy_block (by omega), hblock, hzero,
      ih _ _ _ (fun j h₁ h₂ => hb j (by omega) (by omega)) (by omega), hlast, hsum, slice_add,
      hnext, UInt32.ofNat_add]
    refine Prod.ext (by grind) ?_
    have hsub : length - UInt32.ofNat (4096 - off) - UInt32.ofNat (4096 * b - 0) =
        length - (UInt32.ofNat (4096 - off) + UInt32.ofNat (4096 * b - 0)) := by
      grind
    rw [hsub, List.append_assoc, List.append_assoc]

/-- A walk that does not find all its blocks returns the blocks before the first one missing. -/
theorem readBlocks_stopped {J : ℕ} (length total : Word) (stored : List Byte) (hI : I < J)
    (hJ : J ≤ I + b) (hb : ∀ j, I < j → j < J → ¬img.Blocked inode (UInt32.ofNat j))
    (hblocked : img.Blocked inode (UInt32.ofNat J)) (hoff : off < 4096)
    (hcopy : copyLen = UInt32.ofNat (4096 - off))
    (hstart : start = img.getDblockMem (img.dblock inode (UInt32.ofNat I)) (UInt32.ofNat off)) :
    img.readBlocks inode b (UInt32.ofNat I) copyLen length total start stored =
      (total + UInt32.ofNat (4096 * (J - I) - off),
        stored ++ img.slice inode (4096 * I + off) (4096 * (J - I) - off)) := by
  subst hcopy hstart
  induction b generalizing I off length total stored with
  | zero => exact absurd hJ (by omega)
  | succ b ih =>
    rw [readBlocks, ofNat_succ, memcpy_block (by omega)]
    rcases Nat.eq_or_lt_of_le hI with rfl | hlt
    · have hsum : 4096 * (I + 1 - I) - off = 4096 - off := by omega
      have hstop : img.dblock inode (UInt32.ofNat (I + 1)) > img.fsDblocks - 1 := hblocked
      rw [if_pos hstop, Nat.succ_eq_add_one, hsum]
    · have hok : ¬img.dblock inode (UInt32.ofNat (I + 1)) > img.fsDblocks - 1 :=
        hb (I + 1) (by omega) hlt
      have hblock : blockSize = UInt32.ofNat (4096 - 0) := by decide
      have hzero : (0 : Word) = UInt32.ofNat 0 := by decide
      have hsum : 4096 * (J - I) - off = 4096 - off + (4096 * (J - (I + 1)) - 0) := by omega
      have hnext : 4096 * I + off + (4096 - off) = 4096 * (I + 1) + 0 := by omega
      rw [if_neg hok, hblock, hzero, ih _ _ _ hlt (by omega)
        (fun j h₁ h₂ => hb j (by omega) (by omega)) (by omega), hsum, slice_add, hnext,
        UInt32.ofNat_add, List.append_assoc, UInt32.add_assoc]

/-! ## `read_data` -/

/-- What `read_data` can return and store. -/
inductive DataResult (img : Image) (inode offset length : Word) : ℤ × List Byte → Prop
  | rejected : img.Rejected inode → DataResult img inode offset length (-1, [])
  | nothing : ¬img.Rejected inode →
      img.Blocked inode (UInt32.ofNat (offset.toNat / 4096)) ∨
        (img.endBlock inode offset length).toNat < offset.toNat / 4096 →
      DataResult img inode offset length (0, [])
  | stopped (J : ℕ) : ¬img.Rejected inode → offset.toNat / 4096 < J →
      J ≤ (img.endBlock inode offset length).toNat →
      (∀ j, offset.toNat / 4096 ≤ j → j < J → ¬img.Blocked inode (UInt32.ofNat j)) →
      img.Blocked inode (UInt32.ofNat J) →
      DataResult img inode offset length
        (toInt (UInt32.ofNat (4096 * J - offset.toNat)),
          img.slice inode offset.toNat (4096 * J - offset.toNat))
  | complete (E : ℕ) : ¬img.Rejected inode → E = (img.endBlock inode offset length).toNat →
      offset.toNat / 4096 ≤ E →
      (∀ j, offset.toNat / 4096 ≤ j → j ≤ E → ¬img.Blocked inode (UInt32.ofNat j)) →
      DataResult img inode offset length
        (toInt length, img.slice inode offset.toNat (4096 * E - offset.toNat) ++
          img.memcpy (img.lastCopy inode (offset.toNat / 4096) (E - offset.toNat / 4096)
            (offset.toNat % 4096)) (length - UInt32.ofNat (4096 * E - offset.toNat)))

/-- Where the last block of the walk is the last block of the request, the copies are the
request. -/
theorem slice_append_lastCopy {pos n E : ℕ} (hE : pos / 4096 ≤ E) (hlo : 4096 * E < pos + n)
    (hhi : pos + n ≤ 4096 * (E + 1)) :
    img.slice inode pos (4096 * E - pos) ++
        img.memcpy (img.lastCopy inode (pos / 4096) (E - pos / 4096) (pos % 4096))
          (UInt32.ofNat n - UInt32.ofNat (4096 * E - pos)) = img.slice inode pos n := by
  have hlast : pos / 4096 + (E - pos / 4096) = E := by omega
  rw [ofNat_sub (by omega), lastCopy, hlast]
  rcases Nat.eq_or_lt_of_le hE with rfl | hlt
  · have hzero : 4096 * (pos / 4096) - pos = 0 := by omega
    have hpos : 4096 * (pos / 4096) + pos % 4096 = pos := by omega
    rw [hzero, slice_zero, List.nil_append, if_pos (by omega), memcpy_block (by omega), hpos,
      Nat.sub_zero]
  · have hpos : 4096 * E + 0 = pos + (4096 * E - pos) := by omega
    have hsum : n = 4096 * E - pos + (n - (4096 * E - pos)) := by omega
    rw [if_neg (by omega), memcpy_block (by omega), hpos, ← slice_add, ← hsum]

variable (img inode)

/-- The block `read_data` takes for the last one of `n` bytes. -/
def lastBlock (n : ℕ) : ℕ :=
  if n = 0 then 0xFFFFF else (n - 1) / 4096

/-- The last block of a file of `w` bytes, with the wrap of the empty file. -/
theorem toNat_sub_one_div (w : Word) : ((w - 1) / blockSize).toNat = lastBlock w.toNat := by
  have hw := w.toNat_lt
  have hsub := (w - 1).toNat_lt
  rw [div_blockSize, toNat_word (by omega), lastBlock, UInt32.toNat_sub, UInt32.toNat_one]
  split_ifs with h
  · rw [h]
  · omega

/-- The walk ends at the last block of the file or of the request, whichever is shorter, where
the end of the request is taken modulo 2^32. -/
theorem toNat_endBlock (offset length : Word) :
    (img.endBlock inode offset length).toNat =
      lastBlock (min (img.length inode).toNat ((offset.toNat + length.toNat) % 2 ^ 32)) := by
  unfold endBlock
  split_ifs with h <;> rw [UInt32.lt_iff_toNat_lt, UInt32.toNat_add] at h
  · rw [toNat_sub_one_div, Nat.min_eq_left h.le]
  · rw [toNat_sub_one_div, UInt32.toNat_add, Nat.min_eq_right (Nat.le_of_not_lt h)]

/-- Block indices stay below the number of blocks that 32 bits address. -/
theorem endBlock_lt (offset length : Word) :
    (img.endBlock inode offset length).toNat < 2 ^ 20 := by
  have hw := offset.toNat_lt
  rw [toNat_endBlock, lastBlock]
  split_ifs
  · omega
  · omega

/-- The first block of a walk that is out of range, if there is one. -/
theorem exists_blocked (I b : ℕ) :
    (∀ j, I ≤ j → j ≤ b → ¬img.Blocked inode (UInt32.ofNat j)) ∨
      ∃ J, I ≤ J ∧ J ≤ b ∧ img.Blocked inode (UInt32.ofNat J) ∧
        ∀ j, I ≤ j → j < J → ¬img.Blocked inode (UInt32.ofNat j) := by
  classical
  by_cases h : ∃ j, I ≤ j ∧ j ≤ b ∧ img.Blocked inode (UInt32.ofNat j)
  · obtain ⟨hI, hb, hJ⟩ := Nat.find_spec h
    refine Or.inr ⟨Nat.find h, hI, hb, hJ, fun j hj hlt hbj => ?_⟩
    exact Nat.find_min h hlt ⟨hj, by omega, hbj⟩
  · exact Or.inl fun j hI hb hj => h ⟨j, hI, hb, hj⟩

/-- The checks of `read_data`, then its walk over the blocks. -/
theorem readData_eq_ite (offset length : Word) :
    img.readData inode offset length =
      if inode > img.fsInodes - 1 then (-1, [])
      else if img.dblock inode (offset / blockSize) > img.fsDblocks - 1 then (0, [])
      else if offset / blockSize > img.endBlock inode offset length then (0, [])
      else
        let r := img.readBlocks inode
          ((img.endBlock inode offset length).toNat - (offset / blockSize).toNat)
          (offset / blockSize) (blockSize - offset % blockSize) length 0
          (img.getDblockMem (img.dblock inode (offset / blockSize)) (offset % blockSize)) []
        (toInt r.1, r.2) :=
  rfl

/-- Every return of `read_data` is one of those `DataResult` lists. -/
theorem readData_result (offset length : Word) :
    DataResult img inode offset length (img.readData inode offset length) := by
  have hend := img.endBlock_lt inode offset length
  have hlt := offset.toNat_lt
  rw [readData_eq_ite, div_blockSize, mod_blockSize, ← mod_blockSize, blockSize_sub_mod,
    mod_blockSize, toNat_word (by omega : offset.toNat / 4096 < 2 ^ 32)]
  by_cases hrej : inode > img.fsInodes - 1
  · rw [if_pos hrej]
    exact .rejected hrej
  by_cases hstart : img.dblock inode (UInt32.ofNat (offset.toNat / 4096)) > img.fsDblocks - 1
  · rw [if_neg hrej, if_pos hstart]
    exact .nothing hrej (Or.inl hstart)
  by_cases hgt : UInt32.ofNat (offset.toNat / 4096) > img.endBlock inode offset length
  · rw [if_neg hrej, if_neg hstart, if_pos hgt]
    rw [gt_iff_lt, UInt32.lt_iff_toNat_lt, toNat_word (by omega)] at hgt
    exact .nothing hrej (Or.inr hgt)
  rw [if_neg hrej, if_neg hstart, if_neg hgt]
  rw [gt_iff_lt, UInt32.lt_iff_toNat_lt, toNat_word (by omega), Nat.not_lt] at hgt
  have hmod : offset.toNat % 4096 < 4096 := Nat.mod_lt _ (by omega)
  have hpos : 4096 * (offset.toNat / 4096) + offset.toNat % 4096 = offset.toNat := by omega
  generalize hE : (img.endBlock inode offset length).toNat = E at hgt hend ⊢
  have hcount : ∀ J, 4096 * (J - offset.toNat / 4096) - offset.toNat % 4096 =
      4096 * J - offset.toNat := by
    intro J
    omega
  rcases img.exists_blocked inode (offset.toNat / 4096) E with hall | ⟨J, hI, hJ, hblocked, hb⟩
  · rw [readBlocks_complete _ _ _ (fun j h₁ h₂ => hall j (by omega) (by omega)) hmod rfl rfl,
      hpos, hcount, List.nil_append, UInt32.zero_add]
    exact .complete E hrej hE.symm hgt hall
  · have hne : offset.toNat / 4096 < J := by
      rcases Nat.eq_or_lt_of_le hI with rfl | h
      · exact absurd hblocked hstart
      · exact h
    rw [readBlocks_stopped _ _ _ hne (by omega) (fun j h₁ h₂ => hb j (by omega) h₂) hblocked hmod
      rfl rfl, hpos, hcount, List.nil_append, UInt32.zero_add]
    exact .stopped J hrej hne (hE ▸ hJ) hb hblocked

variable {img inode} {offset length : Word}

/-- With every block up to the last one in range the walk is complete. -/
theorem readData_eq_complete {E : ℕ} (hrej : ¬img.Rejected inode)
    (hend : (img.endBlock inode offset length).toNat = E) (hs : offset.toNat / 4096 ≤ E)
    (hall : ∀ j, offset.toNat / 4096 ≤ j → j ≤ E → ¬img.Blocked inode (UInt32.ofNat j)) :
    img.readData inode offset length =
      (toInt length, img.slice inode offset.toNat (4096 * E - offset.toNat) ++
        img.memcpy (img.lastCopy inode (offset.toNat / 4096) (E - offset.toNat / 4096)
          (offset.toNat % 4096)) (length - UInt32.ofNat (4096 * E - offset.toNat))) := by
  have hr := img.readData_result inode offset length
  generalize img.readData inode offset length = r at hr
  cases hr with
  | rejected hrej' => exact absurd hrej' hrej
  | nothing _ hno =>
    rcases hno with hb | hgt
    · exact absurd hb (hall _ (Nat.le_refl _) hs)
    · omega
  | stopped J _ hlt hJ _ hb => exact absurd hb (hall J hlt.le (hend ▸ hJ))
  | complete E' _ hE' _ _ =>
    obtain rfl := hE'.trans hend
    rfl

/-- At the first block out of range the walk stops, with what lies before it. -/
theorem readData_eq_stopped {J : ℕ} (hrej : ¬img.Rejected inode) (hs : offset.toNat / 4096 ≤ J)
    (hJ : J ≤ (img.endBlock inode offset length).toNat)
    (hall : ∀ j, offset.toNat / 4096 ≤ j → j < J → ¬img.Blocked inode (UInt32.ofNat j))
    (hb : img.Blocked inode (UInt32.ofNat J)) :
    img.readData inode offset length =
      (toInt (UInt32.ofNat (4096 * J - offset.toNat)),
        img.slice inode offset.toNat (4096 * J - offset.toNat)) := by
  have hr := img.readData_result inode offset length
  generalize img.readData inode offset length = r at hr
  cases hr with
  | rejected hrej' => exact absurd hrej' hrej
  | nothing _ hno =>
    -- the first block of the request is the one out of range
    obtain rfl : offset.toNat / 4096 = J := by
      rcases hno with hb' | hgt
      · by_contra hne
        exact hall _ (Nat.le_refl _) (by omega) hb'
      · omega
    have hzero : 4096 * (offset.toNat / 4096) - offset.toNat = 0 := by omega
    rw [hzero, slice_zero]
    rfl
  | stopped J' _ hs' _ hall' hb' =>
    obtain rfl : J' = J := by
      rcases Nat.lt_trichotomy J' J with h | h | h
      · exact absurd hb' (hall J' hs'.le h)
      · exact h
      · exact absurd hb (hall' J hs h)
    rfl
  | complete E _ hE _ hall' => exact absurd hb (hall' J hs (by omega))

/-- Within the file the last block is the one the request ends in. -/
theorem toNat_endBlock_of_le (hlen : 0 < length.toNat)
    (hle : offset.toNat + length.toNat ≤ (img.length inode).toNat) :
    (img.endBlock inode offset length).toNat = (offset.toNat + length.toNat - 1) / 4096 := by
  have hlt := (img.length inode).toNat_lt
  rw [toNat_endBlock, Nat.mod_eq_of_lt (by omega), Nat.min_eq_right hle, lastBlock,
    if_neg (by omega)]

end Image

end MpOS
