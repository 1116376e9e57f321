import MpOS.State

/-!
# The filesystem image (`filesys.c`)

An image is the memory from `FILEMEM` on, at 32-bit offsets. Block 0 holds the header
and the directory entries, the blocks after it the inodes, and the blocks after
those the data. All lookups are address arithmetic on that memory, in 32 bits, as the
kernel does it. `readData` returns the bytes it stored, in order from the start of
the caller's buffer.
-/

namespace MpOS

/-- The filesystem image : the byte at each offset from `FILEMEM`. -/
structure Image where
  mem : Word → Byte

/-- `dentry_t` : 64 bytes. -/
structure Dentry where
  bytes : ℕ → Byte

/-- `name[j]`. -/
def Dentry.name (d : Dentry) (j : ℕ) : Byte :=
  d.bytes j

/-- `type`. -/
def Dentry.type (d : Dentry) : Word :=
  wordAt d.bytes 32

/-- `inode`. -/
def Dentry.inode (d : Dentry) : Word :=
  wordAt d.bytes 36

/-- `NAMELEN`. -/
def nameLen : ℕ :=
  32

/-- `DENTRYSIZE`. -/
def dentrySize : Word :=
  64

/-- `BLOCKSIZE`. -/
def blockSize : Word :=
  4096

/-- A `uint32_t` returned as an `int32_t`. -/
def toInt (w : Word) : ℤ :=
  w.toInt32.toInt

/-- An `int32_t` passed as a `uint32_t`. -/
def toWord (n : ℤ) : Word :=
  UInt32.ofNat (n % 2 ^ 32).toNat

namespace Image

variable (img : Image)

/-- The memory from an offset on. -/
def bytesAt (a : Word) (i : ℕ) : Byte :=
  img.mem (a + UInt32.ofNat i)

/-- The little-endian word at an offset. -/
def word (a : Word) : Word :=
  wordAt (img.bytesAt a) 0

/-- `fs_entries`. -/
def fsEntries : Word :=
  img.word 0

/-- `fs_inodes`. -/
def fsInodes : Word :=
  img.word 4

/-- `fs_dblocks`. -/
def fsDblocks : Word :=
  img.word 8

/-- The directory entry of an index. -/
def dentry (i : Word) : Dentry :=
  ⟨img.bytesAt (dentrySize * (i + 1))⟩

/-- `length` of an inode. -/
def length (inode : Word) : Word :=
  img.word (blockSize * (1 + inode))

/-- `dblock[i]` of an inode, for any subscript. -/
def dblock (inode i : Word) : Word :=
  img.word (blockSize * (1 + inode) + 4 + 4 * i)

/-- `get_dblock_mem`, as an offset from `FILEMEM`. -/
def getDblockMem (idx offset : Word) : Word :=
  (1 + img.fsInodes + idx) * blockSize + offset

/-- The bytes `memcpy` copies from an offset. -/
def memcpy (start n : Word) : List Byte :=
  (List.range n.toNat).map (img.bytesAt start)

/-- The inner loop of `read_dentry_by_name` from `j` on, with `n` characters left to
compare. -/
def matchName (fname name : ℕ → Byte) : (n j : ℕ) → Bool
  | 0, j => fname j == 0
  | n + 1, j =>
    if fname j = name j ∧ fname j = 0 then true
    else if fname j ≠ name j then false
    else matchName fname name n (j + 1)

/-- `read_dentry_by_name`. `none` is its failure. -/
def readDentryByName (fname : ℕ → Byte) : Option Dentry :=
  ((List.range img.fsEntries.toNat).find? fun i =>
    matchName fname (img.dentry (UInt32.ofNat i)).name nameLen 0).map fun i =>
      img.dentry (UInt32.ofNat i)

/-- `read_dentry_by_index`. `none` is its failure. -/
def readDentryByIndex (index : Word) : Option Dentry :=
  if index > img.fsEntries - 1 then none else some (img.dentry index)

/-- The block loop of `read_data` and the copy after it, with `n` blocks left to loop over :
`total_len` and the bytes stored. -/
def readBlocks (inode : Word) :
    (n : ℕ) → (i copyLen length totalLen start : Word) → List Byte → Word × List Byte
  | 0, _, _, length, totalLen, start, stored =>
    (totalLen + length, stored ++ img.memcpy start length)
  | n + 1, i, copyLen, length, totalLen, start, stored =>
    let stored := stored ++ img.memcpy start copyLen
    let totalLen := totalLen + copyLen
    let length := length - copyLen
    if img.dblock inode (i + 1) > img.fsDblocks - 1 then (totalLen, stored)
    else readBlocks inode n (i + 1) blockSize length totalLen
      (img.getDblockMem (img.dblock inode (i + 1)) 0) stored

/-- `read_data` : its return value and the bytes it stored. -/
def readData (inode offset length : Word) : ℤ × List Byte :=
  let startBlock := offset / blockSize
  if inode > img.fsInodes - 1 then (-1, [])
  else
    let endBlock :=
      if img.length inode < offset + length then (img.length inode - 1) / blockSize
      else (offset + length - 1) / blockSize
    if img.dblock inode startBlock > img.fsDblocks - 1 then (0, [])
    else if startBlock > endBlock then (0, [])
    else
      let r := img.readBlocks inode (endBlock.toNat - startBlock.toNat) startBlock
        (blockSize - offset % blockSize) length 0
        (img.getDblockMem (img.dblock inode startBlock) (offset % blockSize)) []
      (toInt r.1, r.2)

end Image

/-! ## Names -/

/-- The name of a file : its field up to a NUL. -/
def Dentry.nameChars (d : Dentry) : List Byte :=
  ((List.range nameLen).map d.name).takeWhile (· ≠ 0)

theorem CString.mem_eq_zero_iff (s : CString) (j : ℕ) : s.mem j = 0 ↔ s.chars.length ≤ j := by
  unfold mem
  rcases Nat.lt_or_ge j s.chars.length with hj | hj
  · rw [List.getD_eq_getElem _ _ hj]
    refine iff_of_false (fun h => s.nul ?_) (by omega)
    exact h ▸ List.getElem_mem hj
  · rw [List.getD_eq_default _ _ hj]
    exact iff_of_true rfl hj

theorem CString.drop_eq_cons (s : CString) {j : ℕ} (h : s.mem j ≠ 0) :
    s.chars.drop j = s.mem j :: s.chars.drop (j + 1) := by
  have hj : j < s.chars.length := by
    rw [ne_eq, s.mem_eq_zero_iff] at h
    omega
  rw [List.drop_eq_getElem_cons hj, mem, List.getD_eq_getElem _ _ hj]

namespace Image

/-- The comparison loop compares the rests of the two names. -/
theorem matchName_iff (s : CString) (name : ℕ → Byte) (n j : ℕ) :
    matchName s.mem name n j = true ↔
      s.chars.drop j = ((List.range' j n).map name).takeWhile (· ≠ 0) := by
  induction n generalizing j with
  | zero => simp [matchName, s.mem_eq_zero_iff]
  | succ n ih =>
    rw [List.range'_succ, List.map_cons, List.takeWhile_cons, matchName]
    by_cases h0 : s.mem j = 0
    · rw [List.drop_eq_nil_of_le ((s.mem_eq_zero_iff j).1 h0), h0]
      by_cases hn : name j = 0
      · simp [hn]
      · simp [hn, Ne.symm hn]
    · rw [s.drop_eq_cons h0]
      by_cases hn : s.mem j = name j
      · rw [if_neg (by simp [h0]), if_neg (by simp [hn]), ih]
        simp [← hn, h0]
      · rw [if_neg (by simp [h0]), if_pos hn]
        by_cases hz : name j = 0
        · simp [hz]
        · simp [hz, hn]

/-- A lookup fails exactly when no file has the name. -/
theorem readDentryByName_eq_none_iff (img : Image) (filename : CString) :
    img.readDentryByName filename.mem = none ↔
      ∀ i < img.fsEntries.toNat, (img.dentry (UInt32.ofNat i)).nameChars ≠ filename.chars := by
  have hname : ∀ i : ℕ,
      matchName filename.mem (img.dentry (UInt32.ofNat i)).name nameLen 0 = true ↔
        (img.dentry (UInt32.ofNat i)).nameChars = filename.chars := by
    intro i
    rw [matchName_iff, List.drop_zero, Dentry.nameChars, List.range_eq_range', eq_comm]
  simp only [readDentryByName, Option.map_eq_none_iff, List.find?_eq_none, List.mem_range, hname,
    ne_eq]

end Image

end MpOS
