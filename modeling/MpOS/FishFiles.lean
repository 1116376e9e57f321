import MpOS.FishFrames
import MpOS.UserPrograms

/-!
# The frames on the disk

The text that `add_frames` reads is what the reads of the kernel deliver, which go on behind
the end of a file with the rest of its last block (`addFrames_eq`). `frames_alternate` says
what the screen shows of it. The frames of the fish are eleven rows with a newline at the end of
each : what the blocks hold behind them is a twelfth, longer than the screen (`fits_of_le`).
-/

namespace MpOS

namespace Fish

open UserProgram (blockCount)

open Machine (paddedContents)

variable {img : Image}

/-- The `read` of the kernel, from the descriptor of a file. -/
def readByte (img : Image) : ReadByte Fd := fun e =>
  let r := img.readData e.inode e.filePosition 1
  (r.1, r.2, { e with filePosition := e.filePosition + toWord r.1 })

/-- `read` of a byte from an open file. -/
theorem readFile_readByte {table : Files} {fd : ℕ} (h2 : 2 ≤ fd) (h7 : fd ≤ 7)
    (hopen : Kernel.Opened (table fd) .fileop) {buf : Word} (hbuf : buf ≠ 0) :
    Files.readFile img table fd buf 1 =
      some (⟨(readByte img (table fd)).1, (readByte img (table fd)).2.1⟩,
        Function.update table fd (readByte img (table fd)).2.2) :=
  UserProgram.readFile_of_opened h2 h7 hopen hbuf 1

/-- What the reads of an open file are still to deliver. -/
def Remains (img : Image) (e : Fd) (l : List Byte) : Prop :=
  img.InodeOk e.inode ∧ (img.length e.inode ≠ 0 ∨ img.Blocked e.inode 0) ∧
    ∃ pos ≤ 4096 * blockCount img e.inode, e.filePosition = UInt32.ofNat pos ∧
      l = img.slice e.inode pos (4096 * blockCount img e.inode - pos)

/-- The kernel's read of one byte takes the next of the bytes that remain. -/
theorem sameReads_readByte : SameReads (readByte img) readText (Remains img) := by
  rintro ⟨ops, inode, filePosition, flags⟩ l ⟨hi, hempty, pos, hpos, hat, rfl⟩
  obtain rfl : filePosition = UInt32.ofNat pos := hat
  simp only at hi hempty hpos ⊢
  have hone : (1 : Word) = UInt32.ofNat 1 := rfl
  rcases Nat.lt_or_eq_of_le hpos with hlt | rfl
  · have hlen := hi.length_le
    have hread := UserProgram.readData_within hi (by decide : 0 < 1)
      (by omega : pos % 4096 + 1 ≤ 4096) (by rw [blockCount] at hlt; omega)
    have hsplit : 4096 * blockCount img inode - pos =
        1 + (4096 * blockCount img inode - (pos + 1)) := by omega
    have hbyte : img.slice inode pos 1 = [img.byteAt inode pos] := rfl
    have hstart : readByte img ⟨ops, inode, UInt32.ofNat pos, flags⟩ =
        (1, [img.byteAt inode pos], ⟨ops, inode, UInt32.ofNat (pos + 1), flags⟩) := by
      rw [readByte, hone, hread, hbyte, UInt32.ofNat_add]
      rfl
    rw [hstart, hsplit, Image.slice_add, hbyte]
    exact ⟨rfl, rfl, hi, hempty, pos + 1, hlt, rfl, rfl⟩
  · have hread := UserProgram.readData_behind hi (by decide : 0 < 1) (by decide) hempty
    have hstart : readByte img ⟨ops, inode, UInt32.ofNat (4096 * blockCount img inode), flags⟩ =
        (0, [], ⟨ops, inode, UInt32.ofNat (4096 * blockCount img inode), flags⟩) := by
      rw [readByte, hone, hread]
      exact congrArg (fun position => ((0 : ℤ), ([] : List Byte), Fd.mk ops inode position flags))
        (UInt32.add_zero _)
    rw [hstart, Nat.sub_self]
    refine ⟨rfl, rfl, hi, hempty, _, le_rfl, rfl, ?_⟩
    simp only [Nat.sub_self]
    rfl

/-- Just opened, all the file's blocks remain. -/
theorem remains_opened {inode : Word} (hi : img.InodeOk inode)
    (hempty : img.length inode ≠ 0 ∨ img.Blocked inode 0) :
    Remains img (Kernel.openedFd .fileop inode) (paddedContents img inode) :=
  ⟨hi, hempty, 0, Nat.zero_le _, rfl, Machine.paddedContents_eq img inode⟩

/-- A file is delivered in whole blocks. -/
theorem length_paddedContents (inode : Word) :
    (paddedContents img inode).length = 4096 * blockCount img inode := by
  rw [Machine.paddedContents_eq, Image.length_slice]

variable {inode0 inode1 : Word} {n : ℕ}

/-- `add_frames` of two files on the disk gives `mp1_ioctl` the nodes of what their blocks hold. -/
theorem addFrames_eq (hi0 : img.InodeOk inode0) (hi1 : img.InodeOk inode1)
    (hempty0 : img.length inode0 ≠ 0 ∨ img.Blocked inode0 0)
    (hempty1 : img.length inode1 ≠ 0 ∨ img.Blocked inode1 0) {passes : ℕ}
    (h0 : 4096 * blockCount img inode0 + 2 ≤ passes)
    (h1 : 4096 * blockCount img inode1 + 2 ≤ passes) :
    addFrames (readByte img) passes (Kernel.openedFd .fileop inode0)
        (Kernel.openedFd .fileop inode1) =
      some (pictureNodes ((paddedContents img inode0).splitOn 10)
        ((paddedContents img inode1).splitOn 10) 0) := by
  rw [addFrames_congr sameReads_readByte (remains_opened hi0 hempty0) (remains_opened hi1 hempty1)]
  rw [← length_paddedContents] at h0 h1
  exact addFrames_text h0 h1

/-- The nodes of `add_frames` blink together : in one half of the period the screen shows the one
file and in the other half the other, and everywhere else it stays as it was. What it shows of a
file goes on behind its end with the rest of its last block, as the reads do. -/
theorem frames_alternate (hn : 80 * 25 < n) (vmem : ℕ → Byte) (hi0 : img.InodeOk inode0)
    (hi1 : img.InodeOk inode1) (hempty0 : img.length inode0 ≠ 0 ∨ img.Blocked inode0 0)
    (hempty1 : img.length inode1 ≠ 0 ∨ img.Blocked inode1 0) {passes : ℕ}
    (h0 : 4096 * blockCount img inode0 + 2 ≤ passes)
    (h1 : 4096 * blockCount img inode1 + 2 ≤ passes)
    (hfits : Fits (paddedContents img inode0) (paddedContents img inode1)) (k : ℕ) :
    ∃ nodes t, addFrames (readByte img) passes (Kernel.openedFd .fileop inode0)
        (Kernel.openedFd .fileop inode1) = some nodes ∧
      Transition.run (step n) (start vmem) (nodes.map .add ++ List.replicate k .tasklet) = some t ∧
      (∀ row col, Inked (paddedContents img inode0) (paddedContents img inode1) row col →
        row * 80 + col + 40 < 80 * 25 → t.vmem (2 * (row * 80 + col + 40)) =
          if k % 30 < 15 then charAt (paddedContents img inode0) row col
          else charAt (paddedContents img inode1) row col) ∧
      ∀ offset, (∀ row col, Inked (paddedContents img inode0) (paddedContents img inode1) row col →
        row * 80 + col + 40 < 80 * 25 → offset ≠ 2 * (row * 80 + col + 40)) →
        t.vmem offset = vmem offset := by
  obtain ⟨t, hrun, hcells⟩ := vmem_of_inked hn hfits k
  exact ⟨_, t, addFrames_eq hi0 hi1 hempty0 hempty1 h0 h1, hrun, hcells,
    fun offset hoff => vmem_of_not_inked hn hfits hrun hoff⟩

/-! ## Frames with a newline at their ends -/

/-- A file that ends with a newline has its slack as one more line. -/
theorem charAt_append (file slack : List Byte) (hslack : 10 ∉ slack) (row col : ℕ) :
    charAt (file ++ 10 :: slack) row col =
      charIn ((file.splitOn 10 ++ [slack]).getD row []) col := by
  rw [charAt, List.splitOn_append_cons_self, List.splitOn_eq_singleton hslack]

theorem place_of_charAt_ne {file slack : List Byte} (hslack : 10 ∉ slack)
    (hcols : ∀ l ∈ file.splitOn 10, l.length ≤ 80) {row col : ℕ}
    (h : charAt (file ++ 10 :: slack) row col ≠ 32) :
    row < (file.splitOn 10).length ∧ col < 80 ∨
      row = (file.splitOn 10).length ∧ col < slack.length := by
  rw [charAt_append _ _ hslack] at h
  rcases Nat.lt_or_ge row (file.splitOn 10).length with hlt | hge
  · rw [List.getD_append _ _ _ _ hlt, List.getD_eq_getElem _ _ hlt] at h
    exact .inl ⟨hlt, (lt_of_charIn_ne h).trans_le (hcols _ (List.getElem_mem hlt))⟩
  · rw [List.getD_append_right _ _ _ _ hge] at h
    obtain rfl : row = (file.splitOn 10).length := by
      by_contra hne
      rw [List.getD_eq_default _ _ (by rw [List.length_singleton]; omega)] at h
      exact h rfl
    rw [Nat.sub_self] at h
    exact .inr ⟨rfl, lt_of_charIn_ne h⟩

/-- Frames of the same height with a newline at their ends, and no other behind it. -/
theorem fits_of_le {file0 file1 slack0 slack1 : List Byte}
    (hheight : (file0.splitOn 10).length = (file1.splitOn 10).length)
    (hrows : (file0.splitOn 10).length ≤ 25) (hcols0 : ∀ l ∈ file0.splitOn 10, l.length ≤ 80)
    (hcols1 : ∀ l ∈ file1.splitOn 10, l.length ≤ 80) (hslack0 : 10 ∉ slack0)
    (hslack1 : 10 ∉ slack1) (hlen0 : slack0.length ≤ 4096) (hlen1 : slack1.length ≤ 4096) :
    Fits (file0 ++ 10 :: slack0) (file1 ++ 10 :: slack1) := by
  have hplace : ∀ {row col}, Inked (file0 ++ 10 :: slack0) (file1 ++ 10 :: slack1) row col →
      row < (file0.splitOn 10).length ∧ col < 80 ∨
        row = (file0.splitOn 10).length ∧ col < 4096 := by
    rintro row col (hink | hink)
    · have := place_of_charAt_ne hslack0 hcols0 hink
      omega
    · have := place_of_charAt_ne hslack1 hcols1 hink
      omega
  intro row col hink
  have hat := hplace hink
  refine ⟨by omega, fun h80 row' col' hrow hink' => ?_⟩
  have hat' := hplace hink'
  omega

/-- The file system with two frames of two rows, whose blocks are zeroed behind them. -/
def fishImage : Image where
  mem a :=
    if a < 12288 then
      (([(4, 2), (8, 2), (4096, 5), (8192, 5), (8196, 1)] : List (Word × Byte)).lookup a).getD 0
    else if a < 16384 then ([111, 10, 47, 92, 10] : List Byte).getD (a - 12288).toNat 0
    else ([32, 111, 10, 92, 10] : List Byte).getD (a - 16384).toNat 0

theorem slice_fishImage {inode : Word} {start : ℕ} {file : List Byte} (hlen : file.length ≤ 4096)
    (hstart : fishImage.getDblockMem (fishImage.dblock inode 0) 0 = UInt32.ofNat start)
    (hmem : ∀ j < 4096, fishImage.mem (UInt32.ofNat (start + j)) = file.getD j 0) :
    fishImage.slice inode 0 4096 = file ++ List.replicate (4096 - file.length) 0 := by
  refine List.ext_getElem (by simp [hlen]) fun j hj _ => ?_
  have hlt : j < 4096 := by simpa using hj
  have hat : fishImage.getDblockMem (fishImage.dblock inode 0) (UInt32.ofNat j) =
      UInt32.ofNat (start + j) := by
    rw [UInt32.ofNat_add, ← hstart, Image.getDblockMem, Image.getDblockMem, UInt32.add_zero]
  have hbyte : fishImage.byteAt inode j = file.getD j 0 := by
    have hblock : UInt32.ofNat (j / 4096) = 0 := by
      rw [Nat.div_eq_of_lt hlt]
      rfl
    rw [Image.byteAt, hblock, Nat.mod_eq_of_lt hlt, hat, hmem j hlt]
  simp only [Image.slice, List.getElem_map, List.getElem_range, Nat.zero_add]
  rw [hbyte, List.getD_eq_getElem?_getD, List.getElem_append]
  split
  · rename_i hin
    rw [List.getElem?_eq_getElem hin, Option.getD_some]
  · rename_i hout
    rw [List.getElem?_eq_none (Nat.le_of_not_lt hout), List.getElem_replicate, Option.getD_none]

/-- The two frames with the slack of their blocks. -/
theorem padded_fishImage : paddedContents fishImage 0 =
      [111, 10, 47, 92] ++ 10 :: List.replicate 4091 0 ∧
    paddedContents fishImage 1 = [32, 111, 10, 92] ++ 10 :: List.replicate 4091 0 := by
  have hcount0 : blockCount fishImage 0 = 1 := by decide
  have hcount1 : blockCount fishImage 1 = 1 := by decide
  have hword : ∀ k < 2 ^ 32, (UInt32.ofNat k).toNat = k := fun k hk => UInt32.toNat_ofNat_of_lt' hk
  rw [Machine.paddedContents_eq, Machine.paddedContents_eq, hcount0, hcount1]
  constructor
  · refine @slice_fishImage 0 12288 [111, 10, 47, 92, 10] (by decide) (by decide) fun j hj => ?_
    have hge : ¬UInt32.ofNat (12288 + j) < 12288 := by
      rw [UInt32.lt_iff_toNat_lt, hword _ (by omega)]
      exact Nat.not_lt.2 (Nat.le_add_right _ _)
    have hlt : UInt32.ofNat (12288 + j) < 16384 := by
      rw [UInt32.lt_iff_toNat_lt, hword _ (by omega)]
      exact Nat.add_lt_add_left hj 12288
    have hsub : (UInt32.ofNat (12288 + j) - 12288).toNat = j := by
      rw [UInt32.ofNat_add, UInt32.add_comm]
      exact (congrArg UInt32.toNat (UInt32.add_sub_cancel _ _)).trans (hword j (by omega))
    rw [fishImage]
    simp only [if_neg hge, if_pos hlt, hsub]
  · refine @slice_fishImage 1 16384 [32, 111, 10, 92, 10] (by decide) (by decide) fun j hj => ?_
    have hge : ¬UInt32.ofNat (16384 + j) < 12288 := by
      rw [UInt32.lt_iff_toNat_lt, hword _ (by omega)]
      exact Nat.not_lt.2 ((by decide : 12288 ≤ 16384).trans (Nat.le_add_right _ _))
    have hge' : ¬UInt32.ofNat (16384 + j) < 16384 := by
      rw [UInt32.lt_iff_toNat_lt, hword _ (by omega)]
      exact Nat.not_lt.2 (Nat.le_add_right _ _)
    have hsub : (UInt32.ofNat (16384 + j) - 16384).toNat = j := by
      rw [UInt32.ofNat_add, UInt32.add_comm]
      exact (congrArg UInt32.toNat (UInt32.add_sub_cancel _ _)).trans (hword j (by omega))
    rw [fishImage]
    simp only [if_neg hge, if_neg hge', hsub]

theorem inodeOk_fishImage : ∀ inode < 2, fishImage.InodeOk inode := by
  have hall : ∀ i < 2, (fishImage.length (UInt32.ofNat i)).toNat = 5 ∧
      fishImage.dblock (UInt32.ofNat i) 0 < fishImage.fsDblocks := by
    decide
  intro inode hlt
  have hinode := hall inode.toNat (UInt32.lt_iff_toNat_lt.1 hlt)
  rw [UInt32.ofNat_toNat] at hinode
  refine ⟨hlt, by rw [hinode.1]; decide, fun j hj => ?_⟩
  obtain rfl : j = 0 := by
    rw [hinode.1] at hj
    omega
  exact hinode.2

/-- Two fish, after twenty ticks : the second of them is on, the rest of the screen is lost to
the zeros behind the files, and the cells before the first column of the frames are spared. -/
theorem frames_alternate_fish : ∃ nodes t,
    addFrames (readByte fishImage) 4098 (Kernel.openedFd .fileop 0) (Kernel.openedFd .fileop 1) =
        some nodes ∧
      Transition.run (step 2001) (start fun _ => 7)
        (nodes.map .add ++ List.replicate 20 .tasklet) = some t ∧
      t.vmem 82 = 111 ∧ t.vmem 2000 = 0 ∧ t.vmem 0 = 7 := by
  obtain ⟨hpad0, hpad1⟩ := padded_fishImage
  have hzeros : (10 : Byte) ∉ List.replicate 4091 (0 : Byte) := fun h =>
    absurd (List.eq_of_mem_replicate h) (by decide)
  have hcharAt := fun file => charAt_append file _ hzeros
  have hfits : Fits (paddedContents fishImage 0) (paddedContents fishImage 1) := by
    rw [hpad0, hpad1]
    have hlen : (List.replicate 4091 (0 : Byte)).length ≤ 4096 :=
      List.length_replicate.trans_le (by decide)
    exact fits_of_le (by decide) (by decide) (by decide) (by decide) hzeros hzeros hlen hlen
  have hcount0 : 4096 * blockCount fishImage 0 + 2 ≤ 4098 := by decide
  have hcount1 : 4096 * blockCount fishImage 1 + 2 ≤ 4098 := by decide
  obtain ⟨nodes, t, hnodes, hrun, hcells, hrest⟩ := frames_alternate (n := 2001) (by omega)
    (fun _ => 7) (inodeOk_fishImage 0 (by decide)) (inodeOk_fishImage 1 (by decide))
    (.inl (by decide)) (.inl (by decide)) hcount0 hcount1 hfits 20
  rw [hpad0, hpad1] at hcells hrest
  have hfish : charAt ([32, 111, 10, 92] ++ 10 :: List.replicate 4091 0) 0 1 = 111 := by
    rw [hcharAt]
    rfl
  have hslack : charAt ([32, 111, 10, 92] ++ 10 :: List.replicate 4091 0) 2 800 = 0 := by
    rw [hcharAt]
    decide +kernel
  have hon := hcells 0 1 (.inr (by rw [hfish]; decide)) (by decide)
  have hlost := hcells 2 800 (.inr (by rw [hslack]; decide)) (by decide)
  exact ⟨nodes, t, hnodes, hrun, hon.trans hfish, hlost.trans hslack,
    hrest 0 fun row col _ _ h => by omega⟩

end Fish

end MpOS
