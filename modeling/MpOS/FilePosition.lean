import MpOS.ReadData
import MpOS.DescriptorTable

/-!
# The position of a file descriptor

`file_read` adds the result of `read_data` to the file position of its descriptor before
anything looks at it, -1 included. So the position moves by what is returned exactly where
the result is a byte count that fits (`positionLaw_fileRead_iff`), and a read that
fails moves it back by one.
-/

namespace MpOS

/-! ## Results of `read_data` -/

theorem toInt_of_lt {w : Word} (h : w.toNat < 2 ^ 31) : toInt w = w.toNat := by
  have hint := toInt_ofNat h
  rwa [UInt32.ofNat_toNat] at hint

theorem toInt_neg {w : Word} (h : 2 ^ 31 ≤ w.toNat) : toInt w < 0 := by
  have hlt : 2 ^ 32 ≤ 2 * w.toBitVec.toNat := by
    rw [UInt32.toNat_toBitVec]
    omega
  rw [toInt, Int32.toInt, UInt32.toBitVec_toInt32, BitVec.toInt_neg_iff]
  exact hlt

theorem zero_le_toInt_iff {w : Word} : 0 ≤ toInt w ↔ w.toNat < 2 ^ 31 := by
  rcases Nat.lt_or_ge w.toNat (2 ^ 31) with h | h
  · rw [toInt_of_lt h]
    exact iff_of_true (Int.natCast_nonneg _) h
  · exact iff_of_false (Int.not_le.2 (toInt_neg h)) (Nat.not_lt.2 h)

namespace Image

variable {img : Image} {inode : Word}

/-- When the result of `read_data` is a count that can be added to the position : the inode is in
range (or there are no inodes), a complete walk has a count below 2^31 that does not wrap
the position, and the blocks before the first one out of range are less than 2^31 bytes. -/
def Moves (img : Image) (inode offset length : Word) : Prop :=
  let first := offset.toNat / 4096
  let last := lastBlock (min (img.length inode).toNat ((offset.toNat + length.toNat) % 2 ^ 32))
  ¬img.Rejected inode ∧
    (first ≤ last → (∀ j, first ≤ j → j ≤ last → ¬img.Blocked inode (UInt32.ofNat j)) →
      length.toNat < 2 ^ 31 ∧ offset.toNat + length.toNat < 2 ^ 32) ∧
    ∀ J, first < J → J ≤ last → img.Blocked inode (UInt32.ofNat J) →
      (∀ j, first ≤ j → j < J → ¬img.Blocked inode (UInt32.ofNat j)) →
        4096 * J - offset.toNat < 2 ^ 31

theorem moves_iff (offset length : Word) :
    0 ≤ (img.readData inode offset length).1 ∧
        offset.toNat + (img.readData inode offset length).1 < 2 ^ 32 ↔
      img.Moves inode offset length := by
  have hend := img.endBlock_lt inode offset length
  have hlt := offset.toNat_lt
  have hr := img.readData_result inode offset length
  generalize img.readData inode offset length = r at hr
  simp only [Moves, ← toNat_endBlock]
  cases hr with
  | rejected hrej => exact iff_of_false (fun h => absurd h.1 (by decide)) fun h => h.1 hrej
  | nothing hrej hno =>
    refine iff_of_true ⟨Int.le_refl 0, by omega⟩
      ⟨hrej, fun hle hall => ?_, fun J h₁ h₂ _ hall => ?_⟩
    · rcases hno with hb | hgt
      · exact absurd hb (hall _ (Nat.le_refl _) hle)
      · omega
    · rcases hno with hb | hgt
      · exact absurd hb (hall _ (Nat.le_refl _) h₁)
      · omega
  | stopped J hrej hs hJ hall hb =>
    rw [zero_le_toInt_iff, toNat_word (by omega)]
    constructor
    · rintro ⟨hfit, -⟩
      refine ⟨hrej, fun _ hall' => absurd hb (hall' J hs.le hJ), fun J' h₁ _ hb' hall' => ?_⟩
      -- the first block out of range is `J`
      rcases Nat.lt_trichotomy J J' with h | rfl | h
      · exact absurd hb (hall' J hs.le h)
      · exact hfit
      · exact absurd hb' (hall J' h₁.le h)
    · rintro ⟨-, -, hfit⟩
      have hJfit := hfit J hs hJ hb hall
      refine ⟨hJfit, ?_⟩
      rw [toInt_ofNat hJfit]
      omega
  | complete E hrej hE hs hall =>
    rw [zero_le_toInt_iff, ← hE]
    constructor
    · rintro ⟨hfit, hsum⟩
      rw [toInt_of_lt hfit] at hsum
      exact ⟨hrej, fun _ _ => ⟨hfit, by omega⟩,
        fun J h₁ h₂ hb _ => absurd hb (hall J h₁.le h₂)⟩
    · rintro ⟨-, hfit, -⟩
      obtain ⟨hfit, hsum⟩ := hfit hs hall
      refine ⟨hfit, ?_⟩
      rw [toInt_of_lt hfit]
      omega

end Image

/-! ## `file_read` -/

namespace Kernel

variable {k : Kernel} {fd : ℕ}

theorem fds_setFd_self {ptr : FdPtr} (h : ptr ≠ .null) (e : Fd) :
    (k.setFd ptr fd e).fds ptr fd = e := by
  cases ptr with
  | null => exact absurd rfl h
  | kernelFdt => simp [setFd, fds]
  | fdTable p => simp [setFd, fds, modifyPcb]

theorem fds_setFd_of_ne {ptr ptr' : FdPtr} {i : ℕ} (h : ptr' ≠ ptr ∨ i ≠ fd) (e : Fd) :
    (k.setFd ptr fd e).fds ptr' i = k.fds ptr' i := by
  cases ptr with
  | null => rfl
  | kernelFdt =>
    cases ptr' with
    | kernelFdt => exact Function.update_of_ne (h.resolve_left fun h => h rfl) _ _
    | _ => rfl
  | fdTable p =>
    cases ptr' with
    | fdTable q =>
      rcases eq_or_ne q p with rfl | hne
      · have hi : i ≠ fd := h.resolve_left fun h => h rfl
        simp [setFd, fds, modifyPcb, hi]
      · simp [setFd, fds, modifyPcb, hne]
    | _ => rfl

/-- A read leaves the descriptor as it is if it fails, and otherwise moves its position by the
number of bytes it returns. Nothing else in the descriptor tables changes. -/
structure PositionLaw (k : Kernel) (fd : ℕ) (r : ReadResult) : Prop where
  failed : r.ret = -1 → r.kernel.curFd fd = k.curFd fd
  nonneg : r.ret ≠ -1 → 0 ≤ r.ret
  position : r.ret ≠ -1 →
    ((r.kernel.curFd fd).filePosition.toNat : ℤ) = (k.curFd fd).filePosition.toNat + r.ret
  fields : ∃ pos, r.kernel.curFd fd = { k.curFd fd with filePosition := pos }
  others : ∀ ptr i, ptr ≠ k.cur.curFdPtr ∨ i ≠ fd → r.kernel.fds ptr i = k.fds ptr i

/-- A result that is added to the position unseen. -/
theorem positionLaw_iff (hc : k.cur.curFdPtr ≠ .null) (ret : ℤ) (stored : List Byte) :
    PositionLaw k fd ⟨ret, stored, k.setCurFd fd
        { k.curFd fd with filePosition := (k.curFd fd).filePosition + toWord ret }⟩ ↔
      0 ≤ ret ∧ (k.curFd fd).filePosition.toNat + ret < 2 ^ 32 := by
  have hlt := (k.curFd fd).filePosition.toNat_lt
  have hself : ∀ e, (k.setCurFd fd e).curFd fd = e := by
    intro e
    rw [curFd, cur_setCurFd, setCurFd, fds_setFd_self hc]
  constructor
  · intro h
    have hne : ret ≠ -1 := by
      rintro rfl
      have hpos := congrArg Fd.filePosition (h.failed rfl)
      have hword : toWord (-1) = 0xFFFFFFFF := by decide
      rw [hself, hword, ← UInt32.toNat_inj, UInt32.toNat_add] at hpos
      have hmax : (0xFFFFFFFF : Word).toNat = 2 ^ 32 - 1 := rfl
      simp only [hmax] at hpos
      omega
    have hnonneg := h.nonneg hne
    have hpos := h.position hne
    have hnew := ((k.curFd fd).filePosition + toWord ret).toNat_lt
    simp only [hself] at hpos
    exact ⟨hnonneg, by omega⟩
  · rintro ⟨hnonneg, hsum⟩
    obtain ⟨n, rfl⟩ := Int.eq_ofNat_of_zero_le hnonneg
    refine ⟨fun h => absurd h (by simp only; omega), fun _ => hnonneg, fun _ => ?_,
      ⟨_, hself _⟩, fun ptr i hne => ?_⟩
    · simp only [hself]
      rw [toWord_natCast (by omega), UInt32.toNat_add, toNat_word (by omega),
        Nat.mod_eq_of_lt (by omega)]
      omega
    · exact fds_setFd_of_ne hne _

/-- `file_read` keeps the law exactly where `read_data` returns a count that can be added to the
position. -/
theorem positionLaw_fileRead_iff (img : Image) (hopen : (k.curFd fd).flags ≠ 0) (nbytes : ℤ) :
    PositionLaw k fd (k.fileRead img fd nbytes) ↔
      img.Moves (k.curFd fd).inode (k.curFd fd).filePosition (toWord nbytes) := by
  have hc : k.cur.curFdPtr ≠ .null := by
    intro hnull
    rw [curFd, hnull] at hopen
    exact hopen rfl
  simp only [fileRead, if_neg hopen]
  rw [positionLaw_iff hc, Image.moves_iff]

/-- A kernel with a file open at its start. -/
def fileKernel (inode : Word) : Kernel :=
  zero.initScheduler.openFd .fileop 2 inode

theorem positionLaw_fileKernel :
    PositionLaw (fileKernel 0) 2 ((fileKernel 0).fileRead (Image.fileImage 40) 2 4) := by
  refine (positionLaw_fileRead_iff (Image.fileImage 40) (by decide) 4).2 ?_
  rw [← Image.moves_iff]
  decide

/-- The directory entry of an open file can name an inode that the image does not have. -/
theorem not_positionLaw_fileKernel :
    ((fileKernel 5).curFd 2).flags = 1 ∧ ((fileKernel 5).curFd 2).tablePointer = some .fileop ∧
      ((fileKernel 5).fileRead (Image.fileImage 40) 2 4).ret = -1 ∧
      ¬PositionLaw (fileKernel 5) 2 ((fileKernel 5).fileRead (Image.fileImage 40) 2 4) := by
  refine ⟨by decide, by decide, by decide, fun h => ?_⟩
  have hpos := congrArg Fd.filePosition (h.failed (by decide))
  exact absurd hpos (by decide)

end Kernel

end MpOS
