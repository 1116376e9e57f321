import MpOS.BlockWalk
import MpOS.DescriptorTable
import MpOS.Lib.Chunks

/-!
# Reading a file

`read_data` walks the blocks of a file. Up to the end of the file it returns what was
asked for. A request that goes over the end only shortens the walk and not the last
copy, so the call still returns as many bytes as requested, and at the end of a file
whose length is no multiple of the block size so does every further call
(`readData_past`). An empty file is saved by its unused first block number, or not at
all. `streams_iff` says for which files and requests a reader gets the file.
-/

namespace MpOS

namespace Image

/-- What a well-formed image promises of an inode. -/
structure InodeOk (img : Image) (inode : Word) : Prop where
  lt : inode < img.fsInodes
  length_le : (img.length inode).toNat ≤ 1023 * 4096
  dblock : ∀ j, 4096 * j < (img.length inode).toNat →
    img.dblock inode (UInt32.ofNat j) < img.fsDblocks

namespace InodeOk

variable {img : Image} {inode : Word} {pos n : ℕ}

theorem not_rejected (h : img.InodeOk inode) : ¬img.Rejected inode :=
  not_gt_sub_one h.lt

theorem not_blocked (h : img.InodeOk inode) {j : ℕ}
    (hj : 4096 * j < (img.length inode).toNat) : ¬img.Blocked inode (UInt32.ofNat j) :=
  not_gt_sub_one (h.dblock j hj)

/-- A request that starts in a block of the file walks to its last block, or the file's. -/
theorem readData_eq (h : img.InodeOk inode) (hpos : pos + n < 2 ^ 32) (hn : 0 < n)
    (hblock : 4096 * (pos / 4096) < (img.length inode).toNat) :
    ∃ E, E = (min (img.length inode).toNat (pos + n) - 1) / 4096 ∧
      img.readData inode (UInt32.ofNat pos) (UInt32.ofNat n) =
        (toInt (UInt32.ofNat n), img.slice inode pos (4096 * E - pos) ++
          img.memcpy (img.lastCopy inode (pos / 4096) (E - pos / 4096) (pos % 4096))
            (UInt32.ofNat n - UInt32.ofNat (4096 * E - pos))) := by
  have hend : (img.endBlock inode (UInt32.ofNat pos) (UInt32.ofNat n)).toNat =
      (min (img.length inode).toNat (pos + n) - 1) / 4096 := by
    rw [img.toNat_endBlock, toNat_word (by omega), toNat_word (by omega), Nat.mod_eq_of_lt hpos,
      lastBlock, if_neg (by omega)]
  have hword : (UInt32.ofNat pos).toNat = pos := toNat_word (by omega)
  have hok : ∀ j, (UInt32.ofNat pos).toNat / 4096 ≤ j →
      j ≤ (min (img.length inode).toNat (pos + n) - 1) / 4096 →
      ¬img.Blocked inode (UInt32.ofNat j) :=
    fun j _ hj => h.not_blocked (by omega)
  have hread := readData_eq_complete h.not_rejected hend (by omega) hok
  rw [hword] at hread
  exact ⟨_, rfl, hread⟩

/-- Within the file a request gets what it asked for. -/
theorem readData_of_le (h : img.InodeOk inode) (hn : 0 < n)
    (hle : pos + n ≤ (img.length inode).toNat) :
    img.readData inode (UInt32.ofNat pos) (UInt32.ofNat n) =
      ((n : ℤ), ((img.contents inode).drop pos).take n) := by
  have hmax := h.length_le
  obtain ⟨E, hE, hread⟩ := h.readData_eq (by omega : pos + n < 2 ^ 32) hn (by omega)
  rw [Nat.min_eq_right hle] at hE
  rw [hread, slice_append_lastCopy (by omega) (by omega) (by omega), slice_eq_take_drop hle,
    toInt_ofNat (by omega)]

/-- Over the end of the file a request still returns what it asked for. -/
theorem readData_past (h : img.InodeOk inode) (hn : 0 < n) (hmax : n < 2 ^ 31)
    (hpos : pos ≤ (img.length inode).toNat)
    (hblock : 4096 * (pos / 4096) < (img.length inode).toNat) :
    (img.readData inode (UInt32.ofNat pos) (UInt32.ofNat n)).1 = n := by
  have hlen := h.length_le
  obtain ⟨E, -, hread⟩ := h.readData_eq (by omega : pos + n < 2 ^ 32) hn hblock
  rw [hread, toInt_ofNat hmax]

/-- At the end of a file that fills its last block there is nothing to read. -/
theorem readData_end (h : img.InodeOk inode) (hn : 0 < n) (hmax : n < 2 ^ 31)
    (hlen : 0 < (img.length inode).toNat) (hdvd : 4096 ∣ (img.length inode).toNat) :
    img.readData inode (UInt32.ofNat (img.length inode).toNat) (UInt32.ofNat n) = (0, []) := by
  obtain ⟨c, hc⟩ := hdvd
  have hle := h.length_le
  rw [UInt32.ofNat_toNat]
  have hend : (img.endBlock inode (img.length inode) (UInt32.ofNat n)).toNat =
      ((img.length inode).toNat - 1) / 4096 := by
    rw [img.toNat_endBlock, toNat_word (by omega), Nat.mod_eq_of_lt (by omega),
      Nat.min_eq_left (by omega), lastBlock, if_neg (by omega)]
  have hr := img.readData_result inode (img.length inode) (UInt32.ofNat n)
  generalize img.readData inode (img.length inode) (UInt32.ofNat n) = r at hr
  cases hr with
  | rejected hrej => exact absurd hrej h.not_rejected
  | nothing _ _ => rfl
  | stopped J _ hlt hJ _ _ => omega
  | complete E _ hE hlt _ => omega

/-- Nothing is read from an empty file exactly when its first block number is out of range. -/
theorem readData_empty (h : img.InodeOk inode) (hlen : (img.length inode).toNat = 0) (hn : 0 < n)
    (hmax : n < 2 ^ 31) :
    (img.Blocked inode 0 → img.readData inode (UInt32.ofNat 0) (UInt32.ofNat n) = (0, [])) ∧
      (¬img.Blocked inode 0 →
        (img.readData inode (UInt32.ofNat 0) (UInt32.ofNat n)).1 ≠ 0) := by
  have hend : (img.endBlock inode (UInt32.ofNat 0) (UInt32.ofNat n)).toNat = 0xFFFFF := by
    rw [img.toNat_endBlock, hlen, Nat.zero_min]
    rfl
  have hword : (UInt32.ofNat 0).toNat = 0 := rfl
  constructor
  · intro hb
    rw [readData_eq_stopped h.not_rejected (Nat.zero_le 0) (Nat.zero_le _)
      (fun j _ hj => absurd hj (Nat.not_lt_zero j)) hb, hword, Nat.mul_zero, slice_zero]
    rfl
  · intro hb hret
    have hr := img.readData_result inode (UInt32.ofNat 0) (UInt32.ofNat n)
    generalize img.readData inode (UInt32.ofNat 0) (UInt32.ofNat n) = r at hr hret
    cases hr with
    | rejected hrej => exact absurd hrej h.not_rejected
    | nothing _ hno =>
      rw [hword, hend] at hno
      rcases hno with hb' | hgt
      · exact hb hb'
      · omega
    | stopped J _ hlt hJ _ _ =>
      have hzero := eq_zero_of_toInt hret
      rw [hword, ← UInt32.toNat_inj, toNat_word (by omega), UInt32.toNat_zero] at hzero
      omega
    | complete E _ _ _ _ =>
      have hzero := eq_zero_of_toInt hret
      rw [← UInt32.toNat_inj, toNat_word (by omega), UInt32.toNat_zero] at hzero
      omega

end InodeOk

end Image

/-- For which requests `read_data` delivers a file and then stops : the file is empty, and its
unused first block number out of range, or it fills its last block and some request ends exactly
at its end. -/
def StreamOk (img : Image) (inode : Word) (n : ℕ → ℕ) : Prop :=
  if img.length inode = 0 then img.Blocked inode 0
  else 4096 ∣ (img.length inode).toNat ∧ ∃ i, Chunks.requested n i = (img.length inode).toNat

/-- What `read_data` returns and stores for the requests, each from where the last one ended. -/
theorem StreamOk.readData {img : Image} {inode : Word} (hi : img.InodeOk inode) {n : ℕ → ℕ}
    (hn : ∀ i, 0 < n i ∧ n i < 2 ^ 31) (h : StreamOk img inode n) (i : ℕ) :
    img.readData inode (UInt32.ofNat (Chunks.position (img.contents inode) n i))
        (UInt32.ofNat (n i)) =
      (((Chunks.chunk (img.contents inode) n i).length : ℤ),
        Chunks.chunk (img.contents inode) n i) := by
  have hlen := img.length_contents inode
  unfold StreamOk at h
  split_ifs at h with h0
  · have hL : (img.length inode).toNat = 0 := by rw [h0]; rfl
    rw [Chunks.position_of_ge _ _ (by omega), Chunks.chunk_eq_nil _ _ (by omega), hlen, hL]
    exact (hi.readData_empty hL (hn i).1 (hn i).2).1 h
  · obtain ⟨hdvd, j, hj⟩ := h
    have hL : (img.length inode).toNat ≠ 0 := fun h => h0 (UInt32.toNat_inj.1 h)
    rcases Nat.lt_or_ge i j with hlt | hge
    · -- the requests before the end of the file stay within it
      have hnext := Chunks.requested_mono n (Nat.succ_le_of_lt hlt)
      rw [hj, Chunks.requested_succ] at hnext
      have hpos : Chunks.position (img.contents inode) n i = Chunks.requested n i :=
        Chunks.position_of_le _ _ (by omega)
      have hchunk : (Chunks.chunk (img.contents inode) n i).length = n i := by
        rw [Chunks.length_chunk, hpos]
        omega
      rw [hchunk, Chunks.chunk, hpos]
      exact hi.readData_of_le (hn i).1 hnext
    · have hall := Chunks.requested_mono n hge
      rw [hj] at hall
      rw [Chunks.position_of_ge _ _ (by omega), Chunks.chunk_eq_nil _ _ (by omega), hlen]
      exact hi.readData_end (hn i).1 (hn i).2 (by omega) hdvd

/-- A reader that gets the file by requests of these sizes has met the condition. -/
theorem StreamOk.of_readData {img : Image} {inode : Word} (hi : img.InodeOk inode) {n : ℕ → ℕ}
    (hn : ∀ i, 0 < n i ∧ n i < 2 ^ 31)
    (h : ∀ i, (img.readData inode (UInt32.ofNat (Chunks.position (img.contents inode) n i))
        (UInt32.ofNat (n i))).1 = (Chunks.chunk (img.contents inode) n i).length) :
    StreamOk img inode n := by
  have hlen := img.length_contents inode
  simp only [Chunks.length_chunk] at h
  unfold StreamOk
  split_ifs with h0
  · have hL : (img.length inode).toNat = 0 := by rw [h0]; rfl
    by_contra hb
    refine (hi.readData_empty hL (hn 0).1 (hn 0).2).2 hb ?_
    have hfirst := h 0
    rw [Chunks.position_of_ge _ _ (by omega), hlen, hL] at hfirst
    simpa using hfirst
  · have hL : (img.length inode).toNat ≠ 0 := fun h => h0 (UInt32.toNat_inj.1 h)
    -- the request that reaches the end of the file or goes over it
    obtain ⟨i, hle, hgt⟩ := Chunks.exists_requested (fun i => (hn i).1) (img.length inode).toNat
    rw [Chunks.requested_succ] at hgt
    have hi' := h i
    rw [Chunks.position_of_le _ _ (by omega), hlen] at hi'
    by_cases hblock : 4096 * (Chunks.requested n i / 4096) < (img.length inode).toNat
    · rw [hi.readData_past (hn i).1 (hn i).2 hle hblock] at hi'
      have := (hn i).1
      omega
    · exact ⟨by omega, i, by omega⟩

namespace Kernel

variable {k : Kernel} {p : Word} {fd : ℕ} {inode : Word} {pos : ℕ}

/-! ## The reader -/

/-- The kernel after the first `i` of successive calls of `read`. -/
def readMany (img : Image) (fd : ℤ) (buf : ℕ → Word) (n : ℕ → ℕ) (k : Kernel) : ℕ → Option Kernel
  | 0 => some k
  | i + 1 => (readMany img fd buf n k i).bind fun k =>
      (k.sysRead img fd (buf i) (n i)).map ReadResult.kernel

/-- Successive calls of `read` deliver the list : each the part that is next, as far as the list
goes, and all of them together the list. -/
def Streams (img : Image) (fd : ℤ) (buf : ℕ → Word) (n : ℕ → ℕ) (l : List Byte) (k : Kernel) :
    Prop :=
  ∃ stored : ℕ → List Byte,
    (∀ i, ∃ k', ∃ r : ReadResult, k.readMany img fd buf n i = some k' ∧
      k'.sysRead img fd (buf i) (n i) = some r ∧ r.stored = stored i ∧
      r.ret = min (n i) (l.length - Chunks.position l n i) ∧
      stored i = (l.drop (Chunks.position l n i)).take (n i)) ∧
    ∃ c, ∀ i ≥ c, (List.range i).flatMap stored = l

/-- The current process has the file open, at a position. -/
structure Reading (k : Kernel) (p : Word) (fd : ℕ) (inode : Word) (pos : ℕ) : Prop where
  curFdPtr : k.cur.curFdPtr = .fdTable p
  entry : k.table p fd = ⟨some .fileop, inode, UInt32.ofNat pos, 1⟩
  two_le : 2 ≤ fd
  le_seven : fd ≤ 7

theorem Reading.storeUser (h : k.Reading p fd inode pos) (buf : Word) (bytes : List Byte) :
    (k.storeUser buf bytes).Reading p fd inode pos :=
  ⟨h.curFdPtr, h.entry, h.two_le, h.le_seven⟩

/-- `read` on an open file is `read_data` at its position. -/
theorem Reading.sysRead (h : k.Reading p fd inode pos) (img : Image) {buf : Word} (hbuf : buf ≠ 0)
    {n : ℕ} (hn : n < 2 ^ 31) :
    ∃ r : ReadResult, k.sysRead img fd buf n = some r ∧
      r.ret = (img.readData inode (UInt32.ofNat pos) (UInt32.ofNat n)).1 ∧
      r.stored = (img.readData inode (UInt32.ofNat pos) (UInt32.ofNat n)).2 ∧
      ∀ a : ℕ, r.ret = a → a < 2 ^ 32 → r.kernel.Reading p fd inode (pos + a) := by
  have h2 := h.two_le
  have h7 := h.le_seven
  have hentry : k.curFd fd = ⟨some .fileop, inode, UInt32.ofNat pos, 1⟩ := by
    rw [curFd_eq h.curFdPtr, h.entry]
  refine ⟨(k.fileRead img fd n).storeAt buf, ?_, ?_, ?_, fun a ha hlt => ?_⟩
  · rw [Kernel.sysRead, if_neg (by unfold maxFd; omega), if_neg hbuf, Int.toNat_natCast, hentry,
      if_neg (show ¬(1 : Word) = 0 by decide), if_neg (by omega)]
    rfl
  · simp only [ReadResult.storeAt, fileRead, hentry, if_neg (show ¬(1 : Word) = 0 by decide),
      toWord_natCast (by omega : n < 2 ^ 32)]
  · simp only [ReadResult.storeAt, fileRead, hentry, if_neg (show ¬(1 : Word) = 0 by decide),
      toWord_natCast (by omega : n < 2 ^ 32)]
  · refine Reading.storeUser ?_ buf _
    simp only [ReadResult.storeAt, fileRead, hentry,
      if_neg (show ¬(1 : Word) = 0 by decide)] at ha ⊢
    refine ⟨?_, ?_, h2, h7⟩
    · rw [cur_setCurFd]
      exact h.curFdPtr
    · rw [table_setCurFd h.curFdPtr, Function.update_self, ha, toWord_natCast hlt,
        UInt32.ofNat_add]

/-- While the calls go well the descriptor is at the position of the next one. -/
theorem Reading.readMany (h : k.Reading p fd inode 0) {img : Image} {buf : ℕ → Word}
    (hbuf : ∀ i, buf i ≠ 0) {n : ℕ → ℕ} (hn : ∀ i, n i < 2 ^ 31) {l : List Byte} (i : ℕ)
    (hread : ∀ j < i, (img.readData inode (UInt32.ofNat (Chunks.position l n j))
      (UInt32.ofNat (n j))).1 = (Chunks.chunk l n j).length) :
    ∃ k', k.readMany img fd buf n i = some k' ∧ k'.Reading p fd inode (Chunks.position l n i) := by
  induction i with
  | zero =>
    have h0 : Chunks.position l n 0 = 0 := by
      rw [Chunks.position, Chunks.requested_zero, Nat.zero_min]
    exact ⟨k, rfl, h0 ▸ h⟩
  | succ i ih =>
    obtain ⟨k', hk', hr⟩ := ih fun j hj => hread j (by omega)
    obtain ⟨r, hcall, hret, -, hnext⟩ := hr.sysRead img (hbuf i) (hn i)
    have hlt : (Chunks.chunk l n i).length < 2 ^ 32 := by
      have := hn i
      rw [Chunks.length_chunk]
      omega
    refine ⟨r.kernel, ?_, ?_⟩
    · rw [Kernel.readMany, hk', Option.bind_some, hcall, Option.map_some]
    · rw [Chunks.position_succ]
      exact hnext _ (hret.trans (hread i (Nat.lt_succ_self i))) hlt

/-- The calls deliver the file exactly when the requests meet `StreamOk`. -/
theorem Reading.streams_iff_streamOk (h : k.Reading p fd inode 0) {img : Image}
    (hi : img.InodeOk inode) {buf : ℕ → Word} (hbuf : ∀ i, buf i ≠ 0) {n : ℕ → ℕ}
    (hn : ∀ i, 0 < n i ∧ n i < 2 ^ 31) :
    k.Streams img fd buf n (img.contents inode) ↔ StreamOk img inode n := by
  constructor
  · rintro ⟨stored, hcall, -⟩
    have hgo : ∀ i, (∀ j < i, (img.readData inode
        (UInt32.ofNat (Chunks.position (img.contents inode) n j)) (UInt32.ofNat (n j))).1 =
          (Chunks.chunk (img.contents inode) n j).length) := by
      intro i
      induction i with
      | zero => exact fun j hj => absurd hj (Nat.not_lt_zero j)
      | succ i ih =>
        intro j hj
        rcases Nat.lt_succ_iff_lt_or_eq.1 hj with hlt | rfl
        · exact ih j hlt
        · obtain ⟨k', hk', hr⟩ := h.readMany hbuf (fun i => (hn i).2) j ih
          obtain ⟨r, hread, hret, -⟩ := hr.sysRead img (hbuf j) (hn j).2
          obtain ⟨k'', r', hk'', hread', -, hret', -⟩ := hcall j
          obtain rfl := Option.some.inj (hk'.symm.trans hk'')
          obtain rfl := Option.some.inj (hread.symm.trans hread')
          rw [← hret, hret', Chunks.length_chunk]
    exact StreamOk.of_readData hi hn fun i => hgo (i + 1) i (Nat.lt_succ_self i)
  · intro hok
    have hdata := hok.readData hi hn
    refine ⟨Chunks.chunk (img.contents inode) n, fun i => ?_, ?_⟩
    · obtain ⟨k', hk', hr⟩ := h.readMany hbuf (fun i => (hn i).2) i fun j _ =>
        congrArg Prod.fst (hdata j)
      obtain ⟨r, hread, hret, hstored, -⟩ := hr.sysRead img (hbuf i) (hn i).2
      refine ⟨k', r, hk', hread, ?_, ?_, rfl⟩
      · rw [hstored, hdata]
      · rw [hret, hdata, Chunks.length_chunk]
    · obtain ⟨c, -, hc⟩ := Chunks.exists_requested (fun i => (hn i).1) (img.contents inode).length
      refine ⟨c + 1, fun i hi => ?_⟩
      have hall := Chunks.requested_mono n hi
      rw [Chunks.flatMap_chunk, Chunks.position_of_ge _ _ (by omega), List.take_length]

/-- `open` on a regular file starts at position 0 of it. -/
theorem reading_sysOpen (hc : k.cur.curFdPtr = .fdTable p) {img : Image} {filename : ℕ → Byte}
    {dent : Dentry} (hd : img.readDentryByName filename = some dent) (ht : dent.type = 2)
    (hfd : k.getAvailFd = some fd) :
    ∃ k', k.sysOpen img filename = some ((fd : ℤ), k') ∧ k'.Reading p fd dent.inode 0 := by
  obtain ⟨h2, h7, -⟩ := getAvailFd_eq_some hc hfd
  have htype : typeOps dent.type = some .fileop := by
    rw [ht]
    rfl
  obtain ⟨k', hopen, hcur, htable⟩ := sysOpen_of_avail hc hfd hd htype
  refine ⟨k', hopen, hcur, ?_, h2, h7⟩
  rw [htable, Function.update_self]
  rfl

end Kernel

/-- The numbers in the image are below the counts in its header, and the lengths of its files
within what an inode can hold. -/
structure Image.WellFormed (img : Image) : Prop where
  file : ∀ i < img.fsEntries.toNat, (img.dentry (UInt32.ofNat i)).type = 2 →
    (img.dentry (UInt32.ofNat i)).inode < img.fsInodes
  length_le : ∀ inode < img.fsInodes, (img.length inode).toNat ≤ 1023 * 4096
  dblock : ∀ inode < img.fsInodes, ∀ j, 4096 * j < (img.length inode).toNat →
    img.dblock inode (UInt32.ofNat j) < img.fsDblocks

theorem Image.WellFormed.inodeOk_of_lt {img : Image} (h : img.WellFormed) {inode : Word}
    (hlt : inode < img.fsInodes) : img.InodeOk inode :=
  ⟨hlt, h.length_le inode hlt, h.dblock inode hlt⟩

theorem Image.WellFormed.inodeOk {img : Image} (h : img.WellFormed) {filename : ℕ → Byte}
    {dent : Dentry} (hd : img.readDentryByName filename = some dent) (ht : dent.type = 2) :
    img.InodeOk dent.inode := by
  obtain ⟨i, hi, rfl⟩ := Option.map_eq_some_iff.1 hd
  exact h.inodeOk_of_lt (h.file i (List.mem_range.1 (List.mem_of_find?_eq_some hi)) ht)

namespace Machine

/-- The calls of `read` on a regular file deliver it, and nothing after it, exactly when the
file is empty with an unused block number out of range, or its length is a multiple of the block
size and one of the requests ends exactly at its end. -/
theorem streams_iff {img : Image} (hi : img.WellFormed) {m : Machine} (hm : m.Reachable img)
    {p : Word} (hp : m.running = some p) {filename : CString} {dent : Dentry}
    (hd : img.readDentryByName filename.mem = some dent) (ht : dent.type = 2) {fd : ℤ} {k : Kernel}
    (ho : m.kernel.sysOpen img filename.mem = some (fd, k)) (hfd : fd ≠ -1) {buf : ℕ → Word}
    (hbuf : ∀ i, buf i ≠ 0) {n : ℕ → ℕ} (hn : ∀ i, 1 ≤ n i ∧ n i ≤ 2 ^ 31 - 1) :
    k.Streams img fd buf n (img.contents dent.inode) ↔ StreamOk img dent.inode n := by
  have hptr := (hm.coherent.installed hp).curFdPtr
  cases havail : m.kernel.getAvailFd with
  | none =>
    rw [Kernel.sysOpen_fail (Or.inl havail)] at ho
    exact absurd (Prod.mk.inj (Option.some.inj ho)).1.symm hfd
  | some i =>
    obtain ⟨k', hopen, hr⟩ := Kernel.reading_sysOpen hptr hd ht havail
    obtain ⟨rfl, rfl⟩ := Prod.mk.inj (Option.some.inj (ho.symm.trans hopen))
    refine hr.streams_iff_streamOk (hi.inodeOk hd ht) hbuf fun i => ?_
    have := hn i
    omega

/-- The first process, with all descriptors free. -/
theorem exists_first {img : Image} {frame : Kernel.ExecFrame}
    (hx : Kernel.Executable img frame Kernel.shellCommand) :
    ∃ m : Machine, m.Reachable img ∧ m.running = some 0 ∧
      m.kernel.cur.curFdPtr = .fdTable 0 ∧ m.kernel.getAvailFd = some 2 := by
  obtain ⟨k, hs, hstep⟩ := step_execute hx first (by rfl : first.kernel.getAvailPcb = some 0)
  have hptr : k.cur.curFdPtr = .fdTable 0 := by rw [hs.cur_eq]
  have hfree : (k.curFd 2).flags = 0 := by
    rw [Kernel.curFd_eq hptr, Kernel.table, hs.pcb_self]
    rfl
  have havail : k.getAvailFd = some 2 := by
    rw [Kernel.getAvailFd, List.find?_cons_of_pos]
    simpa using hfree
  exact ⟨_, .step (.init first_booted) (by trivial) hstep, running_enter _ _ hs.scheduleIndex,
    hptr, havail⟩

/-- It opens a file. -/
theorem exists_open {img : Image} {frame : Kernel.ExecFrame}
    (hx : Kernel.Executable img frame Kernel.shellCommand) {filename : CString} {dent : Dentry}
    (hd : img.readDentryByName filename.mem = some dent) (ht : dent.type = 2) :
    ∃ m : Machine, m.Reachable img ∧ m.running = some 0 ∧
      ∃ k, m.kernel.sysOpen img filename.mem = some (2, k) ∧ k.Reading 0 2 dent.inode 0 := by
  obtain ⟨m, hm, hrun, hptr, havail⟩ := exists_first hx
  exact ⟨m, hm, hrun, Kernel.reading_sysOpen hptr hd ht havail⟩

end Machine

namespace Kernel

/-- An image with a program named `shell` and a file named `a` that fills one block. -/
def pageImage : Image where
  mem a := (([(0, 2), (4, 2), (8, 1), (64, 115), (65, 104), (66, 101), (67, 108), (68, 108),
    (96, 2), (128, 97), (160, 2), (164, 1), (4096, 4), (8193, 0x10), (12288, 0x7F), (12289, 0x45),
    (12290, 0x4C), (12291, 0x46)] : List (Word × Byte)).lookup a).getD 0

/-- Images whose files have one block each. -/
theorem wellFormed_of_one_block {img : Image}
    (hfile : ∀ i < img.fsEntries.toNat, (img.dentry (UInt32.ofNat i)).type = 2 →
      (img.dentry (UInt32.ofNat i)).inode < img.fsInodes)
    (hinode : ∀ i < img.fsInodes.toNat, (img.length (UInt32.ofNat i)).toNat ≤ 4096 ∧
      img.dblock (UInt32.ofNat i) 0 < img.fsDblocks) : img.WellFormed := by
  have hall : ∀ inode < img.fsInodes,
      (img.length inode).toNat ≤ 4096 ∧ img.dblock inode 0 < img.fsDblocks := by
    intro inode hlt
    have hi := hinode inode.toNat (UInt32.lt_iff_toNat_lt.1 hlt)
    rwa [UInt32.ofNat_toNat] at hi
  refine ⟨hfile, fun inode hlt => (hall inode hlt).1.trans (by decide), fun inode hlt j hj => ?_⟩
  have hj0 : j = 0 := by
    have hle := (hall inode hlt).1
    omega
  rw [hj0]
  exact (hall inode hlt).2

theorem shellImage_wellFormed : shellImage.WellFormed :=
  wellFormed_of_one_block (by decide) (by decide)

theorem pageImage_wellFormed : pageImage.WellFormed :=
  wellFormed_of_one_block (by decide) (by decide)

theorem page_executable (frame : ExecFrame) : Executable pageImage frame shellCommand :=
  ⟨by decide, pageImage.dentry 0, by rfl, by decide, by rfl, by decide⟩

end Kernel

namespace Machine

theorem lookup_page : Kernel.pageImage.readDentryByName (CString.mk [97] (by decide)).mem =
    some (Kernel.pageImage.dentry 1) := by
  rfl

/-- A file of one block is read by a quarter of it at a time. -/
theorem streams_page :
    ∃ k : Kernel, k.Streams Kernel.pageImage 2 (fun _ => 0x8048000) (fun _ => 1024)
      (Kernel.pageImage.contents 1) := by
  have ht : (Kernel.pageImage.dentry 1).type = 2 := by decide
  have hinode : (Kernel.pageImage.dentry 1).inode = 1 := by decide
  obtain ⟨m, hm, hrun, k, hopen, -⟩ :=
    exists_open (Kernel.page_executable ⟨0, 0, fun _ => 0⟩) lookup_page ht
  have hok : StreamOk Kernel.pageImage 1 fun _ => 1024 := by
    rw [StreamOk, if_neg (by decide)]
    exact ⟨by decide, 4, by decide⟩
  have hiff := streams_iff Kernel.pageImage_wellFormed hm hrun lookup_page ht hopen (by decide)
    (fun _ => (by decide : (0x8048000 : Word) ≠ 0))
    (fun _ => (by decide : 1 ≤ 1024 ∧ 1024 ≤ 2 ^ 31 - 1))
  rw [hinode] at hiff
  exact ⟨k, hiff.2 hok⟩

/-- A file of four bytes, read into a buffer of 1024. -/
theorem not_streams_shell :
    Kernel.shellImage.WellFormed ∧ ∃ m : Machine, m.Reachable Kernel.shellImage ∧
      m.running = some 0 ∧
      ∃ k, m.kernel.sysOpen Kernel.shellImage Kernel.shellCommand.mem = some (2, k) ∧
        ¬k.Streams Kernel.shellImage 2 (fun _ => 0x8048000) (fun _ => 1024)
          (Kernel.shellImage.contents 0) := by
  obtain ⟨m, hm, hrun, k, hopen, hr⟩ := @exists_open Kernel.shellImage ⟨0, 0, fun _ => 0⟩
    (Kernel.shell_executable _) Kernel.shellCommand (Kernel.shellImage.dentry 0) (by rfl)
    (by decide)
  have hi := Kernel.shellImage_wellFormed.inodeOk
    (by rfl : Kernel.shellImage.readDentryByName Kernel.shellCommand.mem =
      some (Kernel.shellImage.dentry 0)) (by decide)
  refine ⟨Kernel.shellImage_wellFormed, m, hm, hrun, k, hopen, fun h => ?_⟩
  have hok := (hr.streams_iff_streamOk hi (fun _ => by decide) fun _ => by decide).1 h
  rw [StreamOk, if_neg (by decide)] at hok
  exact absurd hok.1 (by decide)

end Machine

end MpOS
