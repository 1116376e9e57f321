import MpOS.Lookup
import MpOS.Streaming

/-!
# Reading a directory

`directory_read` copies the whole name field of the entry at the position, puts a NUL
behind it, and returns the length of the name. `read_dentry_by_name` compares names on
its own. What the former leaves in a buffer is a string the latter accepts
(`at_fill`), so a listing can be looked up again.
-/

namespace MpOS

/-! ## A buffer filled with a name -/

/-- The name of an entry, as a string. -/
def Dentry.nameString (d : Dentry) : CString where
  chars := d.nameChars
  nul h := by simpa using List.mem_takeWhile_imp h

/-- What `directory_read` stores. -/
def Dentry.nameField (d : Dentry) : List Byte :=
  (List.range 32).map d.name ++ [0]

theorem Dentry.length_nameField (d : Dentry) : d.nameField.length = 33 := by
  rw [nameField, List.length_append, List.length_map, List.length_range, List.length_singleton]

/-- A terminated list goes on after its string with a NUL. -/
theorem exists_eq_takeWhile_append (l : List Byte) :
    ∃ rest, l ++ [0] = l.takeWhile (· ≠ 0) ++ 0 :: rest := by
  induction l with
  | nil => exact ⟨[], rfl⟩
  | cons c l ih =>
    rcases eq_or_ne c 0 with rfl | hc
    · exact ⟨l ++ [0], by simp⟩
    · obtain ⟨rest, ih⟩ := ih
      exact ⟨rest, by rw [List.cons_append, ih, List.takeWhile_cons_of_pos (by simpa using hc),
        List.cons_append]⟩

theorem Dentry.exists_nameField (d : Dentry) : ∃ rest, d.nameField = d.nameChars ++ 0 :: rest :=
  exists_eq_takeWhile_append _

theorem Dentry.takeWhile_nameField (d : Dentry) :
    d.nameField.takeWhile (· ≠ 0) = d.nameChars := by
  obtain ⟨rest, h⟩ := d.exists_nameField
  have hchars : ∀ c ∈ d.nameChars, decide (c ≠ 0) = true := by
    intro c hc
    rw [decide_eq_true_eq]
    rintro rfl
    exact d.nameString.nul hc
  rw [h, List.takeWhile_append_of_pos hchars, List.takeWhile_cons_of_neg (by simp),
    List.append_nil]

/-- A buffer filled with the field starts with the name. -/
theorem Dentry.at_fill (d : Dentry) (buf : ℕ → Byte) :
    d.nameString.At (ZeroBuffer.fill buf d.nameField) := by
  obtain ⟨rest, h⟩ := d.exists_nameField
  have hchars : d.nameChars = d.nameString.chars := rfl
  intro j hj
  rw [ZeroBuffer.fill, h, hchars, CString.mem]
  rcases Nat.eq_or_lt_of_le hj with rfl | hlt
  · rw [CString.strlen, List.getD_append_right _ _ _ _ (Nat.le_refl _), Nat.sub_self,
      List.getD_cons_zero, List.getD_eq_default _ _ (Nat.le_refl _)]
  · rw [List.getD_append _ _ _ _ hlt, List.getD_eq_getElem _ _ hlt, List.getD_eq_getElem _ _ hlt]

theorem Dentry.nameChars_ne_nil {d : Dentry} (h : d.name 0 ≠ 0) : d.nameChars ≠ [] := by
  have hrange : List.range nameLen = 0 :: (List.range 31).map Nat.succ := List.range_succ_eq_map
  rw [nameChars, hrange, List.map_cons, List.takeWhile_cons_of_pos (by simpa using h)]
  exact List.cons_ne_nil _ _

namespace Kernel

variable {k : Kernel} {p : Word} {fd pos : ℕ}

/-! ## The reader -/

/-- The current process has a directory open, at a position. -/
structure Listing (k : Kernel) (p : Word) (fd pos : ℕ) : Prop where
  curFdPtr : k.cur.curFdPtr = .fdTable p
  entry : k.table p fd = ⟨some .directory, 0, UInt32.ofNat pos, 1⟩
  two_le : 2 ≤ fd
  le_seven : fd ≤ 7

/-- `open` on a directory starts at its first entry. -/
theorem listing_sysOpen (hc : k.cur.curFdPtr = .fdTable p) {img : Image} {filename : ℕ → Byte}
    {dent : Dentry} (hd : img.readDentryByName filename = some dent) (ht : dent.type = 1)
    (hfd : k.getAvailFd = some fd) :
    ∃ k', k.sysOpen img filename = some ((fd : ℤ), k') ∧ k'.Listing p fd 0 := by
  obtain ⟨h2, h7, -⟩ := getAvailFd_eq_some hc hfd
  have htype : typeOps dent.type = some .directory := by
    rw [ht]
    rfl
  obtain ⟨k', hopen, hcur, htable⟩ := sysOpen_of_avail hc hfd hd htype
  refine ⟨k', hopen, hcur, ?_, h2, h7⟩
  rw [htable, Function.update_self]
  rfl

namespace Listing

theorem sysRead_eq (h : k.Listing p fd pos) (img : Image) {buf : Word} (hbuf : buf ≠ 0)
    (nbytes : ℤ) :
    k.sysRead img fd buf nbytes = some ((k.directoryRead img fd).storeAt buf) := by
  have h2 := h.two_le
  have h7 := h.le_seven
  rw [sysRead, if_neg (by unfold maxFd; omega), if_neg hbuf, Int.toNat_natCast,
    curFd_eq h.curFdPtr, h.entry, if_neg (show ¬(1 : Word) = 0 by decide), if_neg (by omega)]
  rfl

theorem storeUser (h : k.Listing p fd pos) (buf : Word) (bytes : List Byte) :
    (k.storeUser buf bytes).Listing p fd pos :=
  ⟨h.curFdPtr, h.entry, h.two_le, h.le_seven⟩

/-- Below the number of entries a read delivers the next name. -/
theorem directoryRead_of_lt (h : k.Listing p fd pos) {img : Image}
    (hpos : pos < img.fsEntries.toNat) :
    ∃ r : ReadResult, k.directoryRead img fd = r ∧
      r.ret = (img.dentry (UInt32.ofNat pos)).nameChars.length ∧
      r.stored = (img.dentry (UInt32.ofNat pos)).nameField ∧ r.kernel.Listing p fd (pos + 1) := by
  have hlt := img.fsEntries.toNat_lt
  have hindex : img.readDentryByIndex (UInt32.ofNat pos) =
      some (img.dentry (UInt32.ofNat pos)) := by
    refine if_neg (not_gt_sub_one ?_)
    rwa [UInt32.lt_iff_toNat_lt, toNat_word (by omega)]
  refine ⟨_, rfl, ?_, ?_, ?_, ?_, h.two_le, h.le_seven⟩
  all_goals
    have h2 := h.two_le
    have h7 := h.le_seven
    simp only [directoryRead, if_neg (by omega : ¬(fd < 2 ∨ fd > 7)), curFd_eq h.curFdPtr,
      h.entry, hindex]
  · rfl
  · rfl
  · rw [cur_setCurFd]
    exact h.curFdPtr
  · rw [table_setCurFd h.curFdPtr, Function.update_self, ofNat_succ]

/-- From there on it delivers nothing. -/
theorem directoryRead_of_le (h : k.Listing p fd pos) {img : Image} (h0 : 1 ≤ img.fsEntries.toNat)
    (hpos : img.fsEntries.toNat ≤ pos) (hmax : pos < 2 ^ 32) :
    k.directoryRead img fd = ⟨0, [], k⟩ := by
  have h2 := h.two_le
  have h7 := h.le_seven
  have hindex : img.readDentryByIndex (UInt32.ofNat pos) = none := by
    refine if_pos (gt_sub_one_iff.2 ⟨fun h0' => ?_, ?_⟩)
    · rw [h0'] at h0
      exact absurd h0 (by decide)
    · rwa [UInt32.le_iff_toNat_le, toNat_word hmax]
  simp only [directoryRead, if_neg (by omega : ¬(fd < 2 ∨ fd > 7)), curFd_eq h.curFdPtr, h.entry,
    hindex]

end Listing

/-- The kernel after the first `i` of successive calls of `read`, of any sizes. -/
def readTimes (img : Image) (fd : ℤ) (buf : ℕ → Word) (nbytes : ℕ → ℤ) (k : Kernel) :
    ℕ → Option Kernel
  | 0 => some k
  | i + 1 => (readTimes img fd buf nbytes k i).bind fun k =>
      (k.sysRead img fd (buf i) (nbytes i)).map ReadResult.kernel

/-- The position runs to the end of the directory and stays there. -/
theorem Listing.readTimes (h : k.Listing p fd 0) {img : Image} (h0 : 1 ≤ img.fsEntries.toNat)
    {buf : ℕ → Word} (hbuf : ∀ i, buf i ≠ 0) (nbytes : ℕ → ℤ) (i : ℕ) :
    ∃ k', k.readTimes img fd buf nbytes i = some k' ∧
      k'.Listing p fd (min i img.fsEntries.toNat) := by
  have hlt := img.fsEntries.toNat_lt
  induction i with
  | zero => exact ⟨k, rfl, by rwa [Nat.zero_min]⟩
  | succ i ih =>
    obtain ⟨k', hk', hl⟩ := ih
    have hread := hl.sysRead_eq img (hbuf i) (nbytes i)
    rcases Nat.lt_or_ge i img.fsEntries.toNat with hi | hi
    · rw [Nat.min_eq_left hi.le] at hl
      obtain ⟨r, hr, -, -, hnext⟩ := hl.directoryRead_of_lt hi
      refine ⟨(r.storeAt (buf i)).kernel, ?_, ?_⟩
      · rw [Kernel.readTimes, hk', Option.bind_some, hread, hr, Option.map_some]
      · rw [Nat.min_eq_left hi]
        exact hnext.storeUser (buf i) r.stored
    · rw [Nat.min_eq_right hi] at hl
      refine ⟨k', ?_, by rwa [Nat.min_eq_right (by omega)]⟩
      rw [Kernel.readTimes, hk', Option.bind_some, hread,
        hl.directoryRead_of_le h0 (Nat.le_refl _) hlt, Option.map_some, ReadResult.storeAt,
        storeUser_nil]

end Kernel

/-! ## The listing -/

namespace Machine

/-- Successive reads of an opened directory deliver the names in the order of their entries, and
then nothing. A lookup of what a read left in its buffer finds the first entry of that name,
which is the one listed where the names differ. -/
theorem listing {img : Image} (h0 : 1 ≤ img.fsEntries.toNat)
    (hnames : ∀ i < img.fsEntries.toNat, (img.dentry (UInt32.ofNat i)).name 0 ≠ 0) {m : Machine}
    (hm : m.Reachable img) {p : Word} (hp : m.running = some p) {filename : CString} {dent : Dentry}
    (hd : img.readDentryByName filename.mem = some dent) (ht : dent.type = 1) {fd : ℤ} {k : Kernel}
    (ho : m.kernel.sysOpen img filename.mem = some (fd, k)) (hfd : fd ≠ -1) {buf : ℕ → Word}
    (hbuf : ∀ i, buf i ≠ 0) (nbytes : ℕ → ℤ) (i : ℕ) :
    ∃ k' r, k.readTimes img fd buf nbytes i = some k' ∧
      k'.sysRead img fd (buf i) (nbytes i) = some r ∧
      (i < img.fsEntries.toNat →
        r.ret = (img.dentry (UInt32.ofNat i)).nameChars.length ∧ 1 ≤ r.ret ∧ r.ret ≤ 32 ∧
        r.stored.length = 33 ∧
        r.stored.takeWhile (· ≠ 0) = (img.dentry (UInt32.ofNat i)).nameChars ∧
        ∀ user : ℕ → Byte, ∃ j, img.FirstNamed (img.dentry (UInt32.ofNat i)).nameChars j ∧
          img.readDentryByName (ZeroBuffer.fill user r.stored) =
            some (img.dentry (UInt32.ofNat j)) ∧
          ((∀ a < img.fsEntries.toNat, ∀ b < img.fsEntries.toNat,
            (img.dentry (UInt32.ofNat a)).nameChars = (img.dentry (UInt32.ofNat b)).nameChars →
              a = b) → j = i)) ∧
      (img.fsEntries.toNat ≤ i → r.ret = 0 ∧ r.stored = [] ∧ r.kernel = k') := by
  have hptr := (hm.coherent.installed hp).curFdPtr
  have hmax := img.fsEntries.toNat_lt
  cases havail : m.kernel.getAvailFd with
  | none =>
    rw [Kernel.sysOpen_fail (Or.inl havail)] at ho
    exact absurd (Prod.mk.inj (Option.some.inj ho)).1.symm hfd
  | some n =>
    obtain ⟨k₀, hopen, hl⟩ := Kernel.listing_sysOpen hptr hd ht havail
    obtain ⟨rfl, rfl⟩ := Prod.mk.inj (Option.some.inj (ho.symm.trans hopen))
    obtain ⟨k', hk', hl'⟩ := hl.readTimes h0 hbuf nbytes i
    refine ⟨k', _, hk', hl'.sysRead_eq img (hbuf i) (nbytes i), fun hi => ?_, fun hi => ?_⟩
    · rw [Nat.min_eq_left hi.le] at hl'
      obtain ⟨r, rfl, hret, hstored, -⟩ := hl'.directoryRead_of_lt hi
      have hne := List.length_pos_of_ne_nil (Dentry.nameChars_ne_nil (hnames i hi))
      have hle := Image.length_nameChars_le (img.dentry (UInt32.ofNat i))
      rw [Kernel.ReadResult.storeAt, hret, hstored]
      refine ⟨rfl, by omega, by omega, Dentry.length_nameField _, Dentry.takeWhile_nameField _,
        fun user => ?_⟩
      obtain ⟨j, hj⟩ := Image.exists_firstNamed
        ⟨i, hi, (rfl : (img.dentry (UInt32.ofNat i)).nameChars = _)⟩
      have hat := (img.dentry (UInt32.ofNat i)).at_fill user
      exact ⟨j, hj, Image.FirstNamed.readDentryByName hat hj,
        fun hinj => hinj j hj.lt i hi hj.named⟩
    · rw [Nat.min_eq_right hi] at hl'
      rw [hl'.directoryRead_of_le h0 (Nat.le_refl _) hmax]
      exact ⟨rfl, rfl, Kernel.storeUser_nil k' (buf i)⟩

end Machine

namespace Kernel

/-- An image with a program named `shell` and a directory named `.`. -/
def directoryImage : Image where
  mem a := (([(0, 2), (4, 1), (8, 1), (64, 115), (65, 104), (66, 101), (67, 108), (68, 108),
    (96, 2), (128, 46), (160, 1), (4096, 4), (8192, 0x7F), (8193, 0x45), (8194, 0x4C),
    (8195, 0x46)] : List (Word × Byte)).lookup a).getD 0

theorem directory_executable (frame : ExecFrame) : Executable directoryImage frame shellCommand :=
  ⟨by decide, directoryImage.dentry 0, by rfl, by decide, by rfl, by decide⟩

theorem lookup_directory : directoryImage.readDentryByName (CString.mk [46] (by decide)).mem =
    some (directoryImage.dentry 1) := by
  rfl

end Kernel

namespace Machine

/-- The first read of the directory delivers the name of the program. -/
theorem listing_directory :
    ∃ k k' : Kernel, ∃ r, k.readTimes Kernel.directoryImage 2 (fun _ => 0x8048000) (fun _ => 33) 0 =
        some k' ∧ k'.sysRead Kernel.directoryImage 2 0x8048000 33 = some r ∧
      r.stored.takeWhile (· ≠ 0) = Kernel.shellCommand.chars := by
  obtain ⟨m, hm, hrun, hptr, havail⟩ :=
    exists_first (Kernel.directory_executable ⟨0, 0, fun _ => 0⟩)
  obtain ⟨k, hopen, -⟩ := Kernel.listing_sysOpen hptr Kernel.lookup_directory (by decide) havail
  obtain ⟨k', r, hk', hr, hname, -⟩ := listing (by decide) (by decide) hm hrun
    Kernel.lookup_directory (by decide) hopen (by decide)
    (fun _ => (by decide : (0x8048000 : Word) ≠ 0)) (fun _ => 33) 0
  obtain ⟨-, -, -, -, hchars, -⟩ := hname (by decide)
  exact ⟨k, k', r, hk', hr, hchars.trans (by decide)⟩

end Machine

end MpOS
