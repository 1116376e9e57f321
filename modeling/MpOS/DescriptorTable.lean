import MpOS.Coherence

/-!
# Descriptor tables

What the four descriptor calls do to the table of the running process, and the law
that follows for whole runs. The tables of the other processes are out of reach
(`OnlyFds.fds`). `Opened` is a history variable : for each process the descriptors
its calls of `open` returned and it has not closed since, with the type of the
directory entry they were opened on.
-/

namespace MpOS

namespace Kernel

/-! ## The current table -/

/-- The descriptor table in a PCB. -/
def table (k : Kernel) (p : Word) : ℕ → Fd :=
  (k.proc.pcb p).fdTable

variable {k : Kernel} {p : Word}

/-- The current descriptor is the running process's. -/
theorem curFd_eq (hc : k.cur.curFdPtr = .fdTable p) (i : ℕ) : k.curFd i = k.table p i := by
  rw [curFd, hc]
  rfl

/-- A store goes to the running process's table. -/
theorem table_setCurFd (hc : k.cur.curFdPtr = .fdTable p) (i : ℕ) (e : Fd) :
    (k.setCurFd i e).table p = Function.update (k.table p) i e := by
  rw [setCurFd_of_fdTable hc]
  simp [table, modifyPcb]

theorem cur_setCurFd (i : ℕ) (e : Fd) : (k.setCurFd i e).cur = k.cur :=
  (onlyFds_setCurFd k i e).context.cur

/-! ## `close` -/

/-- An entry without a table and without flags. -/
structure Closed (e : Fd) : Prop where
  tablePointer : e.tablePointer = none
  flags : e.flags = 0

/-- A close of an open descriptor leaves a closed one in its place. -/
theorem table_closeFd (hc : k.cur.curFdPtr = .fdTable p) (inode : Word) (fd : ℕ)
    (hf : (k.table p fd).flags ≠ 0) :
    ∃ e, Closed e ∧ (k.closeFd inode fd).2.table p = Function.update (k.table p) fd e := by
  refine ⟨⟨none, inode, 0, 0⟩, ⟨rfl, rfl⟩, ?_⟩
  rw [closeFd, curFd_eq hc, if_neg hf, table_setCurFd hc]

/-- So does every driver's close. -/
theorem table_opsClose (hc : k.cur.curFdPtr = .fdTable p) (ops : Fileops) (fd : ℕ)
    (hf : (k.table p fd).flags ≠ 0) :
    ∃ e, Closed e ∧ (k.opsClose ops fd).2.table p = Function.update (k.table p) fd e := by
  cases ops with
  | fileop => exact table_closeFd hc _ fd hf
  | directory => exact table_closeFd hc _ fd hf
  | rtc => exact table_closeFd hc _ fd hf
  | keyboard =>
    refine ⟨⟨none, 0, 0, 0⟩, ⟨rfl, rfl⟩, ?_⟩
    have hlines : k.clearLines.cur.curFdPtr = .fdTable p := hc
    rw [opsClose, keyboardClose, curFd_eq hc, if_neg hf, table_setCurFd hlines]
    rfl

/-- `close` fails on the standard descriptors, outside the table and on closed entries, and
clears any other entry that has a table. -/
theorem sysClose_fail (hc : k.cur.curFdPtr = .fdTable p) {fd : ℤ}
    (hf : fd < 2 ∨ 7 < fd ∨ (k.table p fd.toNat).flags = 0) : k.sysClose fd = some (-1, k) := by
  unfold sysClose minFd maxFd
  split_ifs with h₁ h₂
  · rfl
  · rfl
  · rw [curFd_eq hc] at h₂
    exact absurd hf (by simp only [not_or] at h₁ ⊢; exact ⟨h₁.1, h₁.2, h₂⟩)

/-- `close` of an open descriptor from 2 on succeeds. -/
theorem sysClose_of_open (hc : k.cur.curFdPtr = .fdTable p) {fd : ℤ} (h2 : 2 ≤ fd) (h7 : fd ≤ 7)
    (hf : (k.table p fd.toNat).flags ≠ 0) {ops : Fileops}
    (hops : (k.table p fd.toNat).tablePointer = some ops) :
    k.sysClose fd = some (0, (k.opsClose ops fd.toNat).2) := by
  rw [sysClose, curFd_eq hc, if_neg (by simp [minFd, maxFd]; omega), if_neg hf, hops]
  rfl

/-! ## `open` -/

/-- The table of a directory entry's type. -/
def typeOps (type : Word) : Option Fileops :=
  if type = 0 then some .rtc
  else if type = 1 then some .directory
  else if type = 2 then some .fileop
  else none

/-- The descriptor found is the first free one from 2 on. -/
theorem getAvailFd_eq_some (hc : k.cur.curFdPtr = .fdTable p) {fd : ℕ}
    (h : k.getAvailFd = some fd) :
    2 ≤ fd ∧ fd ≤ 7 ∧ (k.table p fd).flags = 0 ∧
      ∀ i, 2 ≤ i → i < fd → (k.table p i).flags ≠ 0 := by
  have hr : ([2, 3, 4, 5, 6, 7] : List ℕ) = List.range' 2 6 := rfl
  rw [getAvailFd, hr, List.find?_range'_eq_some] at h
  obtain ⟨hfree, hmem, hleast⟩ := h
  rw [List.mem_range'_1] at hmem
  simp only [curFd_eq hc, decide_eq_true_eq, Bool.not_eq_true', decide_eq_false_iff_not]
    at hfree hleast
  exact ⟨hmem.1, by omega, hfree, hleast⟩

/-- None is found exactly when all six are open. -/
theorem getAvailFd_eq_none_iff (hc : k.cur.curFdPtr = .fdTable p) :
    k.getAvailFd = none ↔ ∀ i, 2 ≤ i → i ≤ 7 → (k.table p i).flags ≠ 0 := by
  have hmem : ∀ i, i ∈ [2, 3, 4, 5, 6, 7] ↔ 2 ≤ i ∧ i ≤ 7 := by
    intro i
    simp only [List.mem_cons, List.not_mem_nil, or_false]
    omega
  simp only [getAvailFd, List.find?_eq_none, hmem, curFd_eq hc, decide_eq_true_eq, and_imp]

/-- A type of the three installs its operations. -/
theorem setFileopPtr_eq (fd : ℕ) {type : Word} {ops : Fileops}
    (ht : typeOps type = some ops) :
    k.setFileopPtr fd type = k.setCurFd fd { k.curFd fd with tablePointer := some ops } := by
  unfold typeOps at ht
  unfold setFileopPtr
  split_ifs at ht ⊢ <;> obtain rfl := Option.some.inj ht <;> rfl

/-- Any other type leaves the pointer as it is. -/
theorem setFileopPtr_of_none (fd : ℕ) {type : Word} (ht : typeOps type = none) :
    k.setFileopPtr fd type = k := by
  unfold typeOps at ht
  unfold setFileopPtr
  split_ifs at ht ⊢
  rfl

/-- An entry in use through an operation table. -/
structure Opened (e : Fd) (ops : Fileops) : Prop where
  tablePointer : e.tablePointer = some ops
  flags : e.flags = 1

/-- The entry a driver's `open` fills. Only `file_open` keeps the inode. -/
def openedFd (ops : Fileops) (inode : Word) : Fd :=
  ⟨some ops, if ops = .fileop then inode else 0, 0, 1⟩

theorem opened_openedFd (ops : Fileops) (inode : Word) : Opened (openedFd ops inode) ops :=
  ⟨rfl, rfl⟩

/-- A driver's open fills the descriptor with its operations. -/
theorem opsOpen_eq (hc : k.cur.curFdPtr = .fdTable p) {type : Word} {ops : Fileops}
    (ht : typeOps type = some ops) {fd : ℕ} (h2 : 2 ≤ fd) (h7 : fd ≤ 7) (inode : Word) :
    (k.opsOpen ops fd inode).2.cur.curFdPtr = .fdTable p ∧
      (k.opsOpen ops fd inode).2.table p =
        Function.update (k.table p) fd (openedFd ops inode) := by
  have hfd : ¬(fd < 2 ∨ fd > 7) := by omega
  cases ops with
  | fileop =>
    rw [opsOpen, fileOpen, if_neg hfd, openFd, table_setCurFd hc, cur_setCurFd]
    exact ⟨hc, rfl⟩
  | directory =>
    rw [opsOpen, directoryOpen, if_neg hfd, openFd, table_setCurFd hc, cur_setCurFd]
    exact ⟨hc, rfl⟩
  | rtc =>
    have hrtc : (k.setRate maximumRate).rtcInit.cur.curFdPtr = .fdTable p := hc
    rw [opsOpen, rtcOpen, openFd, table_setCurFd hrtc, cur_setCurFd]
    exact ⟨hc, rfl⟩
  | keyboard =>
    unfold typeOps at ht
    split_ifs at ht <;> exact absurd ht (by simp)

/-- `open` fails without a free entry or without the file, and takes the least free entry
otherwise. -/
theorem sysOpen_fail {img : Image} {filename : ℕ → Byte}
    (h : k.getAvailFd = none ∨ img.readDentryByName filename = none) :
    k.sysOpen img filename = some (-1, k) := by
  unfold sysOpen
  cases hfd : k.getAvailFd with
  | none => rfl
  | some fd => rw [h.resolve_left (by simp [hfd])]

/-- `open` of a name that is found, with a descriptor free. -/
theorem sysOpen_of_avail (hc : k.cur.curFdPtr = .fdTable p) {img : Image} {filename : ℕ → Byte}
    {fd : ℕ} (hfd : k.getAvailFd = some fd) {dent : Dentry}
    (hd : img.readDentryByName filename = some dent) {ops : Fileops}
    (ht : typeOps dent.type = some ops) :
    ∃ k' : Kernel, k.sysOpen img filename = some ((fd : ℤ), k') ∧ k'.cur.curFdPtr = .fdTable p ∧
      k'.table p = Function.update (k.table p) fd (openedFd ops dent.inode) := by
  obtain ⟨h2, h7, -⟩ := getAvailFd_eq_some hc hfd
  have hc' : (k.setFileopPtr fd dent.type).cur.curFdPtr = .fdTable p := by
    rw [setFileopPtr_eq fd ht, cur_setCurFd, hc]
  have hptr : (k.setFileopPtr fd dent.type).table p =
      Function.update (k.table p) fd { k.curFd fd with tablePointer := some ops } := by
    rw [setFileopPtr_eq fd ht, table_setCurFd hc]
  obtain ⟨hcur, htable⟩ := opsOpen_eq hc' ht h2 h7 dent.inode
  refine ⟨_, ?_, hcur, htable.trans (by rw [hptr, Function.update_idem])⟩
  simp only [sysOpen, hfd, hd]
  rw [curFd_eq hc', hptr, Function.update_self, Option.map_some]

/-! ## `read` and `write` -/

/-- The two tables have the same entries in use, through the same operation tables. -/
def SameUse (t t' : ℕ → Fd) : Prop :=
  ∀ i, (t' i).tablePointer = (t i).tablePointer ∧ (t' i).flags = (t i).flags

theorem SameUse.refl (t : ℕ → Fd) : SameUse t t :=
  fun _ => ⟨rfl, rfl⟩

/-- Moving a file position. -/
theorem sameUse_setCurFd (hc : k.cur.curFdPtr = .fdTable p) (fd : ℕ) (pos : Word) :
    SameUse (k.table p) ((k.setCurFd fd { k.curFd fd with filePosition := pos }).table p) := by
  intro i
  rw [table_setCurFd hc, curFd_eq hc]
  rcases eq_or_ne i fd with rfl | hne
  · rw [Function.update_self]
    exact ⟨rfl, rfl⟩
  · rw [Function.update_of_ne hne]
    exact ⟨rfl, rfl⟩

theorem proc_keyboardRead {fd : ℕ} {r : ReadResult} (h : k.keyboardRead fd = some r) :
    r.kernel.proc = k.proc := by
  simp only [keyboardRead] at h
  split_ifs at h
  · obtain rfl := Option.some.inj h
    rfl
  all_goals
    obtain ⟨n, -, rfl⟩ := Option.map_eq_some_iff.1 h
    rfl

/-- A driver's read opens and closes nothing. -/
theorem sameUse_opsRead (hc : k.cur.curFdPtr = .fdTable p) {img : Image} {ops : Fileops} {fd : ℕ}
    {nbytes : ℤ} {r : ReadResult} (h : k.opsRead img ops fd nbytes = some r) :
    SameUse (k.table p) (r.kernel.table p) := by
  cases ops with
  | fileop =>
    obtain rfl := Option.some.inj h
    simp only [fileRead]
    split_ifs
    · exact .refl _
    · exact sameUse_setCurFd hc _ _
  | directory =>
    obtain rfl := Option.some.inj h
    simp only [directoryRead]
    split_ifs
    · exact .refl _
    · split
      · exact .refl _
      · exact sameUse_setCurFd hc _ _
  | rtc =>
    obtain rfl := Option.some.inj h
    exact .refl _
  | keyboard =>
    have hp : r.kernel.proc = k.proc := proc_keyboardRead h
    rw [table, table, hp]
    exact .refl _

/-- Nor does `read`. -/
theorem sameUse_sysRead (hc : k.cur.curFdPtr = .fdTable p) {img : Image} {fd : ℤ} {buf : Word}
    {nbytes : ℤ} {r : ReadResult} (h : k.sysRead img fd buf nbytes = some r) :
    SameUse (k.table p) (r.kernel.table p) := by
  rcases sysRead_cases h with rfl | ⟨ops, r', -, -, hread, rfl⟩
  · exact .refl _
  · have hsame : SameUse (k.table p) (r'.kernel.table p) := sameUse_opsRead hc hread
    exact hsame

theorem proc_opsWrite (ops : Fileops) (buf : ℕ → Byte) (nbytes : ℤ) :
    (k.opsWrite ops buf nbytes).2.proc = k.proc := by
  cases ops with
  | fileop => rfl
  | directory => rfl
  | rtc =>
    simp only [opsWrite, rtcWrite]
    split_ifs <;> rfl
  | keyboard => exact (onlyScreen_keyboardWrite buf nbytes k).proc

/-- `write` changes no table at all. -/
theorem proc_sysWrite {fd : ℤ} {buf : Option (ℕ → Byte)} {nbytes : ℤ} {r : ℤ × Kernel}
    (h : k.sysWrite fd buf nbytes = some r) : r.2.proc = k.proc := by
  rcases sysWrite_cases h with rfl | ⟨ops, buf, rfl⟩
  · rfl
  · exact proc_opsWrite _ _ _

theorem table_vidmap (screenStart : Word) (k : Kernel) (q : Word) :
    (k.vidmap screenStart).2.2.table q = k.table q := by
  unfold vidmap
  split_ifs
  · rfl
  · rfl
  · exact update_pcb Pcb.fdTable (by rfl) q

end Kernel

/-! ## The law of a table -/

/-- The descriptors of a process that are open, each with the type it was opened on. -/
abbrev Opens :=
  ℕ → Option Word

/-- Entries 0 and 1 are the keyboard, and the open descriptors are the entries in use of the
rest, each through the table of its type. -/
structure TableLaw (t : ℕ → Fd) (opens : Opens) : Prop where
  std : ∀ i < 2, Kernel.Opened (t i) .keyboard
  closed : ∀ i, 2 ≤ i → i ≤ 7 → opens i = none → Kernel.Closed (t i)
  opened : ∀ i, 2 ≤ i → i ≤ 7 → ∀ type, opens i = some type →
    ∃ ops, Kernel.typeOps type = some ops ∧ Kernel.Opened (t i) ops

namespace TableLaw

variable {t t' : ℕ → Fd} {opens : Opens}

/-- The law is about which descriptors are open, and with what operations. -/
theorem congr (h : TableLaw t opens) (hu : Kernel.SameUse t t') : TableLaw t' opens where
  std i hi := ⟨(hu i).1.trans (h.std i hi).1, (hu i).2.trans (h.std i hi).2⟩
  closed i h2 h7 hn :=
    ⟨(hu i).1.trans (h.closed i h2 h7 hn).1, (hu i).2.trans (h.closed i h2 h7 hn).2⟩
  opened i h2 h7 type hs := by
    obtain ⟨ops, hops, ho⟩ := h.opened i h2 h7 type hs
    exact ⟨ops, hops, (hu i).1.trans ho.1, (hu i).2.trans ho.2⟩

/-- The table of a new process. -/
theorem initTable (t : ℕ → Fd) : TableLaw (Kernel.initTable t) fun _ => none where
  std i hi := by
    rw [Kernel.initTable, if_pos hi]
    exact ⟨rfl, rfl⟩
  closed i h2 h7 _ := by
    rw [Kernel.initTable, if_neg (by omega), if_pos (by omega)]
    exact ⟨rfl, rfl⟩
  opened _ _ _ _ hs := absurd hs (by simp)

theorem «open» (h : TableLaw t opens) {fd : ℕ} (h2 : 2 ≤ fd) {e : Fd} {ops : Fileops} {type : Word}
    (ht : Kernel.typeOps type = some ops) (he : Kernel.Opened e ops) :
    TableLaw (Function.update t fd e) (Function.update opens fd (some type)) where
  std i hi := by
    rw [Function.update_of_ne (by omega)]
    exact h.std i hi
  closed i hi2 hi7 hn := by
    rcases eq_or_ne i fd with rfl | hne
    · simp at hn
    · rw [Function.update_of_ne hne] at hn ⊢
      exact h.closed i hi2 hi7 hn
  opened i hi2 hi7 type' hs := by
    rcases eq_or_ne i fd with rfl | hne
    · rw [Function.update_self, Option.some.injEq] at hs
      subst hs
      rw [Function.update_self]
      exact ⟨ops, ht, he⟩
    · rw [Function.update_of_ne hne] at hs ⊢
      exact h.opened i hi2 hi7 type' hs

/-- A closed descriptor, recorded as closed. -/
theorem close (h : TableLaw t opens) {fd : ℕ} (h2 : 2 ≤ fd) {e : Fd} (he : Kernel.Closed e) :
    TableLaw (Function.update t fd e) (Function.update opens fd none) where
  std i hi := by
    rw [Function.update_of_ne (by omega)]
    exact h.std i hi
  closed i hi2 hi7 hn := by
    rcases eq_or_ne i fd with rfl | hne
    · rwa [Function.update_self]
    · rw [Function.update_of_ne hne] at hn ⊢
      exact h.closed i hi2 hi7 hn
  opened i hi2 hi7 type' hs := by
    rcases eq_or_ne i fd with rfl | hne
    · simp at hs
    · rw [Function.update_of_ne hne] at hs ⊢
      exact h.opened i hi2 hi7 type' hs

/-- The entries in use of a lawful table are the open descriptors. -/
theorem flags_ne_zero_iff (h : TableLaw t opens) {i : ℕ} (h2 : 2 ≤ i) (h7 : i ≤ 7) :
    (t i).flags ≠ 0 ↔ opens i ≠ none := by
  cases ho : opens i with
  | none => simp [(h.closed i h2 h7 ho).flags]
  | some type =>
    obtain ⟨ops, -, he⟩ := h.opened i h2 h7 type ho
    simp [he.flags]

/-- The flag and the table pointer of an entry agree. -/
theorem flags_eq_one_iff (h : TableLaw t opens) {i : ℕ} (h2 : 2 ≤ i) (h7 : i ≤ 7) :
    (t i).flags = 1 ↔ (t i).tablePointer ≠ none := by
  cases ho : opens i with
  | none =>
    have hc := h.closed i h2 h7 ho
    simp [hc.flags, hc.tablePointer]
  | some type =>
    obtain ⟨ops, -, he⟩ := h.opened i h2 h7 type ho
    simp [he.flags, he.tablePointer]

/-- An entry in use can be dispatched through. -/
theorem exists_ops (h : TableLaw t opens) {i : ℕ} (h2 : 2 ≤ i) (h7 : i ≤ 7)
    (hf : (t i).flags ≠ 0) : ∃ ops, (t i).tablePointer = some ops := by
  obtain ⟨type, ho⟩ := Option.ne_none_iff_exists'.1 ((h.flags_ne_zero_iff h2 h7).1 hf)
  obtain ⟨ops, -, he⟩ := h.opened i h2 h7 type ho
  exact ⟨ops, he.tablePointer⟩

end TableLaw

/-! ## The calls under the law -/

/-- Every file of the image has one of the three types. -/
def Image.Typed (img : Image) : Prop :=
  ∀ i < img.fsEntries.toNat, (img.dentry (UInt32.ofNat i)).type ≤ 2

/-- In a typed image every entry found has operations. -/
theorem Image.Typed.typeOps {img : Image} (h : img.Typed) {filename : ℕ → Byte} {dent : Dentry}
    (hd : img.readDentryByName filename = some dent) :
    ∃ ops, Kernel.typeOps dent.type = some ops := by
  obtain ⟨i, hi, rfl⟩ := Option.map_eq_some_iff.1 hd
  have hle := h i (by simpa using List.mem_of_find?_eq_some hi)
  generalize (img.dentry (UInt32.ofNat i)).type = type at hle
  have hcases : type = 0 ∨ type = 1 ∨ type = 2 := by
    simp only [← UInt32.toNat_inj, UInt32.le_iff_toNat_le, UInt32.reduceToNat] at hle ⊢
    omega
  rcases hcases with rfl | rfl | rfl
  · exact ⟨.rtc, rfl⟩
  · exact ⟨.directory, rfl⟩
  · exact ⟨.fileop, rfl⟩

/-- What a call of `open` that returns `ret` adds to the open descriptors. -/
def Opens.open (opens : Opens) (img : Image) (filename : ℕ → Byte) (ret : ℤ) : Opens :=
  if ret = -1 then opens
  else Function.update opens ret.toNat ((img.readDentryByName filename).map Dentry.type)

/-- What a call of `close` that returns `ret` takes from the open descriptors. -/
def Opens.close (opens : Opens) (fd ret : ℤ) : Opens :=
  if ret = 0 then Function.update opens fd.toNat none else opens

namespace Kernel

variable {k : Kernel} {p : Word} {opens : Opens}

/-- `open` returns the least descriptor that is not open, and -1 exactly when the file does
not exist or all descriptors are open. -/
theorem sysOpen_spec (hc : k.cur.curFdPtr = .fdTable p) (hl : TableLaw (k.table p) opens)
    {img : Image} (hi : img.Typed) (filename : ℕ → Byte) :
    ∃ ret, ∃ k' : Kernel, k.sysOpen img filename = some (ret, k') ∧
      TableLaw (k'.table p) (opens.open img filename ret) ∧
      (ret = -1 ↔ img.readDentryByName filename = none ∨ ∀ i, 2 ≤ i → i ≤ 7 → opens i ≠ none) ∧
      (ret = -1 → k' = k) ∧
      (ret ≠ -1 → ∃ fd : ℕ, ret = fd ∧ 2 ≤ fd ∧ fd ≤ 7 ∧ opens fd = none ∧
        ∀ i, 2 ≤ i → i < fd → opens i ≠ none) := by
  have hfull : (∀ i, 2 ≤ i → i ≤ 7 → opens i ≠ none) ↔ k.getAvailFd = none := by
    rw [getAvailFd_eq_none_iff hc]
    exact forall₃_congr fun i h2 h7 => (hl.flags_ne_zero_iff h2 h7).symm
  rw [hfull]
  by_cases hfail : k.getAvailFd = none ∨ img.readDentryByName filename = none
  · refine ⟨-1, k, sysOpen_fail hfail, ?_, ?_, fun _ => rfl, fun h => absurd rfl h⟩
    · simpa [Opens.open] using hl
    · exact iff_of_true rfl hfail.symm
  · obtain ⟨hnfd, hndent⟩ := not_or.1 hfail
    obtain ⟨fd, hfd⟩ := Option.ne_none_iff_exists'.1 hnfd
    obtain ⟨dent, hdent⟩ := Option.ne_none_iff_exists'.1 hndent
    obtain ⟨ops, hops⟩ := hi.typeOps hdent
    obtain ⟨h2, h7, hfree, hleast⟩ := getAvailFd_eq_some hc hfd
    obtain ⟨k', hopen, -, htable⟩ := sysOpen_of_avail hc hfd hdent hops
    have hne : (fd : ℤ) ≠ -1 := by omega
    refine ⟨fd, k', hopen, ?_, ?_, fun h => absurd h hne, fun _ => ⟨fd, rfl, h2, h7, ?_, ?_⟩⟩
    · rw [htable, Opens.open, if_neg hne, hdent]
      exact hl.open h2 hops (opened_openedFd _ _)
    · exact iff_of_false hne fun h => hfail h.symm
    · by_contra ho
      exact (hl.flags_ne_zero_iff h2 h7).2 ho hfree
    · exact fun i hi2 hlt => (hl.flags_ne_zero_iff hi2 (by omega)).1 (hleast i hi2 hlt)

/-- `open` keeps the law. On a file of another type it has no table to go through. -/
theorem sysOpen_law (hc : k.cur.curFdPtr = .fdTable p) (hl : TableLaw (k.table p) opens)
    {img : Image} {filename : ℕ → Byte} {r : ℤ × Kernel} (h : k.sysOpen img filename = some r) :
    TableLaw (r.2.table p) (opens.open img filename r.1) := by
  by_cases hfail : k.getAvailFd = none ∨ img.readDentryByName filename = none
  · rw [sysOpen_fail hfail] at h
    obtain rfl := Option.some.inj h
    simpa [Opens.open] using hl
  · obtain ⟨hnfd, hndent⟩ := not_or.1 hfail
    obtain ⟨fd, hfd⟩ := Option.ne_none_iff_exists'.1 hnfd
    obtain ⟨dent, hdent⟩ := Option.ne_none_iff_exists'.1 hndent
    obtain ⟨h2, h7, hfree, -⟩ := getAvailFd_eq_some hc hfd
    cases hops : typeOps dent.type with
    | none =>
      have hnone : opens fd = none := by
        by_contra ho
        exact (hl.flags_ne_zero_iff h2 h7).2 ho hfree
      rw [sysOpen, hfd, hdent] at h
      simp only [setFileopPtr_of_none fd hops, curFd_eq hc,
        (hl.closed fd h2 h7 hnone).tablePointer, Option.map_none] at h
      simp at h
    | some ops =>
      obtain ⟨k', hopen, -, htable⟩ := sysOpen_of_avail hc hfd hdent hops
      obtain rfl := Option.some.inj (h.symm.trans hopen)
      have hne : (fd : ℤ) ≠ -1 := by omega
      rw [htable, Opens.open, if_neg hne, hdent]
      exact hl.open h2 hops (opened_openedFd _ _)

/-- `close` returns -1 without effect on what is not an open descriptor, and closes what is. -/
theorem sysClose_spec (hc : k.cur.curFdPtr = .fdTable p) (hl : TableLaw (k.table p) opens)
    (fd : ℤ) :
    ∃ ret, ∃ k' : Kernel, k.sysClose fd = some (ret, k') ∧
      TableLaw (k'.table p) (opens.close fd ret) ∧
      (fd < 2 ∨ 7 < fd ∨ opens fd.toNat = none → ret = -1 ∧ k' = k) ∧
      (2 ≤ fd → fd ≤ 7 → opens fd.toNat ≠ none → ret = 0) := by
  by_cases hfail : fd < 2 ∨ 7 < fd ∨ opens fd.toNat = none
  · refine ⟨-1, k, sysClose_fail hc ?_, ?_, fun _ => ⟨rfl, rfl⟩, fun h2 h7 ho => ?_⟩
    · rcases hfail with h | h | ho
      · exact Or.inl h
      · exact Or.inr (Or.inl h)
      · rcases lt_or_ge fd 2 with h2 | h2
        · exact Or.inl h2
        rcases lt_or_ge 7 fd with h7 | h7
        · exact Or.inr (Or.inl h7)
        · exact Or.inr (Or.inr (hl.closed _ (by omega) (by omega) ho).flags)
    · simpa [Opens.close] using hl
    · exact absurd hfail (by simp only [not_or]; exact ⟨by omega, by omega, ho⟩)
  · simp only [not_or, not_lt] at hfail
    obtain ⟨h2, h7, ho⟩ := hfail
    have hf := (hl.flags_ne_zero_iff (by omega) (by omega)).2 ho
    obtain ⟨ops, hops⟩ := hl.exists_ops (by omega) (by omega) hf
    obtain ⟨e, he, htable⟩ := table_opsClose hc ops fd.toNat hf
    refine ⟨0, _, sysClose_of_open hc h2 h7 hf hops, ?_, fun h => ?_, fun _ _ _ => rfl⟩
    · rw [htable, Opens.close, if_pos rfl]
      exact hl.close (by omega) he
    · rcases h with h | h | h
      · omega
      · omega
      · exact absurd h ho

/-- The closes of an exit go through. -/
theorem foldlM_sysClose (l : List ℤ) (hc : k.cur.curFdPtr = .fdTable p)
    (hl : TableLaw (k.table p) opens) :
    ∃ k', l.foldlM (fun k i => (k.sysClose i).map Prod.snd) k = some k' := by
  induction l generalizing k opens with
  | nil => exact ⟨k, rfl⟩
  | cons i l ih =>
    obtain ⟨ret, k', hclose, hl', -⟩ := sysClose_spec hc hl i
    have hcur : k'.cur = k.cur := (onlyFds_sysClose hclose).context.cur
    obtain ⟨k'', h⟩ := ih (hcur ▸ hc) hl'
    exact ⟨k'', by rw [List.foldlM_cons, hclose]; exact h⟩

/-- With a lawful table the closes of an exit call no null pointer. -/
theorem isSome_closeAll (hc : k.cur.curFdPtr = .fdTable p) (hl : TableLaw (k.table p) opens) :
    k.closeAll.isSome :=
  Option.isSome_iff_exists.2 (foldlM_sysClose _ hc hl)

/-- An exit of a process with a lawful table is defined. -/
theorem isSome_halt (hc : k.cur.curFdPtr = .fdTable p) (hl : TableLaw (k.table p) opens)
    (status : Byte) : (k.halt status).isSome := by
  simp only [halt, Option.isSome_map]
  refine isSome_closeAll ?_ hl
  simpa [cur, modifyCur, setEsp0, setRetStatus, setInterruptFlag, clearVid] using hc

/-- So an exception always resumes the parent. -/
theorem isSome_haltException (hc : k.cur.curFdPtr = .fdTable p)
    (hl : TableLaw (k.table p) opens) : k.haltException.isSome := by
  simp only [haltException, Option.isSome_map]
  exact isSome_closeAll hc hl

/-- A process that has just been started can be ended. -/
theorem Starts.exists_haltException {k k₁ : Kernel} {frame : ExecFrame} {command : CString}
    {pid : Word} (h : k.Starts frame command pid k₁) : ∃ k',
      k₁.haltException = some (⟨frame.esp, frame.ebp⟩, k') ∧
        k₁.Exits ⟨frame.esp, frame.ebp⟩ k' := by
  have hptr : k₁.cur.curFdPtr = .fdTable pid := by rw [h.cur_eq]
  have htable : TableLaw (k₁.table pid) fun _ => none := by
    rw [table, h.pcb_self]
    exact .initTable _
  obtain ⟨⟨frame', k'⟩, hhalt⟩ := Option.isSome_iff_exists.1 (isSome_haltException hptr htable)
  have hx := (haltException_exits hhalt).1
  have hpid : k₁.cur.curPid = pid := by rw [h.cur_eq]
  have hframe : frame' = ⟨frame.esp, frame.ebp⟩ := by
    rw [hx.frame, hpid, h.pcb_self]
    rfl
  exact ⟨k', hframe ▸ hhalt, hframe ▸ hx⟩

end Kernel

namespace Machine

/-! ## Whole runs -/

theorem table_eq_of_fds {k k' : Kernel} {q : Word} (h : k'.fds (.fdTable q) = k.fds (.fdTable q)) :
    k'.table q = k.table q :=
  h

theorem table_eq_of_proc {k k' : Kernel} (h : k'.proc = k.proc) (q : Word) :
    k'.table q = k.table q := by
  rw [Kernel.table, Kernel.table, h]

/-- A step changes the tables of the running process and of the process it starts at most. -/
theorem step_table {img : Image} {m m' : Machine} {e : Event} (h : m.Coherent)
    (hstep : m.step img e = some m') {q : Word} (hq : q ∈ m.live) (hne : m.running ≠ some q) :
    m'.kernel.table q = m.kernel.table q := by
  -- where a process runs, the current table is its own
  have hptr : m.running ≠ none → FdPtr.fdTable q ≠ m.kernel.cur.curFdPtr := by
    intro hr heq
    obtain ⟨p, hp⟩ := Option.ne_none_iff_exists'.1 hr
    rw [(h.installed hp).curFdPtr, FdPtr.fdTable.injEq] at heq
    exact hne (heq ▸ hp)
  cases step_cases hstep with
  | fail _ => rfl
  | @start frame command pid target k hexec hs =>
    obtain ⟨t, ht⟩ := mem_live.1 hq
    have hqp : q ≠ pid := by
      rintro rfl
      exact h.not_mem_of_use_eq_zero (Kernel.getAvailPcb_eq_some hs.avail).2 t ht
    exact congrArg Pcb.fdTable (hs.pcb_of_ne hqp)
  | exit hcall hm' =>
    obtain ⟨frame, k, hk, hr, hres⟩ := exit_eq_some hm'
    rw [resume_kernel hres]
    exact table_eq_of_fds ((hcall.exits hk).fds _ (hptr hr))
  | fdCall hr hcall => exact table_eq_of_fds (hcall.fdSteps.onlyFds.fds _ (hptr hr))
  | vidmap _ => exact Kernel.table_vidmap _ m.kernel q
  | switch frame => rw [withKernel, Kernel.table, Kernel.interruptPit_pcb, Kernel.table]
  | quiet hq => exact table_eq_of_proc hq.proc q

/-- The history of the open descriptors of all processes. -/
def recordOpens (img : Image) (m : Machine) (e : Event) (opens : Word → Opens) : Word → Opens :=
  match e, m.running with
  | .execute frame command, _ =>
    match m.kernel.execute img frame command with
    | some (.iret pid _, _) => Function.update opens pid fun _ => none
    | _ => opens
  | .open filename, some p =>
    match m.kernel.sysOpen img filename.mem with
    | some r => Function.update opens p ((opens p).open img filename.mem r.1)
    | none => opens
  | .close fd, some p =>
    match m.kernel.sysClose fd with
    | some r => Function.update opens p ((opens p).close fd r.1)
    | none => opens
  | _, _ => opens

/-- The tables of the live processes obey the law. -/
structure Lawful (s : Machine × (Word → Opens)) : Prop where
  coherent : s.1.Coherent
  law : ∀ p ∈ s.1.live, TableLaw (s.1.kernel.table p) (s.2 p)

theorem Coherent.running_mem {m : Machine} (h : m.Coherent) {p : Word} (hp : m.running = some p) :
    p ∈ m.live := by
  obtain ⟨c, rest, hs, -⟩ := h.stack_eq (by simp [hp])
  rw [running, hs, List.head?_cons, Option.map_some, Option.some.injEq] at hp
  refine mem_live.2 ⟨m.terminal, ?_⟩
  rw [pids, show m.calls m.terminal = c :: rest from hs, List.map_cons, hp]
  exact List.mem_cons_self

/-- After an exit the process is gone and no other process is new. -/
theorem Coherent.live_exit {m m' : Machine} (h : m.Coherent) {r : Option (Kernel.Frame × Kernel)}
    (hx : ∀ frame k, r = some (frame, k) → m.kernel.Exits frame k) (hm' : m.exit r = some m')
    {q : Word} (hq : q ∈ m'.live) : q ∈ m.live ∧ m.running ≠ some q := by
  obtain ⟨frame, k, hk, hr, hres⟩ := exit_eq_some hm'
  obtain ⟨c, rest, hs, -, hres'⟩ := h.resume_eq hr (hx frame k hk)
  obtain rfl := Option.some.inj (hres.symm.trans hres')
  obtain ⟨t, ht⟩ := mem_live.1 hq
  obtain ⟨d, hd, rfl⟩ := List.mem_map.1 ht
  obtain ⟨hd', hne⟩ := h.ne_top hs hd
  refine ⟨mem_live.2 ⟨t, List.mem_map_of_mem hd'⟩, ?_⟩
  rw [running, hs, List.head?_cons, Option.map_some, ne_eq, Option.some.injEq]
  exact hne.symm

/-- The law survives a call of the running process that keeps it for the process's own table. -/
theorem Lawful.userCall {img : Image} {m m' : Machine} {opens opens' : Word → Opens} {e : Event}
    (h : Lawful (m, opens)) (hstep : m.step img e = some m') (hlive : m'.live = m.live)
    (hself : ∀ p, m.running = some p → TableLaw (m'.kernel.table p) (opens' p))
    (hother : ∀ q, m.running ≠ some q → opens' q = opens q) : Lawful (m', opens') := by
  refine ⟨coherent_step h.coherent hstep, fun q hq => ?_⟩
  change q ∈ m'.live at hq
  rw [hlive] at hq
  by_cases hr : m.running = some q
  · exact hself q hr
  · show TableLaw (m'.kernel.table q) (opens' q)
    rw [step_table h.coherent hstep hq hr, hother q hr]
    exact h.law q hq

/-- An exit gives the table of the process up. -/
theorem Lawful.exit {img : Image} {m m' : Machine} {opens : Word → Opens} {e : Event}
    (h : Lawful (m, opens)) (hstep : m.step img e = some m') {r : Option (Kernel.Frame × Kernel)}
    (hx : ∀ frame k, r = some (frame, k) → m.kernel.Exits frame k) (hm' : m.exit r = some m') :
    Lawful (m', opens) := by
  refine ⟨coherent_step h.coherent hstep, fun q hq => ?_⟩
  obtain ⟨hq', hr⟩ := h.coherent.live_exit hx hm' hq
  show TableLaw (m'.kernel.table q) (opens q)
  rw [step_table h.coherent hstep hq' hr]
  exact h.law q hq'

/-- The law survives a step that changes no table. -/
theorem Lawful.stay {img : Image} {m : Machine} {opens : Word → Opens} {e : Event} {k : Kernel}
    (h : Lawful (m, opens)) (hstep : m.step img e = some (m.withKernel k))
    (ht : ∀ q, k.table q = m.kernel.table q) : Lawful (m.withKernel k, opens) := by
  refine ⟨coherent_step h.coherent hstep, fun q hq => ?_⟩
  show TableLaw (k.table q) (opens q)
  rw [ht]
  exact h.law q hq

/-- What an open records. -/
theorem recordOpens_open {img : Image} {m : Machine} {p : Word} {filename : CString}
    {r : ℤ × Kernel} (hp : m.running = some p) (hr : m.kernel.sysOpen img filename.mem = some r)
    (opens : Word → Opens) :
    recordOpens img m (.open filename) opens =
      Function.update opens p ((opens p).open img filename.mem r.1) := by
  simp only [recordOpens, hp, hr]

/-- What a close records. -/
theorem recordOpens_close {img : Image} {m : Machine} {p : Word} {fd : ℤ} {r : ℤ × Kernel}
    (hp : m.running = some p) (hr : m.kernel.sysClose fd = some r) (opens : Word → Opens) :
    recordOpens img m (.close fd) opens = Function.update opens p ((opens p).close fd r.1) := by
  simp only [recordOpens, hp, hr]

/-- A new process starts with its two standard descriptors. -/
theorem lawful_execute {img : Image} {m m' : Machine} {opens : Word → Opens}
    {frame : Kernel.ExecFrame} {command : CString} (h : Lawful (m, opens))
    (hstep : m.step img (.execute frame command) = some m') :
    Lawful (m', recordOpens img m (.execute frame command) opens) := by
  rcases execute_eq_some hstep with ⟨k, b, hexec, rfl⟩ | ⟨pid, target, k, hexec, hs, rfl⟩
  · simp only [recordOpens, hexec]
    exact h.stay hstep fun _ => rfl
  · simp only [recordOpens, hexec]
    refine ⟨coherent_step h.coherent hstep, fun q hq => ?_⟩
    show TableLaw (k.table q) (Function.update opens pid (fun _ => none) q)
    rcases eq_or_ne q pid with rfl | hne
    · rw [Function.update_self, Kernel.table, hs.pcb_self]
      exact .initTable _
    · rw [Function.update_of_ne hne, Kernel.table, hs.pcb_of_ne hne]
      exact h.law q ((mem_live_enter hq).resolve_left hne)

/-- Every step keeps the law. -/
theorem lawful_step {img : Image} {m m' : Machine} {opens : Word → Opens}
    {e : Event} (h : Lawful (m, opens)) (hstep : m.step img e = some m') :
    Lawful (m', recordOpens img m e opens) := by
  have hc := h.coherent
  have hown : ∀ p, m.running = some p →
      m.kernel.cur.curFdPtr = .fdTable p ∧ TableLaw (m.kernel.table p) (opens p) := fun p hp =>
    ⟨(hc.installed hp).curFdPtr, h.law p (hc.running_mem hp)⟩
  cases step_cases hstep with
  | fail hexec => exact lawful_execute h hstep
  | start hexec hs => exact lawful_execute h hstep
  | exit hcall hm' =>
    have hsame : recordOpens img m e opens = opens := by
      cases hcall with
      | halt status => rfl
      | haltException => rfl
    rw [hsame]
    exact h.exit hstep (fun _ _ => hcall.exits) hm'
  | fdCall hr hcall =>
    obtain ⟨p, hp⟩ := Option.ne_none_iff_exists'.1 hr
    obtain ⟨hptr, hl⟩ := hown p hp
    -- the law of the running process is what the call keeps
    have hself : ∀ {opens' : Opens} {k : Kernel}, TableLaw (k.table p) opens' →
        (∀ q, m.running = some q → TableLaw (k.table q) (Function.update opens p opens' q)) ∧
          ∀ q, m.running ≠ some q → Function.update opens p opens' q = opens q := by
      intro opens' k hl'
      refine ⟨fun q hq => ?_, fun q hq => Function.update_of_ne ?_ _ _⟩
      · obtain rfl := Option.some.inj (hp.symm.trans hq)
        rwa [Function.update_self]
      · rintro rfl
        exact hq hp
    cases hcall with
    | «open» hr' =>
      obtain ⟨h₁, h₂⟩ := hself (Kernel.sysOpen_law hptr hl hr')
      rw [recordOpens_open hp hr']
      exact h.userCall hstep rfl h₁ h₂
    | @close fd r hr' =>
      obtain ⟨ret, k', hclose, hl', -⟩ := Kernel.sysClose_spec hptr hl fd
      obtain rfl := Option.some.inj (hr'.symm.trans hclose)
      obtain ⟨h₁, h₂⟩ := hself hl'
      rw [recordOpens_close hp hr']
      exact h.userCall hstep rfl h₁ h₂
    | read hr' =>
      refine h.userCall hstep rfl (fun q hq => ?_) fun q hq => rfl
      exact (hown q hq).2.congr (Kernel.sameUse_sysRead (hown q hq).1 hr')
    | write hr' => exact h.stay hstep (table_eq_of_proc (Kernel.proc_sysWrite hr'))
  | vidmap _ => exact h.stay hstep (Kernel.table_vidmap _ m.kernel)
  | switch frame =>
    exact h.stay hstep fun q => by rw [Kernel.table, Kernel.interruptPit_pcb, Kernel.table]
  | quiet hq =>
    have hsame : recordOpens img m e opens = opens := by
      cases hq with
      | interruptKeyboard code => rfl
      | interruptRtc => rfl
      | switchVid target => rfl
    rw [hsame]
    exact h.stay hstep (table_eq_of_proc hq.proc)

/-- Before the boot loop there is no process, whatever the history. -/
theorem lawful_boot {m : Machine} (h : m.Booted) (opens : Word → Opens) : Lawful (m, opens) := by
  refine ⟨coherent_boot h, fun p hp => ?_⟩
  obtain ⟨k, -, rfl⟩ := h
  obtain ⟨t, ht⟩ := mem_live.1 hp
  exact absurd ht List.not_mem_nil

/-- The reachable states, with the history of the open descriptors. -/
def OpensReachable (img : Image) : Machine × (Word → Opens) → Prop :=
  Transition.Reachable (Transition.track (step img) (recordOpens img))
    (fun s => OwnReads img s.1) fun s => s.1.Booted

/-- Every reachable state is lawful. -/
theorem OpensReachable.lawful {img : Image} {s : Machine × (Word → Opens)}
    (h : OpensReachable img s) : Lawful s := by
  refine Transition.Reachable.invariant (fun s hs => lawful_boot hs s.2)
    (fun s e s' hs _ h => ?_) h
  obtain ⟨m, opens⟩ := s
  obtain ⟨m', opens'⟩ := s'
  obtain ⟨hstep, hg⟩ := Transition.track_eq_some_iff.1 h
  change opens' = recordOpens img m e opens at hg
  rw [hg]
  exact lawful_step hs hstep

/-- Every run has its history. -/
theorem Reachable.exists_opens {img : Image} {m : Machine} (h : m.Reachable img) :
    ∃ opens, OpensReachable img (m, opens) := by
  induction h with
  | init h => exact ⟨fun _ _ => none, .init h⟩
  | @step m m' e _ he hstep ih =>
    obtain ⟨opens, ih⟩ := ih
    exact ⟨(m', recordOpens img m e opens).2,
      ih.step he (Transition.track_eq_some_iff.2 ⟨hstep, rfl⟩)⟩

/-- The running process can always exit. -/
theorem Reachable.exit_enabled {img : Image} {m : Machine} (h : m.Reachable img)
    (hr : m.running ≠ none) :
    (∀ status, ∃ m', m.step img (.halt status) = some m') ∧
      ∃ m', m.step img .haltException = some m' := by
  obtain ⟨opens, ho⟩ := h.exists_opens
  have hl := ho.lawful
  obtain ⟨p, hp⟩ := Option.ne_none_iff_exists'.1 hr
  have hptr := (hl.coherent.installed hp).curFdPtr
  have htable := hl.law p (hl.coherent.running_mem hp)
  have hexit : ∀ r : Option (Kernel.Frame × Kernel), r.isSome →
      (∀ frame k, r = some (frame, k) → m.kernel.Exits frame k) → ∃ m', m.exit r = some m' := by
    intro r hsome hx
    obtain ⟨⟨frame, k⟩, rfl⟩ := Option.isSome_iff_exists.1 hsome
    obtain ⟨c, rest, -, -, hres⟩ := hl.coherent.resume_eq hr (hx frame k rfl)
    have hexit : m.exit (some (frame, k)) = m.resume frame k := by
      rw [exit, if_neg hr, Option.bind_some]
    exact ⟨_, hexit.trans hres⟩
  refine ⟨fun status => ?_, ?_⟩
  · exact hexit _ (Kernel.isSome_halt hptr htable status) fun _ _ hk => (Kernel.halt_exits hk).1
  · exact hexit _ (Kernel.isSome_haltException hptr htable) fun _ _ hk =>
      (Kernel.haltException_exits hk).1

theorem shellImage_typed : Kernel.shellImage.Typed := by
  unfold Image.Typed
  decide

end Machine

end MpOS
