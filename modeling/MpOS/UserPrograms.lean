import MpOS.Directory
import MpOS.ProcessFiles

/-!
# `cat` and `ls` (`ece391cat.c`, `ece391ls.c`)

Both open a file, and write what they read to descriptor 1 until a read returns 0
(`copier`). Their calls run among those of other processes and the interrupts. Whatever
these do, `cat` prints the blocks of the file and `ls` the names of the directory
(`cat_prints`, `ls_prints`), in a bounded number of calls that the kernel never leaves
without an answer.

`cat` prints whole blocks : behind the end of a file that does not fill its last block it
goes on with what the rest of the block holds.
-/

namespace MpOS

/-! ## The programs -/

namespace UserProgram

/-- A string literal. -/
def text (s : String) : List Byte :=
  s.toList.map Char.toUInt8

/-- Where `main` stands : before a call of `open`, `read` or `write`, before
`ece391_fdputs` of a message and the `return` behind it, or at its end. -/
inductive Main
  | opening (filename : CString) (buf : ℕ → Byte)
  | reading (fd : ℤ) (buf : ℕ → Byte)
  | writing (fd : ℤ) (buf : ℕ → Byte) (nbytes : ℤ)
  | puts (message : CString) (ret : ℤ)
  | done (ret : ℤ)

/-- What the programs differ in : the messages, the size of a read, and what is written of the
buffer after a read of `cnt` bytes. -/
structure Copier where
  openFailed : CString
  readFailed : CString
  nbytes : ℤ
  line : (buf : ℕ → Byte) → (cnt : ℤ) → (ℕ → Byte) × ℤ

/-- A program that writes what it reads, with its buffer at an address. -/
def copier (o : Copier) (address : Word) : Client.Program FileCall Reply Main where
  next
    | .opening filename _ => some (.open filename)
    | .reading fd _ => some (.read fd address o.nbytes)
    | .writing _ buf nbytes => some (.write 1 (some buf) nbytes)
    | .puts message _ => some (.write 1 (some message.mem) message.strlen)
    | .done _ => none
  resume
    | .opening _ buf, r => if r.ret = -1 then .puts o.openFailed 2 else .reading r.ret buf
    | .reading fd buf, r =>
      let buf := ZeroBuffer.fill buf r.stored
      if r.ret = 0 then .done 0
      else if r.ret = -1 then .puts o.readFailed 3
      else
        let (buf, nbytes) := o.line buf r.ret
        .writing fd buf nbytes
    | .writing fd buf _, r => if r.ret = -1 then .done 3 else .reading fd buf
    | .puts _ ret, _ => .done ret
    | .done ret, _ => .done ret

/-- `cat`, behind `ece391_getargs`. -/
def cat : Copier where
  openFailed := ⟨text "file not found\n", by decide⟩
  readFailed := ⟨text "file read failed\n", by decide⟩
  nbytes := 1024
  line buf cnt := (buf, cnt)

/-- `main` of `cat`. `args` is what `ece391_getargs` leaves in the buffer, or `none` if it fails. -/
def catMain (args : Option CString) (buf : ℕ → Byte) : Main :=
  match args with
  | none => .puts ⟨text "could not read arguments\n", by decide⟩ 3
  | some filename => .opening filename buf

/-- `ls`. -/
def ls : Copier where
  openFailed := ⟨text "directory open failed\n", by decide⟩
  readFailed := ⟨text "directory entry read failed\n", by decide⟩
  nbytes := 32
  line buf cnt := (Function.update buf cnt.toNat 10, cnt + 1)

/-- `"."`. -/
def dot : CString :=
  ⟨text ".", by decide⟩

/-- `main` of `ls`. -/
def lsMain (buf : ℕ → Byte) : Main :=
  .opening dot buf

/-- What a call prints on the terminal : `keyboard_write` puts one byte after the other. -/
def printed (c : FileCall × Reply) : List Byte :=
  match c.1 with
  | .write fd (some buf) nbytes =>
    if fd = 1 ∧ c.2.ret ≠ -1 then (List.range nbytes.toNat).map buf else []
  | _ => []

/-! ## What a descriptor delivers -/

/-- Reads of a size deliver the items one after the other, while the entry goes through `e`, and
then nothing. They store a block at most. -/
structure Delivers (img : Image) (nbytes : ℤ) (e : ℕ → Fd) (items : List (List Byte)) : Prop where
  ne_nil : ∀ l ∈ items, l ≠ []
  next : ∀ i (h : i < items.length) (t : Files) (fd : ℕ), 2 ≤ fd → fd ≤ 7 → t fd = e i →
    ∀ buf ≠ 0, ∃ stored, items[i] <+: stored ∧ stored.length ≤ 4096 ∧
      Files.readFile img t fd buf nbytes =
        some (⟨items[i].length, stored⟩, Function.update t fd (e (i + 1)))
  stop : ∀ (t : Files) (fd : ℕ), 2 ≤ fd → fd ≤ 7 → t fd = e items.length →
    ∀ buf ≠ 0, ∃ stored t', stored.length ≤ 4096 ∧
      Files.readFile img t fd buf nbytes = some (⟨0, stored⟩, t')

/-- A read of an open descriptor reaches its driver. -/
theorem readFile_of_opened {img : Image} {t : Files} {fd : ℕ} {ops : Fileops} (h2 : 2 ≤ fd)
    (h7 : fd ≤ 7) (h : Kernel.Opened (t fd) ops) {buf : Word} (hbuf : buf ≠ 0) (nbytes : ℤ) :
    Files.readFile img t fd buf nbytes = Files.opsRead img t ops fd nbytes := by
  have hflags : (t fd).flags ≠ 0 := by
    rw [h.flags]
    decide
  rw [Files.readFile, Int.toNat_natCast, h.tablePointer, Option.bind_some, if_neg]
  rintro (h | h | h | h | h)
  · omega
  · omega
  · exact hbuf h
  · exact hflags h
  · omega

/-! ### Files -/

/-- The number of blocks of a file. -/
def blockCount (img : Image) (inode : Word) : ℕ :=
  ((img.length inode).toNat + 4095) / 4096

/-- The blocks of a file in pieces of `n` bytes. -/
def pieces (img : Image) (inode : Word) (n : ℕ) : List (List Byte) :=
  (List.range (4096 * blockCount img inode / n)).map fun i => img.slice inode (n * i) n

/-- The pieces a program reads make up the blocks of the file. -/
theorem flatten_pieces (img : Image) (inode : Word) {n : ℕ} (hn : n ∣ 4096) :
    (pieces img inode n).flatten = img.slice inode 0 (4096 * blockCount img inode) := by
  have hall : ∀ k, ((List.range k).map fun i => img.slice inode (n * i) n).flatten =
      img.slice inode 0 (n * k) := by
    intro k
    induction k with
    | zero => rfl
    | succ k ih =>
      rw [List.range_succ, List.map_append, List.flatten_append, ih, List.map_singleton,
        List.flatten_singleton, Nat.mul_succ, Image.slice_add, Nat.zero_add]
  rw [pieces, hall, Nat.mul_div_cancel' (hn.mul_right _)]

section File

variable {img : Image} {inode : Word} {pos n : ℕ}

/-- A request within a block of the file gets what it asked for. -/
theorem readData_within (hi : img.InodeOk inode) (hn : 0 < n) (hfit : pos % 4096 + n ≤ 4096)
    (hblock : 4096 * (pos / 4096) < (img.length inode).toNat) :
    img.readData inode (UInt32.ofNat pos) (UInt32.ofNat n) = ((n : ℤ), img.slice inode pos n) := by
  have hmax := hi.length_le
  obtain ⟨E, hE, hread⟩ := hi.readData_eq (by omega : pos + n < 2 ^ 32) hn hblock
  obtain rfl : E = pos / 4096 := by omega
  rw [hread, Image.slice_append_lastCopy (Nat.le_refl _) (by omega) (by omega),
    toInt_ofNat (by omega)]

/-- Behind its last block there is nothing to read. -/
theorem readData_behind (hi : img.InodeOk inode) (hn : 0 < n) (hmax : n ≤ 4096)
    (hempty : img.length inode ≠ 0 ∨ img.Blocked inode 0) :
    img.readData inode (UInt32.ofNat (4096 * blockCount img inode)) (UInt32.ofNat n) =
      (0, []) := by
  have hlen := hi.length_le
  rcases Nat.eq_zero_or_pos (img.length inode).toNat with h0 | hpos
  · have hblocked := hempty.resolve_left fun h => h (UInt32.toNat_inj.1 h0)
    have hcount : 4096 * blockCount img inode = 0 := by
      rw [blockCount]
      omega
    rw [hcount]
    exact (hi.readData_empty h0 hn (by omega)).1 hblocked
  · have hword : (UInt32.ofNat (4096 * blockCount img inode)).toNat =
        4096 * blockCount img inode := toNat_word (by rw [blockCount]; omega)
    have hend : (img.endBlock inode (UInt32.ofNat (4096 * blockCount img inode))
        (UInt32.ofNat n)).toNat = ((img.length inode).toNat - 1) / 4096 := by
      rw [img.toNat_endBlock, hword, toNat_word (by omega),
        Nat.mod_eq_of_lt (by rw [blockCount]; omega), Nat.min_eq_left (by rw [blockCount]; omega),
        Image.lastBlock, if_neg (by omega)]
    have hlt : ((img.length inode).toNat - 1) / 4096 <
        (UInt32.ofNat (4096 * blockCount img inode)).toNat / 4096 := by
      rw [hword, blockCount]
      omega
    have hr := img.readData_result inode (UInt32.ofNat (4096 * blockCount img inode))
      (UInt32.ofNat n)
    generalize img.readData inode (UInt32.ofNat (4096 * blockCount img inode))
      (UInt32.ofNat n) = r at hr
    cases hr with
    | rejected hrej => exact absurd hrej hi.not_rejected
    | nothing _ _ => rfl
    | stopped J _ hs hJ _ _ => omega
    | complete E _ hE hs _ => omega

/-- The entry of an open file after `i` reads of `n` bytes. -/
def fileEntry (inode : Word) (n i : ℕ) : Fd :=
  ⟨some .fileop, inode, UInt32.ofNat (n * i), 1⟩

/-- Reads of a file deliver its blocks, `n` bytes at a time. -/
theorem delivers_file (hi : img.InodeOk inode)
    (hempty : img.length inode ≠ 0 ∨ img.Blocked inode 0) (hn : 0 < n) (hdvd : n ∣ 4096) :
    Delivers img n (fileEntry inode n) (pieces img inode n) := by
  have hle : n ≤ 4096 := Nat.le_of_dvd (by decide) hdvd
  have hread : ∀ (t : Files) (fd i : ℕ), 2 ≤ fd → fd ≤ 7 → t fd = fileEntry inode n i →
      ∀ buf ≠ 0, ∀ (a : ℕ) (stored : List Byte), a < 2 ^ 32 →
        img.readData inode (UInt32.ofNat (n * i)) (UInt32.ofNat n) = ((a : ℤ), stored) →
        Files.readFile img t fd buf n = some (⟨a, stored⟩,
          Function.update t fd ⟨some .fileop, inode, UInt32.ofNat (n * i + a), 1⟩) := by
    intro t fd i h2 h7 ht buf hbuf a stored ha hdata
    rw [readFile_of_opened h2 h7 (show Kernel.Opened (t fd) .fileop from ht ▸ ⟨rfl, rfl⟩) hbuf]
    simp only [Files.opsRead, ht, fileEntry, toWord_natCast (by omega : n < 2 ^ 32), hdata,
      toWord_natCast ha, UInt32.ofNat_add]
  obtain ⟨c, hc⟩ := hdvd
  have hcount : 4096 * blockCount img inode / n = c * blockCount img inode := by
    rw [hc, Nat.mul_assoc, Nat.mul_div_cancel_left _ hn]
  have hlen : (pieces img inode n).length = c * blockCount img inode := by
    rw [pieces, List.length_map, List.length_range, hcount]
  refine ⟨fun l hl => ?_, fun i h t fd h2 h7 ht buf hbuf => ?_, fun t fd h2 h7 ht buf hbuf => ?_⟩
  · obtain ⟨i, -, rfl⟩ := List.mem_map.1 hl
    rw [ne_eq, ← List.length_eq_zero_iff, Image.length_slice]
    omega
  · have hget : (pieces img inode n)[i] = img.slice inode (n * i) n := by
      simp only [pieces, List.getElem_map, List.getElem_range]
    rw [hget, Image.length_slice]
    have hmod : n * i % 4096 = n * (i % c) := by rw [hc, Nat.mul_mod_mul_left]
    have hdiv : n * i / 4096 = i / c := by rw [hc, Nat.mul_div_mul_left _ _ hn]
    have hi' : i / c < blockCount img inode := Nat.div_lt_of_lt_mul (hlen ▸ h)
    have hc0 : 0 < c := by
      rcases Nat.eq_zero_or_pos c with rfl | hpos
      · omega
      · exact hpos
    have hfit : n * (i % c) + n ≤ 4096 := by
      rw [hc, ← Nat.mul_succ]
      exact Nat.mul_le_mul_left n (Nat.mod_lt i hc0)
    refine ⟨_, List.prefix_rfl, by rwa [Image.length_slice],
      hread t fd i h2 h7 ht buf hbuf n _ (by omega) ?_⟩
    exact readData_within hi hn (by omega) (by rw [hdiv]; rw [blockCount] at hi'; omega)
  · have hend : n * (pieces img inode n).length = 4096 * blockCount img inode := by
      rw [hlen, ← Nat.mul_assoc, ← hc]
    have hstop := hread t fd _ h2 h7 ht buf hbuf 0 [] (by decide)
      (by rw [hend]; exact readData_behind hi hn hle hempty)
    exact ⟨_, _, by simp, hstop⟩

end File

/-! ### Directories and the clock -/

section

variable {img : Image}

/-- The names of the directory. -/
def allNames (img : Image) : List (List Byte) :=
  (List.range img.fsEntries.toNat).map fun i => (img.dentry (UInt32.ofNat i)).nameChars

/-- The names up to the first that is empty. -/
def names (img : Image) : List (List Byte) :=
  (allNames img).takeWhile (· ≠ [])

/-- The entry of an open directory after `i` reads. -/
def directoryEntry (i : ℕ) : Fd :=
  ⟨some .directory, 0, UInt32.ofNat i, 1⟩

theorem length_allNames (img : Image) : (allNames img).length = img.fsEntries.toNat := by
  rw [allNames, List.length_map, List.length_range]

theorem getElem_allNames {i : ℕ} (h : i < (allNames img).length) :
    (allNames img)[i] = (img.dentry (UInt32.ofNat i)).nameChars := by
  simp only [allNames, List.getElem_map, List.getElem_range]

theorem length_names_le (img : Image) : (names img).length ≤ img.fsEntries.toNat :=
  (List.takeWhile_prefix _).length_le.trans_eq (length_allNames img)

theorem getElem_names {i : ℕ} (h : i < (names img).length) :
    (names img)[i] = (img.dentry (UInt32.ofNat i)).nameChars :=
  ((List.takeWhile_prefix _).getElem h).trans (getElem_allNames _)

/-- The listing ends before the first entry without a name. -/
theorem nameChars_length_names (h : (names img).length < img.fsEntries.toNat) :
    (img.dentry (UInt32.ofNat (names img).length)).nameChars = [] := by
  have hfind : (names img).length = (allNames img).findIdx fun a => !decide (a ≠ []) := by
    rw [← length_allNames] at h
    rw [names, List.takeWhile_eq_take_findIdx_not, List.length_take] at h ⊢
    omega
  rw [← length_allNames, hfind] at h
  have hempty := List.findIdx_getElem (w := h)
  rw [getElem_allNames, ← hfind] at hempty
  simpa using hempty

/-- Reads of a directory deliver its names, one at a time. -/
theorem delivers_directory (h0 : 1 ≤ img.fsEntries.toNat) (nbytes : ℤ) :
    Delivers img nbytes directoryEntry (names img) := by
  have hlt := img.fsEntries.toNat_lt
  have hread : ∀ (t : Files) (fd i : ℕ), 2 ≤ fd → fd ≤ 7 → t fd = directoryEntry i →
      ∀ buf ≠ 0, i < img.fsEntries.toNat →
        Files.readFile img t fd buf nbytes =
          some (⟨(img.dentry (UInt32.ofNat i)).nameChars.length,
            (img.dentry (UInt32.ofNat i)).nameField⟩,
            Function.update t fd (directoryEntry (i + 1))) := by
    intro t fd i h2 h7 ht buf hbuf hi
    have hindex : img.readDentryByIndex (UInt32.ofNat i) = some (img.dentry (UInt32.ofNat i)) := by
      refine if_neg (not_gt_sub_one ?_)
      rwa [UInt32.lt_iff_toNat_lt, toNat_word (by omega)]
    rw [readFile_of_opened h2 h7 (show Kernel.Opened (t fd) .directory from ht ▸ ⟨rfl, rfl⟩) hbuf]
    simp only [Files.opsRead, if_neg (by omega : ¬(fd < 2 ∨ fd > 7)), ht, directoryEntry, hindex,
      ofNat_succ]
    rfl
  have hle := length_names_le img
  have hfieldlen : ∀ d : Dentry, d.nameField.length ≤ 4096 := fun d => by
    rw [d.length_nameField]
    decide
  refine ⟨fun l hl => ?_, fun i h t fd h2 h7 ht buf hbuf => ?_, fun t fd h2 h7 ht buf hbuf => ?_⟩
  · simpa using List.mem_takeWhile_imp hl
  · have hi : i < img.fsEntries.toNat := by omega
    obtain ⟨rest, hfield⟩ := (img.dentry (UInt32.ofNat i)).exists_nameField
    rw [getElem_names h]
    exact ⟨_, ⟨0 :: rest, hfield.symm⟩, hfieldlen _, hread t fd i h2 h7 ht buf hbuf hi⟩
  · rcases Nat.eq_or_lt_of_le hle with heq | hi
    · -- behind the last entry
      have hindex : img.readDentryByIndex (UInt32.ofNat (names img).length) = none := by
        refine if_pos (gt_sub_one_iff.2 ⟨fun h => ?_, ?_⟩)
        · rw [h] at h0
          exact absurd h0 (by decide)
        · rw [UInt32.le_iff_toNat_le, toNat_word (by omega), heq]
      refine ⟨[], t, by simp, ?_⟩
      rw [readFile_of_opened h2 h7 (show Kernel.Opened (t fd) .directory from ht ▸ ⟨rfl, rfl⟩) hbuf]
      simp only [Files.opsRead, if_neg (by omega : ¬(fd < 2 ∨ fd > 7)), ht, directoryEntry, hindex]
    · -- an empty name
      have hlast := hread t fd _ h2 h7 ht buf hbuf hi
      rw [nameChars_length_names hi] at hlast
      exact ⟨_, _, hfieldlen _, hlast⟩

/-- A read of the RTC delivers nothing, so the program stops. -/
theorem delivers_rtc (nbytes : ℤ) {e : ℕ → Fd} (h : Kernel.Opened (e 0) .rtc) :
    Delivers img nbytes e [] where
  ne_nil _ hl := absurd hl List.not_mem_nil
  next i hi := absurd hi (Nat.not_lt_zero i)
  stop t _ h2 h7 ht _ hbuf := ⟨[], t, by simp, readFile_of_opened h2 h7 (ht ▸ h) hbuf nbytes⟩

end

/-! ## The calls of a program, one after the other -/

section Copier

variable {img : Image} {t : Files}

/-- A free descriptor is one of the six. -/
theorem avail_eq_some {fd : ℕ} (h : Files.avail t = some fd) : 2 ≤ fd ∧ fd ≤ 7 := by
  have hmem := List.mem_of_find?_eq_some h
  simp only [List.mem_cons, List.not_mem_nil, or_false] at hmem
  omega

/-- `open` of a name that is found. -/
theorem openFile_of_found {filename : CString} {dent : Dentry} {ops : Fileops} {fd : ℕ}
    (hfd : Files.avail t = some fd) (hd : img.readDentryByName filename.mem = some dent)
    (ht : Kernel.typeOps dent.type = some ops) :
    Files.openFile img t filename.mem =
      some (⟨fd, []⟩, Function.update t fd (Kernel.openedFd ops dent.inode)) := by
  rw [Files.openFile, hfd, hd]
  simp only [ht, Option.map_some]

/-- `open` of one that is not. -/
theorem openFile_of_missing {filename : CString}
    (hd : img.readDentryByName filename.mem = none) :
    Files.openFile img t filename.mem = some (⟨-1, []⟩, t) := by
  rw [Files.openFile, hd]
  cases Files.avail t <;> rfl

/-- Descriptor 1 takes everything. -/
theorem writeFile_one (h : Kernel.Opened (t 1) .keyboard) (buf : ℕ → Byte) (nbytes : ℤ) :
    Files.writeFile t 1 (some buf) nbytes = some (⟨nbytes.toNat, []⟩, t) := by
  have hflags : (t 1).flags ≠ 0 := by
    rw [h.flags]
    decide
  have hone : (1 : ℤ).toNat = 1 := rfl
  rw [Files.writeFile, hone, h.tablePointer, if_neg (by simpa using hflags)]
  rfl

/-- A write on descriptor 1 prints its bytes. -/
theorem printed_write (buf : ℕ → Byte) (n : ℕ) (nbytes : ℤ) :
    printed (.write 1 (some buf) nbytes, ⟨n, []⟩) = (List.range nbytes.toNat).map buf := by
  have hne : (n : ℤ) ≠ -1 := by omega
  simp only [printed]
  rw [if_pos ⟨trivial, hne⟩]

theorem map_mem_chars (s : CString) : (List.range s.strlen).map s.mem = s.chars := by
  refine List.ext_getElem (by simp [CString.strlen]) fun i _ h => ?_
  rw [List.getElem_map, List.getElem_range, CString.mem, List.getD_eq_getElem _ _ h]

/-- What is written of an item in the buffer. -/
def Copier.Prints (o : Copier) (out : List Byte → List Byte) : Prop :=
  ∀ (buf : ℕ → Byte) (l : List Byte), (∀ j (h : j < l.length), buf j = l[j]) →
    (List.range (o.line buf l.length).2.toNat).map (o.line buf l.length).1 = out l

variable (img) (o : Copier) (out : List Byte → List Byte) (items : List (List Byte)) (e : ℕ → Fd)
  (result : List Byte × ℤ)

/-- How far a program that is to print and return `result` has come with a table. -/
inductive Progress : Main → Files → List (FileCall × Reply) → Prop
  | missing {filename : CString} {buf : ℕ → Byte} {t : Files} :
      Kernel.Opened (t 1) .keyboard → img.readDentryByName filename.mem = none →
      result = (o.openFailed.chars, 2) → Progress (.opening filename buf) t []
  | found {filename : CString} {buf : ℕ → Byte} {t : Files} {fd : ℕ} {dent : Dentry}
      {ops : Fileops} :
      Kernel.Opened (t 1) .keyboard → Files.avail t = some fd →
      img.readDentryByName filename.mem = some dent → Kernel.typeOps dent.type = some ops →
      e 0 = Kernel.openedFd ops dent.inode → Delivers img o.nbytes e items →
      result = (items.flatMap out, 0) → Progress (.opening filename buf) t []
  | reading {fd i : ℕ} {buf : ℕ → Byte} {t : Files} {cs : List (FileCall × Reply)} :
      Kernel.Opened (t 1) .keyboard → 2 ≤ fd → fd ≤ 7 → i ≤ items.length → t fd = e i →
      Delivers img o.nbytes e items → result = (items.flatMap out, 0) →
      cs.flatMap printed = (items.take i).flatMap out → cs.length = 2 * i + 1 →
      Progress (.reading fd buf) t cs
  | writing {fd i : ℕ} {buf : ℕ → Byte} {nbytes : ℤ} {t : Files}
      {cs : List (FileCall × Reply)} (hi : i < items.length) :
      Kernel.Opened (t 1) .keyboard → 2 ≤ fd → fd ≤ 7 → t fd = e (i + 1) →
      Delivers img o.nbytes e items → result = (items.flatMap out, 0) →
      cs.flatMap printed = (items.take i).flatMap out → cs.length = 2 * i + 2 →
      (List.range nbytes.toNat).map buf = out items[i] → Progress (.writing fd buf nbytes) t cs
  | puts {message : CString} {ret : ℤ} {t : Files} {cs : List (FileCall × Reply)} :
      Kernel.Opened (t 1) .keyboard → cs.flatMap printed = [] → cs.length ≤ 1 →
      result = (message.chars, ret) → Progress (.puts message ret) t cs
  | done {ret : ℤ} {t : Files} {cs : List (FileCall × Reply)} :
      cs.flatMap printed = result.1 → ret = result.2 → cs.length ≤ 2 * items.length + 2 →
      Progress (.done ret) t cs

variable {img o out items e result}

/-- The next call is answered, with a block at most, and brings the program on. -/
theorem Progress.call {address : Word} (ha : address ≠ 0) (hp : o.Prints out) {s : Main}
    {cs : List (FileCall × Reply)} (h : Progress img o out items e result s t cs) {c : FileCall}
    (hnext : (copier o address).next s = some c) :
    ∃ r t', Files.call img t c = some (r, t') ∧ r.stored.length ≤ 4096 ∧
      Progress img o out items e result ((copier o address).resume s r) t' (cs ++ [(c, r)]) := by
  cases h with
  | missing hstd hd hres =>
    obtain rfl := Option.some.inj hnext
    refine ⟨_, _, openFile_of_missing hd, Nat.zero_le _, ?_⟩
    exact .puts hstd rfl (Nat.le_refl 1) hres
  | @found filename buf t fd dent ops hstd hfd hd ht he hdel hres =>
    obtain rfl := Option.some.inj hnext
    obtain ⟨h2, h7⟩ := avail_eq_some hfd
    refine ⟨_, _, openFile_of_found hfd hd ht, Nat.zero_le _, ?_⟩
    have hne : (fd : ℤ) ≠ -1 := by omega
    simp only [copier, if_neg hne]
    refine .reading (i := 0) ?_ h2 h7 (Nat.zero_le _) ?_ hdel hres rfl rfl
    · rwa [Function.update_of_ne (by omega)]
    · rw [Function.update_self, he]
  | @reading fd i buf t cs hstd h2 h7 hi ht hdel hres hout hlen =>
    obtain rfl := Option.some.inj hnext
    have hquiet : ∀ r, (cs ++ [(FileCall.read fd address o.nbytes, r)]).flatMap printed =
        (items.take i).flatMap out := by
      intro r
      rw [List.flatMap_append, hout, List.flatMap_singleton]
      exact List.append_nil _
    rcases Nat.eq_or_lt_of_le hi with rfl | hlt
    · obtain ⟨stored, t', hstored, hread⟩ := hdel.stop t fd h2 h7 ht address ha
      refine ⟨_, _, hread, hstored, .done ?_ (by rw [hres]) ?_⟩
      · rw [hquiet, List.take_length, hres]
      · rw [List.length_append, hlen, List.length_singleton]
    · obtain ⟨stored, ⟨rest, hstored⟩, hblock, hread⟩ := hdel.next i hlt t fd h2 h7 ht address ha
      have hpos : items[i].length ≠ 0 := fun h0 =>
        hdel.ne_nil _ (List.getElem_mem hlt) (List.length_eq_zero_iff.1 h0)
      have hret0 : (items[i].length : ℤ) ≠ 0 := by omega
      have hret1 : (items[i].length : ℤ) ≠ -1 := by omega
      refine ⟨_, _, hread, hblock, ?_⟩
      simp only [copier, if_neg hret0, if_neg hret1]
      refine .writing hlt ?_ h2 h7 (Function.update_self _ _ _) hdel hres (hquiet _) ?_ ?_
      · rwa [Function.update_of_ne (by omega)]
      · rw [List.length_append, hlen, List.length_singleton]
      · refine hp _ _ fun j hj => ?_
        rw [ZeroBuffer.fill, ← hstored, List.getD_append _ _ _ _ hj, List.getD_eq_getElem _ _ hj]
  | @writing fd i buf nbytes t cs hi hstd h2 h7 ht hdel hres hout hlen hwrite =>
    obtain rfl := Option.some.inj hnext
    refine ⟨_, _, writeFile_one hstd buf nbytes, Nat.zero_le _, ?_⟩
    have hret : ((nbytes.toNat : ℕ) : ℤ) ≠ -1 := by omega
    simp only [copier, if_neg hret]
    refine .reading hstd h2 h7 hi ht hdel hres ?_ ?_
    · rw [List.flatMap_append, hout, List.flatMap_singleton, printed_write, hwrite,
        List.take_add_one, List.getElem?_eq_getElem hi, Option.toList_some, List.flatMap_append,
        List.flatMap_singleton]
    · rw [List.length_append, hlen, List.length_singleton]
      omega
  | @puts message ret t cs hstd hout hlen hres =>
    obtain rfl := Option.some.inj hnext
    refine ⟨_, _, writeFile_one hstd message.mem message.strlen, Nat.zero_le _,
      .done ?_ (by rw [hres]) ?_⟩
    · rw [List.flatMap_append, hout, List.flatMap_singleton, printed_write, Int.toNat_natCast,
        map_mem_chars, hres, List.nil_append]
    · rw [List.length_append, List.length_singleton]
      omega
  | done _ _ _ => exact absurd hnext (by simp [copier])

/-- What has been printed is the beginning of what is to be printed. -/
theorem Progress.printed_prefix {s : Main} {cs : List (FileCall × Reply)}
    (h : Progress img o out items e result s t cs) :
    cs.flatMap printed <+: result.1 ∧ cs.length ≤ 2 * items.length + 2 := by
  cases h with
  | missing _ _ _ => exact ⟨List.nil_prefix, Nat.zero_le _⟩
  | found _ _ _ _ _ _ _ => exact ⟨List.nil_prefix, Nat.zero_le _⟩
  | @reading _ i _ _ _ _ _ _ hi _ _ hres hout hlen =>
    rw [hout, hres]
    exact ⟨(List.take_prefix i items).flatMap out, by omega⟩
  | @writing _ i _ _ _ _ hi _ _ _ _ _ hres hout hlen _ =>
    rw [hout, hres]
    exact ⟨(List.take_prefix i items).flatMap out, by omega⟩
  | puts _ hout hlen _ =>
    rw [hout]
    exact ⟨List.nil_prefix, by omega⟩
  | done hout _ hlen =>
    rw [hout]
    exact ⟨List.prefix_rfl, hlen⟩

end Copier

/-! ## `cat` and `ls` -/

/-- `cat` prints each piece as it is. -/
theorem cat_prints_item : cat.Prints id := by
  intro buf l h
  refine List.ext_getElem (by simp [cat]) fun i _ hi => ?_
  simp only [cat, List.getElem_map, List.getElem_range]
  exact h i hi

/-- `ls` ends each name with a newline. -/
theorem ls_prints_item : ls.Prints fun l => l ++ [10] := by
  intro buf l h
  have hlen : ((l.length : ℤ) + 1).toNat = l.length + 1 := by omega
  simp only [ls, hlen, List.range_succ, List.map_append, List.map_singleton, Int.toNat_natCast,
    Function.update_self]
  refine congrArg (· ++ _) (List.ext_getElem (by simp) fun i hi hi' => ?_)
  rw [List.getElem_map, List.getElem_range, Function.update_of_ne (by omega)]
  exact h i hi'

/-- What reads of `n` bytes deliver of a file of the image. -/
def items (img : Image) (n : ℕ) (dent : Dentry) : List (List Byte) :=
  if dent.type = 1 then names img
  else if dent.type = 2 then pieces img dent.inode n
  else []

/-- What a program prints, and what it returns. -/
def result (img : Image) (o : Copier) (n : ℕ) (out : List Byte → List Byte) (filename : CString) :
    List Byte × ℤ :=
  match img.readDentryByName filename.mem with
  | none => (o.openFailed.chars, 2)
  | some dent => ((items img n dent).flatMap out, 0)

/-- An empty file is saved by its unused first block number. -/
def Readable (img : Image) (dent : Dentry) : Prop :=
  dent.type = 2 → img.length dent.inode ≠ 0 ∨ img.Blocked dent.inode 0

variable {img : Image} {n : ℕ}

/-- Whatever the name opens, its reads deliver a list. -/
theorem exists_delivers (hi : img.WellFormed) (ht : img.Typed) (hn : 0 < n) (hdvd : n ∣ 4096)
    {filename : ℕ → Byte} {dent : Dentry} (hd : img.readDentryByName filename = some dent)
    (hr : Readable img dent) :
    ∃ ops e, Kernel.typeOps dent.type = some ops ∧ e 0 = Kernel.openedFd ops dent.inode ∧
      Delivers img n e (items img n dent) := by
  have h0 : 1 ≤ img.fsEntries.toNat := by
    obtain ⟨i, hfind, -⟩ := Option.map_eq_some_iff.1 hd
    have hlt := List.mem_range.1 (List.mem_of_find?_eq_some hfind)
    omega
  obtain ⟨ops, hops⟩ := ht.typeOps hd
  have htype := hops
  unfold Kernel.typeOps at htype
  split_ifs at htype with h₀ h₁ h₂
  · obtain rfl := Option.some.inj htype
    have hitems : items img n dent = [] := by
      rw [items, h₀, if_neg (by decide), if_neg (by decide)]
    refine ⟨.rtc, fun _ => Kernel.openedFd .rtc dent.inode, hops, rfl, ?_⟩
    rw [hitems]
    exact delivers_rtc n ⟨rfl, rfl⟩
  · obtain rfl := Option.some.inj htype
    rw [items, if_pos h₁]
    exact ⟨.directory, directoryEntry, hops, rfl, delivers_directory h0 n⟩
  · obtain rfl := Option.some.inj htype
    rw [items, if_neg h₁, if_pos h₂]
    exact ⟨.fileop, fileEntry dent.inode n, hops, rfl,
      delivers_file (hi.inodeOk hd h₂) (hr h₂) hn hdvd⟩

theorem length_le_flatMap {l : List (List Byte)} {out : List Byte → List Byte}
    (h : ∀ a ∈ l, out a ≠ []) : l.length ≤ (l.flatMap out).length := by
  induction l with
  | nil => exact Nat.zero_le _
  | cons a l ih =>
    have ha := List.length_pos_of_ne_nil (h a List.mem_cons_self)
    have hl := ih fun b hb => h b (List.mem_cons_of_mem _ hb)
    rw [List.flatMap_cons, List.length_append, List.length_cons]
    omega

/-- The opening of a program. -/
theorem exists_progress (hi : img.WellFormed) (ht : img.Typed) (hn : 0 < n) (hdvd : n ∣ 4096)
    {o : Copier} (hsize : o.nbytes = n) {out : List Byte → List Byte}
    (hout : ∀ l ≠ [], out l ≠ []) {filename : CString}
    (hr : ∀ dent, img.readDentryByName filename.mem = some dent → Readable img dent) {t : Files}
    (hstd : Kernel.Opened (t 1) .keyboard) (hfree : Files.avail t ≠ none) (buf : ℕ → Byte) :
    ∃ l e, Progress img o out l e (result img o n out filename) (.opening filename buf) t [] ∧
      l.length ≤ (result img o n out filename).1.length := by
  obtain ⟨fd, hfd⟩ := Option.ne_none_iff_exists'.1 hfree
  rw [result]
  cases hd : img.readDentryByName filename.mem with
  | none => exact ⟨[], fun _ => t 1, .missing hstd hd rfl, Nat.zero_le _⟩
  | some dent =>
    obtain ⟨ops, e, hops, he, hdel⟩ := exists_delivers hi ht hn hdvd hd (hr dent hd)
    exact ⟨_, e, .found hstd hfd hd hops he (hsize ▸ hdel) rfl,
      length_le_flatMap fun l hl => hout l (hdel.ne_nil l hl)⟩

end UserProgram

namespace Machine

open Transition UserProgram

variable {img : Image} {m m' : Machine} {p : Word}

/-- A program that comes on by every call prints the beginning of its result and, when it ends,
all of it. As long as it has not ended its next call is answered. -/
theorem run_progress {o : Copier} {out : List Byte → List Byte} {l : List (List Byte)} {e : ℕ → Fd}
    {result : List Byte × ℤ} {address : Word} (ha : address ≠ 0) (hp : o.Prints out)
    (hm : m.RegularReachable img) {es : List Event}
    (hes : AllEvents (faultStep img) (Regular img) m es)
    (hlive : AllStates (faultStep img) (p ∈ ·.live) m es)
    (hrun : run (faultStep img) m es = some m') {s s' : Main}
    (hstart : UserProgram.Progress img o out l e result s (m.kernel.table p) [])
    (hcopy : (copier o address).Follows s (fileTrace img p m es) s') :
    ((fileTrace img p m es).flatMap printed <+: result.1 ∧
      (fileTrace img p m es).length ≤ 2 * l.length + 2) ∧
    (∀ ret, s' = .done ret →
      (fileTrace img p m es).flatMap printed = result.1 ∧ ret = result.2) ∧
    (m'.running = some p → ∀ c, (copier o address).next s' = some c →
      ∃ m'', m'.step img c.event = some m'') := by
  have hend : UserProgram.Progress img o out l e result s' (m'.kernel.table p)
      (fileTrace img p m es) := by
    refine hcopy.invariant (J := UserProgram.Progress img o out l e result)
      (fun s t cs c r t' h hnext hview => ?_) (run_fileTrace hm hes hlive hrun) hstart
    obtain ⟨r', t'', hcall, -, hnext⟩ := h.call ha hp hnext
    simp only [Files.Step, hcall] at hview
    obtain ⟨rfl, rfl⟩ := Prod.mk.inj hview
    exact hnext
  refine ⟨hend.printed_prefix, fun ret hret => ?_, fun hr c hnext => ?_⟩
  · subst hret
    cases hend with
    | done hout hret _ => exact ⟨hout, hret⟩
  · obtain ⟨r, t', hcall, -⟩ := hend.call ha hp hnext
    obtain ⟨m'', hstep, -⟩ := exists_step_event (RegularReachable.reachable (hm.run hes hrun)) hr
      hcall
    exact ⟨m'', hstep⟩

/-- What a call on the table of the running process reads goes to the page of the process. -/
theorem regular_event (hm : m.Reachable img) (hp : m.running = some p) {c : FileCall}
    {out : Reply × Files} (h : Files.call img (m.kernel.table p) c = some out)
    (hpage : ∀ fd buf nbytes, c = .read fd buf nbytes → Kernel.InPage buf out.1.stored) :
    Regular img m c.event := by
  obtain ⟨-, -, hown, -⟩ := exists_step_event hm hp h
  cases c with
  | read fd buf nbytes =>
    refine ⟨fun r hr => ?_, trivial⟩
    have hr' : m.kernel.sysRead img fd buf nbytes = some r := hr
    rw [ownCall, if_pos hp, FileCall.ofEvent_event, Option.bind_some, FileCall.exec, hr'] at hown
    have hreply : (⟨r.ret, r.stored⟩ : Reply) = out.1 :=
      (Prod.mk.inj (Option.some.inj hown)).2
    have hin := hpage fd buf nbytes rfl
    rwa [← hreply] at hin
  | _ => exact ⟨trivial, trivial⟩

/-- A program that has the processor for itself comes to its end. -/
theorem exists_run_done {o : Copier} {out : List Byte → List Byte} {l : List (List Byte)}
    {e : ℕ → Fd} {result : List Byte × ℤ} {address : Word}
    (hlow : Kernel.programPage ≤ address.toNat)
    (hhigh : address.toNat + 4096 ≤ Kernel.programPage + Kernel.pageSize) (hp : o.Prints out)
    (hm : m.RegularReachable img) (hrun : m.running = some p) {s : Main}
    {cs : List (FileCall × Reply)}
    (h : UserProgram.Progress img o out l e result s (m.kernel.table p) cs) :
    ∃ es m' ret, AllEvents (faultStep img) (Regular img) m es ∧
      AllStates (faultStep img) (p ∈ ·.live) m es ∧ run (faultStep img) m es = some m' ∧
      (copier o address).Follows s (fileTrace img p m es) (.done ret) := by
  have ha : address ≠ 0 := by
    intro h0
    rw [h0] at hlow
    exact absurd hlow (by decide)
  -- the program makes at most `2 * l.length + 2` calls
  induction hn : 2 * l.length + 2 - cs.length using Nat.strong_induction_on
    generalizing m s cs with
  | _ n ih =>
    cases hnext : (copier o address).next s with
    | none =>
      cases s with
      | done ret => exact ⟨[], m, ret, trivial, hm.reachable.coherent.running_mem hrun, rfl, rfl⟩
      | _ => exact absurd hnext (by simp [copier])
    | some c =>
      obtain ⟨r, t', hcall, hblock, hprog⟩ := h.call ha hp hnext
      obtain ⟨m₁, hstep, hown, rfl, hrun₁⟩ := exists_step_event hm.reachable hrun hcall
      have hreg : Regular img m c.event := by
        refine regular_event hm.reachable hrun hcall fun fd buf nbytes hread => Or.inr ?_
        obtain rfl : buf = address := by
          subst hread
          cases s with
          | reading _ _ => exact (FileCall.read.inj (Option.some.inj hnext)).2.1.symm
          | _ => exact absurd hnext (by simp [copier])
        exact ⟨hlow, (Nat.add_le_add_left hblock _).trans hhigh⟩
      have hstep' : m.faultStep img c.event = some m₁ := (faultStep_of_fits hreg.2).trans hstep
      have hlen := hprog.printed_prefix.2
      rw [List.length_append, List.length_singleton] at hlen
      obtain ⟨es, m', ret, hes, hlive, hend, hfollows⟩ :=
        ih _ (by rw [List.length_append, List.length_singleton]; omega) (hm.next hreg hstep) hrun₁
          hprog rfl
      have htrace : fileTrace img p m (c.event :: es) = (c, r) :: fileTrace img p m₁ es := by
        rw [fileTrace, Client.trace, outputs, hown, hstep']
        rfl
      refine ⟨c.event :: es, m', ret, ⟨hreg, fun s' h' => ?_⟩,
        ⟨hm.reachable.coherent.running_mem hrun, fun s' h' => ?_⟩, ?_, ?_⟩
      · obtain rfl := Option.some.inj (hstep'.symm.trans h')
        exact hes
      · obtain rfl := Option.some.inj (hstep'.symm.trans h')
        exact hlive
      · rw [run_cons, hstep', Option.bind_some, hend]
      · rw [htrace]
        exact ⟨_, ⟨hnext, rfl⟩, hfollows⟩

/-- A file, and behind it what the rest of its last block holds. -/
def paddedContents (img : Image) (inode : Word) : List Byte :=
  img.contents inode ++ img.slice inode (img.length inode).toNat
    (4096 * blockCount img inode - (img.length inode).toNat)

theorem paddedContents_eq (img : Image) (inode : Word) :
    paddedContents img inode = img.slice inode 0 (4096 * blockCount img inode) := by
  have hcontents : img.contents inode = img.slice inode 0 (img.length inode).toNat := by
    rw [Image.slice_eq_take_drop (by omega), List.drop_zero, ← Image.length_contents,
      List.take_length]
  have hsum : 4096 * blockCount img inode = (img.length inode).toNat +
      (4096 * blockCount img inode - (img.length inode).toNat) := by
    rw [blockCount]
    omega
  rw [paddedContents, hcontents]
  conv_rhs => rw [hsum, Image.slice_add, Nat.zero_add]

/-- What `cat` prints, and what it returns. -/
def catResult (img : Image) : Option CString → List Byte × ℤ
  | none => (text "could not read arguments\n", 3)
  | some filename =>
    match img.readDentryByName filename.mem with
    | none => (text "file not found\n", 2)
    | some dent =>
      (if dent.type = 1 then (names img).flatten
        else if dent.type = 2 then paddedContents img dent.inode
        else [], 0)

/-- What `ls` prints, and what it returns. -/
def lsResult (img : Image) : List Byte × ℤ :=
  match img.readDentryByName dot.mem with
  | none => (text "directory open failed\n", 2)
  | some _ => ((names img).flatMap fun l => l ++ [10], 0)

/-- What a run of `cat` ends with. -/
theorem result_cat (img : Image) (filename : CString) :
    result img cat 1024 id filename = catResult img (some filename) := by
  rw [result, catResult]
  cases img.readDentryByName filename.mem with
  | none => rfl
  | some dent =>
    simp only [items]
    split_ifs
    · rw [List.flatMap_id]
    · rw [List.flatMap_id, flatten_pieces _ _ (by decide), paddedContents_eq]
    · rfl

/-- What a run of `ls` ends with. -/
theorem result_ls {img : Image}
    (hdot : ∀ dent, img.readDentryByName dot.mem = some dent → dent.type = 1) :
    result img ls 32 (fun l => l ++ [10]) dot = lsResult img := by
  rw [result, lsResult]
  cases hd : img.readDentryByName dot.mem with
  | none => rfl
  | some dent => simp only [items, if_pos (hdot dent hd)]

/-- A live process can print : its descriptor 1 is the terminal. -/
theorem Reachable.opened_one (hm : m.Reachable img) (hp : p ∈ m.live) :
    Kernel.Opened (m.kernel.table p 1) .keyboard := by
  obtain ⟨opens, ho⟩ := hm.exists_opens
  exact (ho.lawful.law p hp).std 1 (by decide)

theorem exists_progress_cat (hi : img.WellFormed) (ht : img.Typed) {t : Files}
    (hstd : Kernel.Opened (t 1) .keyboard) (hfree : Files.avail t ≠ none) {args : Option CString}
    (hr : ∀ filename ∈ args, ∀ dent, img.readDentryByName filename.mem = some dent →
      Readable img dent) (buf : ℕ → Byte) :
    ∃ l e, UserProgram.Progress img cat id l e (catResult img args) (catMain args buf) t [] ∧
      l.length ≤ (catResult img args).1.length := by
  cases args with
  | none => exact ⟨[], fun _ => t 1, .puts hstd rfl (Nat.zero_le _) rfl, Nat.zero_le _⟩
  | some filename =>
    rw [← result_cat]
    exact exists_progress hi ht (by decide) (by decide) rfl (fun _ h => h) (hr filename rfl)
      hstd hfree buf

/-- `cat`, among all other processes and interrupts, prints the file and what the rest of its
last block holds, and nothing but a beginning of it before it ends. The kernel answers each of
its calls, of which there are at most two for every byte, and two more. It returns 0, or with a
message where it has no argument or there is no such file. -/
theorem cat_prints (hi : img.WellFormed) (ht : img.Typed) (hm : m.RegularReachable img)
    {es : List Event} (hes : AllEvents (faultStep img) (Regular img) m es)
    (hlive : AllStates (faultStep img) (p ∈ ·.live) m es)
    (hrun : run (faultStep img) m es = some m')
    (hfree : Files.avail (m.kernel.table p) ≠ none) {address : Word} (ha : address ≠ 0)
    {args : Option CString} (hr : ∀ filename ∈ args, ∀ dent,
      img.readDentryByName filename.mem = some dent → Readable img dent) {buf : ℕ → Byte}
    {s : Main} (hcat : (copier cat address).Follows (catMain args buf) (fileTrace img p m es) s) :
    ((fileTrace img p m es).flatMap printed <+: (catResult img args).1 ∧
      (fileTrace img p m es).length ≤ 2 * (catResult img args).1.length + 2) ∧
    (∀ ret, s = .done ret →
      (fileTrace img p m es).flatMap printed = (catResult img args).1 ∧
        ret = (catResult img args).2) ∧
    (m'.running = some p → ∀ c, (copier cat address).next s = some c →
      ∃ m'', m'.step img c.event = some m'') := by
  have hstart := exists_progress_cat hi ht (hm.reachable.opened_one hlive.head) hfree hr buf
  obtain ⟨l, e, hprog, hlen⟩ := hstart
  obtain ⟨⟨hbegin, hcalls⟩, hdone, hnext⟩ :=
    run_progress ha cat_prints_item hm hes hlive hrun hprog hcat
  exact ⟨⟨hbegin, by omega⟩, hdone, hnext⟩

theorem pageImage_typed : Kernel.pageImage.Typed := by
  unfold Image.Typed
  decide

/-- The first process prints a file of one block, behind another that is typed to. -/
theorem cat_prints_page :
    ∃ m : Machine, ∃ es, m.RegularReachable Kernel.pageImage ∧ m.running = some 0 ∧
      (fileTrace Kernel.pageImage 0 m es).flatMap printed = Kernel.pageImage.slice 1 0 4096 ∧
      Kernel.pageImage.slice 1 0 4 = [0x7F, 0x45, 0x4C, 0x46] := by
  let pre : List Event :=
    [.execute ⟨0, 0, fun _ => 0⟩ Kernel.shellCommand, .contextSwitch ⟨0, 0, 0⟩,
      .execute ⟨1, 1, fun _ => 0⟩ Kernel.shellCommand, .interruptKeyboard 0x1E,
      .contextSwitch ⟨1, 1, 1⟩, .contextSwitch ⟨2, 2, 2⟩]
  have hstart : ∀ m ∈ run (faultStep Kernel.pageImage) first pre,
      m.running = some 0 ∧ Files.avail (m.kernel.table 0) ≠ none := by
    decide +kernel
  obtain ⟨m, -, hpre, hm, -⟩ := @exists_run Kernel.pageImage 0 pre [] [] (by decide +kernel)
    (by decide +kernel) (by decide +kernel)
  obtain ⟨hrun, hfree⟩ := hstart m hpre
  have hi := Kernel.pageImage_wellFormed
  have hr : ∀ filename ∈ some (CString.mk [97] (by decide)), ∀ dent,
      Kernel.pageImage.readDentryByName filename.mem = some dent →
        Readable Kernel.pageImage dent := by
    intro filename hf dent hd _
    obtain rfl := Option.some.inj hf
    obtain rfl := Option.some.inj (lookup_page.symm.trans hd)
    exact Or.inl (by decide)
  have hlive := hm.reachable.coherent.running_mem hrun
  obtain ⟨l, e, hprog, -⟩ := exists_progress_cat hi pageImage_typed
    (hm.reachable.opened_one hlive) hfree hr fun _ => 0
  obtain ⟨es, m', ret, hes, hall, hend, hcat⟩ := @exists_run_done _ m 0 cat id l e _ 0x8048000
    (by decide) (by decide) cat_prints_item hm hrun _ _ hprog
  have hprints := cat_prints hi pageImage_typed hm hes hall hend hfree (by decide) hr hcat
  refine ⟨m, es, hm, hrun, (hprints.2.1 ret rfl).1.trans ?_, by decide⟩
  have hresult : catResult Kernel.pageImage (some ⟨[97], by decide⟩) =
      (paddedContents Kernel.pageImage 1, 0) := by
    rfl
  have hblocks : blockCount Kernel.pageImage 1 = 1 := by decide
  rw [hresult, paddedContents_eq, hblocks, Nat.mul_one]

/-- `ls` prints the names of the directory up to the first that is empty, each on a line of its
own. -/
theorem ls_prints (hi : img.WellFormed) (ht : img.Typed)
    (hdot : ∀ dent, img.readDentryByName dot.mem = some dent → dent.type = 1)
    (hm : m.RegularReachable img) {es : List Event}
    (hes : AllEvents (faultStep img) (Regular img) m es)
    (hlive : AllStates (faultStep img) (p ∈ ·.live) m es)
    (hrun : run (faultStep img) m es = some m')
    (hfree : Files.avail (m.kernel.table p) ≠ none) {address : Word} (ha : address ≠ 0)
    {buf : ℕ → Byte} {s : Main}
    (hls : (copier ls address).Follows (lsMain buf) (fileTrace img p m es) s) :
    ((fileTrace img p m es).flatMap printed <+: (lsResult img).1 ∧
      (fileTrace img p m es).length ≤ 2 * (lsResult img).1.length + 2) ∧
    (∀ ret, s = .done ret →
      (fileTrace img p m es).flatMap printed = (lsResult img).1 ∧ ret = (lsResult img).2) ∧
    (m'.running = some p → ∀ c, (copier ls address).next s = some c →
      ∃ m'', m'.step img c.event = some m'') := by
  have hr : ∀ dent, img.readDentryByName dot.mem = some dent → Readable img dent :=
    fun dent hd h2 => absurd (h2.symm.trans (hdot dent hd)) (by decide)
  have hout : ∀ l : List Byte, l ≠ [] → l ++ [10] ≠ [] := by simp
  obtain ⟨l, e, hprog, hlen⟩ := @exists_progress img 32 hi ht (by decide) (by decide) ls rfl _
    hout dot hr _ (hm.reachable.opened_one hlive.head) hfree buf
  rw [result_ls hdot] at hprog hlen
  obtain ⟨⟨hbegin, hcalls⟩, hdone, hnext⟩ :=
    run_progress ha ls_prints_item hm hes hlive hrun hprog hls
  exact ⟨⟨hbegin, by omega⟩, hdone, hnext⟩

theorem directoryImage_typed : Kernel.directoryImage.Typed := by
  unfold Image.Typed
  decide

/-- `ls` prints two names, and another shell is typed to in between. -/
theorem ls_prints_directory :
    ∃ m : Machine, ∃ es, m.RegularReachable Kernel.directoryImage ∧
      (fileTrace Kernel.directoryImage 0 m es).length = 6 ∧
      (fileTrace Kernel.directoryImage 0 m es).flatMap printed = text "shell\n.\n" := by
  let part₁ := (Kernel.directoryImage.dentry 0).nameField
  let part₂ := (Kernel.directoryImage.dentry 1).nameField
  let line₁ := Function.update (ZeroBuffer.fill (fun _ => 0) part₁) 5 10
  let line₂ := Function.update (ZeroBuffer.fill line₁ part₂) 1 10
  let es : List Event := [.open dot, .read 2 0x8048000 32, .write 1 (some line₁) 6,
    .contextSwitch ⟨0, 0, 0⟩, .execute ⟨1, 1, fun _ => 0⟩ Kernel.shellCommand,
    .interruptKeyboard 0x1E, .contextSwitch ⟨0, 0, 0⟩, .contextSwitch ⟨0, 0, 0⟩,
    .read 2 0x8048000 32, .write 1 (some line₂) 2, .read 2 0x8048000 32]
  obtain ⟨m, m', hpre, hm, hes, hlive, hrun, htrace⟩ := @exists_run Kernel.directoryImage 0
    [.execute ⟨0, 0, fun _ => 0⟩ Kernel.shellCommand] es
    [some ⟨2, []⟩, some ⟨5, part₁⟩, some ⟨6, []⟩, none, none, none, none, none, some ⟨1, part₂⟩,
      some ⟨2, []⟩, some ⟨0, []⟩]
    (by decide +kernel) (by decide +kernel) (by decide +kernel)
  have hfree : ∀ m ∈ run (faultStep Kernel.directoryImage) first
      [.execute ⟨0, 0, fun _ => 0⟩ Kernel.shellCommand], Files.avail (m.kernel.table 0) ≠ none := by
    decide +kernel
  have hdot : ∀ dent, Kernel.directoryImage.readDentryByName dot.mem = some dent →
      dent.type = 1 := by
    intro dent hd
    obtain rfl := Option.some.inj (Kernel.lookup_directory.symm.trans hd)
    decide
  have hls : (copier ls 0x8048000).Follows (lsMain fun _ => 0)
      (fileTrace Kernel.directoryImage 0 m es) (.done 0) := by
    rw [htrace]
    exact ⟨_, ⟨rfl, rfl⟩, _, ⟨rfl, rfl⟩, _, ⟨rfl, rfl⟩, _, ⟨rfl, rfl⟩, _, ⟨rfl, rfl⟩, _, ⟨rfl, rfl⟩,
      rfl⟩
  have hprints := ls_prints (Kernel.wellFormed_of_one_block (by decide) (by decide))
    directoryImage_typed hdot hm hes hlive hrun (hfree m hpre) (by decide) hls
  exact ⟨m, es, hm, by rw [htrace]; rfl, (hprints.2.1 0 rfl).1.trans (by decide)⟩

end Machine

end MpOS
