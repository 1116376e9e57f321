import MpOS.Faults
import MpOS.Streaming
import MpOS.Lib.Client

/-!
# The files of a process

Terminals and their processes share the kernel, and interrupts switch between them at any
time. What a process sees through its descriptors is nevertheless a table of its own
(`Files`) that its calls work on one after the other : `run_fileTrace` says so for every
run of regular events. Only what the keyboard answers to a `read` comes from outside.
-/

namespace MpOS

/-- The calls of a process on its descriptors. -/
inductive FileCall
  | open (filename : CString)
  | close (fd : ℤ)
  | read (fd : ℤ) (buf : Word) (nbytes : ℤ)
  | write (fd : ℤ) (buf : Option (ℕ → Byte)) (nbytes : ℤ)

/-- What a call returns, and what it stores in the buffer. -/
structure Reply where
  ret : ℤ
  stored : List Byte
  deriving DecidableEq

namespace FileCall

/-- The reply of the kernel, and the kernel after the call. -/
def exec (img : Image) (k : Kernel) : FileCall → Option (Reply × Kernel)
  | .open filename => (k.sysOpen img filename.mem).map fun r => (⟨r.1, []⟩, r.2)
  | .close fd => (k.sysClose fd).map fun r => (⟨r.1, []⟩, r.2)
  | .read fd buf nbytes => (k.sysRead img fd buf nbytes).map fun r => (⟨r.ret, r.stored⟩, r.kernel)
  | .write fd buf nbytes => (k.sysWrite fd buf nbytes).map fun r => (⟨r.1, []⟩, r.2)

/-- The event the call is. -/
def event : FileCall → Event
  | .open filename => .open filename
  | .close fd => .close fd
  | .read fd buf nbytes => .read fd buf nbytes
  | .write fd buf nbytes => .write fd buf nbytes

/-- The call an event is. -/
def ofEvent : Event → Option FileCall
  | .open filename => some (.open filename)
  | .close fd => some (.close fd)
  | .read fd buf nbytes => some (.read fd buf nbytes)
  | .write fd buf nbytes => some (.write fd buf nbytes)
  | _ => none

/-- A step of the machine at a file call is the call. -/
theorem step_eq {e : Event} {c : FileCall} (h : ofEvent e = some c) (img : Image) (m : Machine) :
    m.step img e = m.userCall ((c.exec img m.kernel).map Prod.snd) := by
  cases e with
  | «open» filename =>
    obtain rfl := Option.some.inj h
    rw [Machine.step, exec, Option.map_map]
    rfl
  | close fd =>
    obtain rfl := Option.some.inj h
    rw [Machine.step, exec, Option.map_map]
    rfl
  | read fd buf nbytes =>
    obtain rfl := Option.some.inj h
    rw [Machine.step, exec, Option.map_map]
    rfl
  | write fd buf nbytes =>
    obtain rfl := Option.some.inj h
    rw [Machine.step, exec, Option.map_map]
    rfl
  | _ => exact absurd h (by simp [ofEvent])

/-- A file call changes devices and the caller's descriptors only. -/
theorem fdSteps {c : FileCall} {k k' : Kernel} {r : Reply}
    (h : c.exec img k = some (r, k')) : Kernel.FdSteps k k' := by
  cases c with
  | «open» filename =>
    obtain ⟨q, hq, hqr⟩ := Option.map_eq_some_iff.1 h
    obtain ⟨-, rfl⟩ := Prod.mk.inj hqr
    exact Kernel.fdSteps_sysOpen hq
  | close fd =>
    obtain ⟨q, hq, hqr⟩ := Option.map_eq_some_iff.1 h
    obtain ⟨-, rfl⟩ := Prod.mk.inj hqr
    exact Kernel.fdSteps_sysClose hq
  | read fd buf nbytes =>
    obtain ⟨q, hq, hqr⟩ := Option.map_eq_some_iff.1 h
    obtain ⟨-, rfl⟩ := Prod.mk.inj hqr
    exact Kernel.fdSteps_sysRead hq
  | write fd buf nbytes =>
    obtain ⟨q, hq, hqr⟩ := Option.map_eq_some_iff.1 h
    obtain ⟨-, rfl⟩ := Prod.mk.inj hqr
    exact Kernel.fdSteps_sysWrite hq

theorem ofEvent_event (c : FileCall) : ofEvent c.event = some c := by
  cases c <;> rfl

end FileCall

/-! ## A table by itself -/

/-- The descriptor table of a process. -/
abbrev Files :=
  ℕ → Fd

namespace Files

variable (img : Image) (t : Files)

/-- The least entry that is not in use. -/
def avail : Option ℕ :=
  [2, 3, 4, 5, 6, 7].find? fun i => (t i).flags = 0

/-- `open`. -/
def openFile (filename : ℕ → Byte) : Option (Reply × Files) :=
  match avail t, img.readDentryByName filename with
  | some fd, some dent =>
    (Kernel.typeOps dent.type).map fun ops =>
      (⟨fd, []⟩, Function.update t fd (Kernel.openedFd ops dent.inode))
  | _, _ => some (⟨-1, []⟩, t)

/-- A closed entry. -/
def closedFd (ops : Fileops) : Fd :=
  ⟨none, if ops = .fileop ∨ ops = .directory then 0xFFFFFFFF else 0, 0, 0⟩

/-- `close`. -/
def closeFile (fd : ℤ) : Option (Reply × Files) :=
  if fd < 2 ∨ 7 < fd ∨ (t fd.toNat).flags = 0 then some (⟨-1, []⟩, t)
  else (t fd.toNat).tablePointer.map fun ops =>
    (⟨0, []⟩, Function.update t fd.toNat (closedFd ops))

/-- `table_pointer->read`. `none` is the keyboard. -/
def opsRead (ops : Fileops) (fd : ℕ) (nbytes : ℤ) : Option (Reply × Files) :=
  let e := t fd
  match ops with
  | .fileop =>
    let r := img.readData e.inode e.filePosition (toWord nbytes)
    some (⟨r.1, r.2⟩,
      Function.update t fd { e with filePosition := e.filePosition + toWord r.1 })
  | .directory =>
    if fd < 2 ∨ fd > 7 then some (⟨-1, []⟩, t)
    else match img.readDentryByIndex e.filePosition with
    | none => some (⟨0, []⟩, t)
    | some dent => some (⟨dent.nameChars.length, (List.range 32).map dent.name ++ [0]⟩,
        Function.update t fd { e with filePosition := e.filePosition + 1 })
  | .rtc => some (⟨0, []⟩, t)
  | .keyboard => none

/-- Only the keyboard makes a read wait. -/
theorem opsRead_eq_none {img : Image} {t : Files} {ops : Fileops} {fd : ℕ} {nbytes : ℤ}
    (h : opsRead img t ops fd nbytes = none) : ops = .keyboard := by
  cases ops with
  | keyboard => rfl
  | directory =>
    simp only [opsRead] at h
    split_ifs at h
    split at h <;> exact absurd h (by simp)
  | _ => exact absurd h (by simp [opsRead])

/-- `read`. -/
def readFile (fd : ℤ) (buf : Word) (nbytes : ℤ) : Option (Reply × Files) :=
  if fd < 0 ∨ 7 < fd ∨ buf = 0 ∨ (t fd.toNat).flags = 0 ∨ fd = 1 then some (⟨-1, []⟩, t)
  else (t fd.toNat).tablePointer.bind fun ops => opsRead img t ops fd.toNat nbytes

/-- What `rtc_write` returns. -/
def rtcWriteRet (buf : ℕ → Byte) (nbytes : ℤ) : ℤ :=
  if nbytes ≠ 4 then -1
  else
    let (frequency, _, isPowerOfTwo) := Kernel.halve 31 (toInt (wordAt buf 0)) 0 false
    if !isPowerOfTwo ∨ frequency > Kernel.maxFreq ∨ frequency = 0 then -1 else 0

/-- What `table_pointer->write` returns. -/
def opsWriteRet (ops : Fileops) (buf : ℕ → Byte) (nbytes : ℤ) : ℤ :=
  match ops with
  | .fileop => -1
  | .directory => -1
  | .rtc => rtcWriteRet buf nbytes
  | .keyboard => nbytes.toNat

/-- `write`. -/
def writeFile (fd : ℤ) (buf : Option (ℕ → Byte)) (nbytes : ℤ) : Option (Reply × Files) :=
  match buf with
  | none => some (⟨-1, []⟩, t)
  | some buf =>
    if fd < 0 ∨ 7 < fd ∨ (t fd.toNat).flags = 0 ∨ fd = 0 then some (⟨-1, []⟩, t)
    else (t fd.toNat).tablePointer.map fun ops => (⟨opsWriteRet ops buf nbytes, []⟩, t)

/-- A call. `none` has no reply of its own : a `read` from the keyboard, or a call through a null
table. -/
def call : FileCall → Option (Reply × Files)
  | .open filename => openFile img t filename.mem
  | .close fd => closeFile t fd
  | .read fd buf nbytes => readFile img t fd buf nbytes
  | .write fd buf nbytes => writeFile t fd buf nbytes

/-- A `read` that the keyboard answers. -/
def FromKeyboard : FileCall → Prop
  | .read fd _ _ => 0 ≤ fd ∧ fd ≤ 7 ∧ fd ≠ 1 ∧ (t fd.toNat).tablePointer = some .keyboard
  | _ => False

/-- What a call with its reply does to a table. -/
def Step (img : Image) (t : Files) (c : FileCall × Reply) (t' : Files) : Prop :=
  match call img t c.1 with
  | some out => out = (c.2, t')
  | none => t' = t ∧ FromKeyboard t c.1

/-! ### Tables that agree -/

/-- The eight entries are the same, and only the standard ones are the keyboard's. -/
structure Agree (t u : Files) : Prop where
  eq : ∀ i ≤ 7, t i = u i
  std : ∀ i, 2 ≤ i → i ≤ 7 → (t i).tablePointer ≠ some .keyboard

variable {img t} {u : Files}

/-- Tables that agree have the same free descriptor. -/
theorem Agree.avail (h : Agree t u) : avail t = avail u := by
  simp only [Files.avail, List.find?_cons, List.find?_nil, h.eq 2 (by decide), h.eq 3 (by decide),
    h.eq 4 (by decide), h.eq 5 (by decide), h.eq 6 (by decide), h.eq 7 (by decide)]

/-- They agree after the same store. -/
theorem Agree.update (h : Agree t u) (fd : ℕ) {e : Fd}
    (he : 2 ≤ fd → fd ≤ 7 → e.tablePointer ≠ some .keyboard) :
    Agree (Function.update t fd e) (Function.update u fd e) where
  eq i hi := by
    rcases eq_or_ne i fd with rfl | hne
    · rw [Function.update_self, Function.update_self]
    · rw [Function.update_of_ne hne, Function.update_of_ne hne, h.eq i hi]
  std i h2 h7 := by
    rcases eq_or_ne i fd with rfl | hne
    · rw [Function.update_self]
      exact he h2 h7
    · rw [Function.update_of_ne hne]
      exact h.std i h2 h7

/-- Moving a file position. -/
theorem Agree.seek (h : Agree t u) {fd : ℕ} (pos : Word) :
    Agree (Function.update t fd { t fd with filePosition := pos })
      (Function.update u fd { t fd with filePosition := pos }) :=
  h.update fd fun h2 h7 => h.std fd h2 h7

/-- The same result, and tables that agree. -/
def SameResult (a b : Reply × Files) : Prop :=
  a.1 = b.1 ∧ Agree a.2 b.2

theorem typeOps_ne_keyboard {type : Word} {ops : Fileops} (h : Kernel.typeOps type = some ops) :
    ops ≠ .keyboard := by
  rintro rfl
  unfold Kernel.typeOps at h
  split_ifs at h <;> exact absurd h (by simp)

/-- `open` gives both the same reply and tables that agree. -/
theorem Agree.openFile (h : Agree t u) (filename : ℕ → Byte) :
    Option.Rel SameResult (openFile img t filename) (openFile img u filename) := by
  rw [Files.openFile, Files.openFile, h.avail]
  cases Files.avail u with
  | none => exact .some ⟨rfl, h⟩
  | some fd =>
    cases img.readDentryByName filename with
    | none => exact .some ⟨rfl, h⟩
    | some dent =>
      cases hops : Kernel.typeOps dent.type with
      | none => simp only [hops]; exact .none
      | some ops =>
        simp only [hops, Option.map_some]
        refine .some ⟨rfl, h.update fd fun _ _ hkb => typeOps_ne_keyboard hops ?_⟩
        exact Option.some.inj hkb

/-- So does `close`. -/
theorem Agree.closeFile (h : Agree t u) (fd : ℤ) :
    Option.Rel SameResult (closeFile t fd) (closeFile u fd) := by
  rw [Files.closeFile, Files.closeFile]
  by_cases hfd : fd < 2 ∨ 7 < fd
  · rw [if_pos (by tauto), if_pos (by tauto)]
    exact .some ⟨rfl, h⟩
  · rw [h.eq fd.toNat (by omega)]
    split_ifs with hf
    · exact .some ⟨rfl, h⟩
    · cases (u fd.toNat).tablePointer with
      | none => exact .none
      | some ops => exact .some ⟨rfl, h.update _ fun _ _ => by simp [closedFd]⟩

theorem Agree.opsRead (h : Agree t u) (ops : Fileops) {fd : ℕ} (hfd : fd ≤ 7) (nbytes : ℤ) :
    Option.Rel SameResult (opsRead img t ops fd nbytes) (opsRead img u ops fd nbytes) := by
  simp only [Files.opsRead, ← h.eq fd hfd]
  cases ops with
  | fileop => exact .some ⟨rfl, h.seek _⟩
  | directory =>
    simp only
    split_ifs with h2
    · exact .some ⟨rfl, h⟩
    · cases img.readDentryByIndex (t fd).filePosition with
      | none => exact .some ⟨rfl, h⟩
      | some dent => exact .some ⟨rfl, h.seek _⟩
  | rtc => exact .some ⟨rfl, h⟩
  | keyboard => exact .none

/-- So does `read`, of anything but the keyboard. -/
theorem Agree.readFile (h : Agree t u) (fd : ℤ) (buf : Word) (nbytes : ℤ) :
    Option.Rel SameResult (readFile img t fd buf nbytes) (readFile img u fd buf nbytes) := by
  rw [Files.readFile, Files.readFile]
  by_cases hfd : fd < 0 ∨ 7 < fd
  · rw [if_pos (by tauto), if_pos (by tauto)]
    exact .some ⟨rfl, h⟩
  · rw [← h.eq fd.toNat (by omega)]
    split_ifs with hf
    · exact .some ⟨rfl, h⟩
    · cases (t fd.toNat).tablePointer with
      | none => exact .none
      | some ops => exact h.opsRead ops (by omega) nbytes

/-- So does `write`. -/
theorem Agree.writeFile (h : Agree t u) (fd : ℤ) (buf : Option (ℕ → Byte)) (nbytes : ℤ) :
    Option.Rel SameResult (writeFile t fd buf nbytes) (writeFile u fd buf nbytes) := by
  cases buf with
  | none => exact .some ⟨rfl, h⟩
  | some buf =>
    rw [Files.writeFile, Files.writeFile]
    by_cases hfd : fd < 0 ∨ 7 < fd
    · rw [if_pos (by tauto), if_pos (by tauto)]
      exact .some ⟨rfl, h⟩
    · rw [← h.eq fd.toNat (by omega)]
      split_ifs with hf
      · exact .some ⟨rfl, h⟩
      · cases (t fd.toNat).tablePointer with
        | none => exact .none
        | some ops => exact .some ⟨rfl, h⟩

/-- So does every call on files. -/
theorem Agree.call (h : Agree t u) (c : FileCall) :
    Option.Rel SameResult (call img t c) (call img u c) := by
  cases c with
  | «open» filename => exact h.openFile filename.mem
  | close fd => exact h.closeFile fd
  | read fd buf nbytes => exact h.readFile fd buf nbytes
  | write fd buf nbytes => exact h.writeFile fd buf nbytes

/-- The same call on tables that agree has the same reply, unless it is typed. -/
theorem Agree.step (h : Agree t u) {c : FileCall} {r q : Reply} {t' u' : Files}
    (ht : Step img t (c, r) t') (hu : Step img u (c, q) u') :
    Agree t' u' ∧ (r = q ∨ ∃ buf nbytes, c = .read 0 buf nbytes) := by
  have hcall := @Agree.call img t u h c
  simp only [Step] at ht hu
  cases hct : Files.call img t c with
  | none =>
    rw [hct] at ht hcall
    cases hcu : Files.call img u c with
    | some b =>
      rw [hcu] at hcall
      cases hcall
    | none =>
      rw [hcu] at hu
      obtain ⟨rfl, hkb⟩ := ht
      obtain ⟨rfl, -⟩ := hu
      refine ⟨h, Or.inr ?_⟩
      cases c with
      | read fd buf nbytes =>
        obtain ⟨h0, h7, h1, hptr⟩ := hkb
        obtain rfl : fd = 0 := by
          by_contra hne
          exact h.std fd.toNat (by omega) (by omega) hptr
        exact ⟨buf, nbytes, rfl⟩
      | _ => exact hkb.elim
  | some a =>
    rw [hct] at ht hcall
    cases hcu : Files.call img u c with
    | none =>
      rw [hcu] at hcall
      cases hcall
    | some b =>
      rw [hcu] at hu hcall
      obtain rfl := ht
      obtain rfl := hu
      cases hcall with
      | some hab => exact ⟨hab.2, Or.inl hab.1⟩

end Files

/-! ## The kernel works on the table of the running process -/

namespace Kernel

variable {img : Image} {k : Kernel} {p : Word}

/-- `get_avail_fd` looks at the caller's table only. -/
theorem getAvailFd_eq (hc : k.cur.curFdPtr = .fdTable p) :
    k.getAvailFd = Files.avail (k.table p) := by
  simp only [getAvailFd, Files.avail, curFd_eq hc]

/-- Closed entries have no operation table. -/
def Tidy (t : Files) : Prop :=
  ∀ i, 2 ≤ i → i ≤ 7 → (t i).flags = 0 → (t i).tablePointer = none

/-- The kernel's `open`, seen from the caller's table. -/
theorem sysOpen_files (hc : k.cur.curFdPtr = .fdTable p) (ht : Tidy (k.table p))
    (filename : ℕ → Byte) :
    (k.sysOpen img filename).map (fun r => ((⟨r.1, []⟩ : Reply), r.2.table p)) =
      Files.openFile img (k.table p) filename := by
  rw [Files.openFile, ← getAvailFd_eq hc]
  cases hfd : k.getAvailFd with
  | none => rw [sysOpen_fail (Or.inl hfd)]; rfl
  | some fd =>
    cases hd : img.readDentryByName filename with
    | none => rw [sysOpen_fail (Or.inr hd)]; rfl
    | some dent =>
      cases hops : typeOps dent.type with
      | some ops =>
        obtain ⟨k', hopen, -, htable⟩ := sysOpen_of_avail hc hfd hd hops
        simp only [hopen, Option.map_some, htable, hops]
      | none =>
        obtain ⟨h2, h7, hfree, -⟩ := getAvailFd_eq_some hc hfd
        simp only [sysOpen, hfd, hd, setFileopPtr_of_none fd hops, curFd_eq hc, ht fd h2 h7 hfree,
          hops, Option.map_none]

/-- Each driver's close stores the closed entry of its kind. -/
theorem table_opsClose_eq (hc : k.cur.curFdPtr = .fdTable p) (ops : Fileops) {fd : ℕ}
    (hf : (k.table p fd).flags ≠ 0) :
    (k.opsClose ops fd).2.table p = Function.update (k.table p) fd (Files.closedFd ops) := by
  have hclose : ∀ inode : Word, (k.closeFd inode fd).2.table p =
      Function.update (k.table p) fd ⟨none, inode, 0, 0⟩ := by
    intro inode
    rw [closeFd, curFd_eq hc, if_neg hf, table_setCurFd hc]
  cases ops with
  | fileop => exact hclose _
  | directory => exact hclose _
  | rtc => exact hclose _
  | keyboard =>
    have hlines : k.clearLines.cur.curFdPtr = .fdTable p := hc
    rw [opsClose, keyboardClose, curFd_eq hc, if_neg hf, table_setCurFd hlines]
    rfl

/-- The kernel's `close`, seen from the caller's table. -/
theorem sysClose_files (hc : k.cur.curFdPtr = .fdTable p) (fd : ℤ) :
    (k.sysClose fd).map (fun r => ((⟨r.1, []⟩ : Reply), r.2.table p)) =
      Files.closeFile (k.table p) fd := by
  rw [Files.closeFile]
  split_ifs with hf
  · rw [sysClose_fail hc hf, Option.map_some]
  · simp only [not_or, not_lt] at hf
    obtain ⟨h2, h7, hf⟩ := hf
    cases hops : (k.table p fd.toNat).tablePointer with
    | none =>
      rw [sysClose, curFd_eq hc, if_neg (by simp [minFd, maxFd]; omega), if_neg hf, hops]
      rfl
    | some ops =>
      rw [sysClose_of_open hc h2 h7 hf hops, Option.map_some, Option.map_some,
        table_opsClose_eq hc ops hf]

/-- The checks of `read`, then the driver of the descriptor. -/
theorem sysRead_eq (hc : k.cur.curFdPtr = .fdTable p) (fd : ℤ) (buf : Word) (nbytes : ℤ) :
    k.sysRead img fd buf nbytes =
      if fd < 0 ∨ 7 < fd ∨ buf = 0 ∨ (k.table p fd.toNat).flags = 0 ∨ fd = 1 then
        some ⟨-1, [], k⟩
      else ((k.table p fd.toNat).tablePointer.bind fun ops =>
        k.opsRead img ops fd.toNat nbytes).map (ReadResult.storeAt buf) := by
  rw [sysRead, curFd_eq hc]
  unfold maxFd
  split_ifs <;> first | rfl | (exfalso; tauto)

/-- The driver of a file or a directory works on the table alone. -/
theorem opsRead_files (hc : k.cur.curFdPtr = .fdTable p) (ops : Fileops) {fd : ℕ} (nbytes : ℤ)
    (hf : (k.table p fd).flags ≠ 0) :
    match Files.opsRead img (k.table p) ops fd nbytes with
    | some out => (k.opsRead img ops fd nbytes).map
        (fun r => ((⟨r.ret, r.stored⟩ : Reply), r.kernel.table p)) = some out
    | none => ∀ r, k.opsRead img ops fd nbytes = some r → r.kernel.table p = k.table p := by
  cases ops with
  | fileop =>
    simp only [Files.opsRead, opsRead, fileRead, curFd_eq hc, if_neg hf, Option.map_some,
      table_setCurFd hc]
  | directory =>
    simp only [Files.opsRead, opsRead, directoryRead, curFd_eq hc, Option.map_some]
    split_ifs with h2
    · rfl
    · cases img.readDentryByIndex (k.table p fd).filePosition with
      | none => rfl
      | some dent =>
        simp only [table_setCurFd hc]
        rfl
  | rtc => rfl
  | keyboard =>
    rintro r hr
    exact congrArg (fun proc => (proc.pcb p).fdTable) (proc_keyboardRead hr)

theorem rtcWrite_fst (buf : ℕ → Byte) (nbytes : ℤ) (k : Kernel) :
    (k.rtcWrite buf nbytes).1 = Files.rtcWriteRet buf nbytes := by
  unfold rtcWrite Files.rtcWriteRet
  split_ifs
  · rfl
  · dsimp only
    split_ifs <;> rfl

theorem opsWrite_fst (ops : Fileops) (buf : ℕ → Byte) (nbytes : ℤ) (k : Kernel) :
    (k.opsWrite ops buf nbytes).1 = Files.opsWriteRet ops buf nbytes := by
  cases ops with
  | fileop => rfl
  | directory => rfl
  | rtc => exact rtcWrite_fst buf nbytes k
  | keyboard => rfl

/-- The kernel's `write`, seen from the caller's table. -/
theorem sysWrite_files (hc : k.cur.curFdPtr = .fdTable p) (fd : ℤ) (buf : Option (ℕ → Byte))
    (nbytes : ℤ) :
    (k.sysWrite fd buf nbytes).map (fun r => ((⟨r.1, []⟩ : Reply), r.2.table p)) =
      Files.writeFile (k.table p) fd buf nbytes := by
  cases buf with
  | none =>
    rw [sysWrite, ite_self]
    rfl
  | some buf =>
    have htable : ∀ ops, (k.opsWrite ops buf nbytes).2.table p = k.table p := fun ops =>
      congrArg (fun proc => (proc.pcb p).fdTable) (proc_opsWrite ops buf nbytes)
    rw [Files.writeFile]
    split_ifs with hf
    · rw [sysWrite, curFd_eq hc]
      unfold maxFd
      split_ifs <;> first | rfl | (exfalso; tauto)
    · simp only [not_or, not_lt] at hf
      obtain ⟨h0, h7, hopen, hne⟩ := hf
      rw [sysWrite, curFd_eq hc, if_neg (by simp [maxFd]; omega), if_neg hopen, if_neg hne,
        Option.map_map]
      refine congrArg (Option.map · _) (funext fun ops => ?_)
      rw [Function.comp_apply, htable, opsWrite_fst]

/-- A call that the table answers is answered by the kernel. -/
theorem exists_exec (hc : k.cur.curFdPtr = .fdTable p) (ht : Tidy (k.table p)) {c : FileCall}
    {out : Reply × Files} (h : Files.call img (k.table p) c = some out) :
    ∃ r, c.exec img k = some r := by
  cases c with
  | «open» filename =>
    rw [Files.call, ← sysOpen_files hc ht] at h
    obtain ⟨r, hr, -⟩ := Option.map_eq_some_iff.1 h
    exact ⟨_, by rw [FileCall.exec, hr, Option.map_some]⟩
  | close fd =>
    rw [Files.call, ← sysClose_files hc] at h
    obtain ⟨r, hr, -⟩ := Option.map_eq_some_iff.1 h
    exact ⟨_, by rw [FileCall.exec, hr, Option.map_some]⟩
  | write fd buf nbytes =>
    rw [Files.call, ← sysWrite_files hc] at h
    obtain ⟨r, hr, -⟩ := Option.map_eq_some_iff.1 h
    exact ⟨_, by rw [FileCall.exec, hr, Option.map_some]⟩
  | read fd buf nbytes =>
    rw [FileCall.exec, sysRead_eq hc]
    simp only [Files.call, Files.readFile] at h
    split_ifs at h ⊢ with hf
    · exact ⟨_, rfl⟩
    · obtain ⟨ops, hops, hread⟩ := Option.bind_eq_some_iff.1 h
      have hfile := @opsRead_files img k p hc ops _ nbytes fun h0 => hf (by tauto)
      rw [hread] at hfile
      obtain ⟨r, hr, -⟩ := Option.map_eq_some_iff.1 hfile
      exact ⟨_, by rw [hops, Option.bind_some, hr, Option.map_some, Option.map_some]⟩

/-- Every call of the running process is one on its table. -/
theorem exec_files (hc : k.cur.curFdPtr = .fdTable p) (ht : Tidy (k.table p)) {c : FileCall}
    {r : Reply} {k' : Kernel} (h : c.exec img k = some (r, k')) :
    Files.Step img (k.table p) (c, r) (k'.table p) := by
  have hpure : (c.exec img k).map (fun r => (r.1, r.2.table p)) = some (r, k'.table p) := by
    rw [h, Option.map_some]
  cases c with
  | «open» filename =>
    rw [FileCall.exec, Option.map_map] at hpure
    have hcall : Files.call img (k.table p) (.open filename) = some (r, k'.table p) :=
      (sysOpen_files hc ht filename.mem).symm.trans hpure
    simp only [Files.Step, hcall]
  | close fd =>
    rw [FileCall.exec, Option.map_map] at hpure
    have hcall : Files.call img (k.table p) (.close fd) = some (r, k'.table p) :=
      (sysClose_files hc fd).symm.trans hpure
    simp only [Files.Step, hcall]
  | write fd buf nbytes =>
    rw [FileCall.exec, Option.map_map] at hpure
    have hcall : Files.call img (k.table p) (.write fd buf nbytes) = some (r, k'.table p) :=
      (sysWrite_files hc fd buf nbytes).symm.trans hpure
    simp only [Files.Step, hcall]
  | read fd buf nbytes =>
    rw [FileCall.exec, sysRead_eq hc] at h
    simp only [Files.Step, Files.call, Files.readFile]
    split_ifs at h ⊢ with hf
    · obtain ⟨rfl, rfl⟩ := Prod.mk.inj (Option.some.inj h)
      rfl
    · cases hops : (k.table p fd.toNat).tablePointer with
      | none =>
        rw [hops] at h
        exact absurd h (by simp)
      | some ops =>
        rw [hops, Option.bind_some] at h
        obtain ⟨res', hread', hres⟩ := Option.map_eq_some_iff.1 h
        obtain ⟨rfl, rfl⟩ := Prod.mk.inj hres
        -- the bytes go to the page of the process, not to its table
        obtain ⟨res, hread, rfl⟩ := Option.map_eq_some_iff.1 hread'
        have hfile := @opsRead_files img k p hc ops _ nbytes fun h0 => hf (by tauto)
        rw [Option.bind_some]
        cases hout : Files.opsRead img (k.table p) ops fd.toNat nbytes with
        | none =>
          rw [hout] at hfile
          obtain rfl := Files.opsRead_eq_none hout
          simp only [not_or, not_lt] at hf
          exact ⟨hfile res hread, hf.1, hf.2.1, hf.2.2.2.2, hops⟩
        | some out =>
          rw [hout, hread] at hfile
          exact (Option.some.inj hfile).symm

end Kernel

/-- Closed entries of a lawful table have lost their operations. -/
theorem TableLaw.tidy {t : Files} {opens : Opens} (h : TableLaw t opens) : Kernel.Tidy t := by
  intro i h2 h7 hf
  by_contra hne
  rw [(h.flags_eq_one_iff h2 h7).2 hne] at hf
  exact absurd hf (by decide)

/-! ## Whole runs -/

namespace Machine

open Transition

variable {img : Image} {m m' : Machine} {p : Word}

/-- The call of a process that an event is, with its reply. -/
def ownCall (img : Image) (p : Word) (m : Machine) (e : Event) : Option (FileCall × Reply) :=
  if m.running = some p then
    (FileCall.ofEvent e).bind fun c => (c.exec img m.kernel).map fun r => (c, r.1)
  else none

/-- The calls of a process on its descriptors in a run, with their replies. -/
def fileTrace (img : Image) (p : Word) : Machine → List Event → List (FileCall × Reply) :=
  Client.trace (faultStep img) (ownCall img p)

/-- A call of a process changes its table as the table says. -/
theorem step_ownCall (hm : m.Reachable img) {e : Event} {c : FileCall × Reply}
    (hstep : m.step img e = some m') (hown : ownCall img p m e = some c) :
    Files.Step img (m.kernel.table p) c (m'.kernel.table p) := by
  obtain ⟨opens, ho⟩ := hm.exists_opens
  have hl := ho.lawful
  rw [ownCall] at hown
  split_ifs at hown with hp
  obtain ⟨call, hcall, hown⟩ := Option.bind_eq_some_iff.1 hown
  obtain ⟨⟨r, k'⟩, hexec, rfl⟩ := Option.map_eq_some_iff.1 hown
  rw [FileCall.step_eq hcall, hexec, Option.map_some, userCall, if_neg (by simp [hp])] at hstep
  obtain rfl := Option.some.inj hstep
  exact Kernel.exec_files (hl.coherent.installed hp).curFdPtr
    (hl.law p (hl.coherent.running_mem hp)).tidy hexec

/-- A call that the table of the running process answers is a step, with that reply. -/
theorem exists_step_event (hm : m.Reachable img) (hp : m.running = some p) {c : FileCall}
    {out : Reply × Files} (h : Files.call img (m.kernel.table p) c = some out) :
    ∃ m', m.step img c.event = some m' ∧ ownCall img p m c.event = some (c, out.1) ∧
      m'.kernel.table p = out.2 ∧ m'.running = some p := by
  obtain ⟨opens, ho⟩ := hm.exists_opens
  have hl := ho.lawful
  have hptr := (hl.coherent.installed hp).curFdPtr
  have htidy := (hl.law p (hl.coherent.running_mem hp)).tidy
  obtain ⟨⟨r, k⟩, hr⟩ := Kernel.exists_exec hptr htidy h
  have hfiles := Kernel.exec_files hptr htidy hr
  simp only [Files.Step, h] at hfiles
  obtain rfl := hfiles
  have hstep : m.step img c.event = some (m.withKernel k) := by
    rw [FileCall.step_eq c.ofEvent_event, hr, userCall, if_neg (by simp [hp])]
    rfl
  refine ⟨m.withKernel k, hstep, ?_, rfl, ?_⟩
  · rw [ownCall, if_pos hp, c.ofEvent_event, Option.bind_some, hr]
    rfl
  · rw [running_withKernel (FileCall.fdSteps hr).onlyFds.context.scheduleIndex, hp]

/-- Nothing else changes it as long as the process lives. -/
theorem step_not_ownCall (hm : m.Coherent) (hp : p ∈ m.live) (hp' : p ∈ m'.live) {e : Event}
    (hstep : m.step img e = some m') (hown : ownCall img p m e = none) :
    m'.kernel.table p = m.kernel.table p := by
  by_cases hr : m.running = some p
  · rw [ownCall, if_pos hr] at hown
    cases step_cases hstep with
    | fail _ => rfl
    | @start frame command pid target k hexec hs =>
      obtain ⟨t, ht⟩ := mem_live.1 hp
      have hne : p ≠ pid := by
        rintro rfl
        exact hm.not_mem_of_use_eq_zero (Kernel.getAvailPcb_eq_some hs.avail).2 t ht
      exact congrArg Pcb.fdTable (hs.pcb_of_ne hne)
    | exit hcall hm' => exact absurd hr (hm.live_exit (fun _ _ => hcall.exits) hm' hp').2
    | fdCall _ hcall =>
      cases hcall with
      | «open» h => simp [FileCall.ofEvent, FileCall.exec, h] at hown
      | close h => simp [FileCall.ofEvent, FileCall.exec, h] at hown
      | read h => simp [FileCall.ofEvent, FileCall.exec, h] at hown
      | write h => simp [FileCall.ofEvent, FileCall.exec, h] at hown
    | vidmap _ => exact Kernel.table_vidmap _ m.kernel p
    | switch frame => rw [withKernel, Kernel.table, Kernel.interruptPit_pcb, Kernel.table]
    | quiet hq => exact table_eq_of_proc hq.proc p
  · exact step_table hm hstep hp hr

/-- In every run of regular events, whatever the other processes, the interrupts and the scheduler
do between its calls, a process that lives all along works on its descriptors alone. -/
theorem run_fileTrace (hm : m.RegularReachable img) {es : List Event}
    (hes : AllEvents (faultStep img) (Regular img) m es)
    (hlive : AllStates (faultStep img) (p ∈ ·.live) m es)
    (hrun : run (faultStep img) m es = some m') :
    Client.Run (Files.Step img) (m.kernel.table p) (fileTrace img p m es) (m'.kernel.table p) := by
  have hall : AllStates (faultStep img) (fun s => s.RegularReachable img ∧ p ∈ s.live) m es :=
    hlive.imp hes (fun _ _ _ hs hr h => hs.step hr h) (fun _ hs hp => ⟨hs, hp⟩) hm
  refine Client.run_trace (fun s => s.kernel.table p)
    (fun s e s' c hs _ hr h hown => ?_) (fun s e s' hs hs' hr h hown => ?_) hall hes hrun
  · rw [faultStep_of_fits hr.2] at h
    exact step_ownCall hs.1.reachable h hown
  · rw [faultStep_of_fits hr.2] at h
    exact step_not_ownCall hs.1.reachable.coherent hs.2 hs'.2 h hown

theorem Lawful.agree {s : Machine × (Word → Opens)} (h : Lawful s) (hp : p ∈ s.1.live)
    {u : Files} (hu : ∀ i ≤ 7, s.1.kernel.table p i = u i) :
    Files.Agree (s.1.kernel.table p) u where
  eq := hu
  std i h2 h7 hkb := by
    have hl := h.law p hp
    cases ho : s.2 p i with
    | none =>
      rw [(hl.closed i h2 h7 ho).tablePointer] at hkb
      exact absurd hkb (by simp)
    | some type =>
      obtain ⟨ops, hops, he⟩ := hl.opened i h2 h7 type ho
      rw [he.tablePointer] at hkb
      exact Files.typeOps_ne_keyboard hops (Option.some.inj hkb)

/-- What a process gets from its descriptors depends on its own table and its own calls : two
processes that start with the same table, in any two runs, get the same replies to the same
calls, but for what they read from descriptor 0, and end with the same table. -/
theorem same_replies {m₁ m₁' m₂ m₂' : Machine} {p₁ p₂ : Word} {es₁ es₂ : List Event}
    (hm₁ : m₁.RegularReachable img) (hm₂ : m₂.RegularReachable img)
    (hes₁ : AllEvents (faultStep img) (Regular img) m₁ es₁)
    (hes₂ : AllEvents (faultStep img) (Regular img) m₂ es₂)
    (hlive₁ : AllStates (faultStep img) (p₁ ∈ ·.live) m₁ es₁)
    (hlive₂ : AllStates (faultStep img) (p₂ ∈ ·.live) m₂ es₂)
    (hrun₁ : run (faultStep img) m₁ es₁ = some m₁')
    (hrun₂ : run (faultStep img) m₂ es₂ = some m₂')
    (htable : ∀ i ≤ 7, m₁.kernel.table p₁ i = m₂.kernel.table p₂ i)
    (hcalls : (fileTrace img p₁ m₁ es₁).map Prod.fst = (fileTrace img p₂ m₂ es₂).map Prod.fst) :
    List.Forall₂ (fun c d => c.2 = d.2 ∨ ∃ buf nbytes, c.1 = .read 0 buf nbytes)
      (fileTrace img p₁ m₁ es₁) (fileTrace img p₂ m₂ es₂) ∧
    ∀ i ≤ 7, m₁'.kernel.table p₁ i = m₂'.kernel.table p₂ i := by
  obtain ⟨opens, ho⟩ := hm₁.reachable.exists_opens
  obtain ⟨hend, hall⟩ := Client.Run.simulation (R := Files.Agree)
    (Q := fun c d => c.2 = d.2 ∨ ∃ buf nbytes, c.1 = .read 0 buf nbytes)
    (fun t u c r q t' u' h ht hu => h.step ht hu) (run_fileTrace hm₁ hes₁ hlive₁ hrun₁)
    (run_fileTrace hm₂ hes₂ hlive₂ hrun₂) hcalls (ho.lawful.agree hlive₁.head htable)
  exact ⟨hall, hend.eq⟩

/-- What a process gets in a run, event by event. -/
def replies (img : Image) (p : Word) : Machine → List Event → List (Option Reply) :=
  outputs (faultStep img) fun s e => [(ownCall img p s e).map Prod.snd]

theorem fst_ownCall {e : Event} {c : FileCall × Reply} (h : ownCall img p m e = some c) :
    FileCall.ofEvent e = some c.1 := by
  rw [ownCall] at h
  split_ifs at h
  obtain ⟨call, hcall, h⟩ := Option.bind_eq_some_iff.1 h
  obtain ⟨r, -, rfl⟩ := Option.map_eq_some_iff.1 h
  exact hcall

/-- The trace is in the events and the replies. -/
theorem fileTrace_eq (img : Image) (p : Word) (m : Machine) (es : List Event) :
    fileTrace img p m es = (es.zip (replies img p m es)).filterMap fun x =>
      x.2.bind fun r => (FileCall.ofEvent x.1).map fun c => (c, r) := by
  induction es generalizing m with
  | nil => rfl
  | cons e es ih =>
    have hhead : ((ownCall img p m e).map Prod.snd).bind
        (fun r => (FileCall.ofEvent e).map fun c => (c, r)) = ownCall img p m e := by
      cases hown : ownCall img p m e with
      | none => rfl
      | some c => rw [Option.map_some, Option.bind_some, fst_ownCall hown, Option.map_some]
    have htail : ∀ l, ((e :: es).zip ((ownCall img p m e).map Prod.snd :: l)).filterMap
        (fun x => x.2.bind fun r => (FileCall.ofEvent x.1).map fun c => (c, r)) =
        (ownCall img p m e).toList ++ (es.zip l).filterMap
          fun x => x.2.bind fun r => (FileCall.ofEvent x.1).map fun c => (c, r) := by
      intro l
      rw [List.zip_cons_cons, List.filterMap_cons, hhead]
      cases ownCall img p m e <;> rfl
    rw [fileTrace, Client.trace, replies, outputs, outputs, List.singleton_append, htail]
    cases m.faultStep img e with
    | none => simp
    | some m' => exact congrArg _ (ih m')

/-- A run of regular events in which a process lives all along, behind one from boot. -/
theorem exists_run {pre es : List Event} {rs : List (Option Reply)}
    (hpre : AllEvents (faultStep img) (Regular img) first pre)
    (h : ∀ m ∈ run (faultStep img) first pre, AllEvents (faultStep img) (Regular img) m es ∧
      AllStates (faultStep img) (p ∈ ·.live) m es ∧ (run (faultStep img) m es).isSome ∧
      replies img p m es = rs)
    (hsome : (run (faultStep img) first pre).isSome) :
    ∃ m m' : Machine, run (faultStep img) first pre = some m ∧ m.RegularReachable img ∧
      AllEvents (faultStep img) (Regular img) m es ∧
      AllStates (faultStep img) (p ∈ ·.live) m es ∧ run (faultStep img) m es = some m' ∧
      fileTrace img p m es = (es.zip rs).filterMap fun x =>
        x.2.bind fun r => (FileCall.ofEvent x.1).map fun c => (c, r) := by
  obtain ⟨m, hm⟩ := Option.isSome_iff_exists.1 hsome
  obtain ⟨hes, hlive, hend, hrs⟩ := h m hm
  obtain ⟨m', hm'⟩ := Option.isSome_iff_exists.1 hend
  exact ⟨m, m', hm, Transition.Reachable.run (.init first_booted) hpre hm, hes, hlive, hm',
    hrs ▸ fileTrace_eq img p m es⟩

/-- The table of a process that has just been started. -/
def fresh : Files :=
  fun i => if i < 2 then Kernel.openedFd .keyboard 0 else Fd.empty

/-- The first shell reads its own file, and so does a shell on the second terminal, while the
first one reads through the same descriptor. -/
theorem same_replies_shells : ∃ m₁ m₂ : Machine, ∃ es₁ es₂ : List Event,
    m₁.running = some 0 ∧ m₂.running = some 1 ∧
    (fileTrace Kernel.shellImage 0 m₁ es₁).map Prod.snd =
      [⟨2, []⟩, ⟨3, [0x7F, 0x45, 0x4C]⟩, ⟨3, [0x46, 0, 0]⟩, ⟨0, []⟩] ∧
    List.Forall₂ (fun c d => c.2 = d.2 ∨ ∃ buf nbytes, c.1 = .read 0 buf nbytes)
      (fileTrace Kernel.shellImage 0 m₁ es₁) (fileTrace Kernel.shellImage 1 m₂ es₂) := by
  let pre₁ : List Event := [.execute ⟨0, 0, fun _ => 0⟩ Kernel.shellCommand]
  let pre₂ : List Event := pre₁ ++ [.open Kernel.shellCommand, .contextSwitch ⟨0, 0, 0⟩,
    .execute ⟨1, 1, fun _ => 0⟩ Kernel.shellCommand]
  have h₁ := @exists_run Kernel.shellImage 0 pre₁
    [.open Kernel.shellCommand, .read 2 0x8048000 3, .read 2 0x8048000 3, .close 2]
    [some ⟨2, []⟩, some ⟨3, [0x7F, 0x45, 0x4C]⟩, some ⟨3, [0x46, 0, 0]⟩, some ⟨0, []⟩]
    (by decide +kernel) (by decide +kernel) (by decide +kernel)
  have h₂ := @exists_run Kernel.shellImage 1 pre₂
    [.open Kernel.shellCommand, .contextSwitch ⟨1, 1, 1⟩, .contextSwitch ⟨2, 2, 2⟩,
      .read 2 0x8048000 2, .contextSwitch ⟨0, 0, 0⟩, .read 2 0x8048000 3, .interruptRtc,
      .read 2 0x8048000 3, .close 2]
    [some ⟨2, []⟩, none, none, none, none, some ⟨3, [0x7F, 0x45, 0x4C]⟩, none,
      some ⟨3, [0x46, 0, 0]⟩, some ⟨0, []⟩]
    (by decide +kernel) (by decide +kernel) (by decide +kernel)
  have ht₁ : ∀ m ∈ run (faultStep Kernel.shellImage) first pre₁,
      m.running = some 0 ∧ ∀ i ≤ 7, m.kernel.table 0 i = fresh i := by
    decide +kernel
  have ht₂ : ∀ m ∈ run (faultStep Kernel.shellImage) first pre₂,
      m.running = some 1 ∧ ∀ i ≤ 7, m.kernel.table 1 i = fresh i := by
    decide +kernel
  obtain ⟨m₁, m₁', hpre₁, hm₁, hes₁, hlive₁, hrun₁, htrace₁⟩ := h₁
  obtain ⟨m₂, m₂', hpre₂, hm₂, hes₂, hlive₂, hrun₂, htrace₂⟩ := h₂
  obtain ⟨hr₁, ht₁⟩ := ht₁ m₁ hpre₁
  obtain ⟨hr₂, ht₂⟩ := ht₂ m₂ hpre₂
  have hsame := same_replies hm₁ hm₂ hes₁ hes₂ hlive₁ hlive₂ hrun₁ hrun₂
    (fun i hi => (ht₁ i hi).trans (ht₂ i hi).symm) (by rw [htrace₁, htrace₂]; rfl)
  exact ⟨m₁, m₂, _, _, hr₁, hr₂, by rw [htrace₁]; rfl, hsame.1⟩

end Machine

end MpOS
