import MpOS.Frame
import MpOS.Lib.LinkPath

/-!
# Process contexts

`execute` saves the context of its caller in the PCB of the process it starts and
installs the new one (`Starts`). An exit restores it from there (`Exits`).
`context_switch` exchanges the kernel stack of two terminals and reloads the program
page. The rules here say everything the three do to the process state, so that no
later proof unfolds them.
-/

namespace MpOS

namespace Kernel

/-! ## `get_avail_pcb` -/

/-- The indices of the PCBs. -/
theorem mem_pcbs (p : Word) : p ∈ ([0, 1, 2, 3, 4, 5, 6, 7] : List Word) ↔ p < 8 := by
  simp only [List.mem_cons, List.not_mem_nil, or_false, ← UInt32.toNat_inj, UInt32.lt_iff_toNat_lt,
    UInt32.reduceToNat]
  omega

/-- No PCB has the index that stands for no process. -/
theorem ne_noPid {p : Word} (h : p < 8) : p ≠ noPid := by
  rintro rfl
  exact absurd h (by decide)

/-- The PCB found is one of the eight and is not in use. -/
theorem getAvailPcb_eq_some {k : Kernel} {p : Word} (h : k.getAvailPcb = some p) :
    p < 8 ∧ (k.proc.pcb p).use = 0 :=
  ⟨(mem_pcbs p).1 (List.mem_of_find?_eq_some h), by simpa using List.find?_some h⟩

/-- None is found exactly when all eight are in use. -/
theorem getAvailPcb_eq_none_iff (k : Kernel) :
    k.getAvailPcb = none ↔ ∀ p < 8, (k.proc.pcb p).use ≠ 0 := by
  simp only [getAvailPcb, List.find?_eq_none, mem_pcbs, decide_eq_true_eq, ne_eq]

/-! ## `execute` -/

/-- The descriptor table `init_fd` leaves behind. -/
def initTable (t : ℕ → Fd) (i : ℕ) : Fd :=
  if i < 2 then ⟨some .keyboard, 0, 0, 1⟩ else if i < 8 then Fd.empty else t i

/-- The PCB `execute` fills for the process it starts. -/
def newPcb (k : Kernel) (frame : ExecFrame) (command : CString) (idx : Word) : Pcb where
  use := 1
  parentPid := k.cur.curPid
  parentEsp0 := k.proc.tssEsp0
  parentEsp := frame.esp
  parentEbp := frame.ebp
  parentFd := k.cur.curFdPtr
  fdTable := initTable (k.proc.pcb idx).fdTable
  userBuf := strncpy (k.proc.pcb idx).userBuf command usrBufSize
  vidSet := 0
  screenIdx := k.proc.scheduleIndex.word

@[simp] theorem modifyPcb_cur (k : Kernel) (pid : Word) (f : Pcb → Pcb) :
    (k.modifyPcb pid f).cur = k.cur :=
  rfl

@[simp] theorem modifyPcb_modifyPcb (k : Kernel) (pid : Word) (f g : Pcb → Pcb) :
    (k.modifyPcb pid f).modifyPcb pid g = k.modifyPcb pid fun p => g (f p) := by
  simp [modifyPcb]

/-- With a process running, the current table is that of its PCB. -/
theorem setCurFd_of_fdTable {k : Kernel} {pid : Word} (h : k.cur.curFdPtr = .fdTable pid) (i : ℕ)
    (e : Fd) :
    k.setCurFd i e =
      k.modifyPcb pid fun p => { p with fdTable := Function.update p.fdTable i e } := by
  simp only [setCurFd, setFd, h]

/-- The eight stores of `init_fd`. -/
theorem update_initTable (t : ℕ → Fd) :
    Function.update (Function.update (Function.update (Function.update (Function.update
      (Function.update (Function.update (Function.update t 0 ⟨some .keyboard, 0, 0, 1⟩)
        1 ⟨some .keyboard, 0, 0, 1⟩) 2 Fd.empty) 3 Fd.empty) 4 Fd.empty) 5 Fd.empty) 6 Fd.empty) 7
          Fd.empty = initTable t := by
  funext i
  rcases Nat.lt_or_ge i 8 with hlt | hge
  · interval_cases i <;> rfl
  · simp only [initTable, Function.update_apply]
    rw [if_neg (by omega), if_neg (by omega), if_neg (by omega), if_neg (by omega),
      if_neg (by omega), if_neg (by omega), if_neg (by omega), if_neg (by omega),
      if_neg (by omega), if_neg (by omega)]

/-- `init_fd` through the pointer of the running process. -/
theorem initFd_eq {k : Kernel} (pid : Word) (h : k.cur.curFdPtr = .fdTable pid) :
    k.initFd = k.modifyPcb pid fun p => { p with fdTable := initTable p.fdTable } := by
  have hset : ∀ (f : Pcb → Pcb) (i : ℕ) (e : Fd), (k.modifyPcb pid f).setCurFd i e =
      k.modifyPcb pid fun p => { f p with fdTable := Function.update (f p).fdTable i e } := by
    intro f i e
    rw [setCurFd_of_fdTable (by simpa using h), modifyPcb_modifyPcb]
  simp only [initFd, List.foldl_cons, List.foldl_nil, setCurFd_of_fdTable h, hset,
    update_initTable]

/-- The registers that the last process in the PCB was started from. -/
def staleFrame (k : Kernel) (idx : Word) (magic : ℕ → Byte) : ExecFrame :=
  ⟨(k.proc.pcb idx).parentEsp, (k.proc.pcb idx).parentEbp, magic⟩

/-- The state `execute` has built when it reads the program, all its stores together. -/
theorem startProcess_eq (magic : ℕ → Byte) (command : CString) (idx : Word) (k : Kernel) :
    k.startProcess command idx =
      { k with
        proc := { k.proc with
          processArray := Function.update k.proc.processArray k.proc.scheduleIndex
            { k.cur with curPid := idx, curFdPtr := .fdTable idx }
          pcb := Function.update k.proc.pcb idx (k.newPcb (k.staleFrame idx magic) command idx)
          tssEsp0 := getEsp0 idx }
        paging := (k.mapPageExec idx).paging } := by
  simp only [startProcess]
  rw [initFd_eq idx (by simp [modifyCur, modifyPcb, cur])]
  simp [modifyPcb, modifyCur, cur, newPcb, staleFrame, mapPageExec, setPdt, setEsp0]

/-- The same with the caller's frame saved in the new PCB. -/
theorem saveFrame_startProcess (frame : ExecFrame) (command : CString) (idx : Word) (k : Kernel) :
    (k.startProcess command idx).saveFrame frame idx =
      { k with
        proc := { k.proc with
          processArray := Function.update k.proc.processArray k.proc.scheduleIndex
            { k.cur with curPid := idx, curFdPtr := .fdTable idx }
          pcb := Function.update k.proc.pcb idx (k.newPcb frame command idx)
          tssEsp0 := getEsp0 idx }
        paging := (k.mapPageExec idx).paging } := by
  rw [startProcess_eq frame.magic]
  simp [saveFrame, modifyPcb, newPcb]

/-- What a successful `execute` does. -/
structure Starts (k : Kernel) (frame : ExecFrame) (command : CString) (pid : Word)
    (k' : Kernel) : Prop where
  avail : k.getAvailPcb = some pid
  proc : k'.proc = { k.proc with
    processArray := Function.update k.proc.processArray k.proc.scheduleIndex
      { k.cur with curPid := pid, curFdPtr := .fdTable pid }
    pcb := Function.update k.proc.pcb pid (k.newPcb frame command pid)
    tssEsp0 := getEsp0 pid
    interruptFlag := true }
  paging : k'.paging = (k.mapPageExec pid).paging
  keyboard : k'.keyboard = k.keyboard
  visibleScreen : k'.screen.visibleScreen = k.screen.visibleScreen

/-- Where the load ends, the process is as `execute` leaves it but for the saved registers. -/
theorem starts_load {k : Kernel} {pid : Word} (havail : k.getAvailPcb = some pid)
    (magic : ℕ → Byte) (command : CString) (program : List Byte) :
    k.Starts (k.staleFrame pid magic) command pid
      ((((k.setInterruptFlag false).startProcess command pid).loadProgram
        program).setInterruptFlag true) := by
  rw [startProcess_eq magic]
  exact ⟨havail, rfl, rfl, rfl, rfl⟩

/-- The stores of a whole `execute`, with the program in its page. -/
theorem starts_saveFrame {k : Kernel} {pid : Word} (havail : k.getAvailPcb = some pid)
    (frame : ExecFrame) (command : CString) (program : List Byte) :
    k.Starts frame command pid
      (((((k.setInterruptFlag false).startProcess command pid).loadProgram program).saveFrame
        frame pid).setInterruptFlag true) := by
  have hcomm : ∀ k : Kernel, (k.loadProgram program).saveFrame frame pid =
      (k.saveFrame frame pid).loadProgram program := fun _ => rfl
  rw [hcomm, saveFrame_startProcess]
  exact ⟨havail, rfl, rfl, rfl, rfl⟩

/-- `execute` fails without a trace but for the interrupt flag, starts a process, or starts one
and ends it. -/
theorem execute_cases {img : Image} {frame : ExecFrame} {command : CString} {k : Kernel}
    {r : ExecResult × Kernel} (h : k.execute img frame command = some r) :
    r = (.fail, k.setInterruptFlag false) ∨
      (∃ pid target k', r = (.iret pid target, k') ∧ k.Starts frame command pid k') ∨
      ∃ pid frame' k₁ k', r = (.fault frame', k') ∧
        k.Starts (k.staleFrame pid frame.magic) command pid k₁ ∧
        k₁.haltException = some (frame', k') := by
  unfold execute at h
  simp only at h
  split at h
  · exact absurd h (by simp)
  split at h
  · exact Or.inl (Option.some.inj h).symm
  split at h
  · exact absurd h (by simp)
  split at h
  · exact Or.inl (Option.some.inj h).symm
  split at h
  · exact Or.inl (Option.some.inj h).symm
  rename_i pid hpid
  have havail : k.getAvailPcb = some pid := hpid
  split at h
  · -- `halt_exception` turns interrupts off before anything else
    obtain ⟨⟨frame', k'⟩, hhalt, rfl⟩ := Option.map_eq_some_iff.1 h
    have hoff : ∀ k : Kernel, (k.setInterruptFlag true).haltException = k.haltException :=
      fun _ => rfl
    exact Or.inr (Or.inr ⟨pid, frame', _, k', rfl, starts_load havail frame.magic command _,
      (hoff _).trans hhalt⟩)
  · obtain rfl := Option.some.inj h
    exact Or.inr (Or.inl ⟨pid, _, _, rfl, starts_saveFrame havail frame command _⟩)

/-- The image holds a program under the command's name that fits its page. -/
def Executable (img : Image) (frame : ExecFrame) (command : CString) : Prop :=
  nameStores command.chars ≤ fnameSize ∧
    ∃ dent, img.readDentryByName (commandName command) = some dent ∧
    (img.readData dent.inode 0 4).2.length ≤ 4 ∧
    magicOk frame.magic (img.readData dent.inode 0 4).2 = true ∧
    (img.readData dent.inode 0 (img.length dent.inode)).2.length ≤ programRoom

/-- An image whose one file is a program named `shell`. -/
def shellImage : Image where
  mem a := (([(0, 1), (4, 1), (8, 1), (64, 115), (65, 104), (66, 101), (67, 108), (68, 108),
    (96, 2), (4096, 4), (8192, 0x7F), (8193, 0x45), (8194, 0x4C), (8195, 0x46)] :
    List (Word × Byte)).lookup a).getD 0

/-- The command of the boot loops. -/
def shellCommand : CString :=
  ⟨[115, 104, 101, 108, 108], by decide⟩

theorem shell_executable (frame : ExecFrame) : Executable shellImage frame shellCommand :=
  ⟨by decide, shellImage.dentry 0, by rfl, by decide, by rfl, by decide⟩

/-- A call that ends in user mode has passed every check. -/
theorem executable_of_iret {img : Image} {frame : ExecFrame} {command : CString} {k k' : Kernel}
    {pid target : Word} (h : k.execute img frame command = some (.iret pid target, k')) :
    Executable img frame command := by
  unfold execute at h
  simp only at h
  split at h
  · simp at h
  rename_i hname
  split at h
  · simp at h
  rename_i dent hdent
  split at h
  · simp at h
  rename_i hheader
  split at h
  · simp at h
  rename_i hmagic
  split at h
  · simp at h
  split at h
  · obtain ⟨_, -, h⟩ := Option.map_eq_some_iff.1 h
    simp at h
  rename_i hroom
  exact ⟨Nat.not_lt.1 hname, dent, hdent, Nat.not_lt.1 hheader, by simpa using hmagic,
    Nat.not_lt.1 hroom⟩

/-- `execute` of a program fails for lack of a PCB only. -/
theorem execute_of_executable {img : Image} {frame : ExecFrame} {command : CString}
    (h : Executable img frame command) (k : Kernel) :
    k.execute img frame command = some (.fail, k.setInterruptFlag false) ∧
        k.getAvailPcb = none ∨
      ∃ pid target k', k.execute img frame command = some (.iret pid target, k') ∧
        k.Starts frame command pid k' := by
  obtain ⟨hname, dent, hdent, hheader, hmagic, hroom⟩ := h
  have havail : (k.setInterruptFlag false).getAvailPcb = k.getAvailPcb := rfl
  cases hp : k.getAvailPcb with
  | none =>
    rw [hp] at havail
    have hexec : k.execute img frame command = some (.fail, k.setInterruptFlag false) := by
      simp [execute, Nat.not_lt.2 hname, hdent, Nat.not_lt.2 hheader, hmagic, havail]
    exact Or.inl ⟨hexec, rfl⟩
  | some pid =>
    rw [hp] at havail
    have hexec : ∃ target k', k.execute img frame command = some (.iret pid target, k') := by
      simp [execute, Nat.not_lt.2 hname, hdent, Nat.not_lt.2 hheader, hmagic, havail,
        Nat.not_lt.2 hroom]
    obtain ⟨target, k', hexec⟩ := hexec
    rcases execute_cases hexec with hfail | ⟨_, _, _, heq, hs⟩ | ⟨_, _, _, _, hfault, -⟩
    · simp at hfail
    · obtain ⟨hiret, rfl⟩ := Prod.mk.inj heq
      obtain ⟨rfl, rfl⟩ := ExecResult.iret.inj hiret
      exact Or.inr ⟨pid, target, _, hexec, hs⟩
    · simp at hfault

/-! ## What fits the buffers of `execute` -/

section Fits

variable (img : Image) (frame : ExecFrame) (command : CString) (k : Kernel)

/-- The first word fits `fname`, and what is read of the file of that name fits `magic`. -/
def FitsFrame : Prop :=
  nameStores command.chars ≤ fnameSize ∧
    ∀ dent ∈ img.readDentryByName (commandName command), (img.readData dent.inode 0 4).2.length ≤ 4

/-- There is no file of the name, no magic where it starts, or no free PCB. -/
def Refused : Prop :=
  ∀ dent ∈ img.readDentryByName (commandName command),
    magicOk frame.magic (img.readData dent.inode 0 4).2 = true → k.getAvailPcb = none

/-- A program that is loaded fits the program page. -/
def FitsProgram : Prop :=
  ∀ dent ∈ img.readDentryByName (commandName command),
    magicOk frame.magic (img.readData dent.inode 0 4).2 = true → k.getAvailPcb ≠ none →
      (img.readData dent.inode 0 (img.length dent.inode)).2.length ≤ programRoom

instance : Decidable (FitsFrame img command) :=
  inferInstanceAs (Decidable (_ ∧ _))

instance : Decidable (Refused img frame command k) :=
  inferInstanceAs (Decidable (∀ dent ∈ img.readDentryByName (commandName command),
    magicOk frame.magic (img.readData dent.inode 0 4).2 = true → k.getAvailPcb = none))

instance : Decidable (FitsProgram img frame command k) :=
  inferInstanceAs (Decidable (∀ dent ∈ img.readDentryByName (commandName command),
    magicOk frame.magic (img.readData dent.inode 0 4).2 = true → k.getAvailPcb ≠ none →
      (img.readData dent.inode 0 (img.length dent.inode)).2.length ≤ programRoom))

end Fits

section Outcomes

variable {img : Image} {frame : ExecFrame} {command : CString} {k : Kernel}

/-- A word that overruns `fname`, or a header that overruns `magic`, has no behaviour. -/
theorem execute_of_not_fits (h : ¬FitsFrame img command) : k.execute img frame command = none := by
  unfold execute
  by_cases hname : nameStores command.chars > fnameSize
  · simp [hname]
  · have hnot : ¬∀ dent ∈ img.readDentryByName (commandName command),
        (img.readData dent.inode 0 4).2.length ≤ 4 := fun hall => h ⟨Nat.not_lt.1 hname, hall⟩
    push Not at hnot
    obtain ⟨dent, hdent, hlong⟩ := hnot
    simp [hname, Option.mem_def.1 hdent, hlong]

/-- A refused call has cleared the interrupt flag and changed nothing else. -/
theorem execute_of_refused (hf : FitsFrame img command) (hr : Refused img frame command k) :
    k.execute img frame command = some (.fail, k.setInterruptFlag false) := by
  have havail : (k.setInterruptFlag false).getAvailPcb = k.getAvailPcb := rfl
  simp only [execute, if_neg (Nat.not_lt.2 hf.1)]
  cases hdent : img.readDentryByName (commandName command) with
  | none => rfl
  | some dent =>
    have hheader := hf.2 dent hdent
    simp only [if_neg (Nat.not_lt.2 hheader)]
    cases hmagic : magicOk frame.magic (img.readData dent.inode 0 4).2 with
    | false => simp
    | true => simp [havail, hr dent hdent hmagic]

/-- A call that is not refused starts a process, which ends at once if its program does not fit. -/
theorem execute_of_not_refused (hf : FitsFrame img command) (hr : ¬Refused img frame command k) :
    (FitsProgram img frame command k ∧ ∃ pid target k',
        k.execute img frame command = some (.iret pid target, k') ∧
        k.Starts frame command pid k') ∨
      (¬FitsProgram img frame command k ∧ ∃ pid k₁,
        k.Starts (k.staleFrame pid frame.magic) command pid k₁ ∧
        k.execute img frame command = k₁.haltException.map fun r => (.fault r.1, r.2)) := by
  unfold Refused at hr
  push Not at hr
  obtain ⟨dent, hdent, hmagic, hp⟩ := hr
  rw [Option.mem_def] at hdent
  obtain ⟨pid, hp⟩ := Option.ne_none_iff_exists'.1 hp
  have havail : (k.setInterruptFlag false).getAvailPcb = some pid := hp
  have hheader := hf.2 dent hdent
  have hroom : FitsProgram img frame command k ↔
      ¬(img.readData dent.inode 0 (img.length dent.inode)).2.length > programRoom := by
    simp [FitsProgram, hdent, hmagic, hp]
  rw [hroom, not_not]
  by_cases hlong : (img.readData dent.inode 0 (img.length dent.inode)).2.length > programRoom
  · -- `halt_exception` turns interrupts off before anything else
    have hoff : ∀ k : Kernel, (k.setInterruptFlag true).haltException = k.haltException :=
      fun _ => rfl
    refine Or.inr ⟨hlong, pid, _, starts_load hp frame.magic command
      ((img.readData dent.inode 0 (img.length dent.inode)).2.take programRoom), ?_⟩
    simp only [execute, if_neg (Nat.not_lt.2 hf.1), hdent, if_neg (Nat.not_lt.2 hheader), hmagic,
      Bool.not_true, Bool.false_eq_true, if_false, havail, if_pos hlong, hoff]
  · have hx : Executable img frame command :=
      ⟨hf.1, dent, hdent, hheader, hmagic, Nat.not_lt.1 hlong⟩
    rcases execute_of_executable hx k with ⟨-, hnone⟩ | hiret
    · rw [hp] at hnone
      exact absurd hnone (by simp)
    · exact Or.inl ⟨hlong, hiret⟩

/-- `execute` returns `-1` exactly where it refuses. -/
theorem execute_fail_iff : (∃ k', k.execute img frame command = some (.fail, k')) ↔
    FitsFrame img command ∧ Refused img frame command k := by
  refine ⟨fun ⟨k', h⟩ => ?_, fun h => ⟨_, execute_of_refused h.1 h.2⟩⟩
  have hf : FitsFrame img command := by
    by_contra hf
    rw [execute_of_not_fits hf] at h
    exact absurd h (by simp)
  refine ⟨hf, by_contra fun hr => ?_⟩
  rcases execute_of_not_refused hf hr with ⟨-, _, _, _, h', -⟩ | ⟨-, _, _, -, h'⟩
  · rw [h] at h'
    exact absurd h' (by simp)
  · obtain ⟨_, -, hfault⟩ := Option.map_eq_some_iff.1 (h'.symm.trans h)
    exact absurd hfault (by simp)

end Outcomes

namespace Starts

variable {k k' : Kernel} {frame : ExecFrame} {command : CString} {pid : Word}

theorem scheduleIndex (h : k.Starts frame command pid k') :
    k'.proc.scheduleIndex = k.proc.scheduleIndex := by
  rw [h.proc]

/-- The PCB of the new process. -/
theorem pcb_self (h : k.Starts frame command pid k') :
    k'.proc.pcb pid = k.newPcb frame command pid := by
  simp only [h.proc, Function.update_self]

/-- No other PCB changes. -/
theorem pcb_of_ne (h : k.Starts frame command pid k') {q : Word} (hq : q ≠ pid) :
    k'.proc.pcb q = k.proc.pcb q := by
  simp only [h.proc, Function.update_of_ne hq]

/-- The terminal runs the new process, with its table. -/
theorem processArray_self (h : k.Starts frame command pid k') :
    k'.proc.processArray k.proc.scheduleIndex =
      { k.cur with curPid := pid, curFdPtr := .fdTable pid } := by
  simp only [h.proc, Function.update_self]

theorem cur_eq (h : k.Starts frame command pid k') :
    k'.cur = { k.cur with curPid := pid, curFdPtr := .fdTable pid } := by
  rw [cur, h.scheduleIndex, h.processArray_self]

/-- The other terminals run what they ran. -/
theorem processArray_of_ne (h : k.Starts frame command pid k') {t : Terminal}
    (ht : t ≠ k.proc.scheduleIndex) : k'.proc.processArray t = k.proc.processArray t := by
  simp only [h.proc, Function.update_of_ne ht]

/-- The next trap enters on the new process's kernel stack. -/
theorem tssEsp0 (h : k.Starts frame command pid k') : k'.proc.tssEsp0 = getEsp0 pid := by
  rw [h.proc]

/-- The status of an earlier child stays where it is. -/
theorem retStatus (h : k.Starts frame command pid k') :
    k'.proc.retStatus = k.proc.retStatus := by
  rw [h.proc]

/-- The program page is the new process's. -/
theorem pdt_exec (h : k.Starts frame command pid k') :
    k'.paging.pdt exec = startAddress + fourMb * pid := by
  rw [h.paging, mapPageExec_pdt_exec]

end Starts

/-! ## Exits -/

/-- What an exit of the current process does, and the frame it jumps to. -/
structure Exits (k : Kernel) (frame : Frame) (k' : Kernel) : Prop where
  scheduleIndex : k'.proc.scheduleIndex = k.proc.scheduleIndex
  processArray : k'.proc.processArray =
    Function.update k.proc.processArray k.proc.scheduleIndex
      { k.cur with
        curPid := (k.proc.pcb k.cur.curPid).parentPid
        curFdPtr := (k.proc.pcb k.cur.curPid).parentFd }
  tssEsp0 : k'.proc.tssEsp0 = (k.proc.pcb k.cur.curPid).parentEsp0
  pdt : k'.paging.pdt exec = startAddress + fourMb * (k.proc.pcb k.cur.curPid).parentPid
  pteVid : k'.paging.pteVid = Function.update k.paging.pteVid 0 0
  visibleScreen : k'.screen.visibleScreen = k.screen.visibleScreen
  link : ∀ pid, (k'.proc.pcb pid).link =
    if pid = k.cur.curPid then { (k.proc.pcb pid).link with use := 0 } else (k.proc.pcb pid).link
  vidSet : ∀ pid, (k'.proc.pcb pid).vidSet = (k.proc.pcb pid).vidSet
  fds : ∀ ptr, ptr ≠ k.cur.curFdPtr → k'.fds ptr = k.fds ptr
  frame : frame = ⟨(k.proc.pcb k.cur.curPid).parentEsp, (k.proc.pcb k.cur.curPid).parentEbp⟩

/-- Marking a PCB free after the closes of an exit, which change descriptor tables only. -/
theorem link_free {k c k₁ : Kernel} (pid : Word) (hc : c.proc.pcb = k.proc.pcb)
    (hf : OnlyFds c k₁) (q : Word) :
    (Function.update k₁.proc.pcb pid { k₁.proc.pcb pid with use := 0 } q).link =
      if q = pid then { (k.proc.pcb q).link with use := 0 } else (k.proc.pcb q).link := by
  rw [← hc, ← hf.context.link q]
  split_ifs with hq
  · rw [hq, Function.update_self]
    rfl
  · rw [Function.update_of_ne hq]

/-- An exit clears `use` and keeps `vid_set`. -/
theorem vidSet_free {k c k₁ : Kernel} (pid : Word) (hc : c.proc.pcb = k.proc.pcb)
    (hf : OnlyFds c k₁) (q : Word) :
    (Function.update k₁.proc.pcb pid { k₁.proc.pcb pid with use := 0 } q).vidSet =
      (k.proc.pcb q).vidSet := by
  have h : (Function.update k₁.proc.pcb pid { k₁.proc.pcb pid with use := 0 } q).vidSet =
      (k₁.proc.pcb q).vidSet := update_pcb Pcb.vidSet (by rfl) q
  rw [h, hf.vidSet, hc]

/-- Freeing a PCB and restoring the parent's entry leaves the tables as they are. -/
theorem fds_congr {k k' : Kernel} (hfdt : k'.proc.kernelFdt = k.proc.kernelFdt)
    (hpcb : ∀ pid, (k'.proc.pcb pid).fdTable = (k.proc.pcb pid).fdTable) (ptr : FdPtr) :
    k'.fds ptr = k.fds ptr := by
  cases ptr with
  | null => rfl
  | kernelFdt => exact hfdt
  | fdTable pid => exact hpcb pid

/-- The common course of the two exits : prepare, close the descriptors, restore the parent. -/
theorem exits_of_close {k c k₁ k' : Kernel} {frame : Frame} {r : ℤ}
    (hclose : c.closeAll = some k₁) (p₀ : Word) (hc : c.proc = { k.proc with
      processArray := Function.update k.proc.processArray k.proc.scheduleIndex
        { k.cur with curPid := p₀ }
      tssEsp0 := (k.proc.pcb k.cur.curPid).parentEsp0
      retStatus := r
      interruptFlag := false })
    (hvid : c.paging.pteVid = Function.update k.paging.pteVid 0 0)
    (hvis : c.screen.visibleScreen = k.screen.visibleScreen)
    (hk' : k'.proc = { k₁.proc with
      processArray := Function.update k₁.proc.processArray k₁.proc.scheduleIndex
        { k₁.cur with
          curPid := (k₁.proc.pcb k.cur.curPid).parentPid
          curFdPtr := (k₁.proc.pcb k.cur.curPid).parentFd }
      pcb := Function.update k₁.proc.pcb k.cur.curPid
        { k₁.proc.pcb k.cur.curPid with use := 0 }
      interruptFlag := true })
    (hpdt : k'.paging.pdt exec = startAddress + fourMb * (k.proc.pcb k.cur.curPid).parentPid)
    (hvid' : k'.paging.pteVid = k₁.paging.pteVid) (hscreen : k'.screen = k₁.screen)
    (hframe : frame =
      ⟨(k₁.proc.pcb k.cur.curPid).parentEsp, (k₁.proc.pcb k.cur.curPid).parentEbp⟩) :
    k.Exits frame k' ∧ k'.proc.retStatus = r := by
  have hf := onlyFds_closeAll hclose
  have hpcb : c.proc.pcb = k.proc.pcb := by rw [hc]
  have hsched : c.proc.scheduleIndex = k.proc.scheduleIndex := by rw [hc]
  have hcc : c.cur = { k.cur with curPid := p₀ } := by
    simp only [cur, hc, Function.update_self]
  have hcur : k₁.cur = { k.cur with curPid := p₀ } := hf.context.cur.trans hcc
  have hl : (k₁.proc.pcb k.cur.curPid).link = (k.proc.pcb k.cur.curPid).link := by
    rw [hf.context.link, hpcb]
  simp only [Pcb.link, PcbLink.mk.injEq] at hl
  obtain ⟨-, hpid, -, hesp, hebp, hfd, -⟩ := hl
  refine ⟨⟨?_, ?_, ?_, hpdt, ?_, ?_, ?_, ?_, ?_, ?_⟩, ?_⟩
  · rw [hk', ← hsched, ← hf.context.scheduleIndex]
  · simp only [hk', hcur, hpid, hfd, hf.context.scheduleIndex, hf.context.processArray, hc,
      Function.update_idem]
  · simp only [hk', hf.context.tssEsp0, hc]
  · rw [hvid', hf.paging, hvid]
  · rw [hscreen, hf.visibleScreen, hvis]
  · intro q
    rw [hk']
    exact link_free _ hpcb hf q
  · intro q
    rw [hk']
    exact vidSet_free _ hpcb hf q
  · intro ptr hne
    have hcf : c.cur.curFdPtr = k.cur.curFdPtr := by rw [hcc]
    have hk₁ : k'.fds ptr = k₁.fds ptr := by
      refine fds_congr (by rw [hk']) (fun q => ?_) ptr
      rw [hk']
      exact update_pcb Pcb.fdTable (by rfl) q
    have hk : c.fds ptr = k.fds ptr := fds_congr (by rw [hc]) (fun q => by rw [hpcb]) ptr
    rw [hk₁, hf.fds ptr (by rwa [hcf]), hk]
  · rw [hframe, hesp, hebp]
  · rw [hk', hf.context.retStatus, hc]

/-- After an exception the parent resumes as after `halt`, and `ret_status` is stale. -/
theorem haltException_exits {k k' : Kernel} {frame : Frame}
    (h : k.haltException = some (frame, k')) :
    k.Exits frame k' ∧ k'.proc.retStatus = k.proc.retStatus := by
  simp only [haltException] at h
  obtain ⟨k₁, hclose, h⟩ := Option.map_eq_some_iff.1 h
  obtain ⟨rfl, rfl⟩ := Prod.mk.inj h
  have hpdt : k₁.paging.pdt exec = startAddress + fourMb * (k.proc.pcb k.cur.curPid).parentPid :=
    (onlyFds_closeAll hclose).context.pdt.trans (mapPageExec_pdt_exec k _)
  refine exits_of_close hclose k.cur.curPid ?_ rfl rfl ?_ ?_ rfl rfl ?_
  · simp [setInterruptFlag, setEsp0, mapPageExec, setPdt, clearVid, setPteVid, cur]
  · simp [modifyCur, modifyPcb, setInterruptFlag, cur]
  · exact hpdt
  · simp [modifyCur, modifyPcb, setInterruptFlag, cur]

/-- `halt` resumes the parent and leaves the status, sign-extended, in `ret_status`. -/
theorem halt_exits {k k' : Kernel} {status : Byte} {frame : Frame}
    (h : k.halt status = some (frame, k')) :
    k.Exits frame k' ∧ k'.proc.retStatus = status.toInt8.toInt := by
  simp only [halt] at h
  obtain ⟨k₁, hclose, h⟩ := Option.map_eq_some_iff.1 h
  obtain ⟨rfl, rfl⟩ := Prod.mk.inj h
  have hf := onlyFds_closeAll hclose
  have hl : (k₁.proc.pcb k.cur.curPid).link = (k.proc.pcb k.cur.curPid).link :=
    hf.context.link k.cur.curPid
  have hpid : (k₁.proc.pcb k.cur.curPid).parentPid = (k.proc.pcb k.cur.curPid).parentPid :=
    congrArg PcbLink.parentPid hl
  refine exits_of_close hclose (k.proc.pcb k.cur.curPid).parentPid ?_ rfl rfl ?_ ?_ rfl rfl ?_
  · simp [setInterruptFlag, setEsp0, setRetStatus, modifyCur, clearVid, setPteVid, cur]
  · have hcur : k₁.cur.curPid = (k₁.proc.pcb k.cur.curPid).parentPid := by
      rw [hpid, hf.context.cur]
      simp [setInterruptFlag, setEsp0, setRetStatus, modifyCur, clearVid, setPteVid, cur]
    rw [← hcur]
    rfl
  · refine (mapPageExec_pdt_exec _ _).trans ?_
    rw [← hpid]
    simp [modifyPcb, modifyCur, setInterruptFlag, setRetStatus, cur]
  · simp [modifyCur, modifyPcb, setInterruptFlag, setRetStatus, cur]

namespace Exits

variable {k k' : Kernel} {frame : Frame}

/-- The terminal runs the parent again, with the parent's table. -/
theorem processArray_self (h : k.Exits frame k') :
    k'.proc.processArray k.proc.scheduleIndex = { k.cur with
      curPid := (k.proc.pcb k.cur.curPid).parentPid
      curFdPtr := (k.proc.pcb k.cur.curPid).parentFd } := by
  simp only [h.processArray, Function.update_self]

theorem cur_eq (h : k.Exits frame k') :
    k'.cur = { k.cur with
      curPid := (k.proc.pcb k.cur.curPid).parentPid
      curFdPtr := (k.proc.pcb k.cur.curPid).parentFd } := by
  rw [cur, h.scheduleIndex, h.processArray_self]

/-- The other terminals run what they ran. -/
theorem processArray_of_ne (h : k.Exits frame k') {t : Terminal} (ht : t ≠ k.proc.scheduleIndex) :
    k'.proc.processArray t = k.proc.processArray t := by
  simp only [h.processArray, Function.update_of_ne ht]

/-- The links of every other process stay. -/
theorem link_of_ne (h : k.Exits frame k') {q : Word} (hq : q ≠ k.cur.curPid) :
    (k'.proc.pcb q).link = (k.proc.pcb q).link := by
  rw [h.link, if_neg hq]

/-- The PCB of the process that exits is free. -/
theorem use_self (h : k.Exits frame k') : (k'.proc.pcb k.cur.curPid).use = 0 := by
  have hl := h.link k.cur.curPid
  rw [if_pos rfl] at hl
  exact congrArg PcbLink.use hl

/-- Not even the PCB that is freed forgets its parent. -/
theorem parentPid (h : k.Exits frame k') (q : Word) :
    (k'.proc.pcb q).parentPid = (k.proc.pcb q).parentPid := by
  have hl := congrArg PcbLink.parentPid (h.link q)
  split_ifs at hl
  · exact hl
  · exact hl

end Exits

/-! ## `context_switch` -/

/-- The terminals are scheduled in a circle. -/
theorem next_terminal (t : Terminal) : (if t < 2 then t + 1 else 0) = t + 1 := by
  revert t
  decide

/-- The round robin of three never stays. -/
theorem next_terminal_ne (t : Terminal) : t + 1 ≠ t := by
  revert t
  decide

/-- The switch table entry of the terminal `context_switch` turns to. -/
def next (k : Kernel) : SwitchTable :=
  k.proc.processArray (k.proc.scheduleIndex + 1)

/-- The switch saves one terminal's stack pointers and loads the next one's. -/
theorem contextSwitch_proc (frame : SwitchFrame) (k : Kernel) :
    (k.contextSwitch frame).proc = { k.proc with
      scheduleIndex := k.proc.scheduleIndex + 1
      processArray := Function.update k.proc.processArray k.proc.scheduleIndex
        { k.cur with curEsp := frame.esp, curEbp := frame.ebp, curEsp0 := k.proc.tssEsp0 }
      tssEsp0 := k.next.curEsp0 } := by
  simp only [contextSwitch, next_terminal]
  split_ifs <;> simp [setEsp0, modifyCur, cur, next, mapScreenBuffer_proc]

theorem contextSwitch_cur (frame : SwitchFrame) (k : Kernel) :
    (k.contextSwitch frame).cur = k.next := by
  rw [cur, contextSwitch_proc]
  exact Function.update_of_ne (next_terminal_ne _) _ _

/-- It leaves alone what lies outside the processes and the page tables. -/
theorem contextSwitch_frame {β : Type*} (f : Kernel → β)
    (hproc : ∀ (k : Kernel) (p : Processes), f { k with proc := p } = f k)
    (hpaging : ∀ (k : Kernel) (p : Paging), f { k with paging := p } = f k)
    (frame : SwitchFrame) (k : Kernel) : f (k.contextSwitch frame) = f k := by
  have hmap : ∀ (k : Kernel) (idx : Word), f (k.mapScreenBuffer idx) = f k := by
    intro k idx
    unfold mapScreenBuffer
    split_ifs
    · rfl
    · exact hpaging k _
  unfold contextSwitch
  extract_lets next k₁ p₁ k₂ pid k₃ k₄ k₅
  have h₂ : f k₂ = f k := (hproc k₁ _).trans (hproc k _)
  have h₃ : f k₃ = f k := by
    simp only [k₃]
    split_ifs
    · exact (hmap k₂ _).trans h₂
    · exact (hmap k₂ _).trans h₂
  have h₄ : f k₄ = f k := (hproc k₃ _).trans h₃
  have hvid : ∀ (k : Kernel) (i : ℕ) (entry : Word), f (k.setPteVid i entry) = f k :=
    fun k i entry => hpaging k _
  have h₅ : f k₅ = f k := by
    simp only [k₅, apply_ite f, hvid, ite_self, h₄]
  clear_value k₅
  split_ifs
  · exact (hpaging k₅ _).trans h₅
  · exact h₅

theorem contextSwitch_screen (frame : SwitchFrame) (k : Kernel) :
    (k.contextSwitch frame).screen = k.screen :=
  contextSwitch_frame Kernel.screen (fun _ _ => rfl) (fun _ _ => rfl) frame k

theorem contextSwitch_keyboard (frame : SwitchFrame) (k : Kernel) :
    (k.contextSwitch frame).keyboard = k.keyboard :=
  contextSwitch_frame Kernel.keyboard (fun _ _ => rfl) (fun _ _ => rfl) frame k

/-- The program page follows the next terminal's process, if it has one. -/
theorem contextSwitch_pdt (frame : SwitchFrame) (k : Kernel) :
    (k.contextSwitch frame).paging.pdt exec =
      if k.next.curPid ≠ noPid then startAddress + fourMb * k.next.curPid
      else k.paging.pdt exec := by
  have hne := next_terminal_ne k.proc.scheduleIndex
  simp only [contextSwitch, next_terminal, setEsp0, modifyCur, cur, next,
    Function.update_of_ne hne, mapScreenBuffer_proc, apply_ite Kernel.proc, setPteVid_proc,
    ite_self]
  by_cases hp : (k.proc.processArray (k.proc.scheduleIndex + 1)).curPid = noPid
  · simp only [hp, ne_eq, not_true_eq_false, if_false, if_true]
    split_ifs <;> simp
  · simp only [hp, ne_eq, not_false_eq_true, if_false, if_true]
    split_ifs <;> simp

/-! ## The tick -/

/-- The handler only adds the interrupt flag. -/
theorem interruptPit_frame {β : Type*} (f : Kernel → β)
    (h : ∀ (k : Kernel) (b : Bool), f (k.setInterruptFlag b) = f k) (frame : SwitchFrame)
    (k : Kernel) : f (k.interruptPit frame) = f (k.contextSwitch frame) := by
  rw [interruptPit]
  exact h _ _

/-- The process state of the handler : that of the switch, with interrupts on in a process. -/
theorem interruptPit_proc (frame : SwitchFrame) (k : Kernel) :
    (k.interruptPit frame).proc = { k.proc with
      scheduleIndex := k.proc.scheduleIndex + 1
      processArray := Function.update k.proc.processArray k.proc.scheduleIndex
        { k.cur with curEsp := frame.esp, curEbp := frame.ebp, curEsp0 := k.proc.tssEsp0 }
      tssEsp0 := k.next.curEsp0
      interruptFlag := k.next.curPid ≠ noPid } := by
  simp only [interruptPit, setInterruptFlag, contextSwitch_cur, contextSwitch_proc]

theorem interruptPit_cur (frame : SwitchFrame) (k : Kernel) :
    (k.interruptPit frame).cur = k.next :=
  (interruptPit_frame cur (fun _ _ => rfl) frame k).trans (contextSwitch_cur frame k)

theorem interruptPit_pcb (frame : SwitchFrame) (k : Kernel) :
    (k.interruptPit frame).proc.pcb = k.proc.pcb := by
  rw [interruptPit_proc]

/-- The paging of the handler is that of the switch. -/
theorem interruptPit_paging (frame : SwitchFrame) (k : Kernel) :
    (k.interruptPit frame).paging = (k.contextSwitch frame).paging :=
  interruptPit_frame Kernel.paging (fun _ _ => rfl) frame k

theorem interruptPit_keyboard (frame : SwitchFrame) (k : Kernel) :
    (k.interruptPit frame).keyboard = k.keyboard :=
  (interruptPit_frame Kernel.keyboard (fun _ _ => rfl) frame k).trans
    (contextSwitch_keyboard frame k)

end Kernel

end MpOS
