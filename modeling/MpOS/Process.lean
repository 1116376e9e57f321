import MpOS.Descriptors

/-!
# Processes (`process.c`, `syscall.c`, `scheduler.c`)

`execute` starts a process in a free PCB and saves the caller's context in it, the
parent's pid, descriptor table, kernel stack and, once the program is loaded, the
registers of its own frame. `halt` and `halt_exception` restore that context and jump
back into the frame.
`context_switch` saves and restores the kernel stack of the terminals through the
process array.
-/

namespace MpOS

/-- `RANDOM`, the size of `fname`. -/
def fnameSize : ℕ :=
  128

/-- The first word of a command. -/
def firstWord (command : List Byte) : List Byte :=
  command.takeWhile fun c => c ≠ 32 ∧ c ≠ 10

/-- How many bytes `execute` stores in `fname` : the first word, and a NUL if a space or a newline
ends it. -/
def nameStores (command : List Byte) : ℕ :=
  min ((firstWord command).length + 1) command.length

theorem nameStores_le {command : List Byte} (h : (firstWord command).length < fnameSize) :
    nameStores command ≤ fnameSize :=
  (Nat.min_le_left _ _).trans h

namespace Kernel

/-! ## `process.c` -/

/-- `get_esp0`. -/
def getEsp0 (idx : Word) : Word :=
  0x800000 - 0x2000 * (idx + 1) - 4

/-- `get_avail_pcb`. `none` is its failure. -/
def getAvailPcb (k : Kernel) : Option Word :=
  ([0, 1, 2, 3, 4, 5, 6, 7] : List Word).find? fun i => (k.proc.pcb i).use = 0

/-- `process_init`. -/
def processInit (k : Kernel) : Kernel :=
  ([0, 1, 2, 3, 4, 5, 6, 7] : List Word).foldl (fun k i =>
    k.modifyPcb i fun p => { p with use := 0 }) k

/-! ## Exits -/

/-- `EXCEPTION_RET`. -/
def exceptionRet : ℤ :=
  256

/-- The stack and frame pointers `halt` jumps back with. -/
structure Frame where
  esp : Word
  ebp : Word
  deriving DecidableEq

/-- `for (i = 0; i < 8; i++) close(i)`. -/
def closeAll (k : Kernel) : Option Kernel :=
  [0, 1, 2, 3, 4, 5, 6, 7].foldlM (fun k i => (k.sysClose i).map Prod.snd) k

/-- `halt_exception`, up to its jump to `exec_ret`. The assignment to `ret_status` after
the jump is never reached. -/
def haltException (k : Kernel) : Option (Frame × Kernel) :=
  let k := k.setInterruptFlag false
  let pid := k.cur.curPid
  let k := k.setEsp0 (k.proc.pcb pid).parentEsp0
  let k := k.mapPageExec (k.proc.pcb pid).parentPid
  let k := k.clearVid
  k.closeAll.map fun k =>
    let k := k.modifyCur fun e => { e with curPid := (k.proc.pcb pid).parentPid }
    let k := k.modifyCur fun e => { e with curFdPtr := (k.proc.pcb pid).parentFd }
    let k := k.modifyPcb pid fun p => { p with use := 0 }
    let k := k.setInterruptFlag true
    (⟨(k.proc.pcb pid).parentEsp, (k.proc.pcb pid).parentEbp⟩, k)

/-- Set `ret_status`. -/
def setRetStatus (k : Kernel) (n : ℤ) : Kernel :=
  { k with proc := { k.proc with retStatus := n } }

/-- `halt`, up to its jump to `exec_ret`. -/
def halt (status : Byte) (k : Kernel) : Option (Frame × Kernel) :=
  let k := k.setInterruptFlag false
  let k := k.setRetStatus status.toInt8.toInt
  let pid := k.cur.curPid
  let k := k.setEsp0 (k.proc.pcb pid).parentEsp0
  let k := k.modifyCur fun e => { e with curPid := (k.proc.pcb pid).parentPid }
  let k := k.clearVid
  k.closeAll.map fun k =>
    let k := k.modifyCur fun e => { e with curFdPtr := (k.proc.pcb pid).parentFd }
    let k := k.modifyPcb pid fun p => { p with use := 0 }
    let k := k.mapPageExec (k.proc.pcb pid).parentPid
    let k := k.setInterruptFlag true
    (⟨(k.proc.pcb pid).parentEsp, (k.proc.pcb pid).parentEbp⟩, k)

/-! ## Executables -/

/-- What `execute` finds in the registers of its frame, and the bytes on its stack
where it keeps `magic`. -/
structure ExecFrame where
  esp : Word
  ebp : Word
  magic : ℕ → Byte

/-- The loop of `execute` that copies the first word of the command to `fname`, from
index `i` on. -/
def parseName : (command : List Byte) → (i : ℕ) → (fname : ℕ → Byte) → ℕ → Byte
  | [], _, fname => fname
  | c :: cs, i, fname =>
    if c = 32 ∨ c = 10 then Function.update fname i 0
    else parseName cs (i + 1) (Function.update fname i c)

/-- `fname` after the parse of a command whose first word fits it. -/
def commandName (command : CString) : ℕ → Byte :=
  if command.mem 0 ≠ 32 ∧ command.mem 0 ≠ 10 ∧ command.mem 0 ≠ 0 then
    parseName command.chars 0 fun _ => 0
  else fun _ => 0

/-- Whether `magic` holds the four magic constants after the bytes `read_data` stored in it. -/
def magicOk (magic : ℕ → Byte) (stored : List Byte) : Bool :=
  let magic i := stored.getD i (magic i)
  magic 0 == 0x7F && magic 1 == 0x45 && magic 2 == 0x4C && magic 3 == 0x46

/-- `USR_BUF_SIZE`. -/
def usrBufSize : ℕ :=
  1024

/-- `strncpy` into a buffer. -/
def strncpy (dest : ℕ → Byte) (src : CString) (n : ℕ) (i : ℕ) : Byte :=
  if i < n then src.mem i else dest i

/-- `init_fd`. -/
def initFd (k : Kernel) : Kernel :=
  let k := (k.setCurFd 0 ⟨some .keyboard, 0, 0, 1⟩).setCurFd 1 ⟨some .keyboard, 0, 0, 1⟩
  [2, 3, 4, 5, 6, 7].foldl (fun k i => k.setCurFd i Fd.empty) k

/-- The offset of `TARGET_MEM` in the program page. -/
def targetMem : ℕ :=
  0x48000

/-- The offset of `ENTRY_MEM` in the program page. -/
def entryMem : ℕ :=
  0x48018

/-- The room between `TARGET_MEM` and the end of the program page. -/
def programRoom : ℕ :=
  0x400000 - 0x48000

/-- Store bytes at `TARGET_MEM`. -/
def loadProgram (bytes : List Byte) (k : Kernel) : Kernel :=
  { k with screen := { k.screen with
      frame := fun e =>
        if e = k.paging.pdt exec then
          fun i => if targetMem ≤ i then bytes.getD (i - targetMem) (k.screen.frame e i)
            else k.screen.frame e i
        else k.screen.frame e } }

/-- How `execute` leaves its frame : by returning -1, by the `iret` into the program of the
process it started, at its entry point, or by the jump of `halt_exception`. -/
inductive ExecResult
  | fail
  | iret (pid target : Word)
  | fault (frame : Frame)

/-- The process `execute` builds in PCB `idx` before it loads the program. -/
def startProcess (command : CString) (idx : Word) (k : Kernel) : Kernel :=
  let k := k.modifyPcb idx fun p => { p with parentPid := k.cur.curPid }
  let k := k.modifyCur fun e => { e with curPid := idx }
  let k := k.modifyPcb idx fun p => { p with use := 1, vidSet := 0, parentFd := k.cur.curFdPtr }
  let k := k.modifyCur fun e => { e with curFdPtr := .fdTable idx }
  let k := k.initFd
  let k := k.modifyPcb idx fun p =>
    { p with
      screenIdx := k.proc.scheduleIndex.word
      userBuf := strncpy p.userBuf command usrBufSize }
  let k := k.mapPageExec idx
  let k := k.modifyPcb idx fun p => { p with parentEsp0 := k.proc.tssEsp0 }
  k.setEsp0 (getEsp0 idx)

/-- The stack registers of `execute` saved in the PCB. -/
def saveFrame (frame : ExecFrame) (idx : Word) (k : Kernel) : Kernel :=
  k.modifyPcb idx fun p => { p with parentEsp := frame.esp, parentEbp := frame.ebp }

/-- `execute`, up to the jump into the program. The interrupt flag stays off where it
returns -1. A program that runs past the end of its page faults there, before the registers
are saved. `none` if the parse of the first word stores past the end of `fname`, or `read_data`
past that of `magic` : the stores go on over the stack of `execute`. -/
def execute (img : Image) (frame : ExecFrame) (command : CString) (k : Kernel) :
    Option (ExecResult × Kernel) :=
  let k := k.setInterruptFlag false
  if nameStores command.chars > fnameSize then none
  else
  match img.readDentryByName (commandName command) with
  | none => some (.fail, k)
  | some dent =>
    let header := (img.readData dent.inode 0 4).2
    if header.length > 4 then none
    else if !magicOk frame.magic header then some (.fail, k)
    else
      match k.getAvailPcb with
      | none => some (.fail, k)
      | some idx =>
        let k := k.startProcess command idx
        let program := (img.readData dent.inode 0 (img.length dent.inode)).2
        if program.length > programRoom then
          (k.loadProgram (program.take programRoom)).haltException.map fun (frame, k) =>
            (.fault frame, k)
        else
          let k := k.loadProgram program
          let target := wordAt (k.screen.frame (k.paging.pdt exec)) entryMem
          let k := k.saveFrame frame idx
          some (.iret idx target, k.setInterruptFlag true)

/-- The end of `execute`, where `halt` and `halt_exception` jump to : its return value. -/
def execRet (k : Kernel) : ℤ :=
  k.proc.retStatus

/-! ## `vidmap` -/

/-- `vidmap`, with the pointer it stores at `screen_start`. -/
def vidmap (screenStart : Word) (k : Kernel) : ℤ × Option Word × Kernel :=
  if screenStart = 0 then (-1, none, k)
  else if screenStart < 0x800000 then (-1, none, k)
  else
    let k := k.modifyPcb k.cur.curPid fun p => { p with vidSet := 1 }
    let (k, start) := k.mapVid
    (1, some start, k)

/-! ## `scheduler.c` -/

/-- `init_scheduler`. -/
def initScheduler (k : Kernel) : Kernel :=
  { k with proc := { k.proc with
      scheduleIndex := 0
      processArray := fun i =>
        let stack := 0x800000 - 0x400 * i.word
        ⟨noPid, stack, stack, stack, .kernelFdt⟩ } }

/-- What the processor holds when `context_switch` is entered : its stack registers, and
the word of kernel stack that lies where `get_pcb(-1)->vid_set` would be. -/
structure SwitchFrame where
  esp : Word
  ebp : Word
  stackWord : Word

/-- `context_switch`, up to the jump to the next terminal's stack. With no process there,
`boot_shell` calls `execute` from that stack. -/
def contextSwitch (frame : SwitchFrame) (k : Kernel) : Kernel :=
  let next : Terminal := if k.proc.scheduleIndex < 2 then k.proc.scheduleIndex + 1 else 0
  let k := k.modifyCur fun e =>
    { e with curEsp := frame.esp, curEbp := frame.ebp, curEsp0 := k.proc.tssEsp0 }
  let k := { k with proc := { k.proc with scheduleIndex := next } }
  let pid := k.cur.curPid
  let k :=
    if k.screen.visibleScreen = k.proc.scheduleIndex then k.mapScreenBuffer 0
    else k.mapScreenBuffer (1 + k.proc.scheduleIndex.word)
  let k := k.setEsp0 k.cur.curEsp0
  let k :=
    if (if pid = noPid then frame.stackWord else (k.proc.pcb pid).vidSet) ≠ 0 then
      k.setPteVid 0 k.vidEntry
    else k.setPteVid 0 0
  if k.cur.curPid ≠ noPid then k.mapPageExec k.cur.curPid else k

/-- `interrupt_pit`, whose gate turns interrupts off. The `iret` to a process turns them on
again, and `boot_shell` goes on in the handler. -/
def interruptPit (frame : SwitchFrame) (k : Kernel) : Kernel :=
  let k := k.contextSwitch frame
  k.setInterruptFlag (k.cur.curPid ≠ noPid)

end Kernel

end MpOS
