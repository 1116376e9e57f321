import Mathlib

/-!
# Kernel data

The globals of the kernel, grouped by the source file that owns them. Arrays are
functions from indices. Pointers into descriptor tables are symbolic : the kernel
only ever points at `kernel_fdt` or at the table inside a PCB. PCBs are addressed
by `get_pcb`, so `pcb` is a function of the index, of which 0 to 7 are PCBs.

Physical memory is a function of the address. The kernel reaches the text pages
through virtual addresses, and `Kernel.phys` is the translation by `pte`.
-/

namespace MpOS

/-- `uint8_t`. -/
abbrev Byte := UInt8

/-- `uint32_t`. -/
abbrev Word := UInt32

/-- The values of `schedule_index` and `visible_screen`. -/
abbrev Terminal := Fin 3

/-- The literals of terminals use this instance by name. -/
instance neZero_three : NeZero 3 :=
  ⟨by decide⟩

/-- A terminal index as the `uint32_t` it is stored in. -/
def Terminal.word (t : Terminal) : Word :=
  UInt32.ofNat t

theorem Terminal.word_inj {t t' : Terminal} : t.word = t'.word ↔ t = t' := by
  revert t t'
  decide

/-- `-1` as a `uint32_t` : the pid of no process. -/
def noPid : Word :=
  0xFFFFFFFF

/-- The little-endian word at `i`. -/
def wordAt (m : ℕ → Byte) (i : ℕ) : Word :=
  (m i).toUInt32 ||| (m (i + 1)).toUInt32 <<< 8 ||| (m (i + 2)).toUInt32 <<< 16 |||
    (m (i + 3)).toUInt32 <<< 24

/-- A NUL-terminated string : the bytes before its terminator. -/
structure CString where
  chars : List Byte
  nul : 0 ∉ chars

/-- The memory a pointer to the string points at. -/
def CString.mem (s : CString) (i : ℕ) : Byte :=
  s.chars.getD i 0

/-- `strlen` of a string. -/
def CString.strlen (s : CString) : ℕ :=
  s.chars.length

/-! ## Descriptors (`filesys.h`) -/

/-- The four `fileop_table_t` tables. -/
inductive Fileops
  | fileop
  | directory
  | rtc
  | keyboard
  deriving DecidableEq

/-- `fd_t`. A null `table_pointer` is `none`. -/
structure Fd where
  tablePointer : Option Fileops
  inode : Word
  filePosition : Word
  flags : Word
  deriving DecidableEq

/-- The cleared entry of a descriptor table. -/
def Fd.empty : Fd :=
  ⟨none, 0, 0, 0⟩

/-- `fd_t*` : no table, `kernel_fdt`, or the `fd_table` of a PCB. -/
inductive FdPtr
  | null
  | kernelFdt
  | fdTable (pid : Word)
  deriving DecidableEq

/-! ## Processes (`process.h`, `scheduler.h`) -/

/-- `pcb_t`. -/
structure Pcb where
  use : Word
  parentPid : Word
  parentEsp0 : Word
  parentEsp : Word
  parentEbp : Word
  parentFd : FdPtr
  fdTable : ℕ → Fd
  userBuf : ℕ → Byte
  vidSet : Word
  screenIdx : Word

/-- `switch_table_t`. -/
structure SwitchTable where
  curPid : Word
  curEsp0 : Word
  curEsp : Word
  curEbp : Word
  curFdPtr : FdPtr

/-- The globals of the scheduler and the system calls, the kernel stack pointer of
the task state segment, and the interrupt flag. -/
structure Processes where
  scheduleIndex : Terminal
  processArray : Terminal → SwitchTable
  pcb : Word → Pcb
  kernelFdt : ℕ → Fd
  tssEsp0 : Word
  retStatus : ℤ
  interruptFlag : Bool

/-! ## Memory (`paging.h`, `vidctl.h`, `lib.c`) -/

/-- The page directory and the two page tables, with the link addresses of the latter. -/
structure Paging where
  pdt : ℕ → Word
  pte : ℕ → Word
  pteVid : ℕ → Word
  pteAddr : Word
  pteVidAddr : Word

/-- Physical memory below 4MB, the program frames, and the cursors of the terminals. -/
structure Screen where
  ram : ℕ → Byte
  /-- The 4MB page a page directory entry maps. -/
  frame : Word → ℕ → Byte
  visibleScreen : Terminal
  screenX : Terminal → ℕ
  screenY : Terminal → ℕ

/-! ## Devices (`keyboard.c`, `_rtc.c`, `i8259.h`) -/

/-- The keyboard decoder, the three line buffers with their counters, and the flags
that release a waiting reader. -/
structure Keyboard where
  keyStatus : ℕ
  keyFlag : ℕ
  terminalFlag : ℕ
  flagKeyboard : Terminal → ℕ
  counter1 : ℕ
  counter2 : ℕ
  counter3 : ℕ
  terminal1Buffer : ℕ → Byte
  terminal2Buffer : ℕ → Byte
  terminal3Buffer : ℕ → Byte

/-- `rate` and `flag_rtc`. -/
structure Rtc where
  rate : Byte
  flagRtc : ℕ

/-- The kernel. -/
structure Kernel where
  proc : Processes
  paging : Paging
  screen : Screen
  keyboard : Keyboard
  rtc : Rtc

namespace Kernel

/-- The switch table entry of the scheduled terminal. -/
def cur (k : Kernel) : SwitchTable :=
  k.proc.processArray k.proc.scheduleIndex

/-- Update one PCB. -/
def modifyPcb (k : Kernel) (pid : Word) (f : Pcb → Pcb) : Kernel :=
  { k with proc := { k.proc with pcb := Function.update k.proc.pcb pid (f (k.proc.pcb pid)) } }

/-- Update the switch table entry of the scheduled terminal. -/
def modifyCur (k : Kernel) (f : SwitchTable → SwitchTable) : Kernel :=
  { k with proc := { k.proc with
      processArray := Function.update k.proc.processArray k.proc.scheduleIndex (f k.cur) } }

/-- Set the task state segment's kernel stack pointer. -/
def setEsp0 (k : Kernel) (esp0 : Word) : Kernel :=
  { k with proc := { k.proc with tssEsp0 := esp0 } }

/-- `cli` and `sti`. -/
def setInterruptFlag (k : Kernel) (b : Bool) : Kernel :=
  { k with proc := { k.proc with interruptFlag := b } }

/-- The descriptor table a pointer points at. -/
def fds (k : Kernel) : FdPtr → ℕ → Fd
  | .null => fun _ => Fd.empty
  | .kernelFdt => k.proc.kernelFdt
  | .fdTable pid => (k.proc.pcb pid).fdTable

/-- Store one entry of the descriptor table a pointer points at. -/
def setFd (k : Kernel) (ptr : FdPtr) (fd : ℕ) (e : Fd) : Kernel :=
  match ptr with
  | .null => k
  | .kernelFdt =>
    { k with proc := { k.proc with kernelFdt := Function.update k.proc.kernelFdt fd e } }
  | .fdTable pid => k.modifyPcb pid fun p => { p with fdTable := Function.update p.fdTable fd e }

/-- `process_array[schedule_index].cur_fd_ptr[fd]`. -/
def curFd (k : Kernel) (fd : ℕ) : Fd :=
  k.fds k.cur.curFdPtr fd

/-- Store `process_array[schedule_index].cur_fd_ptr[fd]`. -/
def setCurFd (k : Kernel) (fd : ℕ) (e : Fd) : Kernel :=
  k.setFd k.cur.curFdPtr fd e

end Kernel

end MpOS
