import MpOS.Process
import MpOS.Lib.Transition

/-!
# The machine

The kernel together with the control stacks of the three terminals. A call of `execute`
that has started a process stays pending until an exit jumps back into it. The user
code that runs on a terminal is that of the process its innermost pending call started.
With no pending call the terminal is in its boot loop.

An event is a system call of the running process, `execute` by a boot loop, a CPU
exception in user code (`haltException`), or an interrupt. Calls that block are events
once they complete.
-/

namespace MpOS

/-- A pending call of `execute` : the frame it saved, and the process it started. -/
structure Call where
  frame : Kernel.Frame
  child : Word
  deriving DecidableEq

/-- The kernel and the pending calls of each terminal, innermost first. -/
structure Machine where
  kernel : Kernel
  calls : Terminal → List Call

/-- The steps of the system. -/
inductive Event
  | execute (frame : Kernel.ExecFrame) (command : CString)
  | halt (status : Byte)
  | haltException
  | open (filename : CString)
  | close (fd : ℤ)
  | read (fd : ℤ) (buf : Word) (nbytes : ℤ)
  | write (fd : ℤ) (buf : Option (ℕ → Byte)) (nbytes : ℤ)
  | vidmap (screenStart : Word)
  | contextSwitch (frame : Kernel.SwitchFrame)
  | interruptKeyboard (code : Byte)
  | interruptRtc
  | switchVid (target : Terminal)

namespace Machine

variable (img : Image) (m : Machine)

/-- The scheduled terminal. -/
def terminal : Terminal :=
  m.kernel.proc.scheduleIndex

/-- The pending calls of the scheduled terminal. -/
def stack : List Call :=
  m.calls m.terminal

/-- The processes on a terminal's control stack, innermost first. -/
def pids (t : Terminal) : List Word :=
  (m.calls t).map Call.child

/-- The process whose user code runs. -/
def running : Option Word :=
  m.stack.head?.map Call.child

/-- Replace the kernel. -/
def withKernel (k : Kernel) : Machine :=
  { m with kernel := k }

/-- A system call of the running process. -/
def userCall (r : Option Kernel) : Option Machine :=
  if m.running = none then none else r.map m.withKernel

/-- The `iret` of `execute` into the process it started. -/
def enter (call : Call) (k : Kernel) : Machine :=
  ⟨k, Function.update m.calls m.terminal (call :: m.stack)⟩

/-- The jump to `exec_ret` : it resumes the pending call whose frame it restores, and the
calls inside that one are gone. -/
def resume (frame : Kernel.Frame) (k : Kernel) : Option Machine :=
  match m.stack.dropWhile fun c => c.frame ≠ frame with
  | [] => none
  | _ :: rest => some ⟨k, Function.update m.calls m.terminal rest⟩

/-- `execute`. Where it fails, the `iret` to a user caller restores the interrupt flag, and
a boot loop goes on without it. The loads that fault are left to `faultStep`. -/
def execute (frame : Kernel.ExecFrame) (command : CString) : Option Machine :=
  match m.kernel.execute img frame command with
  | none => none
  | some (.fail, k) =>
    some (m.withKernel (if m.running = none then k else k.setInterruptFlag true))
  | some (.iret pid _, k) => some (m.enter ⟨⟨frame.esp, frame.ebp⟩, pid⟩ k)
  | some (.fault _, _) => none

/-- An exit of the running process. -/
def exit (r : Option (Kernel.Frame × Kernel)) : Option Machine :=
  if m.running = none then none else r.bind fun p => m.resume p.1 p.2

/-- One step. -/
def step : Event → Option Machine
  | .execute frame command => m.execute img frame command
  | .halt status => m.exit (m.kernel.halt status)
  | .haltException => m.exit m.kernel.haltException
  | .open filename => m.userCall ((m.kernel.sysOpen img filename.mem).map Prod.snd)
  | .close fd => m.userCall ((m.kernel.sysClose fd).map Prod.snd)
  | .read fd buf nbytes =>
    m.userCall ((m.kernel.sysRead img fd buf nbytes).map Kernel.ReadResult.kernel)
  | .write fd buf nbytes => m.userCall ((m.kernel.sysWrite fd buf nbytes).map Prod.snd)
  | .vidmap screenStart => m.userCall (some (m.kernel.vidmap screenStart).2.2)
  | .contextSwitch frame => some (m.withKernel (m.kernel.interruptPit frame))
  | .interruptKeyboard code => some (m.withKernel (m.kernel.interruptKeyboard code))
  | .interruptRtc => some (m.withKernel m.kernel.interruptRtc)
  | .switchVid target => some (m.withKernel (m.kernel.switchVid target))

/-- One step, a load that faults included. `halt_exception` jumps to the frame that the last
process in the PCB was started from : that of this very call, or of a pending one. A jump to
anywhere else is not followed. -/
def faultStep (e : Event) : Option Machine :=
  match e with
  | .execute frame command =>
    match m.kernel.execute img frame command with
    | some (.fault frame', k) =>
      if frame' = ⟨frame.esp, frame.ebp⟩ then some (m.withKernel k) else m.resume frame' k
    | _ => m.execute img frame command
  | e => m.step img e

/-- If the event is a read, it stores in its caller's own page. -/
def OwnReads (m : Machine) : Event → Prop
  | .read fd buf nbytes => ∀ r ∈ m.kernel.sysRead img fd buf nbytes, Kernel.InPage buf r.stored
  | _ => True

instance decidableOwnReads (m : Machine) : ∀ e, Decidable (OwnReads img m e)
  | .read fd buf nbytes => inferInstanceAs
      (Decidable (∀ r ∈ m.kernel.sysRead img fd buf nbytes, Kernel.InPage buf r.stored))
  | .execute _ _ | .halt _ | .haltException | .open _ | .close _ | .write _ _ _ | .vidmap _
  | .contextSwitch _ | .interruptKeyboard _ | .interruptRtc | .switchVid _ => .isTrue trivial

end Machine

/-! ## Boot -/

namespace Kernel

/-- The globals that are zero when the kernel is loaded. -/
structure Bss (k : Kernel) : Prop where
  scheduleIndex : k.proc.scheduleIndex = 0
  curFdPtr : ∀ t, (k.proc.processArray t).curFdPtr = .null
  retStatus : k.proc.retStatus = 0
  pteVid : k.paging.pteVid = fun _ => 0
  visibleScreen : k.screen.visibleScreen = 0
  terminal1Buffer : k.keyboard.terminal1Buffer = fun _ => 0
  terminal2Buffer : k.keyboard.terminal2Buffer = fun _ => 0
  terminal3Buffer : k.keyboard.terminal3Buffer = fun _ => 0

/-- `init_filesys`, but for the header it reads. -/
def initFilesys (k : Kernel) : Kernel :=
  { k with proc := { k.proc with
      kernelFdt := fun i => if i < 8 then Fd.empty else k.proc.kernelFdt i } }

/-- The initialisations of `entry`, in order, up to its `sti`. -/
def boot (k : Kernel) : Kernel :=
  let k := k.initFilesys
  let k := k.setEsp0 0x800000
  let k := k.keyboardInit
  let k := k.processInit
  let k := k.initPaging
  let k := k.initScheduler
  k.setInterruptFlag true

/-- A kernel loaded into memory that is zero. -/
def zero : Kernel where
  proc :=
    { scheduleIndex := 0
      processArray := fun _ => ⟨0, 0, 0, 0, .null⟩
      pcb := fun _ => ⟨0, 0, 0, 0, 0, .null, fun _ => Fd.empty, fun _ => 0, 0, 0⟩
      kernelFdt := fun _ => Fd.empty
      tssEsp0 := 0
      retStatus := 0
      interruptFlag := false }
  paging := ⟨fun _ => 0, fun _ => 0, fun _ => 0, 0, 0⟩
  screen := ⟨fun _ => 0, fun _ _ => 0, 0, fun _ => 0, fun _ => 0⟩
  keyboard := ⟨0, 0, 0, fun _ => 0, 0, 0, 0, fun _ => 0, fun _ => 0, fun _ => 0⟩
  rtc := ⟨0, 0⟩

theorem zero_bss : zero.Bss :=
  ⟨rfl, fun _ => rfl, rfl, rfl, rfl, rfl, rfl, rfl⟩

end Kernel

namespace Machine

/-- The state `entry` enters its boot loop in, whatever memory held before. -/
def Booted (m : Machine) : Prop :=
  ∃ k : Kernel, k.Bss ∧ m = ⟨k.boot, fun _ => []⟩

/-- The machine that boots from zero memory. -/
def first : Machine :=
  ⟨Kernel.zero.boot, fun _ => []⟩

theorem first_booted : first.Booted :=
  ⟨_, Kernel.zero_bss, rfl⟩

/-- The states of the runs from boot whose reads store in their callers' own pages. -/
def Reachable (img : Image) : Machine → Prop :=
  Transition.Reachable (step img) (OwnReads img) Booted

end Machine

end MpOS
