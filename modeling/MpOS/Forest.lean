import MpOS.Nesting

/-!
# The process forest

`execute`, the two exits and `context_switch` as steps of the kernel alone, in any order and
by whatever code is there to issue them. A load that faults is one of them, since what
`halt_exception` jumps to is no matter here. The parent pids form a forest of three chains
in every state, `execute` of a program fails with eight processes only and else takes a PCB
outside the chains, and the current process can always exit and frees its PCB. The one
condition is that what `execute` reads fits its buffers (`forest_iff`).
-/

namespace MpOS

open Transition

namespace Kernel

/-! ## The calls -/

/-- The calls that move processes. -/
inductive ProcessCall
  | execute (frame : ExecFrame) (command : CString)
  | halt (status : Byte)
  | haltException
  | contextSwitch (frame : SwitchFrame)

/-- The kernel after a call. The exits are those of a process. -/
def call (img : Image) (k : Kernel) : ProcessCall → Option Kernel
  | .execute frame command => (k.execute img frame command).map Prod.snd
  | .halt status => if k.cur.curPid = noPid then none else (k.halt status).map Prod.snd
  | .haltException => if k.cur.curPid = noPid then none else k.haltException.map Prod.snd
  | .contextSwitch frame => some (k.interruptPit frame)

variable {img : Image} {k k' : Kernel} {chain : Terminal → List Word} {p : Word}

/-- What a call of `execute` reads fits its buffers. -/
def CallFits (img : Image) (_ : Kernel) : ProcessCall → Prop
  | .execute _ command => FitsFrame img command
  | _ => True

instance decidableCallFits (k : Kernel) : ∀ c, Decidable (CallFits img k c)
  | .execute _ command => inferInstanceAs (Decidable (FitsFrame img command))
  | .halt _ | .haltException | .contextSwitch _ => .isTrue trivial

end Kernel

end MpOS
