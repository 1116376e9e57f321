import MpOS.Lookup
import MpOS.Nesting

/-!
# Failing calls of `execute`

Every early return of `execute` lies before the first store, but after the `cli`. A user
process gets its flags back from the `iret` of the system call. A boot loop calls
`execute` from the kernel, so for it nothing turns interrupts on again, and no other
terminal is scheduled while it retries (`allEvents_harmless_iff`).
-/

namespace MpOS

open Transition

namespace Kernel

/-- The process array, the PCBs, the descriptor tables, the page tables, `tss.esp0` and the
interrupt flag are as before. -/
structure Unchanged (k k' : Kernel) : Prop where
  processArray : k'.proc.processArray = k.proc.processArray
  pcb : k'.proc.pcb = k.proc.pcb
  kernelFdt : k'.proc.kernelFdt = k.proc.kernelFdt
  paging : k'.paging = k.paging
  tssEsp0 : k'.proc.tssEsp0 = k.proc.tssEsp0
  interruptFlag : k'.proc.interruptFlag = k.proc.interruptFlag

theorem unchanged_setInterruptFlag {k : Kernel} {b : Bool} :
    k.Unchanged (k.setInterruptFlag b) ↔ b = k.proc.interruptFlag :=
  ⟨fun h => h.interruptFlag, fun h => ⟨rfl, rfl, rfl, rfl, rfl, h⟩⟩

/-- The descriptor calls leave the flag alone. -/
theorem FdSteps.interruptFlag {k k' : Kernel} (h : FdSteps k k') :
    k'.proc.interruptFlag = k.proc.interruptFlag := by
  induction h with
  | refl => rfl
  | set _ fd e ih =>
    rw [← ih]
    unfold setCurFd setFd
    split <;> rfl
  | other _ hp _ _ ih => rw [hp, ih]

theorem interruptFlag_vidmap (screenStart : Word) (k : Kernel) :
    (k.vidmap screenStart).2.2.proc.interruptFlag = k.proc.interruptFlag := by
  unfold vidmap
  split_ifs
  · rfl
  · rfl
  · rfl

end Kernel

namespace Machine

variable {img : Image} {m m' : Machine}

/-- The jump to `exec_ret` is behind a `sti`. -/
theorem ExitCall.interruptFlag {k k' : Kernel} {e : Event}
    {r : Option (Kernel.Frame × Kernel)} (h : ExitCall k e r) {frame : Kernel.Frame}
    (hr : r = some (frame, k')) : k'.proc.interruptFlag = true := by
  cases h with
  | halt status =>
    obtain ⟨k₁, -, hk⟩ := Option.map_eq_some_iff.1 hr
    obtain ⟨-, rfl⟩ := Prod.mk.inj hk
    rfl
  | haltException =>
    obtain ⟨k₁, -, hk⟩ := Option.map_eq_some_iff.1 hr
    obtain ⟨-, rfl⟩ := Prod.mk.inj hk
    rfl

/-- A user process runs with interrupts on. -/
def FlagOn (m : Machine) : Prop :=
  m.running ≠ none → m.kernel.proc.interruptFlag = true

/-- All that a call that is refused leaves behind is the flag : on for a user process, off for a
boot loop. -/
theorem faultStep_of_refused {frame : Kernel.ExecFrame} {command : CString}
    (hf : Kernel.FitsFrame img command) (hr : Kernel.Refused img frame command m.kernel) :
    m.faultStep img (.execute frame command) =
      some (m.withKernel (m.kernel.setInterruptFlag (m.running ≠ none))) := by
  rw [faultStep, Kernel.execute_of_refused hf hr]
  show m.execute img frame command = _
  rw [execute, Kernel.execute_of_refused hf hr]
  by_cases hrun : m.running = none
  · simp [hrun]
  · simp [hrun, Kernel.setInterruptFlag]

/-- A step leaves the flag alone, or it is behind a `sti`, or `iret` loads it. -/
theorem FlagOn.faultStep {chain : Terminal → List Word} {opens : Word → Opens}
    (hn : m.Nested chain opens) (h : m.FlagOn) {e : Event}
    (hstep : m.faultStep img e = some m') : m'.FlagOn := by
  have hkeep : ∀ {k : Kernel}, k.proc.scheduleIndex = m.kernel.proc.scheduleIndex →
      k.proc.interruptFlag = m.kernel.proc.interruptFlag → (m.withKernel k).FlagOn := by
    intro k hindex hflag hr
    rw [running_withKernel hindex] at hr
    exact hflag.trans (h hr)
  obtain ⟨chain', opens', hn'⟩ := hn.faultStep hstep
  rcases faultStep_cases hstep with hstep' | ⟨_, _, _, _, k₁, k, -, -, hhalt, hm'⟩
  · cases step_cases hstep' with
    | fail hexec =>
      obtain ⟨hf, hr⟩ := Kernel.execute_fail_iff.1 ⟨_, hexec⟩
      rw [Option.some.inj (hstep.symm.trans (faultStep_of_refused hf hr))]
      intro hr
      rw [running_withKernel (by rfl)] at hr
      exact decide_eq_true hr
    | start _ hs => exact fun _ => congrArg Processes.interruptFlag hs.proc
    | exit hcall hm' =>
      obtain ⟨frame, k, hk, -, hres⟩ := exit_eq_some hm'
      rw [FlagOn, resume_kernel hres]
      exact fun _ => hcall.interruptFlag hk
    | fdCall _ hcall =>
      exact hkeep hcall.fdSteps.onlyFds.context.scheduleIndex hcall.fdSteps.interruptFlag
    | vidmap _ =>
      exact hkeep (Kernel.sameContext_vidmap _ _).scheduleIndex (Kernel.interruptFlag_vidmap _ _)
    | switch frame =>
      -- the handler ends in a process if the terminal has one, and where code runs it has
      intro hr
      have hpid := hn'.curPid_ne hr
      rw [withKernel, Kernel.interruptPit_cur] at hpid
      rw [withKernel, Kernel.interruptPit_proc]
      exact decide_eq_true hpid
    | quiet hq => exact hkeep (by rw [hq.proc]) (by rw [hq.proc])
  · -- `halt_exception` jumps behind a `sti`, whatever frame it jumps to
    have hflag : k.proc.interruptFlag = true :=
      ExitCall.interruptFlag (.haltException : ExitCall k₁ _ _) hhalt
    rcases hm' with rfl | hres
    · exact fun _ => hflag
    · rw [FlagOn, resume_kernel hres]
      exact fun _ => hflag

theorem flagOn_boot (h : m.Booted) : m.FlagOn := by
  obtain ⟨k, -, rfl⟩ := h
  exact fun _ => rfl

/-- A call of `execute` that is refused, for want of a file of the name, of the magic or of a PCB,
returns with the kernel as it was, and with interrupts on, so that the next tick comes. -/
def Harmless (img : Image) (m : Machine) (e : Event) : Prop :=
  match e with
  | .execute frame command => Kernel.Refused img frame command m.kernel →
    ∃ m', m.faultStep img e = some m' ∧ m.kernel.Unchanged m'.kernel ∧
      m'.kernel.proc.interruptFlag = true
  | _ => True

/-- A call that is refused is issued by a process, and what it reads fits the buffers. -/
def RefusedInUser (img : Image) (m : Machine) (e : Event) : Prop :=
  match e with
  | .execute frame command => Kernel.Refused img frame command m.kernel →
    m.running ≠ none ∧ Kernel.FitsFrame img command
  | _ => True

instance decidableRefusedInUser (m : Machine) : ∀ e, Decidable (RefusedInUser img m e)
  | .execute frame command => inferInstanceAs (Decidable
      (Kernel.Refused img frame command m.kernel → m.running ≠ none ∧ Kernel.FitsFrame img command))
  | .halt _ | .haltException | .open _ | .close _ | .read _ _ _ | .write _ _ _ | .vidmap _
  | .contextSwitch _ | .interruptKeyboard _ | .interruptRtc | .switchVid _ => .isTrue trivial

/-- A call whose words overrun the buffers does not come to an end. -/
theorem faultStep_of_not_fits {frame : Kernel.ExecFrame} {command : CString}
    (hf : ¬Kernel.FitsFrame img command) : m.faultStep img (.execute frame command) = none := by
  rw [faultStep, Kernel.execute_of_not_fits hf]
  show m.execute img frame command = none
  rw [execute, Kernel.execute_of_not_fits hf]

theorem harmless_iff (h : m.FlagOn) (e : Event) : Harmless img m e ↔ RefusedInUser img m e := by
  cases e with
  | execute frame command =>
    refine forall_congr' fun hr => ?_
    constructor
    · rintro ⟨m', hstep, -, hflag⟩
      have hf : Kernel.FitsFrame img command := by
        by_contra hf
        rw [faultStep_of_not_fits hf] at hstep
        exact absurd hstep (by simp)
      rw [faultStep_of_refused hf hr] at hstep
      obtain rfl := Option.some.inj hstep
      exact ⟨of_decide_eq_true hflag, hf⟩
    · rintro ⟨hrun, hf⟩
      refine ⟨_, faultStep_of_refused hf hr, Kernel.unchanged_setInterruptFlag.2 ?_,
        decide_eq_true hrun⟩
      rw [h hrun]
      exact decide_eq_true hrun
  | _ => exact Iff.rfl

/-- Along every run from boot whose reads store in their callers' own pages : each call of `execute`
that is refused does no harm exactly if each is issued by a process and fits the buffers. -/
theorem allEvents_harmless_iff (hm : m.Booted) {es : List Event}
    (hown : AllEvents (faultStep img) (OwnReads img) m es) :
    AllEvents (faultStep img) (Harmless img) m es ↔
      AllEvents (faultStep img) (RefusedInUser img) m es := by
  have hinv : ∀ (m : Machine) (e : Event) (m' : Machine),
      ((∃ chain opens, m.Nested chain opens) ∧ m.FlagOn) → OwnReads img m e →
      RefusedInUser img m e → m.faultStep img e = some m' →
      (∃ chain opens, m'.Nested chain opens) ∧ m'.FlagOn :=
    fun _ _ _ ⟨⟨_, _, hn⟩, hf⟩ _ _ hstep => ⟨hn.faultStep hstep, hf.faultStep hn hstep⟩
  exact allEvents_iff hinv (fun _ e hi _ => harmless_iff hi.2 e) hown
    ⟨⟨_, _, nested_boot hm fun _ _ => none⟩, flagOn_boot hm⟩

/-- The first shell names no file, and the next boot loop starts a shell of its own. -/
theorem allEvents_harmless_first :
    AllEvents (faultStep Kernel.shellImage) (Harmless Kernel.shellImage) first
    [.execute ⟨0, 0, fun _ => 0⟩ Kernel.shellCommand,
      .execute ⟨0, 0, fun _ => 0⟩ (CString.mk [97] (by decide)), .contextSwitch ⟨0, 0, 0⟩,
      .execute ⟨0, 0, fun _ => 0⟩ Kernel.shellCommand] :=
  (allEvents_harmless_iff first_booted (allEvents_ownReads (by decide))).2 (by decide)

/-- The first boot loop finds no file named `shell`. -/
theorem not_allEvents_harmless :
    ¬AllEvents (faultStep Image.nameImage) (Harmless Image.nameImage) first
      [.execute ⟨0, 0, fun _ => 0⟩ Kernel.shellCommand] := by
  intro h
  obtain ⟨m', hstep, hunchanged, -⟩ := h.1 (by decide)
  obtain rfl := Option.some.inj (hstep.symm.trans rfl)
  exact absurd hunchanged.interruptFlag (by decide)

end Machine

end MpOS
