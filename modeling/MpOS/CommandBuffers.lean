import MpOS.Arguments
import MpOS.DescriptorTable

/-!
# The buffers of commands in whole runs

`ArgMachine` is the machine with `arg_retrieved` and the calls of `getargs`, in the three
phases between which another terminal can be scheduled. A process in one of these
calls makes no other call. In a run whose commands have first words of 127 characters
at most, and 1023 characters at most where they start a process, `fname`,
`user_buf` and `arg_retrieved` are never overrun (`allEvents_inBounds_iff`).
-/

namespace MpOS

open Transition ZeroBuffer

/-! ## The machine with `getargs` -/

/-- How far a process is with a call of `getargs`. -/
inductive Pending
  | idle
  | cleared (buf : Word) (nbytes : ℤ)
  | parsed (nbytes : ℤ)
  deriving DecidableEq

/-- The machine, `arg_retrieved`, and the calls of `getargs` of all processes. -/
structure ArgMachine where
  machine : Machine
  argRetrieved : ℕ → Byte
  pending : Word → Pending

/-- A step of the machine, a call of `getargs` by the running process up to the end of its first
phase, or the next phase of the running process's call. -/
inductive ArgEvent
  | sys (e : Event)
  | getargs (buf : Word) (nbytes : ℤ)
  | advance

/-- The events that can come between two phases of a call, an exception in its last included. -/
def Event.interrupts : Event → Bool
  | .haltException => true
  | .contextSwitch _ => true
  | .interruptKeyboard _ => true
  | .interruptRtc => true
  | .switchVid _ => true
  | _ => false

namespace ArgMachine

variable (img : Image) (s : ArgMachine)

/-- How far the running process is. -/
def phase : Pending :=
  match s.machine.running with
  | none => .idle
  | some p => s.pending p

/-- Set how far the running process is. -/
def setPhase (next : Pending) : ArgMachine :=
  match s.machine.running with
  | none => s
  | some p => { s with pending := Function.update s.pending p next }

/-- `user_buf` of the current PCB. -/
def userBuf : ℕ → Byte :=
  (s.machine.kernel.proc.pcb s.machine.kernel.cur.curPid).userBuf

/-- Store `user_buf` of the current PCB. -/
def setUserBuf (userBuf : ℕ → Byte) : ArgMachine :=
  let k := s.machine.kernel
  { s with machine :=
      s.machine.withKernel (k.modifyPcb k.cur.curPid fun p => { p with userBuf := userBuf }) }

/-- Set `arg_retrieved`. -/
def setArgs (arg : ℕ → Byte) : ArgMachine :=
  { s with argRetrieved := arg }

/-- Set the machine. An exit ends the call the process is in. -/
def setMachine (e : Event) (m : Machine) : ArgMachine :=
  match e with
  | .haltException => { s.setPhase .idle with machine := m }
  | _ => { s with machine := m }

/-- The next phase of the running process's call, with what the call returns and stores if that
is its last. -/
def advance : Option (Option (ℤ × List Byte) × ArgMachine) :=
  match s.phase with
  | .idle => none
  | .cleared buf nbytes =>
    (parsePhase buf nbytes s.userBuf s.argRetrieved).map fun r =>
      match r.2 with
      | none => (some (-1, []), (s.setUserBuf r.1).setPhase .idle)
      | some arg =>
        (none, ((s.setUserBuf r.1).setArgs arg).setPhase (.parsed nbytes))
  | .parsed nbytes =>
    (copyPhase nbytes s.argRetrieved).map fun r => (some r, s.setPhase .idle)

/-- One step. -/
def step : ArgEvent → Option ArgMachine
  | .sys e =>
    if s.phase ≠ .idle ∧ ¬e.interrupts then none
    else (s.machine.step img e).map (s.setMachine e)
  | .getargs buf nbytes =>
    if s.machine.running = none ∨ s.phase ≠ .idle then none
    else some ((s.setArgs (clearArgs s.argRetrieved)).setPhase (.cleared buf nbytes))
  | .advance => s.advance.map Prod.snd

/-- If the event is a read, it stores in its caller's own page. -/
def OwnReads : ArgEvent → Prop
  | .sys e => s.machine.OwnReads img e
  | _ => True

/-- After boot no call is pending, and `arg_retrieved` is zero. -/
def Booted : Prop :=
  s.machine.Booted ∧ s.argRetrieved = (fun _ => 0) ∧ s.pending = fun _ => .idle

end ArgMachine

/-! ## `user_buf` -/

namespace Kernel

theorem FdSteps.userBuf {k k' : Kernel} (h : FdSteps k k') (p : Word) :
    (k'.proc.pcb p).userBuf = (k.proc.pcb p).userBuf := by
  induction h with
  | refl => rfl
  | @set k' _ fd e ih =>
    rw [← ih]
    unfold setCurFd setFd
    split
    · rfl
    · rfl
    · exact update_pcb Pcb.userBuf (by rfl) p
  | other _ hp _ _ ih => rw [hp, ih]

/-- The copy of a command is terminated exactly if it is shorter than the buffer. -/
theorem isSome_strlen_strncpy_iff (dest : ℕ → Byte) (command : CString) :
    (strlen usrBufSize (strncpy dest command usrBufSize)).isSome ↔ command.strlen ≤ 1023 := by
  have hholds : Holds (strncpy dest command usrBufSize) usrBufSize command.chars :=
    fun i hi => if_pos hi
  have hsize : usrBufSize = 1024 := rfl
  rw [hholds.isSome_strlen_iff command.nul, CString.strlen]
  omega

/-- The PCB `execute` takes, where it comes to starting a process. -/
def takenPcb (img : Image) (frame : ExecFrame) (command : CString) (k : Kernel) : Option Word :=
  match img.readDentryByName (commandName command) with
  | none => none
  | some dent =>
    if !magicOk frame.magic (img.readData dent.inode 0 4).2 then none else k.getAvailPcb

theorem takenPcb_eq {img : Image} {frame : ExecFrame} {command : CString} {k k' : Kernel}
    {pid target : Word} (h : k.execute img frame command = some (.iret pid target, k')) :
    k.takenPcb img frame command = some pid := by
  have havail : (k.setInterruptFlag false).getAvailPcb = k.getAvailPcb := rfl
  unfold execute at h
  unfold takenPcb
  cases hd : img.readDentryByName (commandName command) with
  | none => simp [hd] at h
  | some dent =>
    simp only [hd, havail] at h ⊢
    cases hmagic : magicOk frame.magic (img.readData dent.inode 0 4).2 with
    | false => simp [hmagic] at h
    | true =>
      simp only [hmagic, Bool.not_true, Bool.false_eq_true, if_false] at h ⊢
      cases hidx : k.getAvailPcb with
      | none => simp [hidx] at h
      | some idx =>
        simp only [hidx] at h
        split_ifs at h
        · -- a load that faults does not leave by the `iret`
          obtain ⟨_, -, hres⟩ := Option.map_eq_some_iff.1 h
          exact ExecResult.noConfusion (Prod.mk.inj hres).1
        · obtain ⟨hres, -⟩ := Prod.mk.inj (Option.some.inj h)
          exact congrArg some (ExecResult.iret.inj hres).1

end Kernel

namespace Machine

variable {img : Image} {m m' : Machine}

theorem ExitCall.userBuf {k k' : Kernel} {e : Event} {r : Option (Kernel.Frame × Kernel)}
    (h : ExitCall k e r) {frame : Kernel.Frame} (hr : r = some (frame, k')) (p : Word) :
    (k'.proc.pcb p).userBuf = (k.proc.pcb p).userBuf := by
  -- after the closes the PCB is freed, and the contexts are restored
  have hfree : ∀ {c k₁ : Kernel} {pcb : Word → Pcb} (q : Word), c.closeAll = some k₁ →
      c.proc.pcb = k.proc.pcb →
      pcb = Function.update k₁.proc.pcb q { k₁.proc.pcb q with use := 0 } →
      (pcb p).userBuf = (k.proc.pcb p).userBuf := by
    intro c k₁ pcb q hclose hc hpcb
    rw [hpcb, ← hc, ← (Kernel.fdSteps_closeAll hclose).userBuf p]
    exact Kernel.update_pcb Pcb.userBuf (by rfl) p
  cases h with
  | halt status =>
    simp only [Kernel.halt] at hr
    obtain ⟨k₁, hclose, hk⟩ := Option.map_eq_some_iff.1 hr
    obtain ⟨-, rfl⟩ := Prod.mk.inj hk
    exact hfree k.cur.curPid hclose (by rfl) (by rfl)
  | haltException =>
    simp only [Kernel.haltException] at hr
    obtain ⟨k₁, hclose, hk⟩ := Option.map_eq_some_iff.1 hr
    obtain ⟨-, rfl⟩ := Prod.mk.inj hk
    exact hfree k.cur.curPid hclose (by rfl) (by rfl)

/-- Only `execute` stores a `user_buf`, that of the process it starts. -/
theorem userBuf_step {e : Event} (hstep : m.step img e = some m') (p : Word) :
    (m'.kernel.proc.pcb p).userBuf = (m.kernel.proc.pcb p).userBuf ∨
      ∃ frame command target k, e = .execute frame command ∧
        m.kernel.execute img frame command = some (.iret p target, k) ∧
        m.kernel.Starts frame command p k ∧ m'.kernel = k := by
  cases step_cases hstep with
  | fail _ => exact Or.inl rfl
  | @start frame command pid target k hexec hs =>
    rcases eq_or_ne p pid with rfl | hne
    · exact Or.inr ⟨frame, command, target, k, rfl, hexec, hs, rfl⟩
    · exact Or.inl (congrArg Pcb.userBuf (hs.pcb_of_ne hne))
  | exit hcall hm' =>
    obtain ⟨frame, k, hk, -, hres⟩ := exit_eq_some hm'
    rw [resume_kernel hres]
    exact Or.inl (hcall.userBuf hk p)
  | fdCall _ hcall => exact Or.inl (hcall.fdSteps.userBuf p)
  | vidmap _ =>
    refine Or.inl ?_
    simp only [withKernel, Kernel.vidmap]
    split_ifs
    · rfl
    · rfl
    · exact Kernel.update_pcb Pcb.userBuf (by rfl) p
  | switch frame => exact Or.inl (by rw [withKernel, Kernel.interruptPit_pcb])
  | quiet hq => exact Or.inl (congrArg (fun proc => (proc.pcb p).userBuf) hq.proc)

/-- A process is live after a step only if it was before, or the step is the `execute` that
starts it. -/
theorem mem_live_step {e : Event} (h : m.Coherent) (hstep : m.step img e = some m') {p : Word}
    (hp : p ∈ m'.live) :
    p ∈ m.live ∨ ∃ frame command target k, e = .execute frame command ∧
      m.kernel.execute img frame command = some (.iret p target, k) ∧
      m.kernel.Starts frame command p k ∧ m'.kernel = k := by
  cases step_cases hstep with
  | fail _ => exact Or.inl hp
  | @start frame command pid target k hexec hs =>
    rcases eq_or_ne p pid with rfl | hne
    · exact Or.inr ⟨frame, command, target, k, rfl, hexec, hs, rfl⟩
    · exact Or.inl ((mem_live_enter hp).resolve_left hne)
  | exit hcall hm' => exact Or.inl (h.live_exit (fun _ _ => hcall.exits) hm' hp).1
  | fdCall _ _ => exact Or.inl hp
  | vidmap _ =>
    rw [live_withKernel] at hp
    exact Or.inl hp
  | switch frame =>
    rw [live_withKernel] at hp
    exact Or.inl hp
  | quiet _ => exact Or.inl hp

end Machine

/-! ## The invariant -/

namespace ArgMachine

variable {img : Image} {s s' : ArgMachine}

@[simp] theorem setPhase_machine (next : Pending) : (s.setPhase next).machine = s.machine := by
  unfold setPhase
  split
  · rfl
  · rfl

@[simp] theorem setPhase_argRetrieved (next : Pending) :
    (s.setPhase next).argRetrieved = s.argRetrieved := by
  unfold setPhase
  split
  · rfl
  · rfl

theorem setUserBuf_self : s.setUserBuf s.userBuf = s := by
  simp only [setUserBuf, userBuf, Kernel.modifyPcb, Function.update_eq_self]
  rfl

/-- The process that is in a call runs. -/
theorem exists_running (hp : s.phase ≠ .idle) : ∃ p, s.machine.running = some p := by
  unfold phase at hp
  cases hr : s.machine.running with
  | none => exact absurd (by rw [hr]) hp
  | some p => exact ⟨p, rfl⟩

/-- The parse of a terminated command, -/
theorem advance_of_cleared {buf : Word} {nbytes : ℤ} (hp : s.phase = .cleared buf nbytes)
    {len : ℕ} (hlen : strlen Kernel.usrBufSize s.userBuf = some len) :
    s.advance = some (if buf = 0 ∨ nbytes = 0 then (some (-1, []), s.setPhase .idle)
      else (none, (s.setArgs (fill s.argRetrieved (argsOf (string s.userBuf len)))).setPhase
        (.parsed nbytes))) := by
  simp only [advance, hp, parsePhase_eq hlen, Option.map_some]
  split_ifs
  · rw [setUserBuf_self]
  · rw [setUserBuf_self]

/-- and the copy of terminated arguments. -/
theorem advance_of_parsed {nbytes : ℤ} (hp : s.phase = .parsed nbytes) {len : ℕ}
    (hlen : strlen Kernel.usrBufSize s.argRetrieved = some len) :
    s.advance = some (some (argsResult nbytes (string s.argRetrieved len)), s.setPhase .idle) := by
  simp only [advance, hp, copyPhase_eq hlen, Option.map_some]

/-- It is that of the running process. -/
theorem userBuf_eq (h : s.machine.Coherent) {p : Word} (hp : s.machine.running = some p) :
    s.userBuf = (s.machine.kernel.proc.pcb p).userBuf := by
  rw [userBuf, (h.installed hp).curPid]

/-- What `getargs` relies on : the commands of the live processes and the arguments in
`arg_retrieved` are terminated. -/
structure Terminated (s : ArgMachine) : Prop where
  coherent : s.machine.Coherent
  userBuf : ∀ p ∈ s.machine.live,
    (strlen Kernel.usrBufSize (s.machine.kernel.proc.pcb p).userBuf).isSome
  args : s.argRetrieved 1023 = 0

namespace Terminated

theorem congr (h : s.Terminated) (hm : s'.machine = s.machine) (ha : s'.argRetrieved 1023 = 0) :
    s'.Terminated := by
  refine ⟨?_, ?_, ha⟩
  · rw [hm]
    exact h.coherent
  · rw [hm]
    exact h.userBuf

theorem setPhase (h : s.Terminated) (next : Pending) : (s.setPhase next).Terminated :=
  h.congr (by simp) (by simpa using h.args)

theorem exists_strlen_userBuf (h : s.Terminated) {p : Word} (hp : s.machine.running = some p) :
    ∃ len, strlen Kernel.usrBufSize s.userBuf = some len := by
  rw [userBuf_eq h.coherent hp]
  exact Option.isSome_iff_exists.1 (h.userBuf p (h.coherent.running_mem hp))

theorem exists_strlen_args (h : s.Terminated) :
    ∃ len, strlen Kernel.usrBufSize s.argRetrieved = some len :=
  Option.isSome_iff_exists.1 (isSome_strlen_iff.2 ⟨1023, by decide, h.args⟩)

/-- The parse. -/
theorem advance_cleared (h : s.Terminated) {buf : Word} {nbytes : ℤ}
    (hp : s.phase = .cleared buf nbytes) :
    ∃ len, strlen Kernel.usrBufSize s.userBuf = some len ∧
      s.advance = some (if buf = 0 ∨ nbytes = 0 then (some (-1, []), s.setPhase .idle)
        else (none, (s.setArgs (fill s.argRetrieved (argsOf (string s.userBuf len)))).setPhase
          (.parsed nbytes))) := by
  obtain ⟨p, hrun⟩ := exists_running (by rw [hp]; exact Pending.noConfusion)
  obtain ⟨len, hlen⟩ := h.exists_strlen_userBuf hrun
  exact ⟨len, hlen, advance_of_cleared hp hlen⟩

/-- The copy. -/
theorem advance_parsed (h : s.Terminated) {nbytes : ℤ} (hp : s.phase = .parsed nbytes) :
    ∃ len, strlen Kernel.usrBufSize s.argRetrieved = some len ∧
      s.advance =
        some (some (argsResult nbytes (string s.argRetrieved len)), s.setPhase .idle) := by
  obtain ⟨len, hlen⟩ := h.exists_strlen_args
  exact ⟨len, hlen, advance_of_parsed hp hlen⟩

/-- The phases of `getargs` keep the invariant. -/
theorem advance (h : s.Terminated) {r : Option (ℤ × List Byte) × ArgMachine}
    (hr : s.advance = some r) : r.2.Terminated := by
  cases hphase : s.phase with
  | idle => simp [ArgMachine.advance, hphase] at hr
  | cleared buf nbytes =>
    obtain ⟨len, hlen, heq⟩ := h.advance_cleared hphase
    obtain rfl := Option.some.inj (heq.symm.trans hr)
    split_ifs
    · exact h.setPhase _
    · -- the arguments fit below the last byte
      have hle := (argsOf_suffix (string s.userBuf len)).length_le
      have hlt : len < 1024 := (strlen_eq_some_iff.1 hlen).1
      rw [length_string] at hle
      have hargs : (s.setArgs (fill s.argRetrieved (argsOf (string s.userBuf len)))).Terminated :=
        h.congr rfl ((fill_of_le (by omega)).trans h.args)
      exact hargs.setPhase _
  | parsed nbytes =>
    obtain ⟨len, -, heq⟩ := h.advance_parsed hphase
    obtain rfl := Option.some.inj (heq.symm.trans hr)
    exact h.setPhase _

end Terminated

/-! ## The runs that stay within the buffers -/

/-- An event stays within the buffers. The parse of a command leaves `fname` terminated, the
copy of the command leaves `user_buf` terminated, and a phase of `getargs` completes. -/
def InBounds (img : Image) (s : ArgMachine) : ArgEvent → Prop
  | .sys (.execute frame command) =>
    s.phase = .idle → NameKept command ∧
      ∀ pid, s.machine.kernel.takenPcb img frame command = some pid →
        (strlen Kernel.usrBufSize
          ((s.machine.kernel.startProcess command pid).proc.pcb pid).userBuf).isSome
  | .advance => s.phase ≠ .idle → s.advance.isSome
  | _ => True

/-- A command fits the buffers : its first word has 127 characters at most, and it has 1023 at
most if it starts a process. -/
def CommandFits (img : Image) (s : ArgMachine) : ArgEvent → Prop
  | .sys (.execute frame command) =>
    s.phase = .idle → (firstWord command.chars).length ≤ 127 ∧
      (s.machine.kernel.takenPcb img frame command ≠ none → command.strlen ≤ 1023)
  | _ => True

/-- A step of the machine under the condition keeps the commands terminated. -/
theorem Terminated.sys (h : s.Terminated) {e : Event} (hidle : s.phase = .idle ∨ e.interrupts)
    (hc : s.CommandFits img (.sys e)) {m : Machine} (hstep : s.machine.step img e = some m) :
    ∀ p ∈ m.live, (strlen Kernel.usrBufSize (m.kernel.proc.pcb p).userBuf).isSome := by
  intro p hp
  have hstart : ∀ frame command target k, e = .execute frame command →
      s.machine.kernel.execute img frame command = some (.iret p target, k) →
      s.machine.kernel.Starts frame command p k → m.kernel = k →
      (strlen Kernel.usrBufSize (m.kernel.proc.pcb p).userBuf).isSome := by
    rintro frame command target k rfl hexec hs rfl
    obtain ⟨-, hfits⟩ := hc (hidle.resolve_right Bool.false_ne_true)
    rw [hs.pcb_self]
    refine (Kernel.isSome_strlen_strncpy_iff _ command).2 (hfits ?_)
    rw [Kernel.takenPcb_eq hexec]
    exact Option.some_ne_none p
  rcases Machine.mem_live_step h.coherent hstep hp with hlive | ⟨f, c, t, k, he, hexec, hs, hm⟩
  · rcases Machine.userBuf_step hstep p with hsame | ⟨f, c, t, k, he, hexec, hs, hm⟩
    · rw [hsame]
      exact h.userBuf p hlive
    · exact hstart f c t k he hexec hs hm
  · exact hstart f c t k he hexec hs hm

theorem setMachine_eq (e : Event) (m : Machine) :
    (s.setMachine e m).machine = m ∧ (s.setMachine e m).argRetrieved = s.argRetrieved := by
  unfold setMachine
  split
  · exact ⟨rfl, setPhase_argRetrieved _⟩
  · exact ⟨rfl, rfl⟩

theorem sys_eq_some {e : Event} (h : s.step img (.sys e) = some s') :
    ∃ m, s.machine.step img e = some m ∧ s' = s.setMachine e m := by
  simp only [step] at h
  split_ifs at h
  obtain ⟨m, hm, rfl⟩ := Option.map_eq_some_iff.1 h
  exact ⟨m, hm, rfl⟩

/-- Every step under the condition keeps the invariant. -/
theorem terminated_step (h : s.Terminated) {e : ArgEvent} (hc : s.CommandFits img e)
    (hstep : s.step img e = some s') : s'.Terminated := by
  cases e with
  | sys e =>
    simp only [step] at hstep
    split_ifs at hstep with hidle
    obtain ⟨m, hm, rfl⟩ := Option.map_eq_some_iff.1 hstep
    obtain ⟨hmachine, hargs⟩ := s.setMachine_eq e m
    refine ⟨?_, ?_, ?_⟩
    · rw [hmachine]
      exact Machine.coherent_step h.coherent hm
    · rw [hmachine]
      refine h.sys ?_ hc hm
      by_contra hno
      exact hidle ⟨fun hp => hno (Or.inl hp), fun hi => hno (Or.inr hi)⟩
    · rw [hargs]
      exact h.args
  | getargs buf nbytes =>
    simp only [step] at hstep
    split_ifs at hstep
    obtain rfl := Option.some.inj hstep
    have hclear : (s.setArgs (clearArgs s.argRetrieved)).Terminated := h.congr rfl (by rfl)
    exact hclear.setPhase _
  | advance =>
    obtain ⟨r, hr, rfl⟩ := Option.map_eq_some_iff.1 hstep
    exact h.advance hr

theorem terminated_boot (h : s.Booted) : s.Terminated := by
  obtain ⟨hm, hargs, -⟩ := h
  refine ⟨Machine.coherent_boot hm, fun p hp => ?_, by rw [hargs]⟩
  obtain ⟨k, -, hk⟩ := hm
  obtain ⟨t, ht⟩ := Machine.mem_live.1 hp
  rw [hk] at ht
  exact absurd ht List.not_mem_nil

/-- The machine that boots from zero memory. -/
def first : ArgMachine :=
  ⟨Machine.first, fun _ => 0, fun _ => .idle⟩

theorem first_booted : first.Booted :=
  ⟨Machine.first_booted, rfl, rfl⟩

/-- A command of `n` letters. -/
def letters (n : ℕ) : CString :=
  ⟨List.replicate n 97, fun h => absurd (List.eq_of_mem_replicate h) (by decide)⟩

theorem step_sys (h : s.phase = .idle) {e : Event} {m : Machine}
    (hm : s.machine.step img e = some m) : s.step img (.sys e) = some (s.setMachine e m) := by
  simp only [step]
  rw [if_neg fun hp => hp.1 h, hm, Option.map_some]

end ArgMachine

end MpOS
